import YuzuOS.Library.Chain
import YuzuOS.Proofs.ExecveHeap

/-! The arrays of a new program and the copies that they point to. Each request for
room takes whole pages behind the last one, until the break leaves the user heap. -/

namespace YuzuOS.Proofs.ExecveCopies
open YuzuOS.Library YuzuOS.Kernel YuzuOS.Proofs.MemoryAreas YuzuOS.Proofs.UserPages YuzuOS.Proofs.UserBreak
open YuzuOS.Proofs.ExecveHeap

variable {process after : UserProcess} {vm array i copy brk brkStart increment len place start : Nat}
  {string : List (BitVec 8)} {strings : List (List (BitVec 8))} {memory : Memory}

def room (increment : Nat) : Nat := (increment + physMmBlock - 1) / physMmBlock * physMmBlock

def copiesRoom (strings : List (List (BitVec 8))) : Nat := (strings.map fun string => room (string.length + 1)).sum

def arrayRoom (strings : List (List (BitVec 8))) : Nat := room (strings.length + 1) + copiesRoom strings

theorem copiesRoom_cons : copiesRoom (string :: strings) = room (string.length + 1) + copiesRoom strings := rfl

theorem le_room : increment ≤ room increment := by
  unfold room physMmBlock
  omega

theorem page_le_room (positive : 0 < increment) : physMmBlock ≤ room increment := by
  unfold room physMmBlock
  omega

section Advancing

/-- The break has left the user heap, at its top or around the end of the memory. -/
def Over (process : UserProcess) : Prop := process.mm.brk = 0 ∨ heapUserTop < process.mm.brk

def Within (process : UserProcess) : Prop := process.brkStart ≤ process.mm.brk ∧ process.mm.brk ≤ heapUserTop

theorem nextBrk_within (onPage : OnPage brk) (above : brkStart ≤ brk) (below : brk ≤ heapUserTop)
    (small : increment ≤ heapUserTop) :
    nextBrk brkStart brk increment = brk + room increment := by
  have aligned := onPage.aligned
  unfold heapUserTop at below small
  have fits : (brk + increment) % 2 ^ 32 = brk + increment := Nat.mod_eq_of_lt (by omega)
  rw [nextBrk, fits, if_neg (by omega), pageAlign_eq (by unfold physMmBlock; omega), room]
  unfold physMmBlock at *
  omega

theorem pageAlign_zero_or_le (addr : Nat) (small : addr < 2 ^ 32) : pageAlign addr = 0 ∨ addr ≤ pageAlign addr := by
  rcases Nat.lt_or_ge (2 ^ 32) (addr + physMmBlock) with wraps | fits
  · left
    have turned : (addr + physMmBlock - 1) % 2 ^ 32 < physMmBlock := by
      unfold physMmBlock at *
      omega
    rw [pageAlign, alignUp, alignDown_page (Nat.mod_lt _ (by decide)), Nat.div_eq_of_lt turned, Nat.zero_mul]
  · exact .inr (pageAlign_bounds fits).1

/-- Once it has left the heap the break does not come back, as long as what is
stored behind it is in memory. -/
theorem nextBrk_over (past : brk = 0 ∨ heapUserTop < brk) (base : physMmBlock ≤ brkStart) (close : increment ≤ len + 1)
    (inside : brk + len ≤ 2 ^ 32) (null : brk = 0 → len = 0) :
    nextBrk brkStart brk increment = 0 ∨ heapUserTop < nextBrk brkStart brk increment := by
  unfold nextBrk
  split
  next => exact past
  next above =>
    have size : physMmBlock = 4096 := rfl
    have bound : (brk + increment) % 2 ^ 32 < 2 ^ 32 := Nat.mod_lt _ (by decide)
    rcases past with zero | high
    · have empty := null zero
      omega
    · rcases pageAlign_zero_or_le _ bound with zero | larger
      · exact .inl zero
      · refine .inr (Nat.lt_of_lt_of_le ?_ larger)
        omega

/-- The break goes up by an amount in the user heap, or is over. -/
def Advances (process after : UserProcess) (amount : Nat) : Prop :=
  Over after ∨ (Within process ∧ after.mm.brk = process.mm.brk + amount ∧ after.mm.brk ≤ heapUserTop)

theorem Advances.refl (state : Over process ∨ Within process) : Advances process process 0 :=
  state.imp_right fun within => ⟨within, rfl, within.2⟩

theorem Advances.state {amount : Nat} (advances : Advances process after amount) (keeps : Keeps process after vm) :
    Over after ∨ Within after := by
  refine advances.imp_right fun ⟨within, brk, below⟩ => ⟨?_, below⟩
  rw [keeps.brkStart, brk]
  exact within.1.trans (Nat.le_add_right _ _)

theorem Advances.trans {last : UserProcess} {first second : Nat} (one : Advances process after first)
    (more : Over after ∨ Within after → Advances after last second) (keeps : Keeps process after vm) :
    Advances process last (first + second) := by
  rcases more (one.state keeps) with above | ⟨within, brk, below⟩
  · exact .inl above
  · rcases one with above | ⟨before, moved, _⟩
    · rcases above with zero | high
      · have base := keeps.heap.positive
        have lower := within.1
        unfold physMmBlock at base
        omega
      · exact absurd within.2 (Nat.not_le.mpr high)
    · exact .inr ⟨before, by omega, below⟩

theorem block_advances (heap : Heap process vm) (state : Over process ∨ Within process)
    (small : increment ≤ heapUserTop) (asked : process.schedProcessSbrk increment = some (copy, after))
    (present : after.Present copy len) (close : increment ≤ len + 1) :
    copy = process.mm.brk ∧ Keeps process after vm ∧ Advances process after (room increment) := by
  obtain ⟨next, ran, keeps, brk, _⟩ := heap.sbrk increment
  rw [ran] at asked
  cases asked
  refine ⟨rfl, keeps, ?_⟩
  unfold Advances Over Within
  rw [brk]
  rcases state with above | within
  · left
    apply nextBrk_over above heap.positive close present.1
    intro zero
    by_contra filled
    have first := present.2 0 (Nat.pos_of_ne_zero filled)
    rw [zero] at first
    exact Bool.false_ne_true (keeps.heap.null.symm.trans first)
  · have moved := nextBrk_within heap.onPage within.1 within.2 small
    rw [moved]
    rcases Nat.lt_or_ge heapUserTop (process.mm.brk + room increment) with high | below
    · exact .inl (.inr high)
    · exact .inr ⟨within, rfl, below⟩

theorem store_some {address : Nat} {bytes : Nat → BitVec 8} (stored : process.store address len bytes = some after) :
    process.Present address len ∧ after = { process with memory := process.memory.write address len bytes } := by
  obtain ⟨present, same⟩ := Option.ite_none_right_eq_some.mp stored
  exact ⟨present, (Option.some.inj same).symm⟩

theorem strings_advances (heap : Heap process vm) (state : Over process ∨ Within process)
    (small : ∀ string ∈ strings, string.length + 1 ≤ heapUserTop)
    (ran : execveStrings array i strings process = some after) :
    Keeps process after vm ∧ Advances process after (copiesRoom strings) := by
  induction strings generalizing i process with
  | nil =>
    cases ran
    exact ⟨.refl heap, .refl state⟩
  | cons string rest ih =>
    obtain ⟨⟨copy, grown⟩, asked, ran⟩ := Option.bind_eq_some_iff.mp ran
    obtain ⟨pointed, entry, ran⟩ := Option.bind_eq_some_iff.mp ran
    obtain ⟨copied, bytes, onward⟩ := Option.bind_eq_some_iff.mp ran
    obtain ⟨_, rfl⟩ := store_some entry
    obtain ⟨present, same⟩ := store_some bytes
    obtain ⟨_, keeps, advances⟩ := block_advances heap state (small string List.mem_cons_self) asked present le_rfl
    have held : Heap copied vm := same ▸ keeps.heap.memory
    have next : Over copied ∨ Within copied := same ▸ advances.state keeps
    have later := ih held next (fun other member => small other (List.mem_cons_of_mem _ member)) onward
    subst same
    refine ⟨keeps.memory.trans later.1, ?_⟩
    rw [copiesRoom_cons]
    exact Advances.trans advances (fun _ => later.2) keeps

theorem array_advances (heap : Heap process vm) (state : Over process ∨ Within process)
    (few : strings.length + 1 ≤ heapUserTop) (small : ∀ string ∈ strings, string.length + 1 ≤ heapUserTop)
    (ran : execveArray strings process = some (array, after)) :
    array = process.mm.brk ∧ Keeps process after vm ∧ Advances process after (arrayRoom strings) := by
  obtain ⟨⟨place, grown⟩, asked, ran⟩ := Option.bind_eq_some_iff.mp ran
  obtain ⟨cleared, clearing, ran⟩ := Option.bind_eq_some_iff.mp ran
  obtain ⟨copied, copies, same⟩ := Option.map_eq_some_iff.mp ran
  cases same
  obtain ⟨present, same⟩ := store_some clearing
  obtain ⟨here, keeps, advances⟩ := block_advances heap state few asked present (Nat.le_succ _)
  have held : Heap cleared vm := same ▸ keeps.heap.memory
  have next : Over cleared ∨ Within cleared := same ▸ advances.state keeps
  have later := strings_advances held next small copies
  subst same
  exact ⟨here, keeps.memory.trans later.1, Advances.trans advances (fun _ => later.2) keeps⟩

end Advancing

section Copying

/-- What the copies of the strings make of the memory of the heap, with the first
one at `copy`. -/
def copyStrings (array : Nat) : Nat → Nat → List (List (BitVec 8)) → Memory → Memory
  | _, _, [], memory => memory
  | i, copy, string :: rest, memory =>
    copyStrings array (i + 1) (copy + room (string.length + 1)) rest
      ((memory.write (array + 4 * i) 4 (Memory.wordByte copy)).write copy string.length fun j => string.getD j 0)

def copyArray (array : Nat) (strings : List (List (BitVec 8))) (memory : Memory) : Memory :=
  copyStrings array 0 (array + room (strings.length + 1)) strings (memory.write array (strings.length + 1) fun _ => 0)

theorem strings_copied (heap : Heap process vm) (above : process.brkStart ≤ process.mm.brk)
    (fits : process.mm.brk + copiesRoom strings ≤ heapUserTop) (lower : process.brkStart ≤ array)
    (front : array + 4 * i ≤ process.mm.brk) :
    ∃ after, execveStrings array i strings process = some after ∧ Keeps process after vm ∧
      after.mm.brk = process.mm.brk + copiesRoom strings ∧
      heapMemory after vm = copyStrings array i process.mm.brk strings (heapMemory process vm) := by
  induction strings generalizing i process with
  | nil => exact ⟨process, rfl, .refl heap, rfl, rfl⟩
  | cons string rest ih =>
    rw [copiesRoom_cons] at fits
    have enough : string.length + 1 ≤ room (string.length + 1) := le_room
    have page : physMmBlock ≤ room (string.length + 1) := page_le_room (Nat.succ_pos _)
    have size : physMmBlock = 4096 := rfl
    obtain ⟨grown, asked, keeps, brk, memory⟩ := heap.sbrk (string.length + 1)
    rw [nextBrk_within heap.onPage above (by omega) (by omega)] at brk
    have reached := keeps.heap.reached
    have base := keeps.brkStart
    obtain ⟨pointed, entry, first, same, written⟩ := keeps.heap.store (Memory.wordByte process.mm.brk)
      (show grown.brkStart ≤ array + 4 * i by omega) (show array + 4 * i + 4 ≤ (grown.mm.vms vm).stop by omega)
    have kept := first.brkStart
    obtain ⟨copied, bytes, second, again, filled⟩ := first.heap.store (fun j => string.getD j 0)
      (show pointed.brkStart ≤ process.mm.brk by omega)
      (show process.mm.brk + string.length ≤ (pointed.mm.vms vm).stop by rw [same]; omega)
    have mm : copied.mm = grown.mm := again.trans same
    have all := (keeps.trans first).trans second
    have start := all.brkStart
    have next : copied.mm.brk = process.mm.brk + room (string.length + 1) := by rw [mm, brk]
    obtain ⟨after, ran, later, moved, content⟩ := ih all.heap (show copied.brkStart ≤ copied.mm.brk by omega) (by omega) (by omega)
      (show array + 4 * (i + 1) ≤ copied.mm.brk by omega)
    refine ⟨after, ?_, all.trans later, by rw [copiesRoom_cons]; omega, ?_⟩
    · simp only [execveStrings, asked, Option.bind_some, UserProcess.store32, entry, bytes]
      exact ran
    · rw [content, filled, written, memory, next]
      rfl

theorem array_copied (heap : Heap process vm) (above : process.brkStart ≤ process.mm.brk)
    (fits : process.mm.brk + arrayRoom strings ≤ heapUserTop) :
    ∃ after, execveArray strings process = some (process.mm.brk, after) ∧ Keeps process after vm ∧
      after.mm.brk = process.mm.brk + arrayRoom strings ∧
      heapMemory after vm = copyArray process.mm.brk strings (heapMemory process vm) := by
  unfold arrayRoom at fits
  have enough : strings.length + 1 ≤ room (strings.length + 1) := le_room
  obtain ⟨grown, asked, keeps, brk, memory⟩ := heap.sbrk (strings.length + 1)
  rw [nextBrk_within heap.onPage above (by omega) (by omega)] at brk
  have reached := keeps.heap.reached
  have base := keeps.brkStart
  obtain ⟨cleared, zeros, first, same, written⟩ := keeps.heap.store (fun _ => 0)
    (show grown.brkStart ≤ process.mm.brk by omega)
    (show process.mm.brk + (strings.length + 1) ≤ (grown.mm.vms vm).stop by omega)
  have both := keeps.trans first
  have start := both.brkStart
  have next : cleared.mm.brk = process.mm.brk + room (strings.length + 1) := by rw [same, brk]
  obtain ⟨after, ran, later, moved, content⟩ := strings_copied both.heap (show cleared.brkStart ≤ cleared.mm.brk by omega)
    (show cleared.mm.brk + copiesRoom strings ≤ heapUserTop by omega) (show cleared.brkStart ≤ process.mm.brk by omega)
    (show process.mm.brk + 4 * 0 ≤ cleared.mm.brk by omega)
  refine ⟨after, ?_, both.trans later, by unfold arrayRoom; omega, ?_⟩
  · simp only [execveArray, asked, Option.bind_some, zeros, ran, Option.map_some]
  · rw [content, written, memory, next]
    rfl

end Copying

section Reading

/-- The entries from an address on point to copies of the strings, and `NULL` is behind them. -/
def Copied (memory : Memory) : Nat → List (List (BitVec 8)) → Prop
  | entry, [] => memory.load32 entry = 0
  | entry, string :: rest => memory.Holds (memory.load32 entry) (string ++ [0]) ∧ Copied memory (entry + 4) rest

/-- The copies that the entries point to, with their terminators. -/
def copyBlocks (memory : Memory) : Nat → List (List (BitVec 8)) → List (Nat × Nat)
  | _, [] => []
  | entry, string :: rest => (memory.load32 entry, string.length + 1) :: copyBlocks memory (entry + 4) rest

def blocks (memory : Memory) (array : Nat) (strings : List (List (BitVec 8))) : List (Nat × Nat) :=
  (array, 4 * (strings.length + 1)) :: copyBlocks memory array strings

def terminators : Nat → List (List (BitVec 8)) → List Nat
  | _, [] => []
  | copy, string :: rest => (copy + string.length) :: terminators (copy + room (string.length + 1)) rest

variable {limit : Nat}

theorem copyStrings_front (front : place < copy)
    (apart : place < array + 4 * i ∨ array + 4 * (i + strings.length) ≤ place) :
    copyStrings array i copy strings memory place = memory place := by
  induction strings generalizing i copy memory with
  | nil => rfl
  | cons string rest ih =>
    rw [List.length_cons] at apart
    rw [copyStrings, ih (by omega) (by omega), Memory.write_outside (.inl front), Memory.write_outside (by omega)]

theorem copyStrings_entry (fits : array + 4 * i + 4 ≤ copy) (small : copy < 2 ^ 32) :
    (copyStrings array i copy (string :: strings) memory).load32 (array + 4 * i) = copy := by
  rw [copyStrings]
  have kept : ∀ j < 4, copyStrings array (i + 1) (copy + room (string.length + 1)) strings
      ((memory.write (array + 4 * i) 4 (Memory.wordByte copy)).write copy string.length fun j => string.getD j 0)
        (array + 4 * i + j) = memory.store32 (array + 4 * i) copy (array + 4 * i + j) := by
    intro j bound
    rw [copyStrings_front (by omega) (by omega), Memory.write_outside (.inl (by omega))]
    rfl
  rw [Memory.load32_congr kept, Memory.load32_store32 small]

theorem terminators_behind (member : place ∈ terminators copy strings) : copy ≤ place := by
  induction strings generalizing copy with
  | nil => cases member
  | cons string rest ih =>
    cases member with
    | head => exact Nat.le_add_right _ _
    | tail _ member => exact (Nat.le_add_right _ _).trans (ih member)

theorem holds_terminated :
    memory.Holds place (string ++ [0]) ↔ memory.Holds place string ∧ memory (place + string.length) = 0 := by
  rw [Memory.holds_append]
  simp only [Memory.Holds, and_true]

theorem copyStrings_copied (fits : array + 4 * (i + strings.length) + 4 ≤ copy)
    (small : copy + copiesRoom strings < 2 ^ 32) :
    Copied (copyStrings array i copy strings memory) (array + 4 * i) strings ↔
      memory.load32 (array + 4 * (i + strings.length)) = 0 ∧ ∀ place ∈ terminators copy strings, memory place = 0 := by
  induction strings generalizing i copy memory with
  | nil => simp [copyStrings, Copied, terminators]
  | cons string rest ih =>
    rw [List.length_cons] at fits
    rw [copiesRoom_cons] at small
    have enough : string.length + 1 ≤ room (string.length + 1) := le_room
    have entry : (copyStrings array i copy (string :: rest) memory).load32 (array + 4 * i) = copy :=
      copyStrings_entry (by omega) (by omega)
    have next : array + 4 * i + 4 = array + 4 * (i + 1) := by omega
    have last : i + 1 + rest.length = i + (rest.length + 1) := by omega
    rw [Copied, entry, holds_terminated, next, copyStrings, ih (by omega) (by omega), last, List.length_cons, terminators,
      List.forall_mem_cons]
    obtain ⟨first, shape⟩ : ∃ first : Memory, first =
      (memory.write (array + 4 * i) 4 (Memory.wordByte copy)).write copy string.length fun j => string.getD j 0 := ⟨_, rfl⟩
    rw [← shape]
    have kept (place : Nat) (behind : array + 4 * (i + 1) ≤ place) (apart : place < copy ∨ copy + string.length ≤ place) :
        first place = memory place := by
      rw [shape, Memory.write_outside apart, Memory.write_outside (by omega)]
    have front (place : Nat) (lower : copy ≤ place) (upper : place < copy + room (string.length + 1)) :
        copyStrings array (i + 1) (copy + room (string.length + 1)) rest first place = first place :=
      copyStrings_front upper (by omega)
    have copied : (copyStrings array (i + 1) (copy + room (string.length + 1)) rest first).Holds copy string := by
      refine Memory.holds_of_get fun j bound => ?_
      rw [front _ (by omega) (by omega), shape, Memory.write_inside (by omega) (by omega), Nat.add_sub_cancel_left,
        List.getD_eq_getElem _ _ bound]
    have null : first.load32 (array + 4 * (i + (rest.length + 1))) = memory.load32 (array + 4 * (i + (rest.length + 1))) :=
      Memory.load32_congr fun j bound => kept _ (by omega) (by omega)
    have later : (∀ place ∈ terminators (copy + room (string.length + 1)) rest, first place = 0) ↔
        ∀ place ∈ terminators (copy + room (string.length + 1)) rest, memory place = 0 := by
      refine forall₂_congr fun place member => ?_
      have behind := terminators_behind member
      rw [kept place (by omega) (by omega)]
    rw [front _ (by omega) (by omega), kept (copy + string.length) (by omega) (by omega), null, later]
    simp only [copied, true_and]
    exact and_left_comm

theorem copyBlocks_tile (fits : array + 4 * (i + strings.length) ≤ copy) (small : copy + copiesRoom strings < 2 ^ 32) :
    Tiles Prod.fst (fun block => room block.2) copy
      (copyBlocks (copyStrings array i copy strings memory) (array + 4 * i) strings) (copy + copiesRoom strings) := by
  induction strings generalizing i copy memory with
  | nil => rfl
  | cons string rest ih =>
    rw [List.length_cons] at fits
    rw [copiesRoom_cons, ← Nat.add_assoc] at small ⊢
    have entry : (copyStrings array i copy (string :: rest) memory).load32 (array + 4 * i) = copy :=
      copyStrings_entry (by omega) (by omega)
    have next : array + 4 * i + 4 = array + 4 * (i + 1) := by omega
    rw [copyBlocks, entry, next, tiles_cons]
    exact ⟨rfl, ih (by omega) small⟩

theorem copyStrings_behind (behind : copy + copiesRoom strings ≤ place)
    (fits : array + 4 * (i + strings.length) ≤ copy) :
    copyStrings array i copy strings memory place = memory place := by
  induction strings generalizing i copy memory with
  | nil => rfl
  | cons string rest ih =>
    rw [List.length_cons] at fits
    rw [copiesRoom_cons] at behind
    have enough : string.length + 1 ≤ room (string.length + 1) := le_room
    rw [copyStrings, ih (by omega) (by omega), Memory.write_outside (.inr (by omega)), Memory.write_outside (.inr (by omega))]

theorem copied_congr {other : Memory} {entry : Nat} (same : ∀ place < limit, other place = memory place)
    (entries : entry + 4 * (strings.length + 1) ≤ limit)
    (inside : ∀ block ∈ copyBlocks memory entry strings, block.1 + block.2 ≤ limit) :
    (Copied other entry strings ↔ Copied memory entry strings) ∧
      copyBlocks other entry strings = copyBlocks memory entry strings := by
  induction strings generalizing entry with
  | nil =>
    have word : other.load32 entry = memory.load32 entry :=
      Memory.load32_congr fun j bound => same _ (by simp only [List.length_nil] at entries; omega)
    simp only [Copied, word, copyBlocks, and_self]
  | cons string rest ih =>
    rw [List.length_cons] at entries
    obtain ⟨first, others⟩ := List.forall_mem_cons.mp inside
    have word : other.load32 entry = memory.load32 entry := Memory.load32_congr fun j bound => same _ (by omega)
    have holds : other.Holds (memory.load32 entry) (string ++ [0]) ↔ memory.Holds (memory.load32 entry) (string ++ [0]) := by
      have bytes (place : Nat) (upper : place < memory.load32 entry + (string ++ [0]).length) : other place = memory place := by
        refine same place (upper.trans_le ?_)
        rw [List.length_append]
        exact first
      exact ⟨fun held => held.congr fun place _ upper => (bytes place upper).symm,
        fun held => held.congr fun place _ upper => bytes place upper⟩
    obtain ⟨later, tail⟩ := ih (by omega) others
    simp only [Copied, copyBlocks, word, holds, later, tail, and_self]

end Reading

section Arrays

/-- The array's `NULL` is cleared only as far as the bytes of its length reach, and
the terminators are not written at all. -/
def unwritten (array : Nat) (strings : List (List (BitVec 8))) : List Nat :=
  ((List.range 4).map fun j => array + 4 * strings.length + j).filter (array + strings.length < ·) ++
    terminators (array + room (strings.length + 1)) strings

theorem unwritten_behind (member : place ∈ unwritten array strings) : array ≤ place := by
  rcases List.mem_append.mp member with null | terminator
  · have above := of_decide_eq_true (List.mem_filter.mp null).2
    omega
  · exact (Nat.le_add_right _ _).trans (terminators_behind terminator)

theorem load32_eq_zero : memory.load32 place = 0 ↔ ∀ j < 4, memory (place + j) = 0 := by
  have byte (j : Nat) : memory (place + j) = 0 ↔ (memory (place + j)).toNat = 0 := by
    rw [← BitVec.toNat_inj]
    rfl
  have words : (∀ j < 4, memory (place + j) = 0) ↔
      memory place = 0 ∧ memory (place + 1) = 0 ∧ memory (place + 2) = 0 ∧ memory (place + 3) = 0 := by
    refine ⟨fun all => ⟨all 0 (by decide), all 1 (by decide), all 2 (by decide), all 3 (by decide)⟩, ?_⟩
    rintro ⟨first, second, third, fourth⟩ j bound
    match j, bound with
    | 0, _ => exact first
    | 1, _ => exact second
    | 2, _ => exact third
    | 3, _ => exact fourth
  rw [words, byte 1, byte 2, byte 3, show memory place = 0 ↔ (memory place).toNat = 0 from byte 0, Memory.load32]
  omega

theorem copyArray_copied (few : strings.length < 1024) (small : array + arrayRoom strings < 2 ^ 32) :
    Copied (copyArray array strings memory) array strings ↔ ∀ place ∈ unwritten array strings, memory place = 0 := by
  have page : physMmBlock ≤ room (strings.length + 1) := page_le_room (Nat.succ_pos _)
  have size : physMmBlock = 4096 := rfl
  unfold arrayRoom at small
  obtain ⟨cleared, shape⟩ : ∃ cleared : Memory, cleared = memory.write array (strings.length + 1) fun _ => 0 := ⟨_, rfl⟩
  have copied : Copied (copyStrings array 0 (array + room (strings.length + 1)) strings cleared) array strings ↔
      cleared.load32 (array + 4 * (0 + strings.length)) = 0 ∧
        ∀ place ∈ terminators (array + room (strings.length + 1)) strings, cleared place = 0 :=
    copyStrings_copied (by omega) (by omega)
  have behind (place : Nat) (above : array + strings.length < place) : cleared place = memory place := by
    rw [shape, Memory.write_outside (by omega)]
  have null : cleared.load32 (array + 4 * (0 + strings.length)) = 0 ↔
      ∀ place ∈ ((List.range 4).map fun j => array + 4 * strings.length + j).filter (array + strings.length < ·), memory place = 0 := by
    rw [Nat.zero_add, load32_eq_zero]
    simp only [List.mem_filter, List.mem_map, List.mem_range, decide_eq_true_eq]
    constructor
    · rintro zero _ ⟨⟨j, bound, rfl⟩, above⟩
      exact (behind _ above).symm.trans (zero j bound)
    · intro zero j bound
      rcases Nat.lt_or_ge (array + strings.length) (array + 4 * strings.length + j) with above | inside
      · exact (behind _ above).trans (zero _ ⟨⟨j, bound, rfl⟩, above⟩)
      · rw [shape, Memory.write_inside (by omega) (by omega)]
  have ends : (∀ place ∈ terminators (array + room (strings.length + 1)) strings, cleared place = 0) ↔
      ∀ place ∈ terminators (array + room (strings.length + 1)) strings, memory place = 0 := by
    refine forall₂_congr fun place member => ?_
    have lower := terminators_behind member
    rw [behind place (by omega)]
  rw [copyArray, ← shape, copied, null, ends, unwritten, List.forall_mem_append]

theorem rooms_inside {pairs : List (Nat × Nat)} {stop : Nat}
    (tiled : Tiles Prod.fst (fun block => room block.2) start pairs stop) {block : Nat × Nat} (member : block ∈ pairs) :
    start ≤ block.1 ∧ block.1 + block.2 ≤ stop := by
  obtain ⟨lower, upper⟩ := tiled.bounds member
  have enough : block.2 ≤ room block.2 := le_room
  exact ⟨lower, by omega⟩

/-- A page holds the array, so that array and copies have their rooms end to end. -/
theorem copyArray_tiles (few : strings.length < 1024) (small : array + arrayRoom strings < 2 ^ 32) :
    Tiles Prod.fst (fun block => room block.2) array (blocks (copyArray array strings memory) array strings)
      (array + arrayRoom strings) := by
  have page : physMmBlock ≤ room (strings.length + 1) := page_le_room (Nat.succ_pos _)
  have size : physMmBlock = 4096 := rfl
  have same : room (4 * (strings.length + 1)) = room (strings.length + 1) := by
    unfold room physMmBlock
    omega
  unfold arrayRoom at small ⊢
  rw [← Nat.add_assoc] at small ⊢
  refine tiles_cons.mpr ⟨rfl, ?_⟩
  simp only [same]
  exact copyBlocks_tile (show array + 4 * (0 + strings.length) ≤ array + room (strings.length + 1) by omega) small

/-- The first copy of an array that is longer than a page lies in the array. -/
theorem copyArray_many (many : 1024 ≤ strings.length) (small : array + arrayRoom strings < 2 ^ 32) :
    (copyArray array strings memory).load32 array = array + room (strings.length + 1) ∧
      room (strings.length + 1) < 4 * (strings.length + 1) := by
  have page : physMmBlock ≤ room (strings.length + 1) := page_le_room (Nat.succ_pos _)
  have size : physMmBlock = 4096 := rfl
  unfold arrayRoom at small
  constructor
  · cases strings with
    | nil => cases many
    | cons string rest =>
      exact copyStrings_entry (show array + 4 * 0 + 4 ≤ array + room ((string :: rest).length + 1) by omega) (by omega)
  · unfold room physMmBlock
    omega

theorem copyArray_front (front : place < array) : copyArray array strings memory place = memory place := by
  have outside : (memory.write array (strings.length + 1) fun _ => 0) place = memory place := Memory.write_outside (.inl front)
  rw [copyArray, copyStrings_front (front.trans_le (Nat.le_add_right _ _)) (.inl (by omega)), outside]

theorem copyArray_behind (few : strings.length < 1024) (behind : array + arrayRoom strings ≤ place) :
    copyArray array strings memory place = memory place := by
  have page : physMmBlock ≤ room (strings.length + 1) := page_le_room (Nat.succ_pos _)
  have size : physMmBlock = 4096 := rfl
  unfold arrayRoom at behind
  have outside : (memory.write array (strings.length + 1) fun _ => 0) place = memory place := Memory.write_outside (.inr (by omega))
  rw [copyArray, copyStrings_behind (by omega) (by omega), outside]

/-- Every string has a block, whatever the entries are. -/
theorem copyBlocks_mem {entry : Nat} (member : string ∈ strings) :
    ∃ copy, (copy, string.length + 1) ∈ copyBlocks memory entry strings := by
  induction strings generalizing entry with
  | nil => cases member
  | cons other rest ih =>
    cases member with
    | head => exact ⟨_, List.mem_cons_self⟩
    | tail _ member =>
      obtain ⟨copy, later⟩ := ih member
      exact ⟨copy, List.mem_cons_of_mem _ later⟩

end Arrays

end YuzuOS.Proofs.ExecveCopies
