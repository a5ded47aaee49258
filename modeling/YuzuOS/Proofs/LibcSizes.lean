import YuzuOS.Proofs.HeapSizes
import YuzuOS.Proofs.LibcHeap

/-! The sizes of what the heap of a program hands out. Nothing stops a request that
is too large for the break: the call goes on with the pages that are there. -/

namespace YuzuOS.Proofs.LibcSizes
open YuzuOS.Library YuzuOS.Kernel YuzuOS.Libc YuzuOS.Proofs.HeapTiling YuzuOS.Proofs.HeapSizes YuzuOS.Proofs.UserPages
  YuzuOS.Proofs.UserBreak YuzuOS.Proofs.LibcHeap

/-- The list of blocks up to `base`, whatever pages and break the process has. -/
structure Listed (heap : Libc.Malloc) (bottom base : Nat) (blocks : List Block) : Prop where
  laid : Laid heap.process.memory bottom heap.blocks blocks base
  positive : 0 < bottom
  current : heap.current = base ∨ (heap.current = 0 ∧ blocks = [] ∧ base = heap.process.mm.brk)
  bounded : base < 2 ^ 32

variable {process after : UserProcess} {heap next : Libc.Malloc} {vm bottom base block size target len : Nat}
  {blocks : List Block} {address : Nat} {change : Memory → Memory}

theorem access_eq_some : access address len change heap = some next ↔
    Accessible heap.process address len ∧ next = { heap with process.memory := change heap.process.memory } := by
  rw [access, Option.ite_none_right_eq_some, Option.some.injEq, eq_comm (b := next)]

theorem brk_asks (process : UserProcess) : Libc.brk 0 process =
    some (if toInt process.mm.brk < 0 then -1 else toInt process.mm.brk, process) := rfl

section Returned

theorem sbrk_answer {answer : Nat} (small : process.mm.brk < 2 ^ 32) (asked : sbrk 0 process = some (answer, after)) :
    answer = process.mm.brk ∨ answer = 2 ^ 32 - 1 := by
  rw [sbrk, brk_asks, Option.bind_some] at asked
  obtain ⟨_, _, same⟩ := Option.map_eq_some_iff.mp asked
  obtain ⟨rfl, _⟩ := Prod.mk.inj same
  simp only [toInt, toUInt]
  omega

theorem mallocGrow_ends (listed : Listed heap bottom base blocks) (grew : mallocGrow target heap = some (block, next)) :
    (block = base ∨ block = 2 ^ 32 - 1) ∧ next.current = (block + target) % 2 ^ 32 := by
  obtain ⟨started, starts, grown⟩ := Option.bind_eq_some_iff.mp grew
  obtain ⟨served, serves, same⟩ := Option.map_eq_some_iff.mp grown
  obtain ⟨rfl, rfl⟩ := Prod.mk.inj same
  have kept : served.current = started.current := by
    split at serves
    next => cases serves; rfl
    next =>
      obtain ⟨⟨_, first⟩, _, asking⟩ := Option.bind_eq_some_iff.mp serves
      obtain ⟨_, _, rfl⟩ := Option.map_eq_some_iff.mp asking
      rfl
  refine ⟨?_, by rw [kept]⟩
  split at starts
  next unknown =>
    obtain ⟨⟨answer, asked⟩, asking, rfl⟩ := Option.map_eq_some_iff.mp starts
    rcases listed.current with same | ⟨_, _, rfl⟩
    · have placed := listed.laid.tiles.le
      have positive := listed.positive
      omega
    · exact sbrk_answer listed.bounded asking
  next known =>
    cases starts
    exact .inl (listed.current.resolve_right fun unknown => known unknown.1)

theorem mallocGet_ends {last : Nat} (listed : Listed heap bottom base blocks) (small : size < 2 ^ 32)
    (got : Libc.mallocGet last size heap = some (block, next)) :
    block = base ∧ base + mallocHeader ≤ kernelVirtAddr ∧ blockSize next.process.memory base = size ∧
      next.current = (base + (size + mallocHeader) % 2 ^ 32) % 2 ^ 32 := by
  obtain ⟨⟨place, grown⟩, grew, linking⟩ := Option.bind_eq_some_iff.mp got
  obtain ⟨linked, links, writing⟩ := Option.bind_eq_some_iff.mp linking
  obtain ⟨written, writes, same⟩ := Option.map_eq_some_iff.mp writing
  obtain ⟨rfl, rfl⟩ := Prod.mk.inj same
  obtain ⟨reached, rfl⟩ := access_eq_some.mp writes
  obtain ⟨here, current⟩ := mallocGrow_ends listed grew
  have below := reached.2
  have kept : linked.current = grown.current := by
    split at links
    next =>
      obtain ⟨_, rfl⟩ := access_eq_some.mp links
      rfl
    next => cases links; rfl
  have placed : place = base := by
    refine here.resolve_right fun error => ?_
    rw [error] at below
    exact absurd below (by decide)
  subst placed
  exact ⟨rfl, below, (mallocGet_header _ place small).1.size, kept.trans current⟩

theorem mallocFind_ends {turns last current passed found : Nat} (linked : Linked process.memory current blocks 0)
    (written : ∀ block ∈ blocks, Written process.memory block) (positive : ∀ block ∈ blocks, block.address ≠ 0)
    (ran : Libc.mallocFind process size turns last current = some (passed, found)) :
    found = ((blocks.find? (fitting size)).map Block.address).getD 0 ∧
      (found ≠ 0 → Accessible process found mallocHeader) := by
  induction blocks generalizing turns last current with
  | nil =>
    cases turns with
    | zero => cases ran
    | succ turns =>
      cases linked
      cases ran
      exact ⟨rfl, fun stored => absurd rfl stored⟩
  | cons block rest ih =>
    cases turns with
    | zero => cases ran
    | succ turns =>
      obtain ⟨rfl, linked⟩ := linked
      have header := written block List.mem_cons_self
      rw [Libc.mallocFind, if_neg (positive block List.mem_cons_self), header.size, header.free] at ran
      have fits : fitting size block = true ↔ block.free = true ∧ size ≤ block.size := by simp [fitting]
      split at ran
      next => cases ran
      next reached =>
        split at ran
        next hit =>
          cases ran
          exact ⟨by simp [fits.mpr hit], fun _ => Decidable.of_not_not reached⟩
        next miss =>
          have passedBy : fitting size block = false := Bool.eq_false_iff.mpr fun taken => miss (fits.mp taken)
          rw [List.find?_cons, passedBy]
          exact ih linked (fun other member => written other (List.mem_cons_of_mem _ member))
            (fun other member => positive other (List.mem_cons_of_mem _ member)) ran

/-- A request is handed a block that fits or a new one at the end of the heap. -/
def Handed (next : Libc.Malloc) (base size block : Nat) (blocks : List Block) : Prop :=
  ((∃ old ∈ blocks, fitting size old = true) ∧ size ≤ blockSize next.process.memory block ∧
    block + mallocHeader + blockSize next.process.memory block ≤ base ∧ next.current = base) ∨
  ((∀ old ∈ blocks, ¬fitting size old = true) ∧ block = base ∧ blockSize next.process.memory block = size ∧
    next.current = (base + (size + mallocHeader) % 2 ^ 32) % 2 ^ 32)

theorem mallocReuse_ends {old : Block} (listed : Listed heap bottom base blocks)
    (found : blocks.find? (fitting size) = some old) :
    size ≤ blockSize (mallocReuse old.address size heap.process.memory) old.address ∧
      old.address + mallocHeader + blockSize (mallocReuse old.address size heap.process.memory) old.address ≤ base := by
  obtain ⟨fits, before, rest, rfl, _⟩ := List.find?_eq_some_iff_append.mp found
  rw [fitting, Bool.and_eq_true, decide_eq_true_eq] at fits
  have laid : Laid (mallocReuse old.address size heap.process.memory) bottom heap.blocks (before ++ reused old size ++ rest) base :=
    listed.laid.reuse listed.bounded
  obtain ⟨taken, parts, first, address, large⟩ := reused_first old fits.2
  have member : taken ∈ before ++ reused old size ++ rest := by simp [first]
  have recorded := (laid.written taken member).size
  have below := (laid.tiles.bounds member).2
  simp only [Block.extent] at below
  rw [address] at recorded below
  omega

theorem mallocServe_ends (listed : Listed heap bottom base blocks) (small : size < 2 ^ 32)
    (served : Libc.mallocServe size heap = some (block, next)) :
    block ≠ 0 ∧ block + mallocHeader ≤ kernelVirtAddr ∧ Handed next base size block blocks := by
  have positive : ∀ old ∈ blocks, old.address ≠ 0 := fun _ member => listed.laid.positive listed.positive member
  have placed : base ≠ 0 := Nat.ne_of_gt (listed.positive.trans_le listed.laid.tiles.le)
  unfold Libc.mallocServe at served
  split at served
  next =>
    obtain ⟨⟨passed, found⟩, ran, serving⟩ := Option.bind_eq_some_iff.mp served
    obtain ⟨here, reached⟩ := mallocFind_ends listed.laid.linked listed.laid.written positive ran
    cases fits : blocks.find? (fitting size) with
    | some old =>
      have member := List.mem_of_find?_eq_some fits
      rw [fits, Option.map_some, Option.getD_some] at here
      subst here
      have stored := positive old member
      simp only at serving
      rw [if_pos stored] at serving
      obtain ⟨taken, writes, same⟩ := Option.map_eq_some_iff.mp serving
      obtain ⟨rfl, rfl⟩ := Prod.mk.inj same
      obtain ⟨_, rfl⟩ := access_eq_some.mp writes
      have started := listed.current.resolve_right fun unknown => absurd (unknown.2.1 ▸ member) List.not_mem_nil
      obtain ⟨large, below⟩ := mallocReuse_ends listed fits
      exact ⟨stored, (reached stored).2, .inl ⟨⟨old, member, List.find?_some fits⟩, large, below, started⟩⟩
    | none =>
      rw [fits, Option.map_none, Option.getD_none] at here
      subst here
      obtain ⟨rfl, upper, recorded, current⟩ := mallocGet_ends listed small serving
      exact ⟨placed, upper, .inr ⟨List.find?_eq_none.mp fits, rfl, recorded, current⟩⟩
  next vacant =>
    have none : blocks = [] := (listed.laid.empty_iff listed.positive).mp (Decidable.of_not_not vacant)
    obtain ⟨⟨place, grown⟩, got, same⟩ := Option.map_eq_some_iff.mp served
    obtain ⟨rfl, rfl⟩ := Prod.mk.inj same
    obtain ⟨rfl, upper, recorded, current⟩ := mallocGet_ends listed small got
    exact ⟨placed, upper, .inr ⟨by simp [none], rfl, recorded, current⟩⟩

/-- A request that is not rounded up past the end, and that a block or the room behind the heap serves. -/
structure Served (base size : Nat) (blocks : List Block) : Prop where
  rounded : size + 3 < 2 ^ 32
  room : (∃ old ∈ blocks, fitting (alignUp size 4) old = true) ∨ base + mallocHeader + alignUp size 4 < 2 ^ 32

/-- What a call returns holds the size exactly when neither the rounding nor a sum wraps. -/
theorem malloc_holds_iff {ptr : Nat} (listed : Listed heap bottom base blocks) (positive : 0 < size)
    (fits : size < 2 ^ 32) (called : Libc.malloc size heap = some (ptr, next)) : mallocHeader < ptr ∧
      ((∃ old ∈ blocks, fitting (alignUp size 4) old = true) ∨ ptr = base + mallocHeader) ∧
      (size ≤ payloadSize next.process.memory ptr ∧ ptr + payloadSize next.process.memory ptr ≤ next.current ↔
        Served base size blocks) := by
  have bounded := alignUp_lt size
  have limit := listed.bounded
  rw [Libc.malloc, if_neg (Nat.not_le.mpr positive)] at called
  obtain ⟨⟨block, served⟩, serving, same⟩ := Option.map_eq_some_iff.mp called
  obtain ⟨here, rfl⟩ := Prod.mk.inj same
  obtain ⟨stored, upper, handed⟩ := mallocServe_ends listed bounded serving
  have header : mallocHeader = 16 := rfl
  have kernel : kernelVirtAddr = 0xC0000000 := rfl
  rw [if_pos stored, Nat.mod_eq_of_lt (by omega)] at here
  subst here
  have recorded : payloadSize served.process.memory (block + mallocHeader) = blockSize served.process.memory block := by
    rw [payloadSize, Nat.add_sub_cancel]
  refine ⟨by omega, handed.imp And.left fun new => by rw [new.2.1], ?_⟩
  rw [recorded]
  rcases Nat.lt_or_ge (size + 3) (2 ^ 32) with inside | wraps
  · have aligned := alignUp_four inside
    rcases handed with ⟨old, large, below, current⟩ | ⟨new, rfl, whole, current⟩
    · exact iff_of_true ⟨by omega, by omega⟩ ⟨inside, .inl old⟩
    · constructor
      · intro holds
        exact ⟨inside, .inr (by omega)⟩
      · intro room
        have sum := room.room.resolve_left fun found => by
          obtain ⟨old, member, taken⟩ := found
          exact new old member taken
        exact ⟨by omega, by omega⟩
  · have aligned := alignUp_wraps fits wraps
    refine iff_of_false ?_ fun room => absurd room.rounded (Nat.not_lt.mpr wraps)
    rcases handed with ⟨_, _, below, _⟩ | ⟨_, _, whole, _⟩ <;> omega

/-- Clearing reaches the whole payload, so only the product can be wrong. -/
theorem calloc_holds_iff {nitems ptr : Nat} (listed : Listed heap bottom base blocks)
    (positive : 0 < nitems * size % 2 ^ 32) (called : Libc.calloc nitems size heap = some (ptr, next)) : ptr ≠ 0 ∧
      (nitems * size ≤ payloadSize next.process.memory ptr ∧ ptr + payloadSize next.process.memory ptr ≤ next.current ↔
        nitems * size < 2 ^ 32) := by
  have bounded : nitems * size % 2 ^ 32 < 2 ^ 32 := Nat.mod_lt _ (by decide)
  obtain ⟨⟨block, filled⟩, allocated, clearing⟩ := Option.bind_eq_some_iff.mp called
  obtain ⟨above, place, holds⟩ := malloc_holds_iff listed positive bounded allocated
  have stored : block ≠ 0 := by omega
  simp only at clearing
  rw [if_neg stored] at clearing
  obtain ⟨cleared, clears, same⟩ := Option.map_eq_some_iff.mp clearing
  obtain ⟨rfl, rfl⟩ := Prod.mk.inj same
  obtain ⟨⟨_, reached⟩, rfl⟩ := access_eq_some.mp clears
  have recorded : payloadSize (filled.process.memory.fill block (nitems * size % 2 ^ 32) 0) block =
      payloadSize filled.process.memory block := by
    unfold mallocHeader at above
    exact Memory.load32_write_outside (by unfold mallocHeader; omega)
  have small : payloadSize filled.process.memory block < 2 ^ 32 := Memory.load32_lt
  refine ⟨stored, ?_⟩
  simp only [recorded]
  constructor
  · intro large
    omega
  · intro whole
    have same := Nat.mod_eq_of_lt whole
    have header : mallocHeader = 16 := rfl
    have kernel : kernelVirtAddr = 0xC0000000 := rfl
    rw [same] at holds reached bounded
    have aligned : alignUp (nitems * size) 4 = (nitems * size + 3) / 4 * 4 := alignUp_four (by omega)
    rw [same] at place
    exact holds.mpr ⟨by omega, place.imp_right fun new => by omega⟩

end Returned

section Returns

/-- Asking for the break maps no page, whatever it is taken for. -/
theorem sbrk_asks (process : UserProcess) (found : mmapFindVm process.brkStart process.mm = some (some vm))
    (onPage : OnPage process.mm.brk) (below : process.mm.brk ≤ (process.mm.vms vm).stop) :
    ∃ answer brk, sbrk 0 process = some (answer, { process with mm.brk := brk }) := by
  have fits := onPage.fits
  have aligned := onPage.aligned
  generalize asked : toUInt (if toInt process.mm.brk < 0 then -1 else toInt process.mm.brk) = answer
  have answers : answer = process.mm.brk ∨ answer = 2 ^ 32 - 1 := by
    subst asked
    simp only [toInt, toUInt]
    omega
  have within : pageAlign answer ≤ (process.mm.vms vm).stop := by
    rcases answers with rfl | rfl
    · have room : process.mm.brk + physMmBlock ≤ 2 ^ 32 := by
        unfold physMmBlock at *
        omega
      rwa [pageAlign_self onPage room]
    · exact le_of_eq_of_le (by decide) (Nat.zero_le _)
  have small : answer < 2 ^ 32 := by omega
  obtain ⟨result, brk, ran, _⟩ := brk_within found small within
  refine ⟨answer, brk, ?_⟩
  rw [sbrk, brk_asks, Option.bind_some]
  simp only [asked, Nat.add_zero, Nat.mod_eq_of_lt small, ran, Option.map_some]

structure Follows (process after : UserProcess) (grows : Prop) (target : Nat) : Prop where
  pages : ∀ page, process.mapped page = true → after.mapped page = true
  same : ¬grows → after.mapped = process.mapped
  more : grows → ∀ place, process.brkStart ≤ place → place < pageAlign (process.mm.brk + target) →
    after.mapped (place / physMmBlock) = true

/-- A sum past the address space is an address in front of the break. -/
theorem pageAlign_wrapped {brk : Nat} (onPage : OnPage brk) (small : target < 2 ^ 32)
    (wraps : 2 ^ 32 < brk + target + physMmBlock) :
    pageAlign ((brk + target) % 2 ^ 32) ≤ brk := by
  have fits := onPage.fits
  have aligned := onPage.aligned
  rcases Nat.lt_or_ge (brk + target) (2 ^ 32) with inside | past
  · have sum : (brk + target + physMmBlock - 1) % 2 ^ 32 < physMmBlock := by
      unfold physMmBlock at *
      omega
    rw [Nat.mod_eq_of_lt inside, pageAlign, alignUp, MemoryAreas.alignDown_page (Nat.mod_lt _ (by decide)), Nat.div_eq_of_lt sum]
    omega
  · have room : (brk + target) % 2 ^ 32 + physMmBlock ≤ 2 ^ 32 := by
      unfold physMmBlock at *
      omega
    rw [pageAlign_eq room]
    unfold physMmBlock at *
    omega

theorem sbrk_follows (ready : Ready process vm) (small : target < 2 ^ 32) :
    ∃ answer first stop after, sbrk target process = some (answer, first) ∧ sbrk 0 first = some (stop, after) ∧
      Follows process after (process.mm.brk + target + physMmBlock ≤ 2 ^ 32) target := by
  have below := ready.small
  have positive := ready.positive
  have above := ready.area.above
  have onPage := ready.area.onPage
  have value : toUInt (process.mm.brk : Int) = process.mm.brk := by
    unfold toUInt
    omega
  have asks {result : Int} {first : UserProcess} (answered : Libc.brk ((process.mm.brk + target) % 2 ^ 32) process = some (result, first)) :
      sbrk target process = some (process.mm.brk, first) := by
    rw [sbrk, brk_zero ready, Option.bind_some]
    simp only [value, answered, Option.map_some]
  rcases Nat.lt_or_ge (2 ^ 32) (process.mm.brk + target + physMmBlock) with wraps | fits
  · have within := (pageAlign_wrapped onPage small wraps).trans ready.area.below
    obtain ⟨result, brk, ran, moved⟩ := brk_within ready.area.found (Nat.mod_lt _ (by decide)) within
    have placed : OnPage brk ∧ brk ≤ (process.mm.vms vm).stop := by
      rcases moved with rfl | rfl
      · exact ⟨onPage, ready.area.below⟩
      · exact ⟨pageAlign_onPage _, within⟩
    obtain ⟨stop, last, asked⟩ := sbrk_asks { process with mm.brk := brk }
      (moved_found ready.area.backed.paged ready.area.found) placed.1 placed.2
    exact ⟨_, _, stop, _, asks ran, asked, fun _ old => old, fun _ => rfl, fun fits => absurd fits (Nat.not_le.mpr wraps)⟩
  · have sum : (process.mm.brk + target) % 2 ^ 32 = process.mm.brk + target := by
      unfold physMmBlock at fits
      exact Nat.mod_eq_of_lt (by omega)
    obtain ⟨first, answered, moves⟩ := syscallBrk_moves ready.area (by omega) (by omega) fits
    have ran : Libc.brk ((process.mm.brk + target) % 2 ^ 32) process = some (0, first) := by rw [sum, Libc.brk, answered]; rfl
    obtain ⟨stop, last, asked⟩ := sbrk_asks first moves.area.found moves.area.onPage moves.area.below
    refine ⟨_, _, stop, _, asks ran, asked, moves.extended.pages, fun wraps => absurd fits wraps, fun _ place lower upper => ?_⟩
    exact moves.area.mapped (moves.extended.brkStart.trans_le lower) (upper.trans_eq moves.brk.symm)

/-- The heap asks for pages when it has too few left and the sum does not wrap. -/
def Grows (heap : Libc.Malloc) (target : Nat) : Prop :=
  heap.remaining < target ∧ heap.process.mm.brk + target + physMmBlock ≤ 2 ^ 32

theorem mallocGrow_follows (stocked : Stocked heap vm bottom base blocks) (small : target < 2 ^ 32) :
    ∃ next, mallocGrow target heap = some (base, next) ∧
      Follows heap.process next.process (Grows heap target) target := by
  have positive := Nat.ne_of_gt stocked.base_positive
  have grown : ∃ next, mallocGrow target { heap with current := base } = some (base, next) ∧
      Follows heap.process next.process (Grows heap target) target := by
    rw [mallocGrow, if_neg positive, Option.bind_some]
    simp only
    split
    next enough =>
      exact ⟨_, rfl, fun _ old => old, fun _ => rfl, fun grows => absurd grows.1 (Nat.not_lt.mpr enough)⟩
    next short =>
      obtain ⟨_, first, stop, after, ran, asked, follows⟩ := sbrk_follows stocked.ready small
      rw [ran, Option.bind_some]
      simp only [asked, Option.map_some]
      exact ⟨_, rfl, follows.pages, fun stays => follows.same fun fits => stays ⟨Nat.not_le.mp short, fits⟩,
        fun grows => follows.more grows.2⟩
  rcases stocked.current with same | ⟨unknown, remaining, _⟩
  · rwa [← same] at grown ⊢
  · -- the first call asks for the break and goes on from there
    have here : base = heap.process.mm.brk := by
      have level := stocked.level
      omega
    have started : mallocGrow target heap = mallocGrow target { heap with current := base } := by
      rw [mallocGrow, if_pos unknown, sbrk_zero stocked.ready, mallocGrow, if_neg positive, here]
      rfl
    rwa [started]

theorem accessible_congr (same : after.mapped = process.mapped) :
    Accessible after address len ↔ Accessible process address len := by
  rw [Accessible, Accessible, UserProcess.Present, UserProcess.Present, same]

theorem accessible_later (pages : ∀ page, process.mapped page = true → after.mapped page = true)
    (reached : Accessible process address len) : Accessible after address len :=
  ⟨⟨reached.1.1, fun i bound => pages _ (reached.1.2 i bound)⟩, reached.2⟩

/-- The header of a new block and the front of its payload lie in pages that are there, or in
pages that come with the break. -/
def Reaches (heap : Libc.Malloc) (base size len : Nat) : Prop :=
  Accessible heap.process base (mallocHeader + len) ∨
    (Grows heap ((size + mallocHeader) % 2 ^ 32) ∧ base + (mallocHeader + len) ≤ kernelVirtAddr)

theorem reaches_iff (stocked : Stocked heap vm bottom base blocks) (whole : len = 0 ∨ size ≤ len + 3 ∧ len ≤ size)
    (follows : Follows heap.process after (Grows heap ((size + mallocHeader) % 2 ^ 32)) ((size + mallocHeader) % 2 ^ 32)) :
    Accessible after base (mallocHeader + len) ↔ Reaches heap base size len := by
  have header : mallocHeader = 16 := rfl
  have kernel : kernelVirtAddr = 0xC0000000 := rfl
  have level := stocked.level
  have lower := stocked.lowest.trans stocked.laid.tiles.le
  constructor
  · intro reached
    by_cases grows : Grows heap ((size + mallocHeader) % 2 ^ 32)
    · exact .inr ⟨grows, reached.2⟩
    · exact .inl ((accessible_congr (follows.same grows)).mp reached)
  · rintro (reached | ⟨grows, upper⟩)
    · exact accessible_later follows.pages reached
    · refine ⟨⟨by omega, fun i bound => follows.more grows _ (by omega) ?_⟩, upper⟩
      have enough := grows.1
      have room := grows.2
      have aligned := (pageAlign_onPage (heap.process.mm.brk + (size + mallocHeader) % 2 ^ 32)).aligned
      have onPage := stocked.ready.area.onPage.aligned
      have bounds := pageAlign_bounds room
      rcases whole with rfl | ⟨large, least⟩
      · -- the break moves on by a page at least
        unfold physMmBlock at *
        omega
      · have sum : (size + mallocHeader) % 2 ^ 32 = size + mallocHeader := Nat.mod_eq_of_lt (by omega)
        omega

/-- A new block is handed out once its header can be written. -/
theorem mallocGet_returns (stocked : Stocked heap vm bottom base blocks) (size : Nat) : ∃ grown : Libc.Malloc,
    Follows heap.process grown.process (Grows heap ((size + mallocHeader) % 2 ^ 32)) ((size + mallocHeader) % 2 ^ 32) ∧
      ((Libc.mallocGet (lastAddress blocks) size heap = none ∧ ¬Accessible grown.process base mallocHeader) ∨
        ∃ next, Libc.mallocGet (lastAddress blocks) size heap = some (base, next) ∧
          next.process.mapped = grown.process.mapped ∧ Accessible grown.process base mallocHeader) := by
  obtain ⟨grown, grew, follows⟩ := mallocGrow_follows stocked (Nat.mod_lt (size + mallocHeader) (by decide))
  refine ⟨grown, follows, ?_⟩
  obtain ⟨linked, links, same⟩ : ∃ linked, (if lastAddress blocks ≠ 0 then
      access (lastAddress blocks) mallocHeader (fun memory => setBlockNext memory (lastAddress blocks) base) grown
      else some grown) = some linked ∧ linked.process.mapped = grown.process.mapped := by
    split
    next stored =>
      obtain ⟨block, member, place⟩ := lastAddress_mem stored
      have inside := stocked.header member
      have below := stocked.below
      have reached : Accessible heap.process (lastAddress blocks) mallocHeader :=
        stocked.ready.accessible (place ▸ inside.1) (by omega)
      exact ⟨_, access_eq_some.mpr ⟨accessible_later follows.pages reached, rfl⟩, rfl⟩
    next => exact ⟨grown, rfl, rfl⟩
  rw [Libc.mallocGet, grew]
  simp only [Option.bind_some]
  rw [links, Option.bind_some]
  by_cases reached : Accessible grown.process base mallocHeader
  · exact .inr ⟨_, congrArg (Option.map _) (if_pos ((accessible_congr same).mpr reached)), same, reached⟩
  · refine .inl ⟨?_, reached⟩
    exact congrArg (Option.map _) (if_neg fun again => reached ((accessible_congr same).mp again))

theorem malloc_new (stocked : Stocked heap vm bottom base blocks) (positive : 0 < size)
    (unfit : ¬∃ old ∈ blocks, fitting (alignUp size 4) old = true) : ∃ grown : Libc.Malloc,
    Follows heap.process grown.process (Grows heap ((alignUp size 4 + mallocHeader) % 2 ^ 32))
        ((alignUp size 4 + mallocHeader) % 2 ^ 32) ∧
      ((Libc.malloc size heap = none ∧ ¬Accessible grown.process base mallocHeader) ∨
        ∃ next, Libc.malloc size heap = some (base + mallocHeader, next) ∧
          next.process.mapped = grown.process.mapped ∧ Accessible grown.process base mallocHeader) := by
  have none : blocks.find? (fitting (alignUp size 4)) = none :=
    List.find?_eq_none.mpr fun old member taken => unfit ⟨old, member, taken⟩
  have sum : (base + mallocHeader) % 2 ^ 32 = base + mallocHeader := by
    have small := stocked.base_small
    unfold mallocHeader
    omega
  obtain ⟨grown, follows, outcome⟩ := mallocGet_returns stocked (alignUp size 4)
  refine ⟨grown, follows, ?_⟩
  rw [Libc.malloc, if_neg (Nat.not_le.mpr positive), mallocServe_none stocked none]
  rcases outcome with ⟨fails, missing⟩ | ⟨next, got, same, reached⟩
  · exact .inl ⟨by rw [fails]; rfl, missing⟩
  · refine .inr ⟨{ next with blocks := if blocks.isEmpty then base else next.blocks }, ?_, same, reached⟩
    rw [got, Option.map_some, Option.map_some]
    simp only
    rw [if_pos (Nat.ne_of_gt stocked.base_positive), sum]

theorem malloc_returns_iff (stocked : Stocked heap vm bottom base blocks) (positive : 0 < size) :
    (Libc.malloc size heap).isSome ↔
      (∃ old ∈ blocks, fitting (alignUp size 4) old = true) ∨ Reaches heap base (alignUp size 4) 0 := by
  by_cases fits : ∃ old ∈ blocks, fitting (alignUp size 4) old = true
  · obtain ⟨place, next, _, served, _⟩ := mallocServe_taken stocked fits
    refine iff_of_true ?_ (.inl fits)
    rw [Libc.malloc, if_neg (Nat.not_le.mpr positive), served]
    rfl
  · obtain ⟨grown, follows, outcome⟩ := malloc_new stocked positive fits
    rw [or_iff_right fits, ← reaches_iff stocked (.inl rfl) follows]
    rcases outcome with ⟨fails, missing⟩ | ⟨next, got, _, reached⟩
    · exact iff_of_false (by rw [fails]; exact Bool.noConfusion) missing
    · exact iff_of_true (by rw [got]; rfl) reached

theorem accessible_add {more : Nat} : Accessible process address (len + more) ↔
    Accessible process address len ∧ Accessible process (address + len) more := by
  constructor
  · intro ⟨⟨fits, pages⟩, upper⟩
    refine ⟨⟨⟨by omega, fun i bound => pages i (by omega)⟩, by omega⟩, ⟨by omega, fun i bound => ?_⟩, by omega⟩
    rw [Nat.add_assoc]
    exact pages (len + i) (by omega)
  · intro ⟨⟨⟨_, front⟩, _⟩, ⟨fits, back⟩, upper⟩
    refine ⟨⟨by omega, fun i bound => ?_⟩, by omega⟩
    rcases Nat.lt_or_ge i len with low | high
    · exact front i low
    · have later := back (i - len) (by omega)
      rwa [Nat.add_assoc, Nat.add_sub_of_le high] at later

theorem calloc_returns_iff {nitems : Nat} (stocked : Stocked heap vm bottom base blocks)
    (positive : 0 < nitems * size % 2 ^ 32) :
    (Libc.calloc nitems size heap).isSome ↔ nitems * size % 2 ^ 32 + 3 < 2 ^ 32 ∧
      ((∃ old ∈ blocks, fitting (alignUp (nitems * size % 2 ^ 32) 4) old = true) ∨
        Reaches heap base (alignUp (nitems * size % 2 ^ 32) 4) (nitems * size % 2 ^ 32)) := by
  have bounded : nitems * size % 2 ^ 32 < 2 ^ 32 := Nat.mod_lt _ (by decide)
  have header : mallocHeader = 16 := rfl
  have kernel : kernelVirtAddr = 0xC0000000 := rfl
  have cleared {ptr : Nat} {filled : Libc.Malloc} (called : Libc.malloc (nitems * size % 2 ^ 32) heap = some (ptr, filled))
      (stored : ptr ≠ 0) : (Libc.calloc nitems size heap).isSome ↔ Accessible filled.process ptr (nitems * size % 2 ^ 32) := by
    simp only [Libc.calloc, called, Option.bind_some]
    rw [if_neg stored, Option.isSome_map, access]
    exact Option.isSome_ite
  have refused (fails : Libc.malloc (nitems * size % 2 ^ 32) heap = none) : ¬(Libc.calloc nitems size heap).isSome := by
    simp only [Libc.calloc, fails, Option.bind_none]
    exact Bool.noConfusion
  generalize nitems * size % 2 ^ 32 = request at *
  by_cases fits : ∃ old ∈ blocks, fitting (alignUp request 4) old = true
  · obtain ⟨place, next, changed, served, hands⟩ := mallocServe_taken stocked fits
    obtain ⟨block, member, rfl, large⟩ := hands.block
    obtain ⟨stop, later⟩ := hands.stocked
    have inside := later.header member
    have below := later.below
    have small := later.ready.small
    have sum : (block.address + mallocHeader) % 2 ^ 32 = block.address + mallocHeader := Nat.mod_eq_of_lt (by omega)
    have called : Libc.malloc request heap = some (block.address + mallocHeader, next) := by
      rw [Libc.malloc, if_neg (Nat.not_le.mpr positive), served, Option.map_some]
      simp only
      rw [if_pos (later.positive block member), sum]
    rw [cleared called (Nat.succ_ne_zero _), and_iff_left (.inl fits)]
    constructor
    · intro reached
      have upper := reached.2
      omega
    · intro rounded
      have aligned := alignUp_four rounded
      exact later.ready.accessible (by omega) (by omega)
  · obtain ⟨grown, follows, outcome⟩ := malloc_new stocked positive fits
    have reaches (rounded : request + 3 < 2 ^ 32) : Reaches heap base (alignUp request 4) request ↔
        Accessible grown.process base mallocHeader ∧ Accessible grown.process (base + mallocHeader) request := by
      have aligned := alignUp_four rounded
      rw [← accessible_add, reaches_iff stocked (.inr (by omega)) follows]
    rw [or_iff_right fits]
    rcases outcome with ⟨fails, missing⟩ | ⟨next, got, same, reached⟩
    · refine iff_of_false (refused fails) fun right => ?_
      obtain ⟨rounded, later⟩ := right
      exact missing ((reaches rounded).mp later).1
    · rw [cleared got (Nat.succ_ne_zero _), accessible_congr same]
      constructor
      · intro payload
        have upper := payload.2
        have rounded : request + 3 < 2 ^ 32 := by omega
        exact ⟨rounded, (reaches rounded).mpr ⟨reached, payload⟩⟩
      · intro right
        obtain ⟨rounded, later⟩ := right
        exact ((reaches rounded).mp later).2

end Returns

theorem stocked_listed (stocked : Stocked heap vm bottom base blocks) : Listed heap bottom base blocks := by
  have small := stocked.base_small
  have level := stocked.level
  exact ⟨stocked.laid, stocked.bottom_positive, stocked.current.imp_right fun unstarted => ⟨unstarted.1, unstarted.2.2, by omega⟩,
    by omega⟩

abbrev Provides (size : Nat) (outcome : Option (Nat × Libc.Malloc)) : Prop :=
  Gives (fun heap => heap.process.memory) Libc.Malloc.current size outcome

theorem malloc_provides (listed : Listed heap bottom base blocks) (fits : size < 2 ^ 32)
    (served : size = 0 ∨ Served base size blocks) :
    Provides size (Libc.malloc size heap) := by
  rcases Nat.eq_zero_or_pos size with rfl | positive
  · exact gives_null heap
  · intro ptr after called _
    exact (malloc_holds_iff listed positive fits called).2.2.mpr (served.resolve_left (Nat.ne_of_gt positive))

theorem malloc_provides_iff (stocked : Stocked heap vm bottom base blocks) (fits : size < 2 ^ 32) :
    Provides size (Libc.malloc size heap) ↔ size = 0 ∨ Served base size blocks ∨
      ¬((∃ old ∈ blocks, fitting (alignUp size 4) old = true) ∨ Reaches heap base (alignUp size 4) 0) := by
  have listed := stocked_listed stocked
  rcases Nat.eq_zero_or_pos size with rfl | positive
  · exact iff_of_true (malloc_provides listed fits (.inl rfl)) (.inl rfl)
  rw [← malloc_returns_iff stocked positive, or_iff_right (Nat.ne_of_gt positive)]
  cases called : Libc.malloc size heap with
  | none => exact iff_of_true gives_none (.inr Bool.noConfusion)
  | some outcome =>
    obtain ⟨above, _, holds⟩ := malloc_holds_iff listed positive fits called
    have returned : (some outcome).isSome = true := rfl
    exact (gives_some (by omega)).trans (holds.trans (or_iff_left (not_not_intro returned)).symm)

theorem calloc_null {nitems : Nat} (nothing : nitems * size % 2 ^ 32 = 0) :
    Libc.calloc nitems size heap = some (0, heap) := by
  rw [Libc.calloc, nothing]
  rfl

theorem calloc_provides {nitems : Nat} (listed : Listed heap bottom base blocks) (whole : nitems * size < 2 ^ 32) :
    Provides (nitems * size) (Libc.calloc nitems size heap) := by
  rcases Nat.eq_zero_or_pos (nitems * size % 2 ^ 32) with nothing | positive
  · rw [calloc_null nothing]
    exact gives_null heap
  · intro ptr after called _
    exact (calloc_holds_iff listed positive called).2.mpr whole

theorem calloc_provides_iff {nitems : Nat} (stocked : Stocked heap vm bottom base blocks) :
    Provides (nitems * size) (Libc.calloc nitems size heap) ↔ nitems * size < 2 ^ 32 ∨ nitems * size % 2 ^ 32 = 0 ∨
      ¬(nitems * size % 2 ^ 32 + 3 < 2 ^ 32 ∧
        ((∃ old ∈ blocks, fitting (alignUp (nitems * size % 2 ^ 32) 4) old = true) ∨
          Reaches heap base (alignUp (nitems * size % 2 ^ 32) 4) (nitems * size % 2 ^ 32))) := by
  rcases Nat.eq_zero_or_pos (nitems * size % 2 ^ 32) with nothing | positive
  · rw [calloc_null nothing]
    exact iff_of_true (gives_null heap) (.inr (.inl nothing))
  rw [← calloc_returns_iff stocked positive, or_iff_right (Nat.ne_of_gt positive)]
  cases called : Libc.calloc nitems size heap with
  | none => exact iff_of_true gives_none (.inr Bool.noConfusion)
  | some outcome =>
    obtain ⟨stored, holds⟩ := calloc_holds_iff (stocked_listed stocked) positive called
    have returned : (some outcome).isSome = true := rfl
    exact (gives_some stored).trans (holds.trans (or_iff_left (not_not_intro returned)).symm)

/-- When the two heaps give out what was asked for, in every state of each. For the heap of a
program the first two conditions are enough whatever pages and break it has. -/
theorem allocations_hold_iff {kernel : Kernel.Malloc} {tiles listed : List Block} {user : Libc.Malloc}
    {first stop : Nat} (nitems : Nat) (tiled : Tiled kernel tiles) (stocked : Stocked heap vm bottom base blocks)
    (other : Listed user first stop listed) (fits : size < 2 ^ 32) :
    (Gives Kernel.Malloc.memory Kernel.Malloc.current size (Kernel.malloc size kernel) ↔
      size + 3 < 2 ^ 32 ∨ Unserved kernel tiles 0) ∧
    (Gives Kernel.Malloc.memory Kernel.Malloc.current (nitems * size) (Kernel.calloc nitems size kernel) ↔
      nitems * size < 2 ^ 32 ∨ nitems * size % 2 ^ 32 = 0 ∨ mallocLimit < nitems * size % 2 ^ 32 ∨
        Unserved kernel tiles (alignUp (nitems * size % 2 ^ 32) 4)) ∧
    (Provides size (Libc.malloc size heap) ↔ size = 0 ∨ Served base size blocks ∨
      ¬((∃ old ∈ blocks, fitting (alignUp size 4) old = true) ∨ Reaches heap base (alignUp size 4) 0)) ∧
    (Provides (nitems * size) (Libc.calloc nitems size heap) ↔ nitems * size < 2 ^ 32 ∨ nitems * size % 2 ^ 32 = 0 ∨
      ¬(nitems * size % 2 ^ 32 + 3 < 2 ^ 32 ∧
        ((∃ old ∈ blocks, fitting (alignUp (nitems * size % 2 ^ 32) 4) old = true) ∨
          Reaches heap base (alignUp (nitems * size % 2 ^ 32) 4) (nitems * size % 2 ^ 32)))) ∧
    (size = 0 ∨ Served stop size listed → Provides size (Libc.malloc size user)) ∧
    (nitems * size < 2 ^ 32 → Provides (nitems * size) (Libc.calloc nitems size user)) :=
  ⟨malloc_gives_iff tiled fits, calloc_gives_iff tiled, malloc_provides_iff stocked fits, calloc_provides_iff stocked,
    malloc_provides other fits, calloc_provides other⟩

theorem allocations_hold_example : ∃ layout load,
    elf32Load 0xD0001000 (elfProcess 0xD0001000 elfExample) = some (some layout, load) ∧
    Gives Kernel.Malloc.memory Kernel.Malloc.current 0x1000 (Kernel.malloc 0x1000 (heapStart fun _ => 7).heap) ∧
    Gives Kernel.Malloc.memory Kernel.Malloc.current (0x30 * 0x1000) (Kernel.calloc 0x30 0x1000 (heapStart fun _ => 7).heap) ∧
    Provides 0x1000 (Libc.malloc 0x1000 (libcStart load.process).heap) ∧
    Provides (0x30 * 0x1000) (Libc.calloc 0x30 0x1000 (libcStart load.process).heap) := by
  have ends : (elf32Load 0xD0001000 (elfProcess 0xD0001000 elfExample)).map (fun result =>
      (result.1.isSome, decide (mmapFindVm result.2.process.brkStart result.2.process.mm = some (some 1) ∧
        result.2.process.mm.brk = 0x2000))) = some (true, true) := by decide +kernel
  obtain ⟨⟨returned, load⟩, loaded, same⟩ := Option.map_eq_some_iff.mp ends
  simp only [Prod.mk.injEq, decide_eq_true_eq] at same
  obtain ⟨filled, found, brk⟩ := same
  obtain ⟨layout, rfl⟩ := Option.isSome_iff_exists.mp filled
  have sound := libcStart_sound (elfProcess_fresh _ _) loaded found (brk.trans_lt (by decide))
  have stocked := sound.stocked
  rw [brk] at stocked
  obtain ⟨tiles, tiled, _⟩ := heapStart_sound fun _ => 7
  have served : Served 0x2000 0x1000 [] := ⟨by decide, .inr (by decide)⟩
  obtain ⟨kernelMalloc, kernelCalloc, libcMalloc, libcCalloc, _⟩ :=
    allocations_hold_iff 0x30 tiled stocked (stocked_listed stocked) (show 0x1000 < 2 ^ 32 by decide)
  exact ⟨layout, load, loaded, kernelMalloc.mpr (.inl (by decide)), kernelCalloc.mpr (.inl (by decide)),
    libcMalloc.mpr (.inr (.inl served)), libcCalloc.mpr (.inl (by decide))⟩

/-- The product of two sizes is taken modulo `2 ^ 32`. -/
theorem calloc_gives_less : ¬Gives Kernel.Malloc.memory Kernel.Malloc.current (0x10000 * 0x10001)
    (Kernel.calloc 0x10000 0x10001 (heapStart fun _ => 7).heap) := by
  have returned : (Kernel.calloc 0x10000 0x10001 (heapStart fun _ => 7).heap).map (fun result =>
      (result.1, payloadSize result.2.memory result.1)) = some (heapBottom + mallocHeader, 0x10000) := by decide +kernel
  obtain ⟨⟨ptr, after⟩, called, same⟩ := Option.map_eq_some_iff.mp returned
  simp only [Prod.mk.injEq] at same
  obtain ⟨rfl, recorded⟩ := same
  intro gives
  have large := (gives _ after called (by decide)).1
  omega

end YuzuOS.Proofs.LibcSizes
