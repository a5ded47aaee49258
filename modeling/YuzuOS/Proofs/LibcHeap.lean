import YuzuOS.Proofs.HeapTiling
import YuzuOS.Proofs.UserBreak
import YuzuOS.Libc.Malloc

/-! Runs of the heap of a user program: what it takes to be its end stays the
break that the kernel keeps, and its blocks lie in mapped pages below it. -/

namespace YuzuOS.Proofs.LibcHeap
open YuzuOS.Library YuzuOS.Kernel YuzuOS.Libc YuzuOS.Proofs.HeapTiling YuzuOS.Proofs.UserPages YuzuOS.Proofs.UserBreak

/-- The break answers as long as it is not taken for an error. -/
structure Ready (process : UserProcess) (vm : Nat) : Prop where
  area : HeapArea process vm
  small : process.mm.brk < 2 ^ 31

structure Later (process after : UserProcess) (vm : Nat) : Prop where
  ready : Ready after vm
  extended : Extends process after
  brk : process.mm.brk ≤ after.mm.brk
  memory : ∀ place < process.mm.brk, after.memory place = process.memory place

variable {process after final : UserProcess} {heap next : Libc.Malloc} {vm size base target increment : Nat}
  {blocks : List Block} {block : Block} {bottom first stop turns current last : Nat}

theorem Later.refl (ready : Ready process vm) : Later process process vm :=
  ⟨ready, ⟨rfl, rfl, fun _ old => old⟩, le_rfl, fun _ _ => rfl⟩

theorem Ready.positive (ready : Ready process vm) : 0 < process.brkStart := by
  obtain ⟨small, holds⟩ := mmapFindVm_holds ready.area.backed.paged ready.area.found
  have placed := ready.area.backed.paged.placed small holds
  have start := holds.1
  omega

theorem Ready.memory {memory : Memory} (ready : Ready process vm) : Ready { process with memory } vm :=
  ⟨⟨ready.area.backed.memory, ready.area.found, ready.area.onPage, ready.area.above, ready.area.below⟩, ready.small⟩

theorem Ready.room (ready : Ready process vm) : process.mm.brk + physMmBlock ≤ 2 ^ 31 := by
  have aligned := ready.area.onPage.aligned
  have small := ready.small
  unfold physMmBlock at aligned ⊢
  omega

theorem brk_zero (ready : Ready process vm) : brk 0 process = some ((process.mm.brk : Int), process) := by
  have positive : toInt process.mm.brk = process.mm.brk := by rw [toInt, if_pos ready.small]
  simp [Libc.brk, UserProcess.syscallBrk, positive]

theorem sbrk_later (ready : Ready process vm) (fits : process.mm.brk + increment + physMmBlock ≤ 2 ^ 31) :
    ∃ after, sbrk increment process = some (process.mm.brk, after) ∧ Later process after vm ∧
      after.mm.brk = pageAlign (process.mm.brk + increment) := by
  have positive := ready.positive
  have above := ready.area.above
  have small : process.mm.brk + increment < 2 ^ 32 := by omega
  have page : process.mm.brk + increment + physMmBlock ≤ 2 ^ 32 := by omega
  have bounds := pageAlign_bounds page
  obtain ⟨after, answered, moves⟩ := syscallBrk_moves ready.area (by omega) (by omega) page
  have value : toUInt (process.mm.brk : Int) = process.mm.brk := by
    unfold toUInt
    omega
  refine ⟨after, ?_, ⟨⟨moves.area, ?_⟩, moves.extended, ?_, moves.memory⟩, moves.brk⟩
  · rw [sbrk, brk_zero ready]
    simp only [Option.bind_some, value, Nat.mod_eq_of_lt small]
    simp [Libc.brk, answered]
  · rw [moves.brk]
    have aligned := (pageAlign_onPage (process.mm.brk + increment)).aligned
    unfold physMmBlock at *
    omega
  · rw [moves.brk]
    omega

theorem pageAlign_self {addr : Nat} (onPage : OnPage addr) (fits : addr + physMmBlock ≤ 2 ^ 32) :
    pageAlign addr = addr := by
  have aligned := onPage.aligned
  rw [pageAlign_eq fits]
  unfold physMmBlock at *
  omega

theorem brk_within (found : mmapFindVm process.brkStart process.mm = some (some vm)) {addr : Nat}
    (small : addr < 2 ^ 32) (within : pageAlign addr ≤ (process.mm.vms vm).stop) :
    ∃ result brk, Libc.brk addr process = some (result, { process with mm.brk := brk }) ∧
      (brk = process.mm.brk ∨ brk = pageAlign addr) := by
  obtain ⟨result, brk, ran, moved⟩ := syscallBrk_within found small within
  exact ⟨_, brk, by rw [Libc.brk, ran, Option.map_some], moved⟩

/-- Asking for the break changes nothing. -/
theorem sbrk_zero (ready : Ready process vm) : sbrk 0 process = some (process.mm.brk, process) := by
  have small := ready.small
  have room := ready.room
  have value : toUInt (process.mm.brk : Int) = process.mm.brk := by
    unfold toUInt
    omega
  have same : pageAlign process.mm.brk = process.mm.brk := pageAlign_self ready.area.onPage (by omega)
  obtain ⟨result, brk, ran, moved⟩ := brk_within ready.area.found (by omega) (same.trans_le ready.area.below)
  have kept : brk = process.mm.brk := moved.elim id fun aligned => aligned.trans same
  rw [sbrk, brk_zero ready, Option.bind_some]
  simp only [value, Nat.add_zero, Nat.mod_eq_of_lt (show process.mm.brk < 2 ^ 32 by omega), ran, kept, Option.map_some]

theorem Ready.accessible {address len : Nat} (ready : Ready process vm) (lower : process.brkStart ≤ address)
    (upper : address + len ≤ process.mm.brk) : Accessible process address len := by
  have small := ready.small
  refine ⟨⟨by omega, fun i bound => ?_⟩, by unfold kernelVirtAddr; omega⟩
  exact ready.area.mapped (by omega) (by omega)

theorem access_spec (heap : Libc.Malloc) {address len : Nat} {change : Memory → Memory} (ready : Ready heap.process vm)
    (lower : heap.process.brkStart ≤ address) (upper : address + len ≤ heap.process.mm.brk) :
    access address len change heap = some { heap with process.memory := change heap.process.memory } :=
  if_pos (ready.accessible lower upper)

structure Stocked (heap : Libc.Malloc) (vm bottom base : Nat) (blocks : List Block) : Prop where
  ready : Ready heap.process vm
  laid : Laid heap.process.memory bottom heap.blocks blocks base
  lowest : heap.process.brkStart ≤ bottom
  level : base + heap.remaining = heap.process.mm.brk
  current : heap.current = base ∨ (heap.current = 0 ∧ heap.remaining = 0 ∧ blocks = [])

theorem Stocked.bottom_positive (stocked : Stocked heap vm bottom base blocks) : 0 < bottom :=
  stocked.ready.positive.trans_le stocked.lowest

theorem Stocked.base_small (stocked : Stocked heap vm bottom base blocks) : base < 2 ^ 31 := by
  have level := stocked.level
  have small := stocked.ready.small
  omega

theorem Stocked.base_positive (stocked : Stocked heap vm bottom base blocks) : 0 < base :=
  stocked.bottom_positive.trans_le stocked.laid.tiles.le

structure Grown (heap next : Libc.Malloc) (vm base target : Nat) : Prop where
  later : Later heap.process next.process vm
  blocks : next.blocks = heap.blocks
  current : next.current = base + target
  level : base + target + next.remaining = next.process.mm.brk

/-- `malloc_current` is read once it is known. -/
theorem mallocGrow_started (heap : Libc.Malloc) (ready : Ready heap.process vm) (started : heap.current ≠ 0)
    (level : heap.current + heap.remaining = heap.process.mm.brk)
    (room : heap.remaining < target → heap.process.mm.brk + target + physMmBlock ≤ 2 ^ 31) :
    ∃ next, mallocGrow target heap = some (heap.current, next) ∧ Grown heap next vm heap.current target := by
  have small := ready.small
  rw [mallocGrow, if_neg started, Option.bind_some]
  simp only
  split
  next enough =>
    have sum : (heap.current + target) % 2 ^ 32 = heap.current + target := Nat.mod_eq_of_lt (by omega)
    rw [Option.map_some, sum]
    exact ⟨_, rfl, .refl ready, rfl, rfl, by simp only; omega⟩
  next short =>
    have fits := room (Nat.not_le.mp short)
    have sum : (heap.current + target) % 2 ^ 32 = heap.current + target := Nat.mod_eq_of_lt (by omega)
    have page : heap.process.mm.brk + target + physMmBlock ≤ 2 ^ 32 := by omega
    have bounds := pageAlign_bounds page
    obtain ⟨first, grows, firstLater, moved⟩ := sbrk_later ready fits
    have asks := sbrk_zero firstLater.ready
    have stop : (first.mm.brk + 2 ^ 32 - (heap.current + target)) % 2 ^ 32 = first.mm.brk - (heap.current + target) := by
      have below := firstLater.ready.small
      omega
    simp only [grows, asks, Option.bind_some, Option.map_some, sum, stop]
    refine ⟨_, rfl, firstLater, rfl, rfl, ?_⟩
    simp only
    omega

theorem mallocGrow_spec (stocked : Stocked heap vm bottom base blocks)
    (room : heap.remaining < target → heap.process.mm.brk + target + physMmBlock ≤ 2 ^ 31) :
    ∃ next, mallocGrow target heap = some (base, next) ∧ Grown heap next vm base target := by
  have level := stocked.level
  rcases stocked.current with same | ⟨unknown, remaining, _⟩
  · have started : heap.current ≠ 0 := Nat.ne_of_gt (same ▸ stocked.base_positive)
    have grown := mallocGrow_started heap stocked.ready started (same ▸ level) room
    rwa [same] at grown
  · -- the first call asks for the break and goes on from there
    have here : base = heap.process.mm.brk := by omega
    have positive := stocked.base_positive
    have grows : mallocGrow target heap = mallocGrow target { heap with current := base } := by
      rw [mallocGrow, if_pos unknown, sbrk_zero stocked.ready, mallocGrow, if_neg (Nat.ne_of_gt positive), here]
      rfl
    obtain ⟨next, ran, grown⟩ := mallocGrow_started { heap with current := base } stocked.ready (Nat.ne_of_gt positive) level room
    exact ⟨next, grows.trans ran, grown.later, grown.blocks, grown.current, grown.level⟩

structure Widens (process after : UserProcess) : Prop where
  extended : Extends process after
  brk : process.mm.brk ≤ after.mm.brk

theorem Later.widens (later : Later process after vm) : Widens process after := ⟨later.extended, later.brk⟩

theorem Stocked.header (stocked : Stocked heap vm bottom base blocks) (member : block ∈ blocks) :
    heap.process.brkStart ≤ block.address ∧ block.address + mallocHeader + block.size ≤ base := by
  obtain ⟨lower, upper⟩ := stocked.laid.tiles.bounds member
  simp only [Block.extent] at upper
  exact ⟨stocked.lowest.trans lower, by omega⟩

theorem Stocked.below (stocked : Stocked heap vm bottom base blocks) : base ≤ heap.process.mm.brk :=
  Nat.le.intro stocked.level

theorem lastAddress_mem (stored : lastAddress blocks ≠ 0) : ∃ block ∈ blocks, block.address = lastAddress blocks := by
  rcases List.eq_nil_or_concat' blocks with rfl | ⟨front, last, rfl⟩
  · exact absurd rfl stored
  · exact ⟨last, by simp, by simp [lastAddress]⟩

theorem mallocGet_spec (stocked : Stocked heap vm bottom base blocks) (small : size ≤ 2 ^ 31)
    (room : heap.remaining < size + mallocHeader → heap.process.mm.brk + (size + mallocHeader) + physMmBlock ≤ 2 ^ 31) :
    ∃ next, Libc.mallocGet (lastAddress blocks) size heap = some (base, next) ∧ Widens heap.process next.process ∧
      next.blocks = heap.blocks ∧
      Stocked { next with blocks := if blocks.isEmpty then base else heap.blocks } vm bottom (base + (mallocHeader + size))
        (blocks ++ [⟨base, size, false⟩]) := by
  have header : mallocHeader = 16 := rfl
  have sum : (size + mallocHeader) % 2 ^ 32 = size + mallocHeader := Nat.mod_eq_of_lt (by omega)
  obtain ⟨grown, grows, spec⟩ := mallocGrow_spec stocked room
  have start : grown.process.brkStart = heap.process.brkStart := spec.later.extended.brkStart
  have below := stocked.below
  have level := spec.level
  have placed := stocked.bottom_positive
  have old : Laid grown.process.memory bottom heap.blocks blocks base := by
    refine stocked.laid.congr fun block member place _ upper => spec.later.memory place ?_
    have inside := (stocked.header member).2
    omega
  generalize linking : (if lastAddress blocks ≠ 0 then
    setBlockNext grown.process.memory (lastAddress blocks) base else grown.process.memory) = memory
  have linked : (if lastAddress blocks ≠ 0 then
      access (lastAddress blocks) mallocHeader (fun memory => setBlockNext memory (lastAddress blocks) base) grown
      else some grown) = some { grown with process.memory := memory } := by
    split at linking
    next stored =>
      obtain ⟨block, member, place⟩ := lastAddress_mem stored
      have inside := stocked.header member
      rw [if_pos stored, access_spec grown spec.later.ready (by omega) (by omega), linking]
    next empty =>
      subst linking
      exact if_neg empty
  have written : access base mallocHeader (fun memory =>
      setBlockFree (setBlockNext (setBlockSize memory base size) base 0) base false) { grown with process.memory := memory } =
      some { grown with
        process.memory := setBlockFree (setBlockNext (setBlockSize memory base size) base 0) base false } := by
    have lower : grown.process.brkStart ≤ base := start ▸ stocked.lowest.trans stocked.laid.tiles.le
    have upper : base + mallocHeader ≤ grown.process.mm.brk := by omega
    exact access_spec { grown with process.memory := memory } spec.later.ready.memory lower upper
  refine ⟨{ grown with
      process.memory := setBlockFree (setBlockNext (setBlockSize memory base size) base 0) base false }, ?_,
    ⟨⟨start, spec.later.extended.frames, spec.later.extended.pages⟩, spec.later.brk⟩, spec.blocks, ?_⟩
  · rw [Libc.mallocGet, sum, grows]
    simp only [Option.bind_some]
    rw [linked, Option.bind_some, written, Option.map_some]
  · have laid := old.append placed (by have fits := stocked.base_small; omega) (show size < 2 ^ 32 by omega) linking.symm
    refine ⟨spec.later.ready.memory, laid, start ▸ stocked.lowest, ?_, .inl ?_⟩
    · simp only
      omega
    · simp only [spec.current]
      omega

/-- The search ends at the first free block that is large enough, or at the end. -/
theorem mallocFind_spec (enough : blocks.length < turns) (linked : Linked process.memory current blocks 0)
    (written : ∀ block ∈ blocks, Written process.memory block) (positive : ∀ block ∈ blocks, block.address ≠ 0)
    (accessible : ∀ block ∈ blocks, Accessible process block.address mallocHeader) :
    ∃ passed, Libc.mallocFind process size turns last current =
        some (passed, ((blocks.find? (fitting size)).map Block.address).getD 0) ∧
      (blocks.find? (fitting size) = none → passed = (blocks.getLast?.map Block.address).getD last) := by
  induction blocks generalizing turns last current with
  | nil =>
    obtain ⟨turns, rfl⟩ := Nat.exists_eq_succ_of_ne_zero (Nat.ne_of_gt enough)
    cases linked
    exact ⟨last, by simp [Libc.mallocFind], fun _ => rfl⟩
  | cons block rest ih =>
    obtain ⟨turns, rfl⟩ := Nat.exists_eq_succ_of_ne_zero (Nat.ne_of_gt (Nat.zero_lt_of_lt enough))
    obtain ⟨here, linked⟩ := linked
    subst here
    have header := written block List.mem_cons_self
    have reached := accessible block List.mem_cons_self
    have fits : fitting size block = true ↔ block.free = true ∧ size ≤ block.size := by simp [fitting]
    rw [Libc.mallocFind, if_neg (positive block List.mem_cons_self), if_neg (not_not_intro reached), header.size, header.free,
      List.find?_cons]
    split
    next hit => exact ⟨last, by simp [fits.mpr hit], fun none => by simp [fits.mpr hit] at none⟩
    next miss =>
      obtain ⟨passed, ran, ends⟩ := ih (Nat.lt_of_succ_lt_succ enough) linked
        (fun other member => written other (List.mem_cons_of_mem _ member))
        (fun other member => positive other (List.mem_cons_of_mem _ member))
        (fun other member => accessible other (List.mem_cons_of_mem _ member))
      have passedBy : fitting size block = false := Bool.eq_false_iff.mpr fun taken => miss (fits.mp taken)
      rw [passedBy]
      refine ⟨passed, ran, fun none => (ends none).trans ?_⟩
      cases rest <;> simp [List.getLast?_cons]

/-- The loop has turns enough for the list. -/
theorem Stocked.short (stocked : Stocked heap vm bottom base blocks) : blocks.length < mallocTurns := by
  have few := stocked.laid.length_le
  have small := stocked.base_small
  unfold mallocHeader at few
  unfold mallocTurns
  omega

theorem Stocked.positive (stocked : Stocked heap vm bottom base blocks) : ∀ block ∈ blocks, block.address ≠ 0 :=
  fun _ member => stocked.laid.positive stocked.bottom_positive member

theorem Stocked.searched (stocked : Stocked heap vm bottom base blocks) (size last : Nat) :
    ∃ passed, Libc.mallocFind heap.process size mallocTurns last heap.blocks =
        some (passed, ((blocks.find? (fitting size)).map Block.address).getD 0) ∧
      (blocks.find? (fitting size) = none → passed = (blocks.getLast?.map Block.address).getD last) := by
  have below := stocked.below
  refine mallocFind_spec stocked.short stocked.laid.linked stocked.laid.written stocked.positive fun block member => ?_
  have inside := stocked.header member
  exact stocked.ready.accessible inside.1 (by omega)

theorem mallocServe_found (stocked : Stocked heap vm bottom base blocks)
    (found : blocks.find? (fitting size) = some block) :
    Libc.mallocServe size heap = (access (splitPlace block.address size heap.process.memory) mallocHeader
      (mallocReuse block.address size) heap).map fun heap => (block.address, heap) := by
  have member := List.mem_of_find?_eq_some found
  have occupied : heap.blocks ≠ 0 :=
    fun vacant => List.not_mem_nil ((stocked.laid.empty_iff stocked.bottom_positive).mp vacant ▸ member)
  obtain ⟨passed, ran, _⟩ := stocked.searched size heap.blocks
  rw [found, Option.map_some, Option.getD_some] at ran
  rw [Libc.mallocServe, if_pos occupied, ran, Option.bind_some]
  exact if_pos (stocked.positive block member)

/-- Where no block fits the heap grows. -/
theorem mallocServe_none (stocked : Stocked heap vm bottom base blocks) (none : blocks.find? (fitting size) = none) :
    Libc.mallocServe size heap = (Libc.mallocGet (lastAddress blocks) size heap).map fun (block, next) =>
      (block, { next with blocks := if blocks.isEmpty then block else next.blocks }) := by
  have empty := stocked.laid.empty_iff stocked.bottom_positive
  rcases List.eq_nil_or_concat' blocks with rfl | ⟨front, last, rfl⟩
  · exact if_neg (not_not_intro (empty.mpr rfl))
  · have occupied : heap.blocks ≠ 0 := fun vacant => absurd (empty.mp vacant) (by simp)
    have filled : (front ++ [last]).isEmpty = false := by simp
    obtain ⟨passed, ran, ends⟩ := stocked.searched size heap.blocks
    rw [none, Option.map_none, Option.getD_none] at ran
    have same : passed = lastAddress (front ++ [last]) := by
      rw [ends none, lastAddress]
      simp
    rw [Libc.mallocServe, if_pos occupied, ran, Option.bind_some, same, filled]
    exact (if_neg (not_not_intro rfl)).trans Option.map_id'.symm

/-- The call moves the break at most up to the limit. -/
def BelowLimit (size : Nat) (heap : Libc.Malloc) : Prop :=
  size < 2 ^ 31 ∧ (0 < size →
    (heap.blocks = 0 ∨ (Libc.mallocFind heap.process (alignUp size 4) mallocTurns heap.blocks heap.blocks).map Prod.snd = some 0) →
    heap.remaining < alignUp size 4 + mallocHeader →
    heap.process.mm.brk + (alignUp size 4 + mallocHeader) + physMmBlock ≤ 2 ^ 31)

instance (size : Nat) (heap : Libc.Malloc) : Decidable (BelowLimit size heap) := by unfold BelowLimit; infer_instance

/-- A block that holds the size is handed out, and the other blocks stay where they are. -/
structure Hands (heap next : Libc.Malloc) (vm bottom size place : Nat) (blocks changed : List Block) : Prop where
  widens : Widens heap.process next.process
  stocked : ∃ base, Stocked next vm bottom base changed
  block : ∃ block ∈ changed, block.address = place ∧ size ≤ block.size
  others : ∀ old ∈ blocks, ∃ other ∈ changed, other.address = old.address

theorem reused_first (block : Block) (fits : size ≤ block.size) : ∃ taken rest, reused block size = taken :: rest ∧
    taken.address = block.address ∧ size ≤ taken.size := by
  unfold reused
  split
  next => exact ⟨_, _, rfl, rfl, le_rfl⟩
  next => exact ⟨_, _, rfl, rfl, fits⟩

theorem reuse_hands {before after : List Block} (stocked : Stocked heap vm bottom base (before ++ block :: after))
    (fits : size ≤ block.size) :
    ∃ next, access (splitPlace block.address size heap.process.memory) mallocHeader (mallocReuse block.address size) heap = some next ∧
      Hands heap next vm bottom size block.address (before ++ block :: after) (before ++ reused block size ++ after) := by
  have member : block ∈ before ++ block :: after := List.mem_append_right _ List.mem_cons_self
  have inside := stocked.header member
  have below := stocked.below
  have stored := (stocked.laid.written block member).size
  have place : block.address ≤ splitPlace block.address size heap.process.memory ∧
      splitPlace block.address size heap.process.memory + mallocHeader ≤ base := by
    unfold splitPlace
    rw [stored]
    split <;> omega
  obtain ⟨taken, rest, first, address, large⟩ := reused_first block fits
  have bounded : base < 2 ^ 32 := by
    have small := stocked.base_small
    omega
  refine ⟨_, access_spec heap stocked.ready (by omega) (by omega), ⟨⟨rfl, rfl, fun _ old => old⟩, le_rfl⟩,
    ⟨base, stocked.ready.memory, stocked.laid.reuse bounded, stocked.lowest, stocked.level, ?_⟩, ⟨taken, ?_, address, large⟩, ?_⟩
  · refine .inl (stocked.current.resolve_right fun unstarted => ?_)
    exact List.append_ne_nil_of_right_ne_nil _ (List.cons_ne_nil _ _) unstarted.2.2
  · simp [first]
  · intro old known
    rcases eq_or_ne old block with rfl | different
    · exact ⟨taken, by simp [first], address⟩
    · exact ⟨old, by grind, rfl⟩

theorem grow_hands (stocked : Stocked heap vm bottom base blocks) (small : size ≤ 2 ^ 31)
    (room : heap.remaining < size + mallocHeader → heap.process.mm.brk + (size + mallocHeader) + physMmBlock ≤ 2 ^ 31) :
    ∃ next, Libc.mallocGet (lastAddress blocks) size heap = some (base, next) ∧ next.blocks = heap.blocks ∧
      Hands heap { next with blocks := if blocks.isEmpty then base else heap.blocks } vm bottom size base blocks
        (blocks ++ [⟨base, size, false⟩]) := by
  obtain ⟨next, ran, widens, same, later⟩ := mallocGet_spec stocked small room
  refine ⟨next, ran, same, widens, ⟨_, later⟩, ⟨_, List.mem_append_right _ List.mem_cons_self, rfl, le_rfl⟩, ?_⟩
  exact fun old member => ⟨old, List.mem_append_left _ member, rfl⟩

theorem mallocServe_taken (stocked : Stocked heap vm bottom base blocks)
    (fits : ∃ old ∈ blocks, fitting size old = true) :
    ∃ place next changed, Libc.mallocServe size heap = some (place, next) ∧
      Hands heap next vm bottom size place blocks changed := by
  obtain ⟨block, found⟩ := Option.isSome_iff_exists.mp (List.find?_isSome.mpr fits)
  obtain ⟨large, before, after, rfl, _⟩ := List.find?_eq_some_iff_append.mp found
  rw [fitting, Bool.and_eq_true, decide_eq_true_eq] at large
  obtain ⟨next, reached, hands⟩ := reuse_hands stocked large.2
  exact ⟨block.address, next, _, by rw [mallocServe_found stocked found, reached, Option.map_some], hands⟩

theorem mallocServe_hands (stocked : Stocked heap vm bottom base blocks) (small : size ≤ 2 ^ 31)
    (room : (heap.blocks = 0 ∨ (Libc.mallocFind heap.process size mallocTurns heap.blocks heap.blocks).map Prod.snd = some 0) →
      heap.remaining < size + mallocHeader → heap.process.mm.brk + (size + mallocHeader) + physMmBlock ≤ 2 ^ 31) :
    ∃ place next changed, Libc.mallocServe size heap = some (place, next) ∧ Hands heap next vm bottom size place blocks changed := by
  cases found : blocks.find? (fitting size) with
  | some block => exact mallocServe_taken stocked ⟨block, List.mem_of_find?_eq_some found, List.find?_some found⟩
  | none =>
    obtain ⟨passed, ran, _⟩ := stocked.searched size heap.blocks
    rw [found] at ran
    obtain ⟨next, got, same, hands⟩ := grow_hands stocked small (room (.inr (by rw [ran]; rfl)))
    rw [← same] at hands
    exact ⟨base, _, _, by rw [mallocServe_none stocked found, got, Option.map_some], hands⟩

theorem alignUp_small (small : size < 2 ^ 31) : size ≤ alignUp size 4 ∧ alignUp size 4 ≤ 2 ^ 31 := by
  have aligned : alignUp size 4 = (size + 3) / 4 * 4 := alignUp_four (by omega)
  omega

theorem malloc_hands (stocked : Stocked heap vm bottom base blocks) (positive : 0 < size)
    (limit : BelowLimit size heap) :
    ∃ place next changed, Libc.malloc size heap = some (place + mallocHeader, next) ∧
      Hands heap next vm bottom size place blocks changed := by
  obtain ⟨larger, small⟩ := alignUp_small limit.1
  obtain ⟨place, next, changed, served, hands⟩ := mallocServe_hands stocked small (limit.2 positive)
  obtain ⟨block, member, rfl, large⟩ := hands.block
  obtain ⟨stop, later⟩ := hands.stocked
  have stored := later.positive block member
  have inside := later.header member
  have bounded := later.base_small
  have sum : (block.address + mallocHeader) % 2 ^ 32 = block.address + mallocHeader := Nat.mod_eq_of_lt (by omega)
  refine ⟨block.address, next, changed, ?_, hands.widens, hands.stocked, ⟨block, member, rfl, larger.trans large⟩, hands.others⟩
  rw [Libc.malloc, if_neg (Nat.not_le.mpr positive), served, Option.map_some]
  simp only
  rw [if_pos stored, sum]

theorem calloc_hands {nitems : Nat} (stocked : Stocked heap vm bottom base blocks)
    (positive : 0 < nitems * size % 2 ^ 32) (limit : BelowLimit (nitems * size % 2 ^ 32) heap) :
    ∃ place next changed, Libc.calloc nitems size heap = some (place + mallocHeader, next) ∧
      Hands heap next vm bottom (nitems * size % 2 ^ 32) place blocks changed := by
  obtain ⟨place, next, changed, ran, hands⟩ := malloc_hands stocked positive limit
  obtain ⟨block, member, rfl, large⟩ := hands.block
  obtain ⟨stop, later⟩ := hands.stocked
  have inside := later.header member
  have below := later.below
  have stored : block.address + mallocHeader ≠ 0 := Nat.succ_ne_zero _
  generalize cleared : next.process.memory.fill (block.address + mallocHeader) (nitems * size % 2 ^ 32) 0 = memory
  have laid : Laid memory bottom next.blocks changed stop := by
    refine later.laid.congr fun other known place low high => ?_
    have outside : place < block.address + mallocHeader ∨ block.address + mallocHeader + nitems * size % 2 ^ 32 ≤ place := by
      rcases eq_or_ne other block with rfl | different
      · exact .inl high
      · have apart := later.laid.tiles.apart known member different
        simp only [Apart, Block.extent] at apart
        omega
    rw [← cleared]
    exact Memory.write_outside outside
  refine ⟨block.address, { next with process.memory := memory }, changed, ?_,
    ⟨⟨hands.widens.extended.brkStart, hands.widens.extended.frames, hands.widens.extended.pages⟩, hands.widens.brk⟩,
    ⟨stop, later.ready.memory, laid, later.lowest, later.level, later.current⟩, hands.block, hands.others⟩
  rw [Libc.calloc, ran, Option.bind_some]
  simp only
  rw [if_neg stored, access_spec next later.ready (by omega) (by omega), Option.map_some, cleared]

def headers (memory : Memory) : Nat → Nat → List Nat
  | 0, _ => []
  | turns + 1, block => if block = 0 then [] else block :: headers memory turns (blockNext memory block)

theorem mem_headers {memory : Memory} (linked : Linked memory first blocks 0)
    (positive : ∀ block ∈ blocks, block.address ≠ 0) (enough : blocks.length ≤ turns) (member : block ∈ blocks) :
    block.address ∈ headers memory turns first := by
  induction blocks generalizing turns first with
  | nil => cases member
  | cons here rest ih =>
    obtain ⟨turns, rfl⟩ := Nat.exists_eq_succ_of_ne_zero (Nat.ne_of_gt (Nat.zero_lt_of_lt enough))
    obtain ⟨rfl, linked⟩ := linked
    rw [headers, if_neg (positive here List.mem_cons_self)]
    rcases List.mem_cons.mp member with rfl | later
    · exact List.mem_cons_self
    · exact List.mem_cons_of_mem _ (ih linked (fun other inside => positive other (List.mem_cons_of_mem _ inside))
        (Nat.le_of_succ_le_succ enough) later)

/-- A byte of memory is in no header of the list. -/
def OutsideHeaders (heap : Libc.Malloc) (address : Nat) : Prop :=
  ∀ block ∈ headers heap.process.memory mallocTurns heap.blocks, address < block ∨ block + mallocHeader ≤ address

instance (heap : Libc.Malloc) (address : Nat) : Decidable (OutsideHeaders heap address) := by
  unfold OutsideHeaders; infer_instance

inductive LibcCall
  | setup (increment : Nat)
  | malloc (size : Nat)
  | calloc (nitems size : Nat)
  | free (ptr : Nat)
  | store (address : Nat) (byte : BitVec 8)

/-- The heap with the pointers handed out so far and the sizes asked for. -/
structure LibcState where
  heap : Libc.Malloc
  handed : List (Nat × Nat)

/-- No block is handed out with `NULL`. -/
def LibcState.hand (state : LibcState) (size ptr : Nat) (heap : Libc.Malloc) : LibcState :=
  ⟨heap, if ptr = 0 then state.handed else (ptr, size) :: state.handed⟩

def libcStep (state : LibcState) : LibcCall → Option LibcState
  | .setup increment => (state.heap.process.schedProcessSbrk increment).map fun (_, process) =>
      { state with heap.process := process }
  | .malloc size => (Libc.malloc size state.heap).map fun (ptr, heap) => state.hand size ptr heap
  | .calloc nitems size => (Libc.calloc nitems size state.heap).map fun (ptr, heap) =>
      state.hand (nitems * size % 2 ^ 32) ptr heap
  | .free ptr => (Libc.free ptr state.heap).map fun heap => { state with heap }
  | .store address byte => (access address 1 (fun memory => memory.store8 address byte) state.heap).map fun heap =>
      { state with heap }

/-- Requests stay below the limit, `free` gets what was handed out or `NULL`, the
program writes to no header, and the kernel makes room before it starts. -/
def Proper (state : LibcState) : LibcCall → Prop
  | .setup increment => state.heap.current = 0 ∧ state.heap.process.mm.brk + increment + physMmBlock ≤ 2 ^ 31
  | .malloc size => BelowLimit size state.heap
  | .calloc nitems size => BelowLimit (nitems * size % 2 ^ 32) state.heap
  | .free ptr => ptr = 0 ∨ ∃ entry ∈ state.handed, entry.1 = ptr
  | .store address _ => Accessible state.heap.process address 1 ∧ OutsideHeaders state.heap address

instance (state : LibcState) (call : LibcCall) : Decidable (Proper state call) := by
  unfold Proper; cases call <;> infer_instance

/-- A pointer that was handed out lies on a block, and its bytes below the break. -/
structure Covered (process : UserProcess) (blocks : List Block) (entry : Nat × Nat) : Prop where
  block : ∃ block ∈ blocks, entry.1 = block.address + mallocHeader
  lower : process.brkStart + mallocHeader ≤ entry.1
  upper : entry.1 + entry.2 ≤ process.mm.brk

structure Sound (state : LibcState) (vm bottom base : Nat) (blocks : List Block) : Prop where
  stocked : Stocked state.heap vm bottom base blocks
  handed : ∀ entry ∈ state.handed, Covered state.heap.process blocks entry

/-- A state of some sound heap of the area. -/
def Kept (vm : Nat) (state : LibcState) : Prop := ∃ bottom base blocks, Sound state vm bottom base blocks

variable {state : LibcState} {call : LibcCall}

theorem Hands.sound {place : Nat} {changed : List Block}
    (hands : Hands state.heap next vm bottom size place blocks changed)
    (handed : ∀ entry ∈ state.handed, Covered state.heap.process blocks entry) :
    Kept vm (state.hand size (place + mallocHeader) next) := by
  obtain ⟨stop, later⟩ := hands.stocked
  have stored : place + mallocHeader ≠ 0 := Nat.succ_ne_zero _
  refine ⟨bottom, stop, changed, later, fun entry member => ?_⟩
  simp only [LibcState.hand, if_neg stored, List.mem_cons] at member
  rcases member with rfl | old
  · obtain ⟨block, inside, rfl, large⟩ := hands.block
    have bounds := later.header inside
    have below := later.below
    exact ⟨⟨block, inside, rfl⟩, Nat.add_le_add_right bounds.1 _, by simp only [LibcState.hand]; omega⟩
  · obtain ⟨⟨block, inside, address⟩, lower, upper⟩ := handed entry old
    obtain ⟨other, stays, same⟩ := hands.others block inside
    have start : next.process.brkStart = state.heap.process.brkStart := hands.widens.extended.brkStart
    exact ⟨⟨other, stays, by rw [same, address]⟩, start ▸ lower, upper.trans hands.widens.brk⟩

theorem malloc_kept (sound : Sound state vm bottom base blocks) (limit : BelowLimit size state.heap) :
    ∃ after, libcStep state (.malloc size) = some after ∧ Kept vm after := by
  rcases Nat.eq_zero_or_pos size with rfl | positive
  · exact ⟨state, rfl, bottom, base, blocks, sound⟩
  · obtain ⟨place, next, changed, ran, hands⟩ := malloc_hands sound.stocked positive limit
    exact ⟨_, congrArg (Option.map _) ran, hands.sound sound.handed⟩

theorem calloc_kept {nitems : Nat} (sound : Sound state vm bottom base blocks)
    (limit : BelowLimit (nitems * size % 2 ^ 32) state.heap) :
    ∃ after, libcStep state (.calloc nitems size) = some after ∧ Kept vm after := by
  rcases Nat.eq_zero_or_pos (nitems * size % 2 ^ 32) with zero | positive
  · have ran : Libc.calloc nitems size state.heap = some (0, state.heap) := by
      rw [Libc.calloc, zero]
      rfl
    exact ⟨state, congrArg (Option.map _) ran, bottom, base, blocks, sound⟩
  · obtain ⟨place, next, changed, ran, hands⟩ := calloc_hands sound.stocked positive limit
    exact ⟨_, congrArg (Option.map _) ran, hands.sound sound.handed⟩

theorem free_kept {ptr : Nat} (sound : Sound state vm bottom base blocks)
    (known : ∃ entry ∈ state.handed, entry.1 = ptr) :
    ∃ after, libcStep state (.free ptr) = some after ∧ Kept vm after := by
  obtain ⟨entry, inside, rfl⟩ := known
  obtain ⟨⟨block, member, address⟩, _, _⟩ := sound.handed entry inside
  have bounds := sound.stocked.header member
  have below := sound.stocked.below
  have small := sound.stocked.ready.small
  have place : (entry.1 + 2 ^ 32 - mallocHeader) % 2 ^ 32 = block.address := by omega
  have written := sound.stocked.laid.written block member
  obtain ⟨before, after, rfl⟩ := List.append_of_mem member
  have laid : Laid (setBlockFree state.heap.process.memory block.address true) bottom state.heap.blocks
      (before ++ [⟨block.address, block.size, true⟩] ++ after) base := by
    refine sound.stocked.laid.replace (fun place away => setBlockFree_outside ?_) ⟨rfl, rfl⟩ ⟨rfl, blockNext_setFree⟩ ?_
    · simp only [Block.extent] at away
      omega
    · simpa using ⟨blockSize_setFree.trans written.size, blockFree_setFree⟩
  refine ⟨{ state with heap.process.memory := setBlockFree state.heap.process.memory block.address true }, ?_, bottom, base,
    before ++ [⟨block.address, block.size, true⟩] ++ after,
    ⟨sound.stocked.ready.memory, laid, sound.stocked.lowest, sound.stocked.level, ?_⟩, fun other old => ?_⟩
  · rw [libcStep, Libc.free, place]
    exact congrArg (Option.map _) (access_spec state.heap sound.stocked.ready bounds.1 (by omega))
  · refine .inl (sound.stocked.current.resolve_right fun unstarted => ?_)
    exact List.append_ne_nil_of_right_ne_nil _ (List.cons_ne_nil _ _) unstarted.2.2
  · obtain ⟨⟨held, kept, there⟩, lower, upper⟩ := sound.handed other old
    refine ⟨?_, lower, upper⟩
    rcases eq_or_ne held block with rfl | different
    · exact ⟨⟨held.address, held.size, true⟩, by simp, there⟩
    · exact ⟨held, by grind, there⟩

theorem store_kept {address : Nat} {byte : BitVec 8} (sound : Sound state vm bottom base blocks)
    (reached : Accessible state.heap.process address 1) (outside : OutsideHeaders state.heap address) :
    ∃ after, libcStep state (.store address byte) = some after ∧ Kept vm after := by
  have laid : Laid (state.heap.process.memory.store8 address byte) bottom state.heap.blocks blocks base := by
    refine sound.stocked.laid.congr fun block member place low high => Memory.write_outside ?_
    have apart := outside _ (mem_headers sound.stocked.laid.linked sound.stocked.positive sound.stocked.short.le member)
    omega
  exact ⟨_, congrArg (Option.map _) (if_pos reached), bottom, base, blocks,
    ⟨sound.stocked.ready.memory, laid, sound.stocked.lowest, sound.stocked.level, sound.stocked.current⟩,
    fun entry old => ⟨(sound.handed entry old).block, (sound.handed entry old).lower, (sound.handed entry old).upper⟩⟩

/-- Before the program starts there are no blocks, so the break may move. -/
theorem setup_kept (sound : Sound state vm bottom base blocks) (unstarted : state.heap.current = 0)
    (fits : state.heap.process.mm.brk + increment + physMmBlock ≤ 2 ^ 31) :
    ∃ after, libcStep state (.setup increment) = some after ∧ Kept vm after := by
  have positive := sound.stocked.ready.positive
  have above := sound.stocked.ready.area.above
  have page : state.heap.process.mm.brk + increment + physMmBlock ≤ 2 ^ 32 := by omega
  have sum : (state.heap.process.mm.brk + increment) % 2 ^ 32 = state.heap.process.mm.brk + increment := Nat.mod_eq_of_lt (by omega)
  obtain ⟨after, answered, moves⟩ := syscallBrk_moves sound.stocked.ready.area (by omega) (by omega) page
  have bounds := pageAlign_bounds page
  have small : after.mm.brk < 2 ^ 31 := by
    have aligned := (pageAlign_onPage (state.heap.process.mm.brk + increment)).aligned
    rw [moves.brk]
    unfold physMmBlock at *
    omega
  have vacant := sound.stocked.current.resolve_left fun same =>
    absurd (same.symm.trans unstarted) (Nat.ne_of_gt sound.stocked.base_positive)
  obtain ⟨_, remaining, rfl⟩ := vacant
  have first : state.heap.blocks = 0 := sound.stocked.laid.linked
  have level : after.mm.brk + state.heap.remaining = after.mm.brk := by rw [remaining, Nat.add_zero]
  refine ⟨{ state with heap.process := after }, ?_, after.mm.brk, after.mm.brk, [],
    ⟨⟨moves.area, small⟩, ⟨rfl, first, by simp⟩, moves.area.above, level, .inr ⟨unstarted, remaining, rfl⟩⟩, fun entry old => ?_⟩
  · rw [libcStep, UserProcess.schedProcessSbrk, sum, answered]
    rfl
  · obtain ⟨block, member, _⟩ := (sound.handed entry old).block
    cases member

/-- `free` of `NULL` faults. -/
theorem free_null (heap : Libc.Malloc) : Libc.free 0 heap = none := by
  refine if_neg fun reached => ?_
  have upper : (0 + 2 ^ 32 - mallocHeader) % 2 ^ 32 + mallocHeader ≤ kernelVirtAddr := reached.2
  exact absurd upper (by decide)

theorem step_kept (kept : Kept vm state) (proper : Proper state call) (real : call ≠ .free 0) :
    ∃ after, libcStep state call = some after ∧ Kept vm after := by
  obtain ⟨bottom, base, blocks, sound⟩ := kept
  cases call with
  | setup increment => exact setup_kept sound proper.1 proper.2
  | malloc size => exact malloc_kept sound proper
  | calloc nitems size => exact calloc_kept sound proper
  | free ptr => exact free_kept sound (proper.resolve_left fun null => real (congrArg LibcCall.free null))
  | store address byte => exact store_kept sound proper.1 proper.2

theorem step_preserves {after : LibcState} (kept : Kept vm state) (proper : Proper state call)
    (stepped : libcStep state call = some after) : Kept vm after := by
  have real : call ≠ .free 0 := by
    rintro rfl
    rw [libcStep, free_null] at stepped
    cases stepped
  obtain ⟨other, ran, later⟩ := step_kept kept proper real
  rw [stepped] at ran
  cases ran
  exact later

def libcStart (process : UserProcess) : LibcState := ⟨⟨process, 0, 0, 0⟩, []⟩

/-- The two ends of the heap are one, and all that was handed out lies between the
start and the break in pages that are mapped. -/
def Agrees (state : LibcState) : Prop :=
  (state.handed ≠ [] → state.heap.current + state.heap.remaining = state.heap.process.mm.brk) ∧
  ∀ entry ∈ state.handed, mallocHeader < entry.1 ∧ ∀ place, entry.1 - mallocHeader ≤ place → place < entry.1 + entry.2 →
    state.heap.process.brkStart ≤ place ∧ place < state.heap.process.mm.brk ∧
      state.heap.process.mapped (place / physMmBlock) = true

theorem Kept.agrees (kept : Kept vm state) : Agrees state := by
  obtain ⟨bottom, base, blocks, sound⟩ := kept
  have positive := sound.stocked.ready.positive
  refine ⟨fun started => ?_, fun entry member => ?_⟩
  · obtain ⟨entry, member⟩ := List.exists_mem_of_ne_nil _ started
    obtain ⟨block, inside, _⟩ := (sound.handed entry member).block
    have current := sound.stocked.current.resolve_right fun unstarted => absurd (unstarted.2.2 ▸ inside) List.not_mem_nil
    rw [current]
    exact sound.stocked.level
  · obtain ⟨_, lower, upper⟩ := sound.handed entry member
    refine ⟨by omega, fun place above below => ?_⟩
    have bounds : state.heap.process.brkStart ≤ place ∧ place < state.heap.process.mm.brk := by omega
    exact ⟨bounds.1, bounds.2, sound.stocked.ready.area.mapped bounds.1 bounds.2⟩

/-- The heap of a program starts empty at the break. -/
theorem libcStart_sound {buffer : Nat} {layout : Elf32Layout} {load : Elf32Load} (fresh : Fresh process)
    (loaded : elf32Load buffer process = some (some layout, load))
    (found : mmapFindVm load.process.brkStart load.process.mm = some (some vm)) (below : load.process.mm.brk < 2 ^ 31) :
    Sound (libcStart load.process) vm load.process.mm.brk load.process.mm.brk [] := by
  obtain ⟨backed, brk, onPage⟩ := elf32Load_backed fresh.backed loaded
  have holds := (mmapFindVm_holds backed.paged found).2
  have area : HeapArea load.process vm :=
    ⟨backed, found, brk ▸ onPage, Nat.le_of_eq brk.symm, brk ▸ Nat.le_of_lt holds.2⟩
  exact ⟨⟨⟨area, below⟩, ⟨rfl, rfl, by simp [libcStart]⟩, Nat.le_of_eq brk.symm, rfl, .inr ⟨rfl, rfl, rfl⟩⟩, by simp [libcStart]⟩

/-- In a process that `elf32_load` has set up and whose heap area `brk` finds, the
library and the kernel agree after every sequence of calls, and every sequence
without `free` of `NULL` returns. -/
theorem libc_agrees_with_break {buffer : Nat} {layout : Elf32Layout} {load : Elf32Load} {calls : List LibcCall}
    (fresh : Fresh process) (loaded : elf32Load buffer process = some (some layout, load))
    (found : ∃ vm, mmapFindVm load.process.brkStart load.process.mm = some (some vm))
    (below : load.process.mm.brk < 2 ^ 31) (met : Meets libcStep Proper (libcStart load.process) calls) :
    (∀ final, run libcStep (libcStart load.process) calls = some final → Agrees final) ∧
      ((∀ call ∈ calls, call ≠ .free 0) → (run libcStep (libcStart load.process) calls).isSome) := by
  obtain ⟨vm, found⟩ := found
  have start : Kept vm (libcStart load.process) := ⟨_, _, [], libcStart_sound fresh loaded found below⟩
  refine ⟨fun final ran => ?_, fun real => ?_⟩
  · exact (run_invariant (Kept vm) (fun _ _ _ kept proper stepped => step_preserves kept proper stepped) start met ran).agrees
  · obtain ⟨final, ran, _⟩ := run_returns (Kept vm) (fun _ _ kept proper => step_kept kept proper.1 proper.2) start (met.and real)
    exact Option.isSome_of_eq_some ran

/-- A file with one segment of 16 bytes, four of them in the file. -/
def elfExample : List (BitVec 8) :=
  [0x7F, 0x45, 0x4C, 0x46, 1, 1, 1, 0, 0, 0, 0, 0, 0, 0, 0, 0, 2, 0, 3, 0, 1, 0, 0, 0, 4, 0x10, 0, 0, 52, 0, 0, 0,
    0, 0, 0, 0, 0, 0, 0, 0, 52, 0, 32, 0, 1, 0, 0, 0, 0, 0, 0, 0,
    1, 0, 0, 0, 84, 0, 0, 0, 4, 0x10, 0, 0, 4, 0x10, 0, 0, 4, 0, 0, 0, 16, 0, 0, 0, 5, 0, 0, 0, 0, 0, 0, 0, 9, 8, 7, 6]

def libcExampleCalls : List LibcCall :=
  [.setup 10, .malloc 40, .calloc 3 5, .free 0x3010, .store 0x3050 255, .malloc 1, .malloc 200000]

theorem libc_agrees_with_break_example : ∃ layout load final,
    elf32Load 0xD0001000 (elfProcess 0xD0001000 elfExample) = some (some layout, load) ∧
    run libcStep (libcStart load.process) libcExampleCalls = some final ∧
    final.handed = [(0x3068, 200000), (0x3010, 1), (0x3048, 15), (0x3010, 40)] ∧ Agrees final := by
  have ends : (elf32Load 0xD0001000 (elfProcess 0xD0001000 elfExample)).map (fun result =>
      (result.1.isSome, decide (mmapFindVm result.2.process.brkStart result.2.process.mm = some (some 1) ∧
        result.2.process.mm.brk < 2 ^ 31 ∧ Meets libcStep Proper (libcStart result.2.process) libcExampleCalls),
        (run libcStep (libcStart result.2.process) libcExampleCalls).map fun final => final.handed)) =
      some (true, true, some [(0x3068, 200000), (0x3010, 1), (0x3048, 15), (0x3010, 40)]) := by decide +kernel
  obtain ⟨⟨returned, load⟩, loaded, same⟩ := Option.map_eq_some_iff.mp ends
  simp only [Prod.mk.injEq, decide_eq_true_eq] at same
  obtain ⟨filled, ⟨found, below, met⟩, calls⟩ := same
  obtain ⟨layout, rfl⟩ := Option.isSome_iff_exists.mp filled
  obtain ⟨final, ran, handed⟩ := Option.map_eq_some_iff.mp calls
  obtain ⟨agrees, _⟩ := libc_agrees_with_break (elfProcess_fresh _ _) loaded ⟨1, found⟩ below met
  exact ⟨layout, load, final, loaded, ran, handed, agrees final ran⟩

end YuzuOS.Proofs.LibcHeap
