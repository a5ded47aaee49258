import Mathlib.Data.List.Nodup
import YuzuOS.Library.Chain
import YuzuOS.Library.Run
import YuzuOS.Kernel.Malloc

/-! Runs of the kernel heap: its blocks tile the heap, and the live payloads
stay apart from each other and from every header. -/

namespace YuzuOS.Proofs.HeapTiling
open YuzuOS.Library YuzuOS.Kernel

structure Block where
  address : Nat
  size : Nat
  free : Bool

def Block.extent (block : Block) : Nat := mallocHeader + block.size

/-- The header in memory says what the block says. -/
structure Written (memory : Memory) (block : Block) : Prop where
  size : blockSize memory block.address = block.size
  free : blockFree memory block.address = block.free

structure Regular (block : Block) : Prop where
  aligned : block.address % 4 = 0
  whole : block.size % 4 = 0
  small : block.size ≤ mallocLimit

abbrev Linked (memory : Memory) : Nat → List Block → Nat → Prop :=
  Chain Block.address fun block => blockNext memory block.address

structure Tiled (heap : Malloc) (blocks : List Block) : Prop where
  tiles : Tiles Block.address Block.extent heapBottom blocks heap.current
  linked : Linked heap.memory heap.blocks blocks 0
  written : ∀ block ∈ blocks, Written heap.memory block
  regular : ∀ block ∈ blocks, Regular block
  aligned : heap.current % 4 = 0
  bounded : heap.current < 2 ^ 32

structure Laid (memory : Memory) (bottom first : Nat) (blocks : List Block) (stop : Nat) : Prop where
  tiles : Tiles Block.address Block.extent bottom blocks stop
  linked : Linked memory first blocks 0
  written : ∀ block ∈ blocks, Written memory block

variable {heap next : Malloc} {memory changed : Memory} {blocks parts before after : List Block} {block : Block}
  {size last current base turns bottom first stop : Nat}

theorem Written.same (written : Written memory block) (same : SameHeader memory changed block.address) :
    Written changed block :=
  ⟨same.size.trans written.size, same.free.trans written.free⟩

/-- A stretch of memory outside which nothing changes leaves the other headers. -/
theorem Laid.same_headers (laid : Laid memory bottom first (before ++ block :: after) stop)
    (outside : ∀ place, place < block.address ∨ block.address + block.extent ≤ place → changed place = memory place)
    {other : Block} (member : other ∈ before ++ after) : SameHeader memory changed other.address := by
  intro place lower upper
  have apart := laid.tiles.others member
  unfold Apart at apart
  simp only [Block.extent] at apart
  refine outside place ?_
  simp only [Block.extent]
  omega

/-- One block gives way to parts that fill its place. -/
theorem Laid.replace (laid : Laid memory bottom first (before ++ block :: after) stop)
    (outside : ∀ place, place < block.address ∨ block.address + block.extent ≤ place → changed place = memory place)
    (tiles : Tiles Block.address Block.extent block.address parts (block.address + block.extent))
    (linked : Linked changed block.address parts (blockNext memory block.address))
    (written : ∀ part ∈ parts, Written changed part) : Laid changed bottom first (before ++ parts ++ after) stop := by
  have same {other : Block} (member : other ∈ before ++ after) := laid.same_headers outside member
  refine ⟨laid.tiles.replace (fun _ _ => rfl) tiles, laid.linked.replace ?_ linked, ?_⟩
  · intro other member
    exact (same member).next.symm
  · intro other member
    have around : other ∈ parts ∨ other ∈ before ++ after := by grind
    cases around with
    | inl inner => exact written other inner
    | inr away =>
      have outer : other ∈ before ++ block :: after := by grind
      exact (laid.written other outer).same (same away)

/-- Writes that leave every header leave the list. -/
theorem Laid.congr (laid : Laid memory bottom first blocks stop)
    (same : ∀ block ∈ blocks, SameHeader memory changed block.address) : Laid changed bottom first blocks stop :=
  ⟨laid.tiles, (chain_congr fun block member => (same block member).next.symm).mp laid.linked,
    fun block member => (laid.written block member).same (same block member)⟩

theorem Laid.positive (laid : Laid memory bottom first blocks stop) (positive : 0 < bottom) (member : block ∈ blocks) :
    block.address ≠ 0 :=
  Nat.ne_of_gt (positive.trans_le (laid.tiles.bounds member).1)

theorem Laid.length_le (laid : Laid memory bottom first blocks stop) : bottom + mallocHeader * blocks.length ≤ stop :=
  laid.tiles.length_le fun _ _ => Nat.le_add_right _ _

theorem Laid.empty_iff (laid : Laid memory bottom first blocks stop) (positive : 0 < bottom) :
    first = 0 ↔ blocks = [] := by
  cases blocks with
  | nil => exact iff_of_true laid.linked rfl
  | cons block rest =>
    have here : block.address = first := laid.linked.1
    have stored := laid.positive positive List.mem_cons_self
    exact iff_of_false (here ▸ stored) (List.cons_ne_nil _ _)

/-- A block that is found is taken whole, or its front is taken and a free block stays behind. -/
def reused (block : Block) (size : Nat) : List Block :=
  if size + mallocHeader < block.size then
    [⟨block.address, size, false⟩, ⟨block.address + mallocHeader + size, block.size - size - mallocHeader, true⟩]
  else [⟨block.address, block.size, false⟩]

theorem Laid.reuse (laid : Laid memory bottom first (before ++ block :: after) stop) (fits : stop < 2 ^ 32) :
    Laid (mallocReuse block.address size memory) bottom first (before ++ reused block size ++ after) stop := by
  have member : block ∈ before ++ block :: after := List.mem_append_right _ List.mem_cons_self
  have written := laid.written block member
  have extent : block.extent = mallocHeader + block.size := rfl
  have sizes : blockSize (setBlockFree memory block.address false) block.address = block.size := by
    rw [blockSize_setFree, written.size]
  unfold mallocReuse reused
  simp only [sizes]
  split
  next larger =>
    have bounded := (laid.tiles.bounds member).2.trans_lt fits
    obtain ⟨size₁, free₁, next₁, size₂, free₂, next₂, outside⟩ :=
      mallocSplit_spec (setBlockFree memory block.address false) block.address size rfl (by omega)
    refine laid.replace (fun place away => ?_) ?_ ?_ ?_
    · rw [outside place (by omega) (by omega), setBlockFree_outside (by omega)]
    · simp only [Tiles, Chain, Block.extent, true_and]
      omega
    · refine ⟨rfl, ?_, ?_⟩
      · exact next₁.symm
      · exact next₂.trans blockNext_setFree
    · simp only [List.forall_mem_cons, List.not_mem_nil, false_implies, implies_true, and_true]
      exact ⟨⟨size₁, free₁.trans blockFree_setFree⟩, size₂.trans (by rw [sizes]), free₂⟩
  next =>
    refine laid.replace (fun place away => setBlockFree_outside (by omega)) ⟨rfl, rfl⟩ ⟨rfl, blockNext_setFree⟩ ?_
    simp only [List.forall_mem_cons, List.not_mem_nil, false_implies, implies_true, and_true]
    exact ⟨sizes, blockFree_setFree⟩

theorem mallocGet_header (memory : Memory) (base : Nat) (fits : size < 2 ^ 32) :
    let made := setBlockFree (setBlockNext (setBlockSize memory base size) base 0) base false
    Written made ⟨base, size, false⟩ ∧ blockNext made base = 0 ∧
      ∀ place, (place < base ∨ base + mallocHeader ≤ place) → made place = memory place := by
  refine ⟨⟨?_, blockFree_setFree⟩, ?_, fun place apart => ?_⟩
  · rw [blockSize_setFree, blockSize_setNext, blockSize_setSize fits]
  · rw [blockNext_setFree, blockNext_setNext (by decide)]
  · rw [setBlockFree_outside apart, setBlockNext_outside apart, setBlockSize_outside apart]

def lastAddress (blocks : List Block) : Nat := (blocks.getLast?.map Block.address).getD 0

theorem Laid.relink (laid : Laid memory bottom first blocks stop) (positive : 0 < bottom) (fits : stop < 2 ^ 32)
    (linking : changed = if lastAddress blocks ≠ 0 then setBlockNext memory (lastAddress blocks) stop else memory) :
    Linked changed (if blocks.isEmpty then stop else first) blocks stop ∧ ∀ block ∈ blocks, Written changed block := by
  rcases List.eq_nil_or_concat' blocks with rfl | ⟨front, last, rfl⟩
  · exact ⟨rfl, by simp⟩
  · have member : last ∈ front ++ [last] := by simp
    have stored := laid.positive positive member
    have place : lastAddress (front ++ [last]) = last.address := by simp [lastAddress]
    rw [place, if_pos stored] at linking
    subst linking
    have apart {other : Block} (low : other ∈ front) :
        SameHeader memory (setBlockNext memory last.address stop) other.address := by
      have beside := laid.tiles.others (List.mem_append_left [] low)
      simp only [Apart, Block.extent] at beside
      exact sameHeader_of_outside (by omega) fun _ => setBlockNext_outside
    obtain ⟨middle, low, here, _⟩ := chain_append.mp laid.linked
    have occupied : (front ++ [last]).isEmpty = false := by simp
    rw [occupied]
    refine ⟨chain_append.mpr ⟨middle, ?_, here, blockNext_setNext fits⟩, fun other inside => ?_⟩
    · exact (chain_congr fun other low => (apart low).next.symm).mp low
    · rcases List.mem_append.mp inside with low | same
      · exact (laid.written other (List.mem_append_left _ low)).same (apart low)
      · cases List.mem_singleton.mp same
        have written := laid.written _ member
        exact ⟨blockSize_setNext.trans written.size, blockFree_setNext.trans written.free⟩

theorem Laid.append (laid : Laid memory bottom first blocks stop) (positive : 0 < bottom) (fits : stop < 2 ^ 32)
    (small : size < 2 ^ 32)
    (linking : changed = if lastAddress blocks ≠ 0 then setBlockNext memory (lastAddress blocks) stop else memory) :
    Laid (setBlockFree (setBlockNext (setBlockSize changed stop size) stop 0) stop false) bottom
      (if blocks.isEmpty then stop else first) (blocks ++ [⟨stop, size, false⟩]) (stop + (mallocHeader + size)) := by
  obtain ⟨linked, written⟩ := laid.relink positive fits linking
  obtain ⟨made, ends, outside⟩ := mallocGet_header changed stop small
  have same {block : Block} (member : block ∈ blocks) : SameHeader changed
      (setBlockFree (setBlockNext (setBlockSize changed stop size) stop 0) stop false) block.address := by
    have above := (laid.tiles.bounds member).2
    simp only [Block.extent] at above
    exact sameHeader_of_outside (.inl (by omega)) outside
  refine ⟨chain_append.mpr ⟨stop, laid.tiles, rfl, rfl⟩, chain_append.mpr ⟨stop, ?_, rfl, ends⟩, fun block member => ?_⟩
  · exact (chain_congr fun block member => (same member).next.symm).mp linked
  · rcases List.mem_append.mp member with low | new
    · exact (written block low).same (same low)
    · cases List.mem_singleton.mp new
      exact made

theorem Tiled.laid (tiled : Tiled heap blocks) : Laid heap.memory heapBottom heap.blocks blocks heap.current :=
  ⟨tiled.tiles, tiled.linked, tiled.written⟩

theorem Tiled.replace (tiled : Tiled heap (before ++ block :: after))
    (laid : Laid memory heapBottom heap.blocks (before ++ parts ++ after) heap.current)
    (regular : ∀ part ∈ parts, Regular part) : Tiled { heap with memory := memory } (before ++ parts ++ after) := by
  refine ⟨laid.tiles, laid.linked, laid.written, fun other member => ?_, tiled.aligned, tiled.bounded⟩
  have around : other ∈ parts ∨ other ∈ before ++ block :: after := by grind
  cases around with
  | inl inner => exact regular other inner
  | inr outer => exact tiled.regular other outer

theorem heapBottom_positive : 0 < heapBottom := by decide

theorem Tiled.positive (tiled : Tiled heap blocks) (member : block ∈ blocks) : block.address ≠ 0 :=
  tiled.laid.positive heapBottom_positive member

/-- A heap with blocks is not empty, and the loop has turns enough for it. -/
theorem Tiled.short (tiled : Tiled heap blocks) : blocks.length < mallocTurns := by
  have filled := tiled.laid.length_le
  have bounded := tiled.bounded
  unfold heapBottom mallocHeader at filled
  unfold mallocTurns
  omega

/-- The blocks that a call for `size` bytes may take. -/
def fitting (size : Nat) (block : Block) : Bool := block.free && decide (size ≤ block.size)

/-- The search ends at the first free block that is large enough, or at the end. -/
theorem mallocFind_spec (enough : blocks.length < turns) (linked : Linked memory current blocks 0)
    (written : ∀ block ∈ blocks, Written memory block) (regular : ∀ block ∈ blocks, Regular block)
    (positive : ∀ block ∈ blocks, block.address ≠ 0) :
    ∃ passed, mallocFind turns memory size last current =
        some (passed, ((blocks.find? (fitting size)).map Block.address).getD 0) ∧
      (blocks.find? (fitting size) = none → passed = (blocks.getLast?.map Block.address).getD last) := by
  induction blocks generalizing turns last current with
  | nil =>
    obtain ⟨turns, rfl⟩ := Nat.exists_eq_succ_of_ne_zero (Nat.ne_of_gt enough)
    cases linked
    exact ⟨last, by simp [mallocFind], fun _ => rfl⟩
  | cons block rest ih =>
    obtain ⟨turns, rfl⟩ := Nat.exists_eq_succ_of_ne_zero (Nat.ne_of_gt (Nat.zero_lt_of_lt enough))
    obtain ⟨here, linked⟩ := linked
    subst here
    have header := written block List.mem_cons_self
    have stored := positive block List.mem_cons_self
    rw [mallocFind, header.size, header.free]
    split
    next hit =>
      have taken : fitting size block = true := by
        rw [fitting, Bool.and_eq_true, decide_eq_true_eq]
        exact hit.resolve_left stored
      rw [List.find?_cons_of_pos taken]
      exact ⟨last, rfl, nofun⟩
    next miss =>
      have passedBy : ¬fitting size block = true := by
        rw [fitting, Bool.and_eq_true, decide_eq_true_eq]
        exact (not_or.mp miss).2
      have small := (regular block List.mem_cons_self).small
      have asserted : ¬(blockNext memory block.address ≠ 0 ∧
          mallocLimit < blockSize memory (blockNext memory block.address)) := by
        cases rest with
        | nil =>
          have none : blockNext memory block.address = 0 := linked
          simp [none]
        | cons second rest =>
          have member : second ∈ block :: second :: rest := List.mem_cons_of_mem _ List.mem_cons_self
          have follows : blockNext memory block.address = second.address := linked.1.symm
          rw [follows, (written second member).size]
          exact fun large => absurd large.2 (Nat.not_lt.mpr (regular second member).small)
      rw [if_neg (Nat.not_lt.mpr small), if_neg asserted, List.find?_cons_of_neg passedBy]
      obtain ⟨passed, ran, ends⟩ := ih (Nat.lt_of_succ_lt_succ enough) linked
        (fun other member => written other (List.mem_cons_of_mem _ member))
        (fun other member => regular other (List.mem_cons_of_mem _ member))
        (fun other member => positive other (List.mem_cons_of_mem _ member))
      refine ⟨passed, ran, fun none => (ends none).trans ?_⟩
      cases rest <;> simp [List.getLast?_cons]

theorem mallocReuse_spec (tiled : Tiled heap (before ++ block :: after)) (fits : size ≤ block.size)
    (whole : size % 4 = 0) :
    ∃ taken rest, Tiled { heap with memory := mallocReuse block.address size heap.memory } (before ++ taken :: rest ++ after) ∧
      taken.address = block.address ∧ taken.free = false ∧ size ≤ taken.size := by
  have regular := tiled.regular block (List.mem_append_right _ List.mem_cons_self)
  have aligned := regular.aligned
  have multiple := regular.whole
  have small := regular.small
  have header : mallocHeader = 16 := rfl
  have laid : Laid (mallocReuse block.address size heap.memory) heapBottom heap.blocks
      (before ++ reused block size ++ after) heap.current := tiled.laid.reuse tiled.bounded
  unfold reused at laid
  split at laid
  next larger =>
    refine ⟨⟨block.address, size, false⟩, _, tiled.replace laid ?_, rfl, rfl, Nat.le_refl _⟩
    simp only [List.forall_mem_cons, List.not_mem_nil, false_implies, implies_true, and_true]
    have first : size ≤ mallocLimit := by omega
    have second : block.size - size - mallocHeader ≤ mallocLimit := by omega
    exact ⟨⟨aligned, whole, first⟩, by simp only; omega, by simp only; omega, second⟩
  next =>
    refine ⟨⟨block.address, block.size, false⟩, [], tiled.replace laid ?_, rfl, rfl, fits⟩
    simpa using ⟨aligned, multiple, small⟩

theorem mallocSbrk_spec {increment : Nat} (positive : increment ≠ 0)
    (broke : mallocSbrk increment heap = some (base, next)) :
    base = heap.current ∧ next.current = heap.current + increment ∧ next.current < 2 ^ 32 ∧ next.blocks = heap.blocks ∧
      next.memory = heap.memory.fill heap.current increment 0 := by
  unfold mallocSbrk at broke
  rw [if_neg positive] at broke
  split at broke
  next => cases broke
  next inside =>
    simp only at broke
    split at broke
    next =>
      cases broke
      exact ⟨rfl, rfl, Nat.not_le.mp inside, rfl, rfl⟩
    next =>
      obtain ⟨mapped, _, same⟩ := Option.map_eq_some_iff.mp broke
      cases same
      exact ⟨rfl, rfl, Nat.not_le.mp inside, rfl, rfl⟩

/-- The heap grows by one block, linked behind the last one. -/
theorem mallocGet_spec (tiled : Tiled heap blocks) (whole : size % 4 = 0) (small : size ≤ mallocLimit)
    (got : mallocGet (lastAddress blocks) size heap = some (base, next)) :
    base = heap.current ∧ next.blocks = heap.blocks ∧
      Tiled { next with blocks := if blocks.isEmpty then base else heap.blocks }
        (blocks ++ [⟨heap.current, size, false⟩]) := by
  have header : mallocHeader = 16 := rfl
  have limit : mallocLimit = 0x2000000 := rfl
  have increment : (size + mallocHeader) % 2 ^ 32 = size + mallocHeader := Nat.mod_eq_of_lt (by omega)
  unfold mallocGet at got
  rw [increment] at got
  obtain ⟨⟨place, grown⟩, broke, made⟩ := Option.map_eq_some_iff.mp got
  obtain ⟨rfl, current, bounded, first, cleared⟩ := mallocSbrk_spec (by omega) broke
  simp only [Prod.mk.injEq] at made
  obtain ⟨rfl, rfl⟩ := made
  have below {block : Block} (member : block ∈ blocks) : block.address + mallocHeader ≤ heap.current := by
    have above := (tiled.tiles.bounds member).2
    simp only [Block.extent] at above
    omega
  -- the cleared stretch starts behind every header
  have old : Laid grown.memory heapBottom heap.blocks blocks heap.current := by
    refine tiled.laid.congr fun block member place lower upper => ?_
    have under := below member
    rw [cleared, Memory.fill, Memory.write_outside (by omega)]
  have stop : heap.current + (mallocHeader + size) = grown.current := by omega
  have laid := old.append heapBottom_positive tiled.bounded (show size < 2 ^ 32 by omega) rfl
  rw [stop] at laid
  refine ⟨rfl, first, laid.tiles, laid.linked, laid.written, fun block member => ?_, ?_, bounded⟩
  · rcases List.mem_append.mp member with low | new
    · exact tiled.regular block low
    · cases List.mem_singleton.mp new
      exact ⟨tiled.aligned, whole, small⟩
  · have aligned := tiled.aligned
    simp only [current]
    omega

/-- A block of the size is taken, and no block that was in use is touched. -/
def Serves (blocks : List Block) (size base : Nat) (next : Malloc) : Prop :=
  ∃ changed block, Tiled next changed ∧ block ∈ changed ∧ base = block.address ∧ block.free = false ∧ size ≤ block.size ∧
    ∀ old ∈ blocks, old.free = false → old ∈ changed ∧ old.address ≠ base

/-- Free blocks give way, so what is in use stays beside them. -/
theorem Tiled.beside (tiled : Tiled heap (before ++ block :: after)) {other : Block}
    (member : other ∈ before ++ block :: after) (different : other.free ≠ block.free) :
    other ∈ before ++ after ∧ other.address ≠ block.address := by
  have around : other ∈ before ++ after := by
    have apart : other ≠ block := fun same => different (congrArg Block.free same)
    grind
  have beside := tiled.tiles.others around
  simp only [Apart, Block.extent, mallocHeader] at beside
  exact ⟨around, by omega⟩

theorem mallocGet_serves (tiled : Tiled heap blocks) (whole : size % 4 = 0) (small : size ≤ mallocLimit)
    (got : mallocGet (lastAddress blocks) size heap = some (base, next)) :
    Serves blocks size base { next with blocks := if blocks.isEmpty then base else heap.blocks } := by
  obtain ⟨rfl, first, grown⟩ := mallocGet_spec tiled whole small got
  refine ⟨_, _, grown, List.mem_append_right _ List.mem_cons_self, rfl, rfl, Nat.le_refl _, fun old member used => ?_⟩
  have above := (tiled.tiles.bounds member).2
  simp only [Block.extent, mallocHeader] at above
  exact ⟨List.mem_append_left _ member, by omega⟩

theorem Tiled.searched (tiled : Tiled heap blocks) (size last : Nat) :
    ∃ passed, mallocFind mallocTurns heap.memory size last heap.blocks =
        some (passed, ((blocks.find? (fitting size)).map Block.address).getD 0) ∧
      (blocks.find? (fitting size) = none → passed = (blocks.getLast?.map Block.address).getD last) :=
  mallocFind_spec tiled.short tiled.linked tiled.written tiled.regular fun _ member => tiled.positive member

theorem Tiled.empty_iff (tiled : Tiled heap blocks) : heap.blocks = 0 ↔ blocks = [] :=
  tiled.laid.empty_iff heapBottom_positive

theorem mallocServe_found (tiled : Tiled heap blocks) (found : blocks.find? (fitting size) = some block) :
    mallocServe size heap = some (block.address, { heap with memory := mallocReuse block.address size heap.memory }) := by
  have member := List.mem_of_find?_eq_some found
  have occupied : heap.blocks ≠ 0 := fun vacant => List.not_mem_nil (tiled.empty_iff.mp vacant ▸ member)
  obtain ⟨passed, ran, _⟩ := tiled.searched size heap.blocks
  rw [found, Option.map_some, Option.getD_some] at ran
  rw [mallocServe, if_pos occupied, ran, Option.bind_some]
  exact if_pos (tiled.positive member)

/-- Where no block fits the heap grows. -/
theorem mallocServe_none (tiled : Tiled heap blocks) (none : blocks.find? (fitting size) = none) :
    mallocServe size heap = (mallocGet (lastAddress blocks) size heap).map fun (block, next) =>
      (block, { next with blocks := if blocks.isEmpty then block else next.blocks }) := by
  rcases List.eq_nil_or_concat' blocks with rfl | ⟨front, last, rfl⟩
  · exact if_neg (not_not_intro (tiled.empty_iff.mpr rfl))
  · have occupied : heap.blocks ≠ 0 := fun vacant => absurd (tiled.empty_iff.mp vacant) (by simp)
    have filled : (front ++ [last]).isEmpty = false := by simp
    obtain ⟨passed, ran, ends⟩ := tiled.searched size heap.blocks
    rw [none, Option.map_none, Option.getD_none] at ran
    have same : passed = lastAddress (front ++ [last]) := by
      rw [ends none, lastAddress]
      simp
    rw [mallocServe, if_pos occupied, ran, Option.bind_some, same, filled]
    exact (if_neg (not_not_intro rfl)).trans Option.map_id'.symm

/-- The blocks change or the heap grows; nothing else can happen. -/
theorem mallocServe_serves (tiled : Tiled heap blocks) (whole : size % 4 = 0) (small : size ≤ mallocLimit)
    (served : mallocServe size heap = some (base, next)) : Serves blocks size base next := by
  cases found : blocks.find? (fitting size) with
  | some block =>
    rw [mallocServe_found tiled found] at served
    cases served
    obtain ⟨fits, before, after, rfl, _⟩ := List.find?_eq_some_iff_append.mp found
    rw [fitting, Bool.and_eq_true, decide_eq_true_eq] at fits
    obtain ⟨taken, rest, changed, address, used, large⟩ := mallocReuse_spec tiled fits.2 whole
    refine ⟨_, taken, changed, by simp, address.symm, used, large, fun old member busy => ?_⟩
    obtain ⟨around, apart⟩ := tiled.beside member (by simp [busy, fits.1])
    exact ⟨by grind, apart⟩
  | none =>
    rw [mallocServe_none tiled found] at served
    obtain ⟨⟨place, grown⟩, got, same⟩ := Option.map_eq_some_iff.mp served
    cases same
    have kept := mallocGet_serves tiled whole small got
    rwa [← (mallocGet_spec tiled whole small got).2.1] at kept

theorem alignUp_size (small : size ≤ mallocLimit) : size ≤ alignUp size 4 ∧ alignUp size 4 ≤ mallocLimit := by
  have limit : mallocLimit = 0x2000000 := rfl
  have aligned : alignUp size 4 = (size + 3) / 4 * 4 := alignUp_four (by omega)
  omega

/-- The payload of a new pointer holds what was asked for. -/
def Allocates (blocks : List Block) (size ptr : Nat) (next : Malloc) : Prop :=
  Serves blocks size (ptr - mallocHeader) next ∧ mallocHeader < ptr

theorem malloc_serves {ptr : Nat} (tiled : Tiled heap blocks) (positive : 1 ≤ size)
    (small : alignUp size 4 ≤ mallocLimit) (called : malloc size heap = some (ptr, next)) :
    Allocates blocks (alignUp size 4) ptr next := by
  unfold malloc at called
  rw [if_neg (Nat.not_le.mpr positive)] at called
  obtain ⟨⟨base, served⟩, serving, checked⟩ := Option.bind_eq_some_iff.mp called
  obtain ⟨changed, block, kept, member, rfl, free, large, others⟩ := mallocServe_serves tiled (alignUp_whole size) small serving
  have stored := kept.positive member
  simp only [ne_eq, stored, not_false_eq_true, if_true] at checked
  split at checked
  next => cases checked
  next =>
    cases checked
    rw [Allocates, Nat.add_sub_cancel]
    exact ⟨⟨changed, block, kept, member, rfl, free, large, others⟩, by omega⟩

theorem malloc_allocates {ptr : Nat} (tiled : Tiled heap blocks) (positive : 1 ≤ size) (small : size ≤ mallocLimit)
    (called : malloc size heap = some (ptr, next)) : Allocates blocks size ptr next := by
  obtain ⟨larger, fits⟩ := alignUp_size small
  obtain ⟨⟨changed, block, kept, member, address, free, large, others⟩, above⟩ := malloc_serves tiled positive fits called
  exact ⟨⟨changed, block, kept, member, address, free, larger.trans large, others⟩, above⟩

/-- A call within the limit returns when a block fits or the break can grow. -/
theorem malloc_returns_iff (tiled : Tiled heap blocks) (positive : 1 ≤ size) (small : alignUp size 4 ≤ mallocLimit) :
    (malloc size heap).isSome ↔ (blocks.find? (fitting (alignUp size 4))).isSome ∨
      (mallocSbrk (alignUp size 4 + mallocHeader) heap).isSome := by
  have header : mallocHeader = 16 := rfl
  have limit : mallocLimit = 0x2000000 := rfl
  have increment : (alignUp size 4 + mallocHeader) % 2 ^ 32 = alignUp size 4 + mallocHeader := Nat.mod_eq_of_lt (by omega)
  have serves : (mallocServe (alignUp size 4) heap).isSome ↔ (blocks.find? (fitting (alignUp size 4))).isSome ∨
      (mallocSbrk (alignUp size 4 + mallocHeader) heap).isSome := by
    cases found : blocks.find? (fitting (alignUp size 4)) with
    | some block => simp [mallocServe_found tiled found]
    | none =>
      rw [mallocServe_none tiled found, Option.isSome_map, mallocGet, increment, Option.isSome_map]
      simp
  rw [← serves, malloc, if_neg (Nat.not_le.mpr positive)]
  cases serving : mallocServe (alignUp size 4) heap with
  | none => rfl
  | some outcome =>
    obtain ⟨changed, block, kept, member, same, _⟩ := mallocServe_serves tiled (alignUp_whole size) small serving
    have checked : ¬mallocLimit < blockSize outcome.2.memory outcome.1 := by
      rw [same, (kept.written block member).size]
      exact Nat.not_lt.mpr (kept.regular block member).small
    simp [checked]

theorem malloc_returns (tiled : Tiled heap blocks) (positive : 1 ≤ size) (small : size ≤ mallocLimit)
    (grows : (mallocSbrk (alignUp size 4 + mallocHeader) heap).isSome) : (malloc size heap).isSome :=
  (malloc_returns_iff tiled positive (alignUp_size small).2).mpr (.inr grows)

/-- Larger blocks than the limit are taken for corrupted. -/
theorem malloc_panics (tiled : Tiled heap blocks) (large : mallocLimit < alignUp size 4) :
    malloc size heap = none := by
  have bounded : alignUp size 4 < 2 ^ 32 := alignUp_lt size
  have positive : ¬size ≤ 0 := by
    intro zero
    rw [Nat.le_zero.mp zero] at large
    exact absurd large (by decide)
  have none : blocks.find? (fitting (alignUp size 4)) = none := by
    refine List.find?_eq_none.mpr fun block member taken => ?_
    rw [fitting, Bool.and_eq_true, decide_eq_true_eq] at taken
    exact absurd ((taken.2.trans (tiled.regular block member).small).trans_lt large) (lt_irrefl _)
  rw [malloc, if_neg positive, mallocServe_none tiled none, mallocGet]
  cases mallocSbrk ((alignUp size 4 + mallocHeader) % 2 ^ 32) heap with
  | none => rfl
  | some outcome => exact if_pos ((mallocGet_header _ outcome.1 bounded).1.size.symm ▸ large)

/-- Writes into a payload change no header. -/
theorem Tiled.payload {address len : Nat} {bytes : Nat → BitVec 8} (tiled : Tiled heap blocks) (member : block ∈ blocks)
    (lower : block.address + mallocHeader ≤ address) (upper : address + len ≤ block.address + block.extent) :
    Tiled { heap with memory := heap.memory.write address len bytes } blocks := by
  have laid : Laid (heap.memory.write address len bytes) heapBottom heap.blocks blocks heap.current := by
    refine tiled.laid.congr fun other inside place low high => ?_
    have outside : place < address ∨ address + len ≤ place := by
      rcases eq_or_ne other block with rfl | different
      · omega
      · have apart := tiled.tiles.apart inside member different
        simp only [Apart, Block.extent] at apart upper
        omega
    exact Memory.write_outside outside
  exact ⟨laid.tiles, laid.linked, laid.written, tiled.regular, tiled.aligned, tiled.bounded⟩

theorem calloc_clears {nitems amount ptr : Nat} (called : malloc (nitems * size % 2 ^ 32) heap = some (ptr, next))
    (allocates : Allocates blocks amount ptr next) (fits : nitems * size % 2 ^ 32 ≤ amount) :
    ∃ cleared, calloc nitems size heap = some (ptr, cleared) ∧ Allocates blocks amount ptr cleared := by
  obtain ⟨⟨changed, block, kept, member, address, free, large, others⟩, above⟩ := allocates
  have stored : ptr ≠ 0 := by omega
  have extent : block.extent = mallocHeader + block.size := rfl
  have below := (kept.tiles.bounds member).2
  have bounded := kept.bounded
  have reaches : ¬2 ^ 32 < ptr + nitems * size % 2 ^ 32 := by omega
  refine ⟨{ next with memory := next.memory.fill ptr (nitems * size % 2 ^ 32) 0 }, ?_,
    ⟨changed, block, kept.payload member (by omega) (by omega), member, address, free, large, others⟩, above⟩
  rw [calloc, called, Option.bind_some]
  simp only [stored, reaches, if_false]

theorem calloc_allocates {nitems ptr : Nat} (tiled : Tiled heap blocks) (positive : 1 ≤ nitems * size)
    (small : nitems * size ≤ mallocLimit) (called : calloc nitems size heap = some (ptr, next)) :
    Allocates blocks (nitems * size) ptr next := by
  have limit : mallocLimit = 0x2000000 := rfl
  have target : nitems * size % 2 ^ 32 = nitems * size := Nat.mod_eq_of_lt (by omega)
  obtain ⟨⟨place, filled⟩, allocated, _⟩ := Option.bind_eq_some_iff.mp called
  have allocates := malloc_allocates tiled positive small (target ▸ allocated)
  obtain ⟨cleared, again, kept⟩ := calloc_clears allocated allocates target.le
  cases again.symm.trans called
  exact kept

theorem mallocFree_spec {ptr : Nat} (tiled : Tiled heap blocks) (member : block ∈ blocks)
    (address : ptr = block.address + mallocHeader) :
    ∃ next changed, mallocFree ptr heap = some next ∧ Tiled next changed ∧ ∀ old ∈ blocks, old ≠ block →
      old ∈ changed := by
  obtain ⟨before, after, rfl⟩ := List.append_of_mem member
  have written := tiled.written block member
  have regular := tiled.regular block member
  have stored := tiled.positive member
  subst address
  have checked : ¬mallocLimit < blockSize heap.memory block.address := by
    rw [written.size]
    exact Nat.not_lt.mpr regular.small
  have header : ∀ part ∈ [(⟨block.address, block.size, true⟩ : Block)],
      Written (setBlockFree heap.memory block.address true) part := by
    simpa using ⟨blockSize_setFree.trans written.size, blockFree_setFree⟩
  have linked : Linked (setBlockFree heap.memory block.address true) block.address [⟨block.address, block.size, true⟩]
      (blockNext heap.memory block.address) := ⟨rfl, blockNext_setFree⟩
  have tiles : Tiles Block.address Block.extent block.address [⟨block.address, block.size, true⟩]
      (block.address + block.extent) := ⟨rfl, rfl⟩
  refine ⟨{ heap with memory := setBlockFree heap.memory block.address true }, before ++ [⟨block.address, block.size, true⟩] ++ after,
    ?_, tiled.replace (tiled.laid.replace (fun place away => setBlockFree_outside ?_) tiles linked header) ?_, ?_⟩
  · have null : block.address + mallocHeader ≠ 0 := by omega
    rw [mallocFree, if_neg null, Nat.add_sub_cancel, if_neg checked]
  · have extent : block.extent = mallocHeader + block.size := rfl
    omega
  · simpa using ⟨regular.aligned, regular.whole, regular.small⟩
  · intro old inside different
    grind

inductive HeapAction
  | malloc (size : Nat)
  | calloc (nitems size : Nat)
  | free (ptr : Nat)
  | store (ptr offset : Nat) (byte : BitVec 8)

/-- The heap with the live pointers and the sizes asked for. -/
structure HeapState where
  heap : Malloc
  live : List (Nat × Nat)

/-- Sizes are within the limit, only `NULL` and live pointers are freed, and a
program writes to what it asked for. -/
def heapStep (state : HeapState) : HeapAction → Option HeapState
  | .malloc size =>
    if 1 ≤ size ∧ size ≤ mallocLimit then
      (YuzuOS.Kernel.malloc size state.heap).map fun (ptr, heap) => ⟨heap, (ptr, size) :: state.live⟩
    else none
  | .calloc nitems size =>
    if 1 ≤ nitems * size ∧ nitems * size ≤ mallocLimit then
      (YuzuOS.Kernel.calloc nitems size state.heap).map fun (ptr, heap) => ⟨heap, (ptr, nitems * size) :: state.live⟩
    else none
  | .free ptr =>
    if ptr = 0 ∨ ∃ entry ∈ state.live, entry.1 = ptr then
      (mallocFree ptr state.heap).map fun heap => ⟨heap, state.live.filter fun entry => entry.1 ≠ ptr⟩
    else none
  | .store ptr offset byte =>
    if ∃ entry ∈ state.live, entry.1 = ptr ∧ offset < entry.2 then
      some { state with heap.memory := state.heap.memory.store8 (ptr + offset) byte }
    else none

def heapStart (memory : Memory) : HeapState := ⟨⟨memory, 0, heapBottom, 0⟩, []⟩

/-- Live pointers lie on blocks in use, one on each. -/
structure Owned (blocks : List Block) (live : List (Nat × Nat)) : Prop where
  distinct : (live.map Prod.fst).Nodup
  held : ∀ entry ∈ live, ∃ block ∈ blocks, entry.1 = block.address + mallocHeader ∧ block.free = false ∧ entry.2 ≤ block.size

def Sound (state : HeapState) : Prop := ∃ blocks, Tiled state.heap blocks ∧ Owned blocks state.live

variable {state final : HeapState}

theorem Allocates.sound {ptr : Nat} (allocates : Allocates blocks size ptr next) (owned : Owned blocks state.live) :
    Sound ⟨next, (ptr, size) :: state.live⟩ := by
  obtain ⟨⟨changed, block, tiled, member, address, free, large, others⟩, above⟩ := allocates
  refine ⟨changed, tiled, List.nodup_cons.mpr ⟨?_, owned.distinct⟩, ?_⟩
  · intro again
    obtain ⟨entry, inside, same⟩ := List.mem_map.mp again
    obtain ⟨old, stays, place, used, _⟩ := owned.held entry inside
    have apart := (others old stays used).2
    omega
  · intro entry inside
    rcases List.mem_cons.mp inside with rfl | old
    · exact ⟨block, member, by simp only; omega, free, large⟩
    · obtain ⟨held, stays, place, used, enough⟩ := owned.held entry old
      exact ⟨held, (others held stays used).1, place, used, enough⟩

theorem free_sound {ptr : Nat} (tiled : Tiled state.heap blocks) (owned : Owned blocks state.live)
    (live : ∃ entry ∈ state.live, entry.1 = ptr) (freed : mallocFree ptr state.heap = some next) :
    Sound ⟨next, state.live.filter fun entry => entry.1 ≠ ptr⟩ := by
  obtain ⟨entry, inside, rfl⟩ := live
  obtain ⟨block, member, address, used, enough⟩ := owned.held entry inside
  obtain ⟨after, changed, ran, kept, others⟩ := mallocFree_spec tiled member address
  rw [freed] at ran
  cases ran
  refine ⟨changed, kept, owned.distinct.sublist (List.filter_sublist.map _), ?_⟩
  intro other remains
  obtain ⟨inside, different⟩ := List.mem_filter.mp remains
  obtain ⟨held, stays, place, busy, enough⟩ := owned.held other inside
  refine ⟨held, others held stays fun same => ?_, place, busy, enough⟩
  subst same
  simp [place, address] at different

theorem heapStep_sound {action : HeapAction} {after : HeapState} (sound : Sound state)
    (stepped : heapStep state action = some after) :
    Sound after := by
  obtain ⟨blocks, tiled, owned⟩ := sound
  cases action with
  | malloc size =>
    simp only [heapStep, Option.ite_none_right_eq_some] at stepped
    obtain ⟨⟨positive, small⟩, returned⟩ := stepped
    obtain ⟨⟨ptr, next⟩, called, rfl⟩ := Option.map_eq_some_iff.mp returned
    exact (malloc_allocates tiled positive small called).sound owned
  | calloc nitems size =>
    simp only [heapStep, Option.ite_none_right_eq_some] at stepped
    obtain ⟨⟨positive, small⟩, returned⟩ := stepped
    obtain ⟨⟨ptr, next⟩, called, rfl⟩ := Option.map_eq_some_iff.mp returned
    exact (calloc_allocates tiled positive small called).sound owned
  | free ptr =>
    simp only [heapStep, Option.ite_none_right_eq_some] at stepped
    obtain ⟨live, returned⟩ := stepped
    obtain ⟨next, freed, rfl⟩ := Option.map_eq_some_iff.mp returned
    rcases live with rfl | live
    · cases freed
      refine ⟨blocks, tiled, owned.distinct.sublist (List.filter_sublist.map _), fun entry remains => ?_⟩
      exact owned.held entry (List.mem_filter.mp remains).1
    · exact free_sound tiled owned live freed
  | store ptr offset byte =>
    simp only [heapStep, Option.ite_none_right_eq_some, Option.some.injEq] at stepped
    obtain ⟨⟨entry, inside, rfl, small⟩, rfl⟩ := stepped
    obtain ⟨block, member, address, used, enough⟩ := owned.held entry inside
    have extent : block.extent = mallocHeader + block.size := rfl
    exact ⟨blocks, tiled.payload member (by omega) (by omega), owned⟩

theorem heapStart_sound (memory : Memory) : Sound (heapStart memory) := by
  have aligned : heapBottom % 4 = 0 := by decide
  have bounded : heapBottom < 2 ^ 32 := by decide
  exact ⟨[], ⟨rfl, rfl, by simp, by simp, aligned, bounded⟩, List.nodup_nil, by simp [heapStart]⟩

def payloadSize (memory : Memory) (ptr : Nat) : Nat := blockSize memory (ptr - mallocHeader)

/-- In every state of the heap the blocks on the list fill the heap from its bottom
to the break; live payloads are aligned, large enough and apart from each other
and from the headers, no pointer being live twice; and a search for a free block
ends. -/
theorem heap_stays_tiled {memory : Memory} {actions : List HeapAction} {final : HeapState}
    (ran : run heapStep (heapStart memory) actions = some final) :
    ∃ blocks : List Block,
      Linked final.heap.memory final.heap.blocks blocks 0 ∧ (∀ block ∈ blocks, Written final.heap.memory block) ∧
      Tiles Block.address Block.extent heapBottom blocks final.heap.current ∧
      blocks.Pairwise (fun first second => first.address < second.address) ∧
      (∀ entry ∈ final.live, entry.1 % 4 = 0 ∧ entry.2 ≤ payloadSize final.heap.memory entry.1 ∧
        (∃ block ∈ blocks, entry.1 = block.address + mallocHeader ∧ block.free = false) ∧
        ∀ block ∈ blocks, Apart entry.1 (payloadSize final.heap.memory entry.1) block.address mallocHeader) ∧
      (final.live.map Prod.fst).Nodup ∧
      final.live.Pairwise (fun entry other =>
        Apart entry.1 (payloadSize final.heap.memory entry.1) other.1 (payloadSize final.heap.memory other.1)) ∧
      ∀ size, 1 ≤ size → size ≤ mallocLimit →
        (∀ last, (mallocFind mallocTurns final.heap.memory (alignUp size 4) last final.heap.blocks).isSome) ∧
        ((mallocSbrk (alignUp size 4 + mallocHeader) final.heap).isSome → (malloc size final.heap).isSome) := by
  obtain ⟨blocks, tiled, owned⟩ :=
    run_always Sound (fun _ _ _ kept stepped => heapStep_sound kept stepped) (heapStart_sound memory) ran
  have header : mallocHeader = 16 := rfl
  have payload {block : Block} {ptr : Nat} (member : block ∈ blocks) (place : ptr = block.address + mallocHeader) :
      payloadSize final.heap.memory ptr = block.size := by
    rw [payloadSize, place, Nat.add_sub_cancel, (tiled.written block member).size]
  refine ⟨blocks, tiled.linked, tiled.written, tiled.tiles, tiled.tiles.ordered.imp ?_, ?_, owned.distinct, ?_, ?_⟩
  · intro first second before
    simp only [Block.extent] at before
    omega
  · intro entry inside
    obtain ⟨block, member, place, used, enough⟩ := owned.held entry inside
    have regular := tiled.regular block member
    rw [payload member place]
    have aligned := regular.aligned
    refine ⟨by omega, enough, ⟨block, member, place, used⟩, fun other around => ?_⟩
    rcases eq_or_ne block other with rfl | different
    · exact .inr (by omega)
    · have apart := tiled.tiles.apart member around different
      simp only [Apart, Block.extent] at apart ⊢
      omega
  · refine (List.pairwise_map.mp owned.distinct).imp_of_mem fun {entry other} inside around different => ?_
    obtain ⟨block, member, place, _⟩ := owned.held entry inside
    obtain ⟨second, also, there, _⟩ := owned.held other around
    have distinct : block ≠ second := by
      rintro rfl
      exact different (place.trans there.symm)
    have apart := tiled.tiles.apart member also distinct
    rw [payload member place, payload also there]
    simp only [Apart, Block.extent] at apart ⊢
    omega
  · intro size positive small
    refine ⟨fun last => ?_, malloc_returns tiled positive small⟩
    obtain ⟨passed, ran, _⟩ := tiled.searched (alignUp size 4) last
    rw [ran]
    rfl

theorem heap_stays_tiled_example : ∃ final,
    run heapStep (heapStart fun _ => 7) [.malloc 40, .calloc 3 5, .store (heapBottom + 16) 39 255, .free (heapBottom + 16),
      .malloc 1, .malloc 4000, .malloc 15] = some final ∧
    final.live = [(heapBottom + 36, 15), (heapBottom + 104, 4000), (heapBottom + 16, 1), (heapBottom + 72, 15)] ∧
    (∀ entry ∈ final.live, entry.1 % 4 = 0) ∧ (final.live.map Prod.fst).Nodup := by
  have ends : (run heapStep (heapStart fun _ => 7) [.malloc 40, .calloc 3 5, .store (heapBottom + 16) 39 255,
      .free (heapBottom + 16), .malloc 1, .malloc 4000, .malloc 15]).map (fun final => final.live) =
      some [(heapBottom + 36, 15), (heapBottom + 104, 4000), (heapBottom + 16, 1), (heapBottom + 72, 15)] := by decide +kernel
  obtain ⟨final, ran, live⟩ := Option.map_eq_some_iff.mp ends
  obtain ⟨_, _, _, _, _, payloads, distinct, _⟩ := heap_stays_tiled ran
  exact ⟨final, ran, live, fun entry inside => (payloads entry inside).1, distinct⟩

end YuzuOS.Proofs.HeapTiling
