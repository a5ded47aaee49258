import YuzuOS.Proofs.HeapTiling

/-! The place of a page directory on the kernel heap. The walk of `malloc_align`
stops at the first block that has a successor, so the padding it adds replaces
all the blocks behind the first one. -/

namespace YuzuOS.Proofs.HeapAlign
open YuzuOS.Library YuzuOS.Kernel YuzuOS.Proofs.HeapTiling

def pageDirSize : Nat := 4 * 1024

variable {heap next aligned : Malloc} {memory : Memory} {blocks others rest : List Block} {first block : Block}
  {last size base result padding turns place start : Nat}

/-- The first two calls of `virt_mm_addr_create` end, keep the blocks of the list, add at
most one behind them, and give an aligned directory. -/
def AlignsDirectory (heap : Malloc) (blocks : List Block) : Prop :=
  ∃ result aligned, mallocAlign physMmBlock heap = some (result, aligned) ∧
    (∃ added : List Block, added.length ≤ 1 ∧ Linked aligned.memory aligned.blocks (blocks ++ added) 0 ∧
      ∀ block ∈ blocks ++ added, Written aligned.memory block) ∧
    ∃ dir created, calloc 1 pageDirSize aligned = some (dir, created) ∧ dir % physMmBlock = 0

section Align

theorem alignLast_single (ends : blockNext memory place = 0) (turns : Nat) :
    mallocAlignLast memory (turns + 2) place = none := by
  rw [mallocAlignLast, mallocAlignLast, ends]
  simp

theorem alignLast_several (stored : place ≠ 0) (more : blockNext memory place ≠ 0) (turns : Nat) :
    mallocAlignLast memory (turns + 1) place = some place := by
  rw [mallocAlignLast, if_neg stored, if_neg more]

theorem mallocAlign_none (even : heap.current % physMmBlock = 0) : mallocAlign physMmBlock heap = some (0, heap) := by
  simp [mallocAlign, mallocSbrk, even]

theorem alignPad_gets (short : padding ≤ physMmBlock + mallocHeader * 2)
    (padded : mallocAlignPad physMmBlock heap turns padding = some (result, aligned)) :
    ∃ last size base, mallocAlignLast heap.memory mallocTurns heap.blocks = some last ∧ size ≤ physMmBlock ∧
      mallocGet last size heap = some (base, aligned) := by
  induction turns generalizing padding with
  | zero => cases padded
  | succ turns ih =>
    have top : padding ≤ heapTop := short.trans (by decide)
    rw [mallocAlignPad, if_pos top] at padded
    split at padded
    next =>
      obtain ⟨last, walked, made⟩ := Option.bind_eq_some_iff.mp padded
      obtain ⟨⟨base, grown⟩, got, same⟩ := Option.map_eq_some_iff.mp made
      cases same
      exact ⟨last, _, base, walked, by omega, got⟩
    next tight =>
      refine ih ?_ padded
      unfold physMmBlock mallocHeader at *
      omega

/-- A padded break has a new block behind the block the walk gives. -/
theorem mallocAlign_gets (odd : heap.current % physMmBlock ≠ 0)
    (called : mallocAlign physMmBlock heap = some (result, aligned)) :
    ∃ last size base, mallocAlignLast heap.memory mallocTurns heap.blocks = some last ∧ size ≤ physMmBlock ∧
      mallocGet last size heap = some (base, aligned) := by
  simp only [mallocAlign, mallocSbrk, if_true, Option.bind_some, odd, if_false] at called
  refine alignPad_gets ?_ called
  unfold divCeil physMmBlock mallocHeader at *
  split <;> omega

theorem mallocGet_links (got : mallocGet last size heap = some (base, next)) (small : size ≤ physMmBlock)
    (stored : last ≠ 0) (below : last + mallocHeader ≤ heap.current) : blockNext next.memory last = heap.current := by
  have increment : (size + mallocHeader) % 2 ^ 32 = size + mallocHeader := by
    unfold physMmBlock mallocHeader at *
    omega
  have some : size + mallocHeader ≠ 0 := by
    unfold mallocHeader
    omega
  rw [mallocGet, increment] at got
  obtain ⟨⟨place, grown⟩, broke, made⟩ := Option.map_eq_some_iff.mp got
  obtain ⟨rfl, current, bounded, _⟩ := mallocSbrk_spec some broke
  simp only [stored, ne_eq, not_false_eq_true, if_true, Prod.mk.injEq] at made
  obtain ⟨_, rfl⟩ := made
  have fits : size < 2 ^ 32 := by omega
  obtain ⟨_, _, outside⟩ := mallocGet_header (setBlockNext grown.memory last heap.current) heap.current fits
  exact (sameHeader_of_outside (.inl below) outside).next.trans (blockNext_setNext (by omega))

/-- A break that is not aligned costs the blocks behind the first one, or the machine. -/
theorem mallocAlign_loses (tiled : Tiled heap blocks) (filled : blocks ≠ []) (odd : heap.current % physMmBlock ≠ 0)
    (called : mallocAlign physMmBlock heap = some (result, aligned)) :
    ∃ first second rest, blocks = first :: second :: rest ∧ blockNext aligned.memory first.address = heap.current := by
  obtain ⟨last, size, base, walked, small, got⟩ := mallocAlign_gets odd called
  obtain ⟨turns, enough⟩ : ∃ turns, mallocTurns = turns + 2 := ⟨2 ^ 28 - 2, rfl⟩
  rw [enough] at walked
  cases blocks with
  | nil => exact absurd rfl filled
  | cons first rest =>
    have here : first.address = heap.blocks := tiled.linked.1
    have stored := tiled.positive (show first ∈ first :: rest from List.mem_cons_self)
    have inside := (tiled.tiles.bounds (show first ∈ first :: rest from List.mem_cons_self)).2
    rw [Block.extent] at inside
    rw [← here] at walked
    cases rest with
    | nil =>
      have ends : blockNext heap.memory first.address = 0 := tiled.linked.2
      rw [alignLast_single ends] at walked
      cases walked
    | cons second rest =>
      have follows : second.address = blockNext heap.memory first.address := tiled.linked.2.1
      have more := tiled.positive (show second ∈ first :: second :: rest from List.mem_cons_of_mem _ List.mem_cons_self)
      rw [alignLast_several stored (follows ▸ more)] at walked
      cases walked
      exact ⟨first, second, rest, rfl, mallocGet_links got small stored (by omega)⟩

end Align

section Directory

theorem alignUp_dir : alignUp (1 * pageDirSize % 2 ^ 32) 4 = pageDirSize := by decide

/-- The directory is taken from the first block that is large enough. -/
theorem calloc_takes (tiled : Tiled heap blocks) (found : blocks.find? (fitting pageDirSize) = some block) :
    ∃ created, calloc 1 pageDirSize heap = some (block.address + mallocHeader, created) := by
  have member := List.mem_of_find?_eq_some found
  have stored := tiled.positive member
  have serving := mallocServe_found tiled found
  obtain ⟨changed, taken, kept, inside, address, _⟩ := mallocServe_serves tiled (by decide) (by decide) serving
  have checked : ¬mallocLimit < blockSize (mallocReuse block.address pageDirSize heap.memory) block.address := by
    have sized : blockSize (mallocReuse block.address pageDirSize heap.memory) taken.address = taken.size :=
      (kept.written taken inside).size
    rw [← address] at sized
    rw [sized]
    exact Nat.not_lt.mpr (kept.regular taken inside).small
  have positive : ¬1 * pageDirSize % 2 ^ 32 ≤ 0 := by decide
  have null : block.address + mallocHeader ≠ 0 := by omega
  have reaches : ¬2 ^ 32 < block.address + mallocHeader + 1 * pageDirSize % 2 ^ 32 := by
    have target : 1 * pageDirSize % 2 ^ 32 = pageDirSize := by decide
    have fits := (List.find?_eq_some_iff_append.mp found).1
    rw [fitting, Bool.and_eq_true, decide_eq_true_eq] at fits
    have below := (tiled.tiles.bounds member).2
    have bounded := tiled.bounded
    simp only [Block.extent] at below
    omega
  rw [calloc, malloc, if_neg positive, alignUp_dir, serving, Option.bind_some]
  simp only [checked, stored, ne_eq, not_false_eq_true, if_true, if_false, Option.bind_some, null, reaches]
  exact ⟨_, rfl⟩

theorem calloc_grows {dir : Nat} (tiled : Tiled heap blocks) (none : blocks.find? (fitting pageDirSize) = none)
    (called : calloc 1 pageDirSize heap = some (dir, next)) : dir = heap.current + mallocHeader := by
  have positive : ¬1 * pageDirSize % 2 ^ 32 ≤ 0 := by decide
  rw [calloc, malloc, if_neg positive, alignUp_dir, mallocServe_none tiled none] at called
  obtain ⟨⟨place, filling⟩, allocated, cleared⟩ := Option.bind_eq_some_iff.mp called
  obtain ⟨⟨base, grown⟩, served, checked⟩ := Option.bind_eq_some_iff.mp allocated
  obtain ⟨⟨block, _⟩, got, same⟩ := Option.map_eq_some_iff.mp served
  simp only [Prod.mk.injEq] at same
  have here : heap.current = base := (mallocGet_spec tiled (by decide) (by decide) got).1.symm.trans same.1
  have stored : base ≠ 0 := by
    have bottom : heapBottom ≤ heap.current := tiled.tiles.le
    have above := heapBottom_positive
    omega
  have null : heap.current + mallocHeader ≠ 0 := Nat.succ_ne_zero _
  simp only [Option.ite_none_left_eq_some, Option.some.injEq, Prod.mk.injEq] at checked
  rw [if_pos stored, ← here] at checked
  obtain ⟨_, rfl, _⟩ := checked
  simp only [null, if_false, Option.ite_none_left_eq_some, Option.some.injEq, Prod.mk.injEq] at cleared
  exact cleared.2.1.symm

end Directory

/-- The break must be aligned, so that nothing is padded, and the directory must fall on a
free block whose payload is aligned. -/
theorem aligns_iff (tiled : Tiled heap blocks) (filled : blocks ≠ []) : AlignsDirectory heap blocks ↔
    heap.current % physMmBlock = 0 ∧
      ∃ block, blocks.find? (fitting pageDirSize) = some block ∧ (block.address + mallocHeader) % physMmBlock = 0 := by
  constructor
  · rintro ⟨result, aligned, called, ⟨added, _, linked, _⟩, dir, created, placed, multiple⟩
    have even : heap.current % physMmBlock = 0 := by
      by_contra odd
      obtain ⟨first, second, rest, rfl, follows⟩ := mallocAlign_loses tiled filled odd called
      have kept : second.address = blockNext aligned.memory first.address := linked.2.1
      have below := (tiled.tiles.bounds (show second ∈ first :: second :: rest from List.mem_cons_of_mem _ List.mem_cons_self)).2
      rw [Block.extent, mallocHeader] at below
      omega
    rw [mallocAlign_none even] at called
    cases called
    refine ⟨even, ?_⟩
    cases found : blocks.find? (fitting pageDirSize) with
    | none =>
      have behind := calloc_grows tiled found placed
      unfold physMmBlock mallocHeader at *
      omega
    | some block =>
      obtain ⟨other, same⟩ := calloc_takes tiled found
      cases same.symm.trans placed
      exact ⟨block, rfl, multiple⟩
  · rintro ⟨even, block, found, multiple⟩
    obtain ⟨created, placed⟩ := calloc_takes tiled found
    refine ⟨0, heap, mallocAlign_none even, ⟨[], Nat.zero_le _, ?_, ?_⟩, _, created, placed, multiple⟩
    · rw [List.append_nil]
      exact tiled.linked
    · rw [List.append_nil]
      exact tiled.written

theorem linked_unique (linked : Linked memory start blocks 0) (again : Linked memory start others 0)
    (written : ∀ block ∈ blocks, Written memory block ∧ block.address ≠ 0)
    (others_written : ∀ block ∈ others, Written memory block ∧ block.address ≠ 0) : blocks = others := by
  induction blocks generalizing start others with
  | nil =>
    cases others with
    | nil => rfl
    | cons other rest =>
      have zero : start = 0 := linked
      exact absurd (again.1.trans zero) (others_written other List.mem_cons_self).2
  | cons block blocks ih =>
    cases others with
    | nil =>
      have zero : start = 0 := again
      exact absurd (linked.1.trans zero) (written block List.mem_cons_self).2
    | cons other others =>
      have address : block.address = other.address := linked.1.trans again.1.symm
      have here := (written block List.mem_cons_self).1
      have there := (others_written other List.mem_cons_self).1
      have same : block = other := by
        obtain ⟨place, size, free⟩ := block
        obtain ⟨place', size', free'⟩ := other
        cases address
        cases here.size.symm.trans there.size
        cases here.free.symm.trans there.free
        rfl
      subst same
      have rest := ih linked.2 again.2 (fun block member => written block (List.mem_cons_of_mem _ member))
        fun block member => others_written block (List.mem_cons_of_mem _ member)
      rw [rest]

/-- In every state of the heap that holds a block, a page directory is placed as it should
exactly when the break is aligned and the first free block that is large enough has an
aligned payload. -/
theorem malloc_align_iff {actions : List HeapAction} {final : HeapState}
    (ran : run heapStep (heapStart memory) actions = some final) (allocated : final.heap.blocks ≠ 0) :
    ∃ blocks : List Block, Linked final.heap.memory final.heap.blocks blocks 0 ∧
      (∀ block ∈ blocks, Written final.heap.memory block ∧ block.address ≠ 0) ∧
      (AlignsDirectory final.heap blocks ↔ final.heap.current % physMmBlock = 0 ∧
        ∃ block, blocks.find? (fitting pageDirSize) = some block ∧
          (block.address + mallocHeader) % physMmBlock = 0) := by
  obtain ⟨blocks, tiled, _⟩ :=
    run_always Sound (fun _ _ _ kept stepped => heapStep_sound kept stepped) (heapStart_sound memory) ran
  have filled : blocks ≠ [] := fun none => allocated (tiled.empty_iff.mpr none)
  exact ⟨blocks, tiled.linked, fun block member => ⟨tiled.written block member, tiled.positive member⟩, aligns_iff tiled filled⟩

/-- A first block fills the first page up to the header of a second one, which fills the
next page and is free. -/
def alignedBlocks : List Block := [⟨heapBottom, 4064, false⟩, ⟨heapBottom + 4080, 4096, true⟩]

theorem malloc_align_example :
    ∃ final, run heapStep (heapStart fun _ => 7) [.malloc 4064, .malloc 4096, .free (heapBottom + 4096)] =
    some final ∧ AlignsDirectory final.heap alignedBlocks := by
  have headers (final : HeapState) (block : Block) (size : blockSize final.heap.memory block.address = block.size)
      (free : blockFree final.heap.memory block.address = block.free) (stored : block.address ≠ 0) :
      Written final.heap.memory block ∧ block.address ≠ 0 := ⟨⟨size, free⟩, stored⟩
  have ends : (run heapStep (heapStart fun _ => 7) [.malloc 4064, .malloc 4096, .free (heapBottom + 4096)]).map (fun final =>
      ((final.heap.blocks, final.heap.current % physMmBlock), alignedBlocks.map fun block =>
        (blockSize final.heap.memory block.address, blockFree final.heap.memory block.address,
          blockNext final.heap.memory block.address))) =
      some ((heapBottom, 0), [(4064, false, heapBottom + 4080), (4096, true, 0)]) := by decide +kernel
  obtain ⟨final, ran, same⟩ := Option.map_eq_some_iff.mp ends
  simp only [alignedBlocks, List.map_cons, List.map_nil, Prod.mk.injEq, List.cons.injEq, and_true] at same
  obtain ⟨⟨start, even⟩, ⟨size₁, free₁, next₁⟩, size₂, free₂, next₂⟩ := same
  have linked : Linked final.heap.memory final.heap.blocks alignedBlocks 0 := ⟨start.symm, next₁.symm, next₂⟩
  have written : ∀ block ∈ alignedBlocks, Written final.heap.memory block ∧ block.address ≠ 0 := by
    simp only [alignedBlocks, List.forall_mem_cons, List.not_mem_nil, false_implies, implies_true, and_true]
    exact ⟨headers final _ size₁ free₁ (by decide), headers final _ size₂ free₂ (by decide)⟩
  have occupied : final.heap.blocks ≠ 0 := start ▸ (by decide)
  obtain ⟨blocks, chained, headed, aligns⟩ := malloc_align_iff ran occupied
  cases linked_unique linked chained written headed
  exact ⟨final, ran, aligns.mpr ⟨even, ⟨heapBottom + 4080, 4096, true⟩, rfl, by decide⟩⟩

/-- Three small blocks: the padding is linked behind the first, and the list that had
three blocks has two. -/
theorem malloc_align_misses :
    ∃ final blocks, run heapStep (heapStart fun _ => 7) [.malloc 4, .malloc 4, .malloc 4] = some final ∧
    blocks = [(⟨heapBottom, 4, false⟩ : Block), ⟨heapBottom + 20, 4, false⟩, ⟨heapBottom + 40, 4, false⟩] ∧
    Linked final.heap.memory final.heap.blocks blocks 0 ∧
    (∃ result aligned, mallocAlign physMmBlock final.heap = some (result, aligned) ∧
      Linked aligned.memory aligned.blocks [⟨heapBottom, 4, false⟩, ⟨heapBottom + 60, 4004, false⟩] 0) ∧
    ¬AlignsDirectory final.heap blocks := by
  have ends : (run heapStep (heapStart fun _ => 7) [.malloc 4, .malloc 4, .malloc 4]).map (fun final =>
      ((final.heap.blocks, blockNext final.heap.memory heapBottom, blockNext final.heap.memory (heapBottom + 20),
        blockNext final.heap.memory (heapBottom + 40)), (mallocAlign physMmBlock final.heap).map fun result =>
          (result.2.blocks, blockNext result.2.memory heapBottom, blockNext result.2.memory (heapBottom + 60)))) =
      some ((heapBottom, heapBottom + 20, heapBottom + 40, 0), some (heapBottom, heapBottom + 60, 0)) := by decide +kernel
  obtain ⟨final, ran, same⟩ := Option.map_eq_some_iff.mp ends
  simp only [Prod.mk.injEq] at same
  obtain ⟨⟨start, next₁, next₂, next₃⟩, called⟩ := same
  obtain ⟨⟨result, aligned⟩, padded, links⟩ := Option.map_eq_some_iff.mp called
  simp only [Prod.mk.injEq] at links
  obtain ⟨start', second, third⟩ := links
  refine ⟨final, _, ran, rfl, ⟨start.symm, next₁.symm, next₂.symm, next₃⟩,
    ⟨result, aligned, padded, start'.symm, second.symm, third⟩, ?_⟩
  rintro ⟨other, kept, again, ⟨added, _, linked, _⟩, _⟩
  cases padded.symm.trans again
  have follows : heapBottom + 20 = blockNext aligned.memory heapBottom := linked.2.1
  omega

end YuzuOS.Proofs.HeapAlign
