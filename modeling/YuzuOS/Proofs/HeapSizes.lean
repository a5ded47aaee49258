import YuzuOS.Proofs.HeapTiling

/-! The sizes of what the kernel heap hands out, whatever is asked for. A size that is
rounded up past the end of the 32-bit range, and a product that does not fit in it,
become a smaller request. -/

namespace YuzuOS.Proofs.HeapSizes
open YuzuOS.Library YuzuOS.Kernel YuzuOS.Proofs.HeapTiling

/-- A call fails, or the payload behind the pointer holds the size and ends inside the heap. -/
def Gives {σ : Type} (memory : σ → Memory) (stop : σ → Nat) (size : Nat) (outcome : Option (Nat × σ)) : Prop :=
  ∀ ptr after, outcome = some (ptr, after) → ptr ≠ 0 →
    size ≤ payloadSize (memory after) ptr ∧ ptr + payloadSize (memory after) ptr ≤ stop after

/-- No block serves a request, and `malloc_sbrk` does not return from it. -/
structure Unserved (heap : Malloc) (blocks : List Block) (size : Nat) : Prop where
  unfit : ∀ block ∈ blocks, ¬fitting size block = true
  stuck : mallocSbrk (size + mallocHeader) heap = none

variable {heap next : Malloc} {blocks : List Block} {nitems size amount ptr : Nat}

theorem gives_null {σ : Type} {memory : σ → Memory} {stop : σ → Nat} (state : σ) :
    Gives memory stop size (some (0, state)) := by
  intro ptr after called stored
  cases called
  exact absurd rfl stored

theorem gives_none {σ : Type} {memory : σ → Memory} {stop : σ → Nat} : Gives memory stop size none :=
  fun _ _ called => nomatch called

theorem gives_some {σ : Type} {memory : σ → Memory} {stop : σ → Nat} {state : σ} (stored : ptr ≠ 0) :
    Gives memory stop size (some (ptr, state)) ↔
      size ≤ payloadSize (memory state) ptr ∧ ptr + payloadSize (memory state) ptr ≤ stop state := by
  constructor
  · intro gives
    exact gives ptr state rfl stored
  · intro holds other after same _
    cases same
    exact holds

theorem allocates_payload (allocates : Allocates blocks amount ptr next) : amount ≤ payloadSize next.memory ptr ∧
    payloadSize next.memory ptr ≤ mallocLimit ∧ ptr + payloadSize next.memory ptr ≤ next.current ∧ ptr ≠ 0 := by
  obtain ⟨⟨changed, block, kept, member, address, _, large, _⟩, above⟩ := allocates
  have recorded : payloadSize next.memory ptr = block.size := by rw [payloadSize, address, (kept.written block member).size]
  have small := (kept.regular block member).small
  have below := (kept.tiles.bounds member).2
  simp only [Block.extent] at below
  rw [recorded]
  omega

theorem unserved_iff (tiled : Tiled heap blocks) (positive : 1 ≤ size) (small : alignUp size 4 ≤ mallocLimit) :
    malloc size heap = none ↔ Unserved heap blocks (alignUp size 4) := by
  have returns := malloc_returns_iff tiled positive small
  rw [← Option.not_isSome_iff_eq_none, returns, not_or, Option.not_isSome_iff_eq_none, Option.not_isSome_iff_eq_none,
    List.find?_eq_none]
  exact ⟨fun ⟨unfit, stuck⟩ => ⟨unfit, stuck⟩, fun unserved => ⟨unserved.unfit, unserved.stuck⟩⟩

/-- Only the last three sizes are rounded up to a smaller one. -/
theorem malloc_gives_iff (tiled : Tiled heap blocks) (fits : size < 2 ^ 32) :
    Gives Malloc.memory Malloc.current size (malloc size heap) ↔ size + 3 < 2 ^ 32 ∨ Unserved heap blocks 0 := by
  have limit : mallocLimit = 0x2000000 := rfl
  rcases Nat.eq_zero_or_pos size with rfl | positive
  · exact iff_of_true (gives_null heap) (.inl (by decide))
  rcases Nat.lt_or_ge (size + 3) (2 ^ 32) with inside | wraps
  · refine iff_of_true ?_ (.inl inside)
    have aligned := alignUp_four inside
    rcases Nat.lt_or_ge mallocLimit (alignUp size 4) with large | small
    · rw [malloc_panics tiled large]
      exact gives_none
    · intro ptr after called _
      obtain ⟨larger, _, ends, _⟩ := allocates_payload (malloc_serves tiled positive small called)
      exact ⟨by omega, ends⟩
  · have aligned := alignUp_wraps fits wraps
    have small : alignUp size 4 ≤ mallocLimit := by omega
    have unserved := unserved_iff tiled positive small
    rw [aligned] at unserved
    rw [← unserved, or_iff_right (Nat.not_lt.mpr wraps)]
    constructor
    · intro gives
      refine Option.eq_none_iff_forall_ne_some.mpr fun ⟨ptr, after⟩ called => ?_
      obtain ⟨_, short, _, stored⟩ := allocates_payload (malloc_serves tiled positive small called)
      have large := (gives ptr after called stored).1
      omega
    · intro none
      rw [none]
      exact gives_none

/-- A product that does not fit is served with what is left of it, unless that is nothing
or more than a block may have. -/
theorem calloc_gives_iff (tiled : Tiled heap blocks) :
    Gives Malloc.memory Malloc.current (nitems * size) (calloc nitems size heap) ↔
    nitems * size < 2 ^ 32 ∨ nitems * size % 2 ^ 32 = 0 ∨ mallocLimit < nitems * size % 2 ^ 32 ∨
      Unserved heap blocks (alignUp (nitems * size % 2 ^ 32) 4) := by
  have limit : mallocLimit = 0x2000000 := rfl
  have bounded : nitems * size % 2 ^ 32 < 2 ^ 32 := Nat.mod_lt _ (by decide)
  generalize target : nitems * size % 2 ^ 32 = request at bounded ⊢
  rcases Nat.eq_zero_or_pos request with rfl | positive
  · refine iff_of_true ?_ (.inr (.inl rfl))
    have null : calloc nitems size heap = some (0, heap) := by
      rw [calloc, target]
      rfl
    rw [null]
    exact gives_null heap
  rcases Nat.lt_or_ge mallocLimit request with large | small
  · refine iff_of_true ?_ (.inr (.inr (.inl large)))
    have fails : calloc nitems size heap = none := by
      rw [calloc, target]
      rcases Nat.lt_or_ge (request + 3) (2 ^ 32) with inside | wraps
      · have aligned := alignUp_four inside
        rw [malloc_panics tiled (by omega)]
        rfl
      · -- what is cleared reaches past the address space
        have aligned := alignUp_wraps bounded wraps
        cases called : malloc request heap with
        | none => rfl
        | some outcome =>
          have above := (malloc_serves tiled positive (by omega) called).2
          have stored : outcome.1 ≠ 0 := by omega
          have past : 2 ^ 32 < outcome.1 + request := by
            unfold mallocHeader at above
            omega
          exact (if_neg stored).trans (if_pos past)
    rw [fails]
    exact gives_none
  obtain ⟨larger, within⟩ := alignUp_size small
  rw [← unserved_iff tiled positive within, or_iff_right (Nat.ne_of_gt positive), or_iff_right (Nat.not_lt.mpr small)]
  cases called : malloc request heap with
  | none =>
    refine iff_of_true ?_ (.inr rfl)
    rw [calloc, target, called]
    exact gives_none
  | some outcome =>
    obtain ⟨ptr, filled⟩ := outcome
    obtain ⟨cleared, ran, allocates⟩ := calloc_clears (target ▸ called) (malloc_serves tiled positive within called)
      (target ▸ larger)
    obtain ⟨holds, short, ends, stored⟩ := allocates_payload allocates
    rw [ran, gives_some stored, or_iff_left (Option.some_ne_none _)]
    constructor
    · intro gives
      omega
    · intro inside
      have whole := Nat.mod_eq_of_lt inside
      exact ⟨by omega, ends⟩

end YuzuOS.Proofs.HeapSizes
