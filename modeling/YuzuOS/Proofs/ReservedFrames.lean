import YuzuOS.Proofs.PhysicalInit

/-! What the allocator never hands out. The counter of used frames may be wrong and a run of frames may hold one that
is in use, but a block begins with a clear bit, and those of the first megabyte, the kernel and the bitmap are set. -/

namespace YuzuOS.Proofs.ReservedFrames
open YuzuOS.Library YuzuOS.Kernel PhysicalFrames PhysicalInit

/-- Where the counter lets a call through, its search ends below the maximum. -/
def Finds (state : PhysState) : PhysAction → Prop
  | .alloc => state.mm.used < state.mm.max → bitmapGetFirst state.mm.bitmap state.mm.max ≠ bitmapNone
  | .nAlloc len => len ≤ (state.mm.max + 2 ^ 32 - state.mm.used) % 2 ^ 32 →
      bitmapGetNFirst state.mm.bitmap state.mm.max len + len ≤ state.mm.max
  | .free _ => True

instance Finds.decidable (state : PhysState) : ∀ action, Decidable (Finds state action)
  | .alloc => inferInstanceAs (Decidable (_ → _))
  | .nAlloc _ => inferInstanceAs (Decidable (_ → _))
  | .free _ => isTrue trivial

/-- The reserved frames are the first ones; they are marked, and no block has one of them. -/
structure Guarded (reserved : Nat) (state : PhysState) : Prop where
  bounded : state.mm.max ≤ 2 ^ 20
  marked : ∀ frame < reserved, bitmapTest state.mm.bitmap frame = true
  given : ∀ frame ∈ state.live, reserved ≤ frame

variable {reserved bit len frame : Nat} {state next : PhysState} {action : PhysAction}

theorem Guarded.clear (guarded : Guarded reserved state) (clear : bitmapTest state.mm.bitmap bit = false) :
    reserved ≤ bit := by
  apply Nat.le_of_not_lt
  intro inside
  rw [guarded.marked bit inside] at clear
  cases clear

theorem Guarded.give (guarded : Guarded reserved state) {mm : PhysMm} (max : mm.max = state.mm.max)
    (tests : ∀ frame, bitmapTest state.mm.bitmap frame = true → bitmapTest mm.bitmap frame = true) {frames : List Nat}
    (behind : ∀ frame ∈ frames, reserved ≤ frame) : Guarded reserved ⟨mm, frames ++ state.live⟩ := by
  refine ⟨max ▸ guarded.bounded, fun frame inside => tests frame (guarded.marked frame inside), fun frame member => ?_⟩
  rcases List.mem_append.mp member with new | old
  · exact behind frame new
  · exact guarded.given frame old

theorem blockFrames_found (bounded : bit + len ≤ 2 ^ 20) (positive : 0 < bit) (some : 0 < len) :
    blockFrames (physMmBlock * bit % 2 ^ 32) len = List.range' bit len := by
  have small : physMmBlock * bit < 2 ^ 32 := by
    unfold physMmBlock
    omega
  have address : physMmBlock * bit ≠ 0 := by
    unfold physMmBlock
    omega
  rw [Nat.mod_eq_of_lt small, blockFrames, if_neg address, Nat.mul_div_cancel_left _ (by decide)]

theorem getFirst_clear (bounded : state.mm.max ≤ 2 ^ 20)
    (found : bitmapGetFirst state.mm.bitmap state.mm.max ≠ bitmapNone) :
    bitmapGetFirst state.mm.bitmap state.mm.max < state.mm.max ∧
      bitmapTest state.mm.bitmap (bitmapGetFirst state.mm.bitmap state.mm.max) = false := by
  have below : state.mm.max < bitmapNone := by
    unfold bitmapNone
    omega
  obtain ⟨inside, clear, -, -⟩ := (bitmapScan_some below).mp ⟨rfl, found⟩
  exact ⟨Nat.lt_of_lt_of_le inside (Nat.div_mul_le_self _ _), clear⟩

theorem getNFirst_clear (bounded : state.mm.max ≤ 2 ^ 20)
    (found : bitmapGetNFirst state.mm.bitmap state.mm.max len ≠ bitmapNone) :
    bitmapTest state.mm.bitmap (bitmapGetNFirst state.mm.bitmap state.mm.max len) = false := by
  have below : state.mm.max < bitmapNone := by
    unfold bitmapNone
    omega
  unfold bitmapGetNFirst at found ⊢
  split at found
  next => exact absurd rfl found
  next some =>
    rw [if_neg some]
    split at found
    next single =>
      rw [if_pos single]
      exact (getFirst_clear bounded found).2
    next several =>
      rw [if_neg several]
      exact ((bitmapScan_some below).mp ⟨rfl, found⟩).2.1

theorem blockAlloc_cases (mm : PhysMm) : physMmBlockAlloc mm = (0, mm) ∨
    mm.used < mm.max ∧ 0 < bitmapGetFirst mm.bitmap mm.max ∧
      physMmBlockAlloc mm = (physMmBlock * bitmapGetFirst mm.bitmap mm.max % 2 ^ 32,
        { mm with
          bitmap := bitmapSet mm.bitmap (bitmapGetFirst mm.bitmap mm.max)
          used := (mm.used + 1) % 2 ^ 32 }) := by
  unfold physMmBlockAlloc
  by_cases full : mm.max ≤ mm.used
  · exact .inl (if_pos full)
  · rw [if_neg full]
    by_cases none : bitmapGetFirst mm.bitmap mm.max ≤ 0
    · exact .inl (if_pos none)
    · exact .inr ⟨Nat.lt_of_not_le full, Nat.lt_of_not_le none, if_neg none⟩

theorem blockNAlloc_cases (len : Nat) (mm : PhysMm) : physMmBlockNAlloc len mm = (0, mm) ∨
    len ≤ (mm.max + 2 ^ 32 - mm.used) % 2 ^ 32 ∧ 0 < bitmapGetNFirst mm.bitmap mm.max len ∧
      physMmBlockNAlloc len mm = (physMmBlock * bitmapGetNFirst mm.bitmap mm.max len % 2 ^ 32,
        physMmSetBits (bitmapGetNFirst mm.bitmap mm.max len) len mm) := by
  unfold physMmBlockNAlloc
  by_cases full : (mm.max + 2 ^ 32 - mm.used) % 2 ^ 32 < len
  · exact .inl (if_pos full)
  · rw [if_neg full]
    by_cases none : bitmapGetNFirst mm.bitmap mm.max len ≤ 0
    · exact .inl (if_pos none)
    · exact .inr ⟨Nat.le_of_not_lt full, Nat.lt_of_not_le none, if_neg none⟩

theorem alloc_guarded (guarded : Guarded reserved state) (finds : Finds state .alloc) :
    Guarded reserved ⟨(physMmBlockAlloc state.mm).2, blockFrames (physMmBlockAlloc state.mm).1 1 ++ state.live⟩ := by
  have bounded := guarded.bounded
  rcases blockAlloc_cases state.mm with refused | ⟨more, positive, given⟩
  · rw [refused]
    exact guarded.give rfl (fun _ set => set) fun frame member => absurd member List.not_mem_nil
  · obtain ⟨inside, clear⟩ := getFirst_clear bounded (finds more)
    rw [given]
    dsimp only
    rw [blockFrames_found (by omega) positive Nat.one_pos]
    refine guarded.give ?_ (fun other set => ?_) fun frame member => ?_
    · rfl
    · rw [bitmapTest_set, set, Bool.or_true]
    · rw [List.range'_one] at member
      rw [List.mem_singleton.mp member]
      exact guarded.clear clear

theorem nAlloc_guarded (guarded : Guarded reserved state) (some : 1 ≤ len) (finds : Finds state (.nAlloc len)) :
    Guarded reserved ⟨(physMmBlockNAlloc len state.mm).2,
      blockFrames (physMmBlockNAlloc len state.mm).1 len ++ state.live⟩ := by
  have bounded := guarded.bounded
  rcases blockNAlloc_cases len state.mm with refused | ⟨more, positive, given⟩
  · rw [refused]
    exact guarded.give rfl (fun _ set => set) fun frame member => absurd member List.not_mem_nil
  · have below := finds more
    have found : bitmapGetNFirst state.mm.bitmap state.mm.max len ≠ bitmapNone := by
      unfold bitmapNone
      omega
    have clear := getNFirst_clear bounded found
    rw [given]
    dsimp only
    rw [blockFrames_found (by omega) positive some]
    refine guarded.give setBits_max (fun other set => ?_) fun frame member => ?_
    · rw [setBits_tests (by omega), set, Bool.or_true]
    · obtain ⟨i, -, rfl⟩ := List.mem_range'.mp member
      exact (guarded.clear clear).trans (Nat.le_add_right _ _)

theorem free_guarded (guarded : Guarded reserved state) (member : frame ∈ state.live) :
    Guarded reserved ⟨physMmBlockFree (physMmBlock * frame) state.mm, state.live.erase frame⟩ := by
  have behind := guarded.given frame member
  have given : ∀ other ∈ state.live.erase frame, reserved ≤ other :=
    fun other remains => guarded.given other (List.mem_of_mem_erase remains)
  unfold physMmBlockFree
  split
  next => exact ⟨guarded.bounded, guarded.marked, given⟩
  next =>
    refine ⟨guarded.bounded, fun other inside => ?_, given⟩
    have apart : other ≠ frame := by omega
    rw [bitmapTest_unset, Nat.mul_div_cancel_left _ (by decide), guarded.marked other inside, decide_eq_true apart]
    rfl

theorem physStep_guarded (guarded : Guarded reserved state) (finds : Finds state action)
    (stepped : physStep state action = some next) : Guarded reserved next := by
  cases action with
  | alloc =>
    cases stepped
    exact alloc_guarded guarded finds
  | nAlloc len =>
    simp only [physStep, Option.ite_none_right_eq_some, Option.some.injEq] at stepped
    obtain ⟨some, rfl⟩ := stepped
    exact nAlloc_guarded guarded some finds
  | free frame =>
    simp only [physStep, Option.ite_none_right_eq_some, Option.some.injEq] at stepped
    obtain ⟨member, rfl⟩ := stepped
    exact free_guarded guarded member

theorem init_guarded (memory : Bitmap) (kernelSize memLower memUpper : Nat) (mmap : List MultibootMmapEntry) :
    Guarded (256 + reservedBlocks kernelSize (physMmBitmapMax memLower memUpper))
      ⟨physMmInit memory kernelSize memLower memUpper mmap, []⟩ := by
  refine ⟨?_, fun frame inside => init_tests frame |>.mpr (.inl inside), fun frame member =>
    absurd member List.not_mem_nil⟩
  rw [init_max]
  exact physMmBitmapMax_le memLower memUpper

/-- The blocks that are reserved are those that the kernel and the bitmap reach into. -/
theorem reserved_cover {kernelSize max : Nat} (kernel : kernelSize + physMmBitmapSize max < 2 ^ 32) :
    kernelSize + physMmBitmapSize max ≤ physMmBlock * reservedBlocks kernelSize max ∧
      physMmBlock * reservedBlocks kernelSize max < kernelSize + physMmBitmapSize max + physMmBlock := by
  rw [reservedBlocks, Nat.mod_eq_of_lt kernel]
  unfold divCeil physMmBlock
  split <;> omega

/-- From any memory map on, and over any calls whose searches end, no block has a frame of the first megabyte, of the
kernel or of the bitmap. -/
theorem reserved_frames_kept {memory : Bitmap} {kernelSize memLower memUpper : Nat} {mmap : List MultibootMmapEntry}
    {actions : List PhysAction} {final : PhysState}
    (kernel : kernelSize + physMmBitmapSize (physMmBitmapMax memLower memUpper) < 2 ^ 32)
    (met : Meets physStep Finds ⟨physMmInit memory kernelSize memLower memUpper mmap, []⟩ actions)
    (ran : run physStep ⟨physMmInit memory kernelSize memLower memUpper mmap, []⟩ actions = some final) :
    (∀ frame ∈ final.live,
      0x100000 + kernelSize + physMmBitmapSize (physMmBitmapMax memLower memUpper) ≤ physMmBlock * frame) ∧
    ∀ frame, physMmBlock * frame < 0x100000 + kernelSize + physMmBitmapSize (physMmBitmapMax memLower memUpper) →
      bitmapTest final.mm.bitmap frame = true := by
  have start := init_guarded memory kernelSize memLower memUpper mmap
  have guarded := run_invariant (Guarded (256 + reservedBlocks kernelSize (physMmBitmapMax memLower memUpper)))
    (fun before action after kept finds stepped => physStep_guarded kept finds stepped) start met ran
  have least := (reserved_cover kernel).1
  refine ⟨fun frame member => ?_, fun frame low => guarded.marked frame ?_⟩
  · have behind := guarded.given frame member
    unfold physMmBlock at least ⊢
    omega
  · unfold physMmBlock at least low
    omega

/-- Two megabytes with a kernel of one page: 258 frames are reserved. -/
theorem reserved_frames_kept_example : ∃ final,
    run physStep ⟨physMmInit (fun _ => 0) 0x1000 0 2048 [⟨0, 0x200000, 1⟩], []⟩ [.alloc, .nAlloc 2, .free 258, .alloc] =
      some final ∧
    final.live.length = 3 ∧ ∀ frame ∈ final.live, 0x100000 + 0x1000 + physMmBitmapSize 512 ≤ physMmBlock * frame := by
  have ends : (run physStep ⟨physMmInit (fun _ => 0) 0x1000 0 2048 [⟨0, 0x200000, 1⟩], []⟩
      [.alloc, .nAlloc 2, .free 258, .alloc]).map (fun final => final.live.length) = some 3 := by decide +kernel
  obtain ⟨final, ran, same⟩ := Option.map_eq_some_iff.mp ends
  have met : Meets physStep Finds ⟨physMmInit (fun _ => 0) 0x1000 0 2048 [⟨0, 0x200000, 1⟩], []⟩
      [.alloc, .nAlloc 2, .free 258, .alloc] := by decide +kernel
  exact ⟨final, ran, same, (reserved_frames_kept (by decide) met ran).1⟩

end YuzuOS.Proofs.ReservedFrames
