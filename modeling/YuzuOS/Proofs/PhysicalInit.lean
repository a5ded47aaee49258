import YuzuOS.Proofs.PhysicalFrames

/-! The bitmap that `phys_mm_init` leaves. It is cleared before the available
regions are, so the frames between them come out free, and every region counts
as if its frames had been in use. -/

namespace YuzuOS.Proofs.PhysicalInit
open YuzuOS.Library YuzuOS.Kernel YuzuOS.Proofs.PhysicalFrames

variable {mm : PhysMm} {bit len frame kernelSize memLower memUpper : Nat} {mmap : List MultibootMmapEntry}
  {memory : Bitmap} {entry : MultibootMmapEntry}

theorem setBits_succ (bit len : Nat) (mm : PhysMm) : physMmSetBits bit (len + 1) mm =
    { physMmSetBits bit len mm with
      bitmap := bitmapSet (physMmSetBits bit len mm).bitmap ((bit + len) % 2 ^ 32)
      used := ((physMmSetBits bit len mm).used + 1) % 2 ^ 32 } := by
  rw [physMmSetBits, List.range_succ, List.foldl_append, List.foldl_cons, List.foldl_nil]
  rfl

theorem unsetBits_succ (bit len : Nat) (mm : PhysMm) : physMmUnsetBits bit (len + 1) mm =
    { physMmUnsetBits bit len mm with
      bitmap := bitmapUnset (physMmUnsetBits bit len mm).bitmap ((bit + len) % 2 ^ 32)
      used := ((physMmUnsetBits bit len mm).used + 2 ^ 32 - 1) % 2 ^ 32 } := by
  rw [physMmUnsetBits, List.range_succ, List.foldl_append, List.foldl_cons, List.foldl_nil]
  rfl

theorem setBits_max : (physMmSetBits bit len mm).max = mm.max := by
  induction len with
  | zero => rfl
  | succ len ih =>
    rw [setBits_succ]
    exact ih

theorem unsetBits_max : (physMmUnsetBits bit len mm).max = mm.max := by
  induction len with
  | zero => rfl
  | succ len ih =>
    rw [unsetBits_succ]
    exact ih

theorem setBits_tests (inside : bit + len ≤ 2 ^ 32) (frame : Nat) : bitmapTest (physMmSetBits bit len mm).bitmap frame =
    (decide (bit ≤ frame ∧ frame < bit + len) || bitmapTest mm.bitmap frame) := by
  induction len with
  | zero =>
    have none : ¬ (bit ≤ frame ∧ frame < bit + 0) := by omega
    rw [decide_eq_false none]
    rfl
  | succ len ih =>
    have fits : (bit + len) % 2 ^ 32 = bit + len := Nat.mod_eq_of_lt (by omega)
    rw [setBits_succ, fits, bitmapTest_set, ih (by omega)]
    by_cases new : frame = bit + len
    · simp [new]
    · have same : (bit ≤ frame ∧ frame < bit + len) ↔ (bit ≤ frame ∧ frame < bit + (len + 1)) := by omega
      simp [new, same]

theorem unsetBits_tests (inside : bit + len ≤ 2 ^ 32) (frame : Nat) :
    bitmapTest (physMmUnsetBits bit len mm).bitmap frame =
      (!decide (bit ≤ frame ∧ frame < bit + len) && bitmapTest mm.bitmap frame) := by
  induction len with
  | zero =>
    have none : ¬ (bit ≤ frame ∧ frame < bit + 0) := by omega
    rw [decide_eq_false none]
    rfl
  | succ len ih =>
    have fits : (bit + len) % 2 ^ 32 = bit + len := Nat.mod_eq_of_lt (by omega)
    rw [unsetBits_succ, fits, bitmapTest_unset, ih (by omega)]
    by_cases new : frame = bit + len
    · simp [new]
    · have same : (bit ≤ frame ∧ frame < bit + len) ↔ (bit ≤ frame ∧ frame < bit + (len + 1)) := by omega
      simp [new, same]

theorem setBits_used (bounded : mm.used < 2 ^ 32) : (physMmSetBits bit len mm).used = (mm.used + len) % 2 ^ 32 := by
  induction len with
  | zero => exact (Nat.mod_eq_of_lt bounded).symm
  | succ len ih =>
    rw [setBits_succ]
    show ((physMmSetBits bit len mm).used + 1) % 2 ^ 32 = (mm.used + (len + 1)) % 2 ^ 32
    rw [ih]
    omega

theorem unsetBits_used (bounded : mm.used < 2 ^ 32) : (physMmUnsetBits bit len mm).used < 2 ^ 32 ∧
    ((physMmUnsetBits bit len mm).used + len) % 2 ^ 32 = mm.used := by
  induction len with
  | zero => exact ⟨bounded, Nat.mod_eq_of_lt bounded⟩
  | succ len ih =>
    obtain ⟨below, counted⟩ := ih
    simp only [unsetBits_succ]
    generalize (physMmUnsetBits bit len mm).used = used at below counted ⊢
    omega

/-- The frames of a region as `phys_mm_region_set` takes them. -/
def regionStart (entry : MultibootMmapEntry) : Nat := entry.addr.toNat % 2 ^ 32 / physMmBlock
def regionBlocks (entry : MultibootMmapEntry) : Nat := divCeil (entry.len.toNat % 2 ^ 32) physMmBlock

def Covers (entry : MultibootMmapEntry) (frame : Nat) : Prop :=
  regionStart entry ≤ frame ∧ frame < regionStart entry + regionBlocks entry

instance (entry : MultibootMmapEntry) (frame : Nat) : Decidable (Covers entry frame) :=
  inferInstanceAs (Decidable (_ ∧ _))

def available (mmap : List MultibootMmapEntry) : List MultibootMmapEntry :=
  mmap.filter fun entry => entry.type = multibootMemoryAvailable

def availableBlocks (mmap : List MultibootMmapEntry) : Nat := ((available mmap).map regionBlocks).sum

theorem divCeil_block_le {size : Nat} (bounded : size < 2 ^ 32) : divCeil size physMmBlock ≤ 2 ^ 20 := by
  unfold divCeil physMmBlock
  split <;> omega

theorem regionSet_tests (apart : frame ≠ 0) (entry : MultibootMmapEntry) :
    bitmapTest (physMmRegionSet (entry.addr.toNat % 2 ^ 32) (entry.len.toNat % 2 ^ 32) mm).bitmap frame =
      (!decide (Covers entry frame) && bitmapTest mm.bitmap frame) := by
  have blocks : divCeil (entry.len.toNat % 2 ^ 32) physMmBlock ≤ 2 ^ 20 := divCeil_block_le (Nat.mod_lt _ (by decide))
  have inside : entry.addr.toNat % 2 ^ 32 / physMmBlock + divCeil (entry.len.toNat % 2 ^ 32) physMmBlock ≤ 2 ^ 32 := by
    unfold physMmBlock at blocks ⊢
    omega
  unfold physMmRegionSet
  rw [bitmapTest_set, unsetBits_tests inside, decide_eq_false apart, Bool.false_or]
  rfl

theorem regions_max : (physMmRegions mmap mm).max = mm.max := by
  induction mmap generalizing mm with
  | nil => rfl
  | cons entry mmap ih =>
    refine ih.trans ?_
    dsimp only
    split
    · exact unsetBits_max
    · rfl

theorem regions_used (mmap : List MultibootMmapEntry) (bounded : mm.used < 2 ^ 32) :
    (physMmRegions mmap mm).used < 2 ^ 32 ∧
    ((physMmRegions mmap mm).used + availableBlocks mmap) % 2 ^ 32 = mm.used := by
  induction mmap generalizing mm with
  | nil => exact ⟨bounded, Nat.mod_eq_of_lt bounded⟩
  | cons entry mmap ih =>
    by_cases usable : entry.type = multibootMemoryAvailable
    · have unfolds : physMmRegions (entry :: mmap) mm =
          physMmRegions mmap (physMmRegionSet (entry.addr.toNat % 2 ^ 32) (entry.len.toNat % 2 ^ 32) mm) := by
        simp [physMmRegions, usable]
      have blocks : availableBlocks (entry :: mmap) = regionBlocks entry + availableBlocks mmap := by
        simp [availableBlocks, available, usable]
      obtain ⟨first, counted⟩ : (physMmRegionSet (entry.addr.toNat % 2 ^ 32) (entry.len.toNat % 2 ^ 32) mm).used < 2 ^ 32 ∧
        ((physMmRegionSet (entry.addr.toNat % 2 ^ 32) (entry.len.toNat % 2 ^ 32) mm).used + regionBlocks entry) % 2 ^ 32 =
          mm.used := unsetBits_used bounded
      obtain ⟨below, rest⟩ := ih first
      rw [unfolds, blocks]
      exact ⟨below, by omega⟩
    · have unfolds : physMmRegions (entry :: mmap) mm = physMmRegions mmap mm := by simp [physMmRegions, usable]
      have blocks : availableBlocks (entry :: mmap) = availableBlocks mmap := by
        simp [availableBlocks, available, usable]
      rw [unfolds, blocks]
      exact ih bounded

theorem regions_tests (mmap : List MultibootMmapEntry) (mm : PhysMm) (apart : frame ≠ 0) :
    bitmapTest (physMmRegions mmap mm).bitmap frame = true ↔
    (∀ entry ∈ available mmap, ¬ Covers entry frame) ∧ bitmapTest mm.bitmap frame = true := by
  induction mmap generalizing mm with
  | nil => simp [physMmRegions, available]
  | cons entry mmap ih =>
    by_cases usable : entry.type = multibootMemoryAvailable
    · have unfolds : physMmRegions (entry :: mmap) mm =
          physMmRegions mmap (physMmRegionSet (entry.addr.toNat % 2 ^ 32) (entry.len.toNat % 2 ^ 32) mm) := by
        simp [physMmRegions, usable]
      have members : available (entry :: mmap) = entry :: available mmap := by simp [available, usable]
      rw [unfolds, ih, regionSet_tests apart, members]
      simp only [List.forall_mem_cons, Bool.and_eq_true, Bool.not_eq_true', decide_eq_false_iff_not]
      tauto
    · have unfolds : physMmRegions (entry :: mmap) mm = physMmRegions mmap mm := by simp [physMmRegions, usable]
      have members : available (entry :: mmap) = available mmap := by simp [available, usable]
      rw [unfolds, members]
      exact ih mm

def reservedBlocks (kernelSize max : Nat) : Nat := divCeil ((kernelSize + physMmBitmapSize max) % 2 ^ 32) physMmBlock

theorem reservedBlocks_le (kernelSize max : Nat) : reservedBlocks kernelSize max ≤ 2 ^ 20 :=
  divCeil_block_le (Nat.mod_lt _ (by decide))

theorem init_max : (physMmInit memory kernelSize memLower memUpper mmap).max = physMmBitmapMax memLower memUpper := by
  show (physMmSetBits _ _ (physMmSetBits _ _ (physMmRegions mmap _))).max = _
  rw [setBits_max, setBits_max, regions_max]

theorem init_used (memory : Bitmap) (kernelSize memLower memUpper : Nat) (mmap : List MultibootMmapEntry) :
    (physMmInit memory kernelSize memLower memUpper mmap).used < 2 ^ 32 ∧
    ((physMmInit memory kernelSize memLower memUpper mmap).used + availableBlocks mmap) % 2 ^ 32 =
      physMmBitmapMax memLower memUpper + 256 + reservedBlocks kernelSize (physMmBitmapMax memLower memUpper) := by
  have small := physMmBitmapMax_le memLower memUpper
  have few := reservedBlocks_le kernelSize (physMmBitmapMax memLower memUpper)
  let start : PhysMm := ⟨bitmapZero memory (physMmBitmapSize (physMmBitmapMax memLower memUpper)),
    physMmBitmapMax memLower memUpper, physMmBitmapMax memLower memUpper⟩
  have bounded : start.used < 2 ^ 32 := by
    show physMmBitmapMax memLower memUpper < 2 ^ 32
    omega
  obtain ⟨below, counted⟩ := regions_used mmap bounded
  have first : (physMmRegionUnset 0 0x100000 (physMmRegions mmap start)).used =
      ((physMmRegions mmap start).used + 256) % 2 ^ 32 := setBits_used below
  have second : (physMmInit memory kernelSize memLower memUpper mmap).used =
      ((physMmRegionUnset 0 0x100000 (physMmRegions mmap start)).used +
        reservedBlocks kernelSize (physMmBitmapMax memLower memUpper)) % 2 ^ 32 := by
    refine setBits_used ?_
    show (physMmRegionUnset 0 0x100000 (physMmRegions mmap start)).used < 2 ^ 32
    rw [first]
    exact Nat.mod_lt _ (by decide)
  have used : start.used = physMmBitmapMax memLower memUpper := rfl
  rw [used] at counted
  rw [second, first]
  omega

theorem init_tests (frame : Nat) :
    bitmapTest (physMmInit memory kernelSize memLower memUpper mmap).bitmap frame = true ↔
    frame < 256 + reservedBlocks kernelSize (physMmBitmapMax memLower memUpper) ∨
      ((∀ entry ∈ available mmap, ¬ Covers entry frame) ∧
        8 * physMmBitmapSize (physMmBitmapMax memLower memUpper) ≤ frame ∧ bitmapTest memory frame = true) := by
  have few := reservedBlocks_le kernelSize (physMmBitmapMax memLower memUpper)
  let start : PhysMm := ⟨bitmapZero memory (physMmBitmapSize (physMmBitmapMax memLower memUpper)),
    physMmBitmapMax memLower memUpper, physMmBitmapMax memLower memUpper⟩
  have first : bitmapTest (physMmRegionUnset 0 0x100000 (physMmRegions mmap start)).bitmap frame =
      (decide (0 ≤ frame ∧ frame < 0 + 256) || bitmapTest (physMmRegions mmap start).bitmap frame) :=
    setBits_tests (by decide) frame
  have second : bitmapTest (physMmInit memory kernelSize memLower memUpper mmap).bitmap frame =
      (decide (256 ≤ frame ∧ frame < 256 + reservedBlocks kernelSize (physMmBitmapMax memLower memUpper)) ||
        bitmapTest (physMmRegionUnset 0 0x100000 (physMmRegions mmap start)).bitmap frame) :=
    setBits_tests (by show 256 + reservedBlocks kernelSize (physMmBitmapMax memLower memUpper) ≤ 2 ^ 32; omega) frame
  rw [second, first]
  by_cases low : frame < 256
  · have inside : frame < 256 + reservedBlocks kernelSize (physMmBitmapMax memLower memUpper) := by omega
    simp [low, inside]
  · have apart : frame ≠ 0 := by omega
    have regions := regions_tests mmap start apart
    have zeroed : bitmapTest start.bitmap frame =
        (decide (8 * physMmBitmapSize (physMmBitmapMax memLower memUpper) ≤ frame) && bitmapTest memory frame) :=
      bitmapTest_zero
    rw [zeroed] at regions
    have high : 256 ≤ frame := by omega
    simp only [Bool.or_eq_true, decide_eq_true_eq, regions, Bool.and_eq_true, low, high, Nat.zero_add, and_false,
      false_or, true_and]

def InAvailable (mmap : List MultibootMmapEntry) (frame : Nat) : Prop :=
  ∃ entry ∈ available mmap, entry.addr.toNat ≤ physMmBlock * frame ∧
    physMmBlock * frame + physMmBlock ≤ entry.addr.toNat + entry.len.toNat

/-- The bitmap is right about the frames below its maximum, and stays below it. -/
structure Initialized (memory : Bitmap) (kernelSize memLower memUpper : Nat) (mmap : List MultibootMmapEntry)
    (mm : PhysMm) :
    Prop where
  max : mm.max = physMmBitmapMax memLower memUpper
  free : ∀ frame < mm.max, bitmapTest mm.bitmap frame = false → InAvailable mmap frame ∧ frame ≠ 0 ∧
    0x100000 ≤ physMmBlock * frame ∧ 0x100000 + kernelSize + physMmBitmapSize mm.max ≤ physMmBlock * frame
  counted : mm.used = countSet mm.bitmap mm.max
  untouched : ∀ frame ≥ mm.max, bitmapTest mm.bitmap frame = bitmapTest memory frame

/-- The maps that `phys_mm_init` handles: nothing lies above the maximum, the
available blocks are as many as the blocks of the bitmap, and all frames behind
the kernel are available. -/
structure Accounted (kernelSize max : Nat) (mmap : List MultibootMmapEntry) : Prop where
  bytes : max % 8 = 0
  reserved : 256 + reservedBlocks kernelSize max ≤ max
  regions : ∀ entry ∈ available mmap, regionBlocks entry ≠ 0 → regionStart entry + regionBlocks entry ≤ max
  blocks : availableBlocks mmap % 2 ^ 32 = max
  frames : ∀ frame < max, 256 + reservedBlocks kernelSize max ≤ frame → InAvailable mmap frame ∧
    0x100000 + kernelSize + physMmBitmapSize max ≤ physMmBlock * frame

theorem bitmapSize_covers (max : Nat) : max ≤ 8 * physMmBitmapSize max := by
  unfold physMmBitmapSize divCeil
  split <;> omega

theorem bitmapSize_exact {max : Nat} : 8 * physMmBitmapSize max = max ↔ max % 8 = 0 := by
  unfold physMmBitmapSize divCeil
  split <;> omega

theorem init_tests_below (below : frame < physMmBitmapMax memLower memUpper) :
    bitmapTest (physMmInit memory kernelSize memLower memUpper mmap).bitmap frame = true ↔
      frame < 256 + reservedBlocks kernelSize (physMmBitmapMax memLower memUpper) := by
  have covers := bitmapSize_covers (physMmBitmapMax memLower memUpper)
  rw [init_tests]
  constructor
  · rintro (reserved | ⟨_, above, _⟩)
    · exact reserved
    · omega
  · exact .inl

theorem init_countSet (fits : 256 + reservedBlocks kernelSize (physMmBitmapMax memLower memUpper) ≤
      physMmBitmapMax memLower memUpper) :
    countSet (physMmInit memory kernelSize memLower memUpper mmap).bitmap (physMmBitmapMax memLower memUpper) =
      256 + reservedBlocks kernelSize (physMmBitmapMax memLower memUpper) :=
  countP_range_lt fits fun _ below => init_tests_below below

theorem Accounted.initialized (accounted : Accounted kernelSize (physMmBitmapMax memLower memUpper) mmap)
    (memory : Bitmap) :
    Initialized memory kernelSize memLower memUpper mmap (physMmInit memory kernelSize memLower memUpper mmap) := by
  have exact := bitmapSize_exact.mpr accounted.bytes
  have reserved := accounted.reserved
  refine ⟨init_max, fun frame below clear => ?_, ?_, fun frame above => ?_⟩
  · rw [init_max] at below ⊢
    have behind : 256 + reservedBlocks kernelSize (physMmBitmapMax memLower memUpper) ≤ frame := by
      apply Nat.le_of_not_lt
      intro inside
      rw [(init_tests_below below).mpr inside] at clear
      cases clear
    obtain ⟨inside, apart⟩ := accounted.frames frame below behind
    refine ⟨inside, by omega, ?_, apart⟩
    unfold physMmBlock
    omega
  · obtain ⟨small, used⟩ := init_used memory kernelSize memLower memUpper mmap
    have most := physMmBitmapMax_le memLower memUpper
    have blocks := accounted.blocks
    rw [init_max, init_countSet reserved]
    omega
  · rw [init_max] at above
    apply Bool.eq_iff_iff.mpr
    rw [init_tests]
    constructor
    · rintro (low | ⟨_, _, set⟩)
      · omega
      · exact set
    · intro set
      refine .inr ⟨fun entry member covered => ?_, by omega, set⟩
      have region := accounted.regions entry member
      obtain ⟨first, last⟩ := covered
      omega

/-- The bitmap comes out right, whatever stood in its memory, exactly for the
maps that are accounted for. -/
theorem phys_mm_init_iff (kernelSize memLower memUpper : Nat) (mmap : List MultibootMmapEntry) :
    (∀ memory, Initialized memory kernelSize memLower memUpper mmap
      (physMmInit memory kernelSize memLower memUpper mmap)) ↔
      Accounted kernelSize (physMmBitmapMax memLower memUpper) mmap := by
  refine ⟨fun initialized => ?_, Accounted.initialized⟩
  have covers := bitmapSize_covers (physMmBitmapMax memLower memUpper)
  have most := physMmBitmapMax_le memLower memUpper
  -- the same bit in cleared and in filled memory tells whether it is written
  have empty := initialized fun _ => 0
  have full := initialized fun _ => bitmapNull
  have zero (frame : Nat) : bitmapTest (fun _ => 0) frame = false := by simp [bitmapTest_eq]
  have one (frame : Nat) : bitmapTest (fun _ => bitmapNull) frame = true := by
    have word : bitmapNull = BitVec.allOnes 32 := rfl
    rw [bitmapTest_eq, word, BitVec.getLsbD_allOnes]
    exact decide_eq_true (Nat.mod_lt frame (by decide))
  have outside : ∀ frame ≥ physMmBitmapMax memLower memUpper,
      256 + reservedBlocks kernelSize (physMmBitmapMax memLower memUpper) ≤ frame := by
    intro frame above
    apply Nat.le_of_not_lt
    intro inside
    have kept := empty.untouched frame (init_max.symm ▸ above)
    rw [zero, (init_tests frame).mpr (.inl inside)] at kept
    cases kept
  have uncovered : ∀ frame ≥ physMmBitmapMax memLower memUpper, (∀ entry ∈ available mmap, ¬ Covers entry frame) ∧
      8 * physMmBitmapSize (physMmBitmapMax memLower memUpper) ≤ frame := by
    intro frame above
    have kept := full.untouched frame (init_max.symm ▸ above)
    rw [one, init_tests] at kept
    have behind := outside frame above
    cases kept with
    | inl inside => omega
    | inr rest => exact ⟨rest.1, rest.2.1⟩
  have reserved := outside _ (Nat.le_refl _)
  refine ⟨?_, reserved, fun entry member some => ?_, ?_, fun frame below behind => ?_⟩
  · exact bitmapSize_exact.mp (Nat.le_antisymm (uncovered _ (Nat.le_refl _)).2 covers)
  · apply Nat.le_of_not_lt
    intro beyond
    refine (uncovered (regionStart entry + regionBlocks entry - 1) (by omega)).1 entry member ⟨?_, ?_⟩
    · omega
    · omega
  · obtain ⟨small, used⟩ := init_used (fun _ => 0) kernelSize memLower memUpper mmap
    have counted := empty.counted
    rw [init_max, init_countSet reserved] at counted
    omega
  · have clear : bitmapTest (physMmInit (fun _ => 0) kernelSize memLower memUpper mmap).bitmap frame = false := by
      apply Bool.eq_false_iff.mpr
      intro set
      have inside := (init_tests_below below).mp set
      omega
    obtain ⟨inside, _, _, apart⟩ := empty.free frame (init_max.symm ▸ below) clear
    rw [init_max] at apart
    exact ⟨inside, apart⟩

/-- One region from zero on, to the last frame of the bitmap. -/
example : Accounted 0x50000 (physMmBitmapMax 0 32768) [⟨0, 0x2000000, 1⟩] := by
  refine ⟨by decide, by decide, by decide, by decide, fun frame below behind => ⟨⟨⟨0, 0x2000000, 1⟩, by decide, ?_⟩, ?_⟩⟩
  · have max : physMmBitmapMax 0 32768 = 8192 := by decide
    rw [max] at below
    simp [physMmBlock]
    omega
  · have reserved : reservedBlocks 0x50000 (physMmBitmapMax 0 32768) = 81 := by decide
    have size : physMmBitmapSize (physMmBitmapMax 0 32768) = 1024 := by decide
    rw [reserved] at behind
    rw [size]
    unfold physMmBlock
    omega

/-- 32 megabytes as an emulated machine reports them. -/
def emulatedMap : List MultibootMmapEntry :=
  [⟨0, 0x9FC00, 1⟩, ⟨0x9FC00, 0x400, 2⟩, ⟨0xF0000, 0x10000, 2⟩, ⟨0x100000, 0x1EE0000, 1⟩, ⟨0x1FE0000, 0x20000, 2⟩]

/-- Of 337 marked frames 178 are counted, and the region goes beyond the maximum. -/
theorem frames_miscounted :
    ¬ Initialized (fun _ => bitmapNull) 0x50000 639 31616 emulatedMap
      (physMmInit (fun _ => bitmapNull) 0x50000 639 31616 emulatedMap) ∧
    (physMmInit (fun _ => bitmapNull) 0x50000 639 31616 emulatedMap).used = 178 ∧
    countSet (physMmInit (fun _ => bitmapNull) 0x50000 639 31616 emulatedMap).bitmap (physMmBitmapMax 639 31616) = 337 ∧
    bitmapTest (physMmInit (fun _ => bitmapNull) 0x50000 639 31616 emulatedMap).bitmap 8000 = false := by
  have max : physMmBitmapMax 639 31616 = 7905 := by decide
  have reserved : reservedBlocks 0x50000 (physMmBitmapMax 639 31616) = 81 := by decide
  have blocks : availableBlocks emulatedMap = 8064 := by decide
  have used : (physMmInit (fun _ => bitmapNull) 0x50000 639 31616 emulatedMap).used = 178 := by
    obtain ⟨below, counted⟩ := init_used (fun _ => bitmapNull) 0x50000 639 31616 emulatedMap
    rw [blocks, reserved, max] at counted
    generalize (physMmInit (fun _ => bitmapNull) 0x50000 639 31616 emulatedMap).used = used at below counted ⊢
    omega
  have marked : countSet (physMmInit (fun _ => bitmapNull) 0x50000 639 31616 emulatedMap).bitmap
      (physMmBitmapMax 639 31616) = 337 := by
    rw [init_countSet (by rw [reserved, max]; decide), reserved]
  refine ⟨fun initialized => ?_, used, marked, Bool.eq_false_iff.mpr fun set => ?_⟩
  · have counted := initialized.counted
    rw [init_max, used, marked] at counted
    exact absurd counted (by decide)
  · rw [init_tests, reserved] at set
    cases set with
    | inl low => omega
    | inr rest => exact rest.1 ⟨0x100000, 0x1EE0000, 1⟩ (by decide) (by decide)

end YuzuOS.Proofs.PhysicalInit
