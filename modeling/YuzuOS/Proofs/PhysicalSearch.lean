import YuzuOS.Proofs.PhysicalInit

/-! When one call of the frame allocator does what it is for. The search reads
whole words only, and its failure is the frame 2 ^ 32 - 1, which the callers do
not tell from a success. -/

namespace YuzuOS.Proofs.PhysicalSearch
open YuzuOS.Library YuzuOS.Kernel YuzuOS.Proofs.PhysicalFrames YuzuOS.Proofs.PhysicalInit

variable {mm : PhysMm} {bitmap : Bitmap} {frames bit frame start len max : Nat} {accept : Nat → Bool}

/-- The counter is the number of set bits, and frame 0 is never handed out. -/
structure Counted (mm : PhysMm) : Prop where
  bounded : mm.max < 2 ^ 32
  reserved : bitmapTest mm.bitmap 0 = true
  counted : mm.used = countSet mm.bitmap mm.max

def FreeRun (mm : PhysMm) (len start : Nat) : Prop :=
  start + len ≤ mm.max ∧ ∀ i < len, bitmapTest mm.bitmap (start + i) = false

/-- What a call for `len` frames promises: `NULL` and nothing else when there is no
run, and otherwise the lowest one. -/
structure Serves (mm : PhysMm) (len : Nat) (result : Nat × PhysMm) : Prop where
  null : result.1 = 0 ↔ ¬∃ start, FreeRun mm len start
  unchanged : result.1 = 0 → result.2 = mm
  lowest : ∀ start, FreeRun mm len start → (∀ earlier < start, ¬FreeRun mm len earlier) →
    result.1 = physMmBlock * start ∧ result.2.used = mm.used + len ∧ result.2.max = mm.max ∧
      ∀ frame, bitmapTest result.2.bitmap frame =
        (decide (start ≤ frame ∧ frame < start + len) || bitmapTest mm.bitmap frame)
  outside : ∀ frame, mm.max ≤ frame → bitmapTest result.2.bitmap frame = bitmapTest mm.bitmap frame

theorem scan_some (bounded : frames < 2 ^ 32) : bitmapScan bitmap frames accept = bit ∧ bit ≠ bitmapNone ↔
    bit < frames / 32 * 32 ∧ bitmapTest bitmap bit = false ∧ accept bit = true ∧
      ∀ earlier < bit, bitmapTest bitmap earlier = true ∨ accept earlier = false := by
  have whole : frames / 32 * 32 / 32 = frames / 32 := by omega
  have same : bitmapScan bitmap frames accept = bitmapScan bitmap (frames / 32 * 32) accept := by
    rw [bitmapScan, bitmapScan, bitmapIndex, bitmapIndex, whole]
  have below : frames / 32 * 32 < bitmapNone := by
    unfold bitmapNone
    omega
  rw [same, bitmapScan_some below, whole]

theorem scan_seen (bounded : frames < 2 ^ 32) (seen : bit < frames / 32 * 32) (clear : bitmapTest bitmap bit = false)
    (pass : accept bit = true) : bitmapScan bitmap frames accept ≠ bitmapNone := by
  have exist : ∃ bit, bitmapTest bitmap bit = false ∧ accept bit = true := ⟨bit, clear, pass⟩
  obtain ⟨clear', pass'⟩ := Nat.find_spec exist
  have first : ∀ earlier < Nat.find exist, bitmapTest bitmap earlier = true ∨ accept earlier = false := by
    intro earlier less
    have failed := Nat.find_min exist less
    cases test : bitmapTest bitmap earlier with
    | true => exact .inl rfl
    | false => exact .inr (Bool.eq_false_of_not_eq_true fun pass => failed ⟨test, pass⟩)
  have below := (Nat.find_min' exist ⟨clear, pass⟩).trans_lt seen
  obtain ⟨scan, other⟩ := (scan_some bounded).mpr ⟨below, clear', pass', first⟩
  exact fun none => other (scan.symm.trans none)

theorem countClear_eq (bitmap : Bitmap) (max : Nat) : countClear bitmap 0 max = max - countSet bitmap max := by
  have split : (List.range max).length = _ := List.length_eq_countP_add_countP (bitmapTest bitmap)
  simp only [Bool.not_eq_true, List.length_range, Bool.decide_eq_false] at split
  rw [countClear, ← List.range_eq_range', countSet]
  omega

theorem countClear_inside (inside : start + len ≤ max) : countClear bitmap start len ≤ countClear bitmap 0 max := by
  have part : List.Sublist (List.range' start len) (List.range' 0 max) := by
    have front : List.range' 0 (start + len) = List.range' 0 start ++ List.range' start len := by
      rw [← List.range'_append_1, Nat.zero_add]
    have whole : List.range' 0 max = List.range' 0 (start + len) ++ List.range' (start + len) (max - (start + len)) := by
      rw [show max = start + len + (max - (start + len)) by omega, ← List.range'_append_1, Nat.zero_add, Nat.add_sub_cancel_left]
    rw [whole, front]
    exact (List.sublist_append_right _ _).trans (List.sublist_append_left _ _)
  exact part.countP_le

/-- A run of clear frames is not larger than what the counter leaves. -/
theorem FreeRun.few (run : FreeRun mm len start) (counted : Counted mm) : len ≤ mm.max - mm.used := by
  have clear := (countClear_full run.2).trans (countClear_inside run.1)
  rw [countClear_eq] at clear
  rw [counted.counted]
  exact clear

theorem FreeRun.lowest (run : FreeRun mm len start) :
    ∃ first ≤ start, FreeRun mm len first ∧ ∀ earlier < first, ¬FreeRun mm len earlier := by
  classical
  have some : ∃ start, FreeRun mm len start := ⟨start, run⟩
  exact ⟨Nat.find some, Nat.find_min' some run, Nat.find_spec some, fun earlier less => Nat.find_min some less⟩

/-- What both calls do with a frame that a search gives. -/
def taken (mm : PhysMm) (len bit : Nat) : Nat × PhysMm := (physMmBlock * bit % 2 ^ 32, physMmSetBits bit len mm)

section Taking

variable (counted : Counted mm) (enough : len ≤ mm.max - mm.used) (positive : 0 < len) (short : len < 2 ^ 32)

include counted enough positive

/-- Taking the lowest run serves the call when its address is not cut off. -/
theorem taken_serves (run : FreeRun mm len start) (first : ∀ earlier < start, ¬FreeRun mm len earlier)
    (fits : start < 2 ^ 20) :
    Serves mm len (taken mm len start) := by
  have bounded := counted.bounded
  have below : start ≠ 0 := by
    rintro rfl
    have clear := run.2 0 positive
    rw [Nat.add_zero, counted.reserved] at clear
    cases clear
  have inside : start + len ≤ 2 ^ 32 := run.1.trans bounded.le
  have address : physMmBlock * start % 2 ^ 32 = physMmBlock * start := Nat.mod_eq_of_lt (by unfold physMmBlock; omega)
  have size : physMmBlock = 4096 := rfl
  have used : (mm.used + len) % 2 ^ 32 = mm.used + len := by
    have most := countSet_le mm.bitmap mm.max
    rw [← counted.counted] at most
    exact Nat.mod_eq_of_lt (by omega)
  have usedBound : mm.used < 2 ^ 32 := by omega
  have handed : physMmBlock * start ≠ 0 := by
    rw [size]
    omega
  refine ⟨iff_of_false ?_ (not_not.mpr ⟨start, run⟩), fun zero => ?_, fun other run' first' => ?_, fun frame outside => ?_⟩
  · simpa only [taken, address] using handed
  · simp only [taken, address] at zero
    exact absurd zero handed
  · have same : other = start := by
      rcases Nat.lt_trichotomy other start with less | same | more
      · exact absurd run' (first other less)
      · exact same
      · exact absurd run (first' start more)
    subst same
    exact ⟨address, (setBits_used usedBound).trans used, setBits_max, setBits_tests inside⟩
  · have outOf : ¬(start ≤ frame ∧ frame < start + len) := by
      have last := run.1
      omega
    simp only [taken, setBits_tests inside, outOf, decide_false, Bool.false_or]

end Taking

/-- What a search gives is the lowest run when the call serves. -/
theorem serves_taken (counted : Counted mm) (positive : 0 < len) (short : len < 2 ^ 32)
    (serves : Serves mm len (taken mm len bit))
    (order : ∀ other, FreeRun mm len other → bit ≤ other ∨ (bit = bitmapNone ∧ mm.max / 32 * 32 ≤ other)) :
    FreeRun mm len bit ∧ bit < 2 ^ 20 := by
  have bounded := counted.bounded
  have size : physMmBlock = 4096 := rfl
  have none : bitmapNone = 2 ^ 32 - 1 := rfl
  have usedBound : mm.used < 2 ^ 32 := by
    have most := countSet_le mm.bitmap mm.max
    rw [← counted.counted] at most
    omega
  have handed : (taken mm len bit).1 ≠ 0 := by
    intro zero
    have same := congrArg PhysMm.used (serves.unchanged zero)
    rw [taken, setBits_used usedBound] at same
    omega
  obtain ⟨start, run⟩ := Classical.not_not.mp (mt serves.null.mpr handed)
  obtain ⟨first, _, lowest, before⟩ := run.lowest
  have address : physMmBlock * bit % 2 ^ 32 = physMmBlock * first := (serves.lowest first lowest before).1
  have last := lowest.1
  rw [size] at address
  rcases order first lowest with above | ⟨unseen, behind⟩
  · have same : bit = first := by omega
    subst same
    exact ⟨lowest, by omega⟩
  · -- the address of the frame that stands for failure is that of frame 2 ^ 20 - 1, which the search would have seen
    rw [unseen, none] at address
    omega

/-- A call whose search passes no run. -/
theorem serves_search_iff (accept : Nat → Bool) (counted : Counted mm) (positive : 0 < len) (short : len < 2 ^ 32)
    (enough : len ≤ mm.max - mm.used) (passes : ∀ start, FreeRun mm len start → accept start = true) :
    Serves mm len (if bitmapScan mm.bitmap mm.max accept ≤ 0 then (0, mm) else taken mm len (bitmapScan mm.bitmap mm.max accept)) ↔
      ∃ start < mm.max / 32 * 32, start < 2 ^ 20 ∧ FreeRun mm len start ∧
        ∀ earlier < start, bitmapTest mm.bitmap earlier = true ∨ accept earlier = false := by
  have bounded := counted.bounded
  obtain ⟨bit, scan⟩ : ∃ bit, bitmapScan mm.bitmap mm.max accept = bit := ⟨_, rfl⟩
  have found (here : bit ≠ bitmapNone) := (scan_some bounded).mp ⟨scan, here⟩
  have none : bitmapNone = 2 ^ 32 - 1 := rfl
  have some (start : Nat) (run : FreeRun mm len start) : bitmapTest mm.bitmap start = false := run.2 0 positive
  rw [scan]
  constructor
  · intro serves
    have placed : ¬bit ≤ 0 := by
      intro zero
      have here : bit ≠ bitmapNone := by omega
      have clear := (found here).2.1
      rw [Nat.le_zero.mp zero, counted.reserved] at clear
      cases clear
    rw [if_neg placed] at serves
    have order (other : Nat) (run : FreeRun mm len other) : bit ≤ other ∨ (bit = bitmapNone ∧ mm.max / 32 * 32 ≤ other) := by
      rcases Nat.lt_or_ge other (mm.max / 32 * 32) with seen | behind
      · left
        by_contra after
        by_cases here : bit = bitmapNone
        · exact absurd (scan.trans here) (scan_seen bounded seen (some other run) (passes other run))
        · rcases (found here).2.2.2 other (Nat.not_le.mp after) with set | refused
          · rw [some other run] at set
            cases set
          · rw [passes other run] at refused
            cases refused
      · by_cases here : bit = bitmapNone
        · exact .inr ⟨here, behind⟩
        · exact .inl ((found here).1.le.trans behind)
    obtain ⟨run, fits⟩ := serves_taken counted positive short serves order
    have last := run.1
    have here : bit ≠ bitmapNone := by omega
    exact ⟨bit, (found here).1, fits, run, (found here).2.2.2⟩
  · rintro ⟨start, visible, fits, run, first⟩
    have same : bit = start := scan.symm.trans ((scan_some bounded).mpr ⟨visible, some start run, passes start run, first⟩).1
    subst same
    have placed : ¬bit ≤ 0 := by
      intro zero
      have clear := some bit run
      rw [Nat.le_zero.mp zero, counted.reserved] at clear
      cases clear
    rw [if_neg placed]
    refine taken_serves counted enough positive run (fun earlier less again => ?_) fits
    rcases first earlier less with set | refused
    · rw [some earlier again] at set
      cases set
    · rw [passes earlier again] at refused
      cases refused

theorem refused_serves (counted : Counted mm) (refused : mm.max - mm.used < len) : Serves mm len (0, mm) := by
  have nothing (start : Nat) (run : FreeRun mm len start) : False := (run.few counted).not_gt refused
  exact ⟨iff_of_true rfl fun ⟨start, run⟩ => nothing start run, fun _ => rfl, fun start run => (nothing start run).elim, fun _ _ => rfl⟩

theorem Counted.used_le (counted : Counted mm) : mm.used ≤ mm.max := by
  rw [counted.counted]
  exact countSet_le mm.bitmap mm.max

theorem blockAlloc_serves_iff (counted : Counted mm) : Serves mm 1 (physMmBlockAlloc mm) ↔
    mm.used = mm.max ∨ ∃ frame < mm.max / 32 * 32, frame < 2 ^ 20 ∧ bitmapTest mm.bitmap frame = false := by
  have bounded := counted.bounded
  have most := counted.used_le
  unfold physMmBlockAlloc
  split
  next full => exact iff_of_true (refused_serves counted (by omega)) (.inl (by omega))
  next free =>
    have free' : ¬mm.used = mm.max := by omega
    have scanned (frame : Nat) : frame = bitmapGetFirst mm.bitmap mm.max → frame < 2 ^ 32 := by
      rintro rfl
      by_cases none : bitmapGetFirst mm.bitmap mm.max = bitmapNone
      · rw [none]
        decide
      · have inside := ((scan_some bounded).mp ⟨rfl, none⟩).1
        have whole := Nat.div_mul_le_self mm.max 32
        exact (inside.trans_le whole).trans bounded
    have single : (physMmBlock * bitmapGetFirst mm.bitmap mm.max % 2 ^ 32,
        { mm with bitmap := bitmapSet mm.bitmap (bitmapGetFirst mm.bitmap mm.max), used := (mm.used + 1) % 2 ^ 32 }) =
        taken mm 1 (bitmapGetFirst mm.bitmap mm.max) := by
      simp only [taken, physMmSetBits, List.range_one, List.foldl_cons, List.foldl_nil, Nat.add_zero,
        Nat.mod_eq_of_lt (scanned _ rfl)]
    have searched := serves_search_iff (fun _ => true) counted Nat.one_pos (by decide) (by omega : 1 ≤ mm.max - mm.used) fun _ _ => rfl
    simp only [single]
    refine searched.trans ⟨fun found => ?_, fun cases => ?_⟩
    · obtain ⟨start, seen, fits, run, -⟩ := found
      exact .inr ⟨start, seen, fits, run.2 0 Nat.one_pos⟩
    obtain ⟨frame, seen, fits, clear⟩ := cases.resolve_left free'
    have exist : ∃ frame, bitmapTest mm.bitmap frame = false := ⟨frame, clear⟩
    have least := Nat.find_min' exist clear
    have whole := Nat.div_mul_le_self mm.max 32
    refine ⟨Nat.find exist, least.trans_lt seen, least.trans_lt fits, ⟨by omega, fun i less => ?_⟩, fun earlier less => .inl ?_⟩
    · rw [Nat.lt_one_iff.mp less]
      exact Nat.find_spec exist
    · exact Bool.eq_true_of_not_eq_false (Nat.find_min exist less)

theorem blockNAlloc_serves_iff (counted : Counted mm) (several : 2 ≤ len) (short : len < 2 ^ 32) :
    Serves mm len (physMmBlockNAlloc len mm) ↔
      mm.max - mm.used < len ∨ ∃ start < mm.max / 32 * 32, start < 2 ^ 20 ∧ FirstRun mm len start := by
  have bounded := counted.bounded
  have most := counted.used_le
  have left : (mm.max + 2 ^ 32 - mm.used) % 2 ^ 32 = mm.max - mm.used := by omega
  have positive : 0 < len := by omega
  have window {start : Nat} (inside : start + len ≤ mm.max) : bitmapCountFree mm.bitmap start len (len + 1) 0 0 = true ↔
      len ≤ countClear mm.bitmap start (len + 1) := bitmapCountFree_window positive (by omega)
  have search : bitmapGetNFirst mm.bitmap mm.max len =
      bitmapScan mm.bitmap mm.max fun start => bitmapCountFree mm.bitmap start len (len + 1) 0 0 := by
    rw [bitmapGetNFirst, if_neg (by omega), if_neg (by omega)]
  unfold physMmBlockNAlloc
  rw [left, search]
  split
  next refused => exact iff_of_true (refused_serves counted refused) (.inl refused)
  next enough =>
    refine (serves_search_iff _ counted positive short (Nat.not_lt.mp enough) fun start run => ?_).trans ?_
    · exact (window run.1).mpr ((countClear_full run.2).trans (countClear_mono (Nat.le_succ len)))
    · -- below a run the window test looks at clear bits of the map only
      have first {start : Nat} (run : FreeRun mm len start) :
          (∀ earlier < start, bitmapTest mm.bitmap earlier = true ∨ bitmapCountFree mm.bitmap earlier len (len + 1) 0 0 = false) ↔
          ∀ earlier < start, bitmapTest mm.bitmap earlier = true ∨ countClear mm.bitmap earlier (len + 1) < len := by
        have last := run.1
        refine forall_congr' fun earlier => imp_congr_right fun less => or_congr_right ?_
        rw [← Bool.not_eq_true, window (by omega), Nat.not_le]
      refine ⟨fun found => ?_, fun cases => ?_⟩
      · obtain ⟨start, seen, fits, run, before⟩ := found
        exact .inr ⟨start, seen, fits, run.1, run.2, (first run).mp before⟩
      obtain ⟨start, seen, fits, room, clear, before⟩ := cases.resolve_left enough
      exact ⟨start, seen, fits, ⟨room, clear⟩, (first ⟨room, clear⟩).mpr before⟩

/-- A call for one frame serves exactly when the map is full or a clear frame lies in
a whole word. A call for several also needs that no earlier window with one set
bit has as many clear ones. -/
theorem phys_mm_alloc_serves_iff (counted : Counted mm) :
    (Serves mm 1 (physMmBlockAlloc mm) ↔
      mm.used = mm.max ∨ ∃ frame < mm.max / 32 * 32, frame < 2 ^ 20 ∧ bitmapTest mm.bitmap frame = false) ∧
    ∀ len, 2 ≤ len → len < 2 ^ 32 → (Serves mm len (physMmBlockNAlloc len mm) ↔
      mm.max - mm.used < len ∨ ∃ start < mm.max / 32 * 32, start < 2 ^ 20 ∧ FirstRun mm len start) :=
  ⟨blockAlloc_serves_iff counted, fun _ several short => blockNAlloc_serves_iff counted several short⟩

/-- Frames 0 and 2 are in use, of 64. -/
def sparseMm : PhysMm := ⟨fun index => if index = 0 then 5 else 0, 2, 64⟩

theorem phys_mm_alloc_serves_example : Serves sparseMm 1 (physMmBlockAlloc sparseMm) ∧
    Serves sparseMm 80 (physMmBlockNAlloc 80 sparseMm) ∧ ¬Serves sparseMm 2 (physMmBlockNAlloc 2 sparseMm) := by
  have counted : Counted sparseMm := ⟨by decide, by decide, by decide +kernel⟩
  obtain ⟨one, several⟩ := phys_mm_alloc_serves_iff counted
  refine ⟨one.mpr (.inr ⟨1, by decide⟩), (several 80 (by decide) (by decide)).mpr (.inl (by decide)), fun serves => ?_⟩
  rcases (several 2 (by decide) (by decide)).mp serves with few | ⟨start, _, _, _, clear, before⟩
  · exact absurd few (by decide)
  · -- frame 1 with frame 3 pass for a run of two
    rcases Nat.lt_or_ge 1 start with later | small
    · exact absurd (before 1 later) (by decide)
    · have cases : start = 0 ∨ start = 1 := by omega
      rcases cases with rfl | rfl
      · exact absurd (clear 0 (by decide)) (by decide)
      · exact absurd (clear 1 (by decide)) (by decide)

/-- The first of 33 frames that is clear is the last one, behind the only whole word.
The call gives the last page of the address space and sets a bit above the maximum. -/
theorem phys_mm_alloc_misses : ∃ mm : PhysMm, Counted mm ∧ mm.max = 33 ∧ bitmapTest mm.bitmap 32 = false ∧
    (physMmBlockAlloc mm).1 = 0xFFFFF000 ∧ bitmapTest mm.bitmap bitmapNone = false ∧
    bitmapTest (physMmBlockAlloc mm).2.bitmap bitmapNone = true ∧ ¬Serves mm 1 (physMmBlockAlloc mm) := by
  refine ⟨⟨fun index => if index = 0 then bitmapNull else 0, 32, 33⟩, ⟨by decide, by decide, by decide +kernel⟩, rfl,
    by decide, by decide +kernel, by decide +kernel, by decide +kernel, fun serves => ?_⟩
  have same := serves.outside bitmapNone (by decide)
  exact absurd same (by decide +kernel)

end YuzuOS.Proofs.PhysicalSearch
