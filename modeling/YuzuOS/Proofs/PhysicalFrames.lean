import Mathlib.Data.Nat.Find
import YuzuOS.Library.Counting
import YuzuOS.Library.Run
import YuzuOS.Kernel.Physical

/-! Runs of the frame allocator. The search for several frames counts clear bits
in a window that is one too long, so the run it picks may hold a set bit. -/

namespace YuzuOS.Proofs.PhysicalFrames
open YuzuOS.Library YuzuOS.Kernel

structure PhysState where
  mm : PhysMm
  live : List Nat

inductive PhysAction
  | alloc
  | nAlloc (len : Nat)
  | free (frame : Nat)

def blockFrames (block len : Nat) : List Nat := if block = 0 then [] else List.range' (block / physMmBlock) len

def physHands (mm : PhysMm) : PhysAction → List Nat
  | .alloc => blockFrames (physMmBlockAlloc mm).1 1
  | .nAlloc len => blockFrames (physMmBlockNAlloc len mm).1 len
  | .free _ => []

/-- Only a frame in use may be freed, and a run of frames is not empty. -/
def physStep (state : PhysState) : PhysAction → Option PhysState
  | .alloc => some ⟨(physMmBlockAlloc state.mm).2, physHands state.mm .alloc ++ state.live⟩
  | .nAlloc len =>
    if 1 ≤ len then some ⟨(physMmBlockNAlloc len state.mm).2, physHands state.mm (.nAlloc len) ++ state.live⟩ else none
  | .free frame =>
    if frame ∈ state.live then some ⟨physMmBlockFree (physMmBlock * frame) state.mm, state.live.erase frame⟩ else none

def countSet (bitmap : Bitmap) (max : Nat) : Nat := (List.range max).countP (bitmapTest bitmap)

/-- The clear bits among `len` ones from `start` on. -/
def countClear (bitmap : Bitmap) (start len : Nat) : Nat :=
  (List.range' start len).countP fun bit => !bitmapTest bitmap bit

structure Intact (state : PhysState) : Prop where
  bounded : state.mm.max ≤ 2 ^ 20
  reserved : bitmapTest state.mm.bitmap 0 = true
  counted : state.mm.used = countSet state.mm.bitmap state.mm.max
  distinct : state.live.Nodup
  allocated : ∀ frame ∈ state.live, frame < state.mm.max ∧ bitmapTest state.mm.bitmap frame = true

variable {bitmap : Bitmap} {mm : PhysMm} {state next : PhysState} {bit len max start : Nat}

theorem countSet_le (bitmap : Bitmap) (max : Nat) : countSet bitmap max ≤ max := by
  have short : countSet bitmap max ≤ (List.range max).length := List.countP_le_length
  simpa using short

theorem countSet_set (inside : bit < max) (clear : bitmapTest bitmap bit = false) :
    countSet (bitmapSet bitmap bit) max = countSet bitmap max + 1 := by
  apply countP_insert List.nodup_range (List.mem_range.mpr inside)
  · simp [bitmapTest_set]
  · exact clear
  · intro other apart
    simp [bitmapTest_set, apart]

theorem countSet_unset (inside : bit < max) (set : bitmapTest bitmap bit = true) :
    countSet bitmap max = countSet (bitmapUnset bitmap bit) max + 1 := by
  apply countP_insert List.nodup_range (List.mem_range.mpr inside) set
  · simp [bitmapTest_unset]
  · intro other apart
    simp [bitmapTest_unset, apart]

/-- The window test succeeds when the window holds enough clear bits. -/
theorem bitmapCountFree_iff {turns count free : Nat} (short : free < len) (inside : start + count + turns ≤ 2 ^ 32) :
    bitmapCountFree bitmap start len turns count free = true ↔
      len ≤ free + countClear bitmap (start + count) turns := by
  induction turns generalizing count free with
  | zero => simp [bitmapCountFree, countClear, short]
  | succ turns ih =>
    have index : (start + count) % 2 ^ 32 = start + count := Nat.mod_eq_of_lt (by omega)
    have rest : start + (count + 1) + turns ≤ 2 ^ 32 := by omega
    rw [bitmapCountFree, index, countClear, List.range'_succ, List.countP_cons]
    cases bitmapTest bitmap (start + count) with
    | true =>
      have apart : free ≠ len := short.ne
      simpa [apart, countClear, Nat.add_assoc] using ih short rest
    | false =>
      by_cases last : free + 1 = len
      · simp [last]
        omega
      · have more : free + 1 < len := by omega
        have later : bitmapCountFree bitmap start len turns (count + 1) (free + 1) = true ↔
            len ≤ free + 1 + countClear bitmap (start + (count + 1)) turns := ih more rest
        simp only [countClear] at later
        simp [last, later, Nat.add_assoc, Nat.add_comm]

theorem bitmapCountFree_window (positive : 0 < len) (inside : start + (len + 1) ≤ 2 ^ 32) :
    bitmapCountFree bitmap start len (len + 1) 0 0 = true ↔ len ≤ countClear bitmap start (len + 1) := by
  have counted : bitmapCountFree bitmap start len (len + 1) 0 0 = true ↔
      len ≤ 0 + countClear bitmap (start + 0) (len + 1) := bitmapCountFree_iff positive inside
  simpa using counted

/-- A run of clear frames that no earlier window with one set bit hides. -/
def FirstRun (mm : PhysMm) (len start : Nat) : Prop :=
  start + len ≤ mm.max ∧ (∀ i < len, bitmapTest mm.bitmap (start + i) = false) ∧
    ∀ earlier < start, bitmapTest mm.bitmap earlier = true ∨ countClear mm.bitmap earlier (len + 1) < len

/-- Where the allocator has enough frames, it also sees what it needs. -/
def RunVisible (state : PhysState) : PhysAction → Prop
  | .alloc => state.mm.used < state.mm.max → ∃ start < state.mm.max / 32 * 32, bitmapTest state.mm.bitmap start = false
  | .nAlloc len => len ≤ state.mm.max - state.mm.used →
      ∃ start < state.mm.max / 32 * 32, FirstRun state.mm len start
  | .free _ => True

instance FirstRun.decidable (mm : PhysMm) (len start : Nat) : Decidable (FirstRun mm len start) :=
  inferInstanceAs (Decidable (_ ∧ _ ∧ _))

instance RunVisible.decidable (state : PhysState) : ∀ action, Decidable (RunVisible state action)
  | .alloc => inferInstanceAs (Decidable (_ → _))
  | .nAlloc _ => inferInstanceAs (Decidable (_ → _))
  | .free _ => isTrue trivial

theorem countClear_full (clear : ∀ i < len, bitmapTest bitmap (start + i) = false) :
    len ≤ countClear bitmap start len := by
  have all : countClear bitmap start len = (List.range' start len).length := by
    apply List.countP_eq_length.mpr
    intro bit member
    obtain ⟨i, bound, rfl⟩ := List.mem_range'.mp member
    simpa using clear i bound
  simp [all]

theorem countClear_mono {more : Nat} (longer : len ≤ more) :
    countClear bitmap start len ≤ countClear bitmap start more := by
  obtain ⟨extra, rfl⟩ := Nat.exists_eq_add_of_le longer
  rw [countClear, countClear, ← List.range'_append_1, List.countP_append]
  exact Nat.le_add_right _ _

theorem bitmapGetNFirst_run (bounded : mm.max ≤ 2 ^ 20) (positive : 1 ≤ len) (visible : start < mm.max / 32 * 32)
    (run : FirstRun mm len start) : bitmapGetNFirst mm.bitmap mm.max len = start := by
  obtain ⟨room, clear, first⟩ := run
  have below : mm.max < bitmapNone := by
    unfold bitmapNone
    omega
  have here : bitmapTest mm.bitmap start = false := clear 0 positive
  have some : len ≠ 0 := by omega
  rw [bitmapGetNFirst, if_neg some]
  split
  next single =>
    refine ((bitmapScan_some below).mpr ⟨visible, here, rfl, fun earlier less => ?_⟩).1
    rcases first earlier less with set | short
    · exact .inl set
    · have shortest : countClear mm.bitmap earlier 1 ≤ countClear mm.bitmap earlier (len + 1) := countClear_mono (by omega)
      cases test : bitmapTest mm.bitmap earlier with
      | true => exact .inl rfl
      | false =>
        have one : countClear mm.bitmap earlier 1 = 1 := by simp [countClear, test]
        omega
  next several =>
    have window {bit : Nat} (inside : bit + len ≤ mm.max) : bitmapCountFree mm.bitmap bit len (len + 1) 0 0 = true ↔
        len ≤ countClear mm.bitmap bit (len + 1) := bitmapCountFree_window positive (by omega)
    refine ((bitmapScan_some below).mpr ⟨visible, here, ?_, fun earlier less => ?_⟩).1
    · exact (window room).mpr ((countClear_full clear).trans (countClear_mono (Nat.le_succ len)))
    · rcases first earlier less with set | short
      · exact .inl set
      · refine .inr (Bool.eq_false_iff.mpr fun found => ?_)
        have enough := (window (by omega)).mp found
        omega

theorem bitmapGetFirst_visible (bounded : mm.max ≤ 2 ^ 20)
    (visible : ∃ start < mm.max / 32 * 32, bitmapTest mm.bitmap start = false) :
    bitmapTest mm.bitmap (bitmapGetFirst mm.bitmap mm.max) = false ∧ bitmapGetFirst mm.bitmap mm.max < mm.max := by
  have below : mm.max < bitmapNone := by
    unfold bitmapNone
    omega
  obtain ⟨inside, clear⟩ := Nat.find_spec visible
  have first : bitmapGetFirst mm.bitmap mm.max = Nat.find visible := by
    refine ((bitmapScan_some below).mpr ⟨inside, clear, rfl, fun earlier less => .inl ?_⟩).1
    have set := Nat.find_min visible less
    simpa [less.trans inside] using set
  rw [first]
  exact ⟨clear, inside.trans_le (Nat.div_mul_le_self _ _)⟩

theorem physMmSetBits_spec (bounded : mm.max ≤ 2 ^ 20) (inside : bit + len ≤ mm.max)
    (counted : mm.used = countSet mm.bitmap mm.max) (clear : ∀ i < len, bitmapTest mm.bitmap (bit + i) = false) :
    (physMmSetBits bit len mm).max = mm.max ∧
    (physMmSetBits bit len mm).used = countSet (physMmSetBits bit len mm).bitmap mm.max ∧
    ∀ other, bitmapTest (physMmSetBits bit len mm).bitmap other =
      (decide (bit ≤ other ∧ other < bit + len) || bitmapTest mm.bitmap other) := by
  induction len with
  | zero =>
    refine ⟨rfl, counted, fun other => ?_⟩
    simp [physMmSetBits]
  | succ len ih =>
    obtain ⟨max, used, tests⟩ := ih (by omega) fun i bound => clear i (by omega)
    have unfolds : physMmSetBits bit (len + 1) mm = { physMmSetBits bit len mm with
        bitmap := bitmapSet (physMmSetBits bit len mm).bitmap ((bit + len) % 2 ^ 32)
        used := ((physMmSetBits bit len mm).used + 1) % 2 ^ 32 } := by
      simp [physMmSetBits, List.range_succ]
    have fits : (bit + len) % 2 ^ 32 = bit + len := Nat.mod_eq_of_lt (by omega)
    have free : bitmapTest (physMmSetBits bit len mm).bitmap (bit + len) = false := by
      simp [tests, clear len (Nat.lt_succ_self len)]
    have grown := countSet_set (show bit + len < mm.max by omega) free
    have most := countSet_le (bitmapSet (physMmSetBits bit len mm).bitmap (bit + len)) mm.max
    rw [unfolds, fits]
    refine ⟨max, ?_, fun other => ?_⟩
    · simp only [grown, used]
      exact Nat.mod_eq_of_lt (by omega)
    · rw [bitmapTest_set, tests]
      by_cases new : other = bit + len
      · simp [new]
      · have same : (bit ≤ other ∧ other < bit + len) ↔ (bit ≤ other ∧ other < bit + (len + 1)) := by omega
        simp [new, same]

inductive Gives (mm : PhysMm) (len : Nat) : Nat × PhysMm → Prop
  | null : Gives mm len (0, mm)
  | frames {bit : Nat} : 0 < bit → bit + len ≤ mm.max → (∀ i < len, bitmapTest mm.bitmap (bit + i) = false) →
      Gives mm len (physMmBlock * bit, physMmSetBits bit len mm)

theorem physMmBlockAlloc_gives (intact : Intact state) (visible : RunVisible state .alloc) :
    Gives state.mm 1 (physMmBlockAlloc state.mm) := by
  unfold physMmBlockAlloc
  split
  next => exact .null
  next free =>
    obtain ⟨clear, inside⟩ := bitmapGetFirst_visible intact.bounded (visible (Nat.not_le.mp free))
    have positive : 0 < bitmapGetFirst state.mm.bitmap state.mm.max := by
      apply Nat.pos_of_ne_zero
      intro zero
      rw [zero, intact.reserved] at clear
      cases clear
    have fits : physMmBlock * bitmapGetFirst state.mm.bitmap state.mm.max % 2 ^ 32 =
        physMmBlock * bitmapGetFirst state.mm.bitmap state.mm.max := by
      have bounded := intact.bounded
      apply Nat.mod_eq_of_lt
      unfold physMmBlock
      omega
    have single : physMmSetBits (bitmapGetFirst state.mm.bitmap state.mm.max) 1 state.mm = { state.mm with
        bitmap := bitmapSet state.mm.bitmap (bitmapGetFirst state.mm.bitmap state.mm.max)
        used := (state.mm.used + 1) % 2 ^ 32 } := by
      have bounded := intact.bounded
      have index : bitmapGetFirst state.mm.bitmap state.mm.max % 2 ^ 32 = bitmapGetFirst state.mm.bitmap state.mm.max :=
        Nat.mod_eq_of_lt (by omega)
      simp only [physMmSetBits, List.range_one, List.foldl_cons, List.foldl_nil, Nat.add_zero, index]
    simp only [Nat.not_le.mpr positive, if_false]
    rw [fits, ← single]
    refine .frames positive (by omega) fun i bound => ?_
    have zero : i = 0 := by omega
    rw [zero, Nat.add_zero]
    exact clear

theorem physMmBlockNAlloc_gives (intact : Intact state) (positive : 1 ≤ len)
    (visible : RunVisible state (.nAlloc len)) :
    Gives state.mm len (physMmBlockNAlloc len state.mm) := by
  have most := countSet_le state.mm.bitmap state.mm.max
  have used := intact.counted
  have bounded := intact.bounded
  have left : (state.mm.max + 2 ^ 32 - state.mm.used) % 2 ^ 32 = state.mm.max - state.mm.used := by omega
  unfold physMmBlockNAlloc
  rw [left]
  split
  next => exact .null
  next enough =>
    obtain ⟨start, seen, run⟩ := visible (by omega)
    have above : 0 < start := by
      apply Nat.pos_of_ne_zero
      intro zero
      have clear := run.2.1 0 positive
      rw [zero, intact.reserved] at clear
      cases clear
    have fits : physMmBlock * start % 2 ^ 32 = physMmBlock * start := by
      apply Nat.mod_eq_of_lt
      unfold physMmBlock
      have inside := run.1
      omega
    rw [bitmapGetNFirst_run bounded positive seen run]
    simp only [Nat.not_le.mpr above, if_false, fits]
    exact .frames above run.1 run.2.1

/-- The frames that a call gives were clear, and stay apart from the live ones. -/
theorem Gives.intact {result : Nat × PhysMm} (gives : Gives state.mm len result) (intact : Intact state) :
    Intact ⟨result.2, blockFrames result.1 len ++ state.live⟩ ∧
    ∀ frame ∈ blockFrames result.1 len, frame < state.mm.max ∧ bitmapTest state.mm.bitmap frame = false := by
  cases gives with
  | null =>
    have empty : blockFrames 0 len = [] := rfl
    rw [empty]
    exact ⟨⟨intact.bounded, intact.reserved, intact.counted, intact.distinct, intact.allocated⟩, by simp⟩
  | @frames bit positive inside clear =>
    obtain ⟨max, used, tests⟩ := physMmSetBits_spec intact.bounded inside intact.counted clear
    have frames : blockFrames (physMmBlock * bit) len = List.range' bit len := by
      have address : physMmBlock * bit ≠ 0 := by
        unfold physMmBlock
        omega
      rw [blockFrames, if_neg address, Nat.mul_div_cancel_left _ (by decide)]
    have fresh : ∀ frame ∈ List.range' bit len, frame < state.mm.max ∧ bitmapTest state.mm.bitmap frame = false := by
      intro frame member
      obtain ⟨i, bound, rfl⟩ := List.mem_range'.mp member
      rw [Nat.one_mul]
      exact ⟨by omega, clear i bound⟩
    rw [frames]
    refine ⟨⟨max.symm ▸ intact.bounded, ?_, ?_, ?_, ?_⟩, fresh⟩
    · simp [tests, intact.reserved]
    · simp only [max, used]
    · refine List.nodup_append.mpr ⟨List.nodup_range', intact.distinct, ?_⟩
      intro frame member other live same
      have set := (intact.allocated other live).2
      rw [← same, (fresh frame member).2] at set
      cases set
    · intro frame member
      simp only [max, tests]
      rcases List.mem_append.mp member with new | old
      · refine ⟨(fresh frame new).1, ?_⟩
        obtain ⟨i, bound, rfl⟩ := List.mem_range'.mp new
        simp [bound]
      · simp [intact.allocated frame old]

theorem free_intact {frame : Nat} (intact : Intact state) (member : frame ∈ state.live) :
    Intact ⟨physMmBlockFree (physMmBlock * frame) state.mm, state.live.erase frame⟩ := by
  obtain ⟨inside, set⟩ := intact.allocated frame member
  have distinct := intact.distinct.erase frame
  have kept : ∀ other ∈ state.live.erase frame, other ≠ frame ∧ other ∈ state.live :=
    fun other remains => intact.distinct.mem_erase_iff.mp remains
  by_cases null : frame = 0
  · have same : physMmBlockFree (physMmBlock * frame) state.mm = state.mm := by simp [physMmBlockFree, null]
    rw [same]
    exact ⟨intact.bounded, intact.reserved, intact.counted, distinct,
      fun other remains => intact.allocated other (kept other remains).2⟩
  · have address : physMmBlock * frame ≠ 0 := by
      unfold physMmBlock
      omega
    have freed : physMmBlockFree (physMmBlock * frame) state.mm = { state.mm with
        bitmap := bitmapUnset state.mm.bitmap frame, used := (state.mm.used + 2 ^ 32 - 1) % 2 ^ 32 } := by
      rw [physMmBlockFree, if_neg address, Nat.mul_div_cancel_left _ (by decide)]
    have fewer := countSet_unset inside set
    have most := countSet_le state.mm.bitmap state.mm.max
    have counted := intact.counted
    have bounded := intact.bounded
    rw [freed]
    refine ⟨bounded, ?_, ?_, distinct, fun other remains => ?_⟩
    · simp [bitmapTest_unset, intact.reserved, Ne.symm null]
    · simp only
      omega
    · obtain ⟨apart, live⟩ := kept other remains
      have before := intact.allocated other live
      simp [bitmapTest_unset, apart, before]

theorem physStep_intact {action : PhysAction} (intact : Intact state) (visible : RunVisible state action)
    (stepped : physStep state action = some next) : Intact next ∧
    ∀ frame ∈ physHands state.mm action, frame < state.mm.max ∧ bitmapTest state.mm.bitmap frame = false := by
  cases action with
  | alloc =>
    cases stepped
    exact (physMmBlockAlloc_gives intact visible).intact intact
  | nAlloc len =>
    simp only [physStep, Option.ite_none_right_eq_some, Option.some.injEq] at stepped
    obtain ⟨positive, rfl⟩ := stepped
    exact (physMmBlockNAlloc_gives intact positive visible).intact intact
  | free frame =>
    simp only [physStep, Option.ite_none_right_eq_some, Option.some.injEq] at stepped
    obtain ⟨member, rfl⟩ := stepped
    exact ⟨free_intact intact member, by simp [physHands]⟩

theorem physMmBitmapMax_le (memLower memUpper : Nat) : physMmBitmapMax memLower memUpper ≤ 2 ^ 20 := by
  unfold physMmBitmapMax divCeil physMmBlock
  split <;> omega

/-- In a run whose calls see what they need, each call hands out clear frames
below the maximum, no frame is in two blocks, and the count of set bits is kept. -/
theorem frames_handed_out_once {memLower memUpper used : Nat} {bitmap : Bitmap} {live : List Nat}
    {before after : List PhysAction} {action : PhysAction} {middle final : PhysState}
    (reserved : bitmapTest bitmap 0 = true) (counted : used = countSet bitmap (physMmBitmapMax memLower memUpper))
    (distinct : live.Nodup)
    (allocated : ∀ frame ∈ live, frame < physMmBitmapMax memLower memUpper ∧ bitmapTest bitmap frame = true)
    (met : Meets physStep RunVisible ⟨⟨bitmap, used, physMmBitmapMax memLower memUpper⟩, live⟩ (before ++ action :: after))
    (reached : run physStep ⟨⟨bitmap, used, physMmBitmapMax memLower memUpper⟩, live⟩ before = some middle)
    (ran : run physStep ⟨⟨bitmap, used, physMmBitmapMax memLower memUpper⟩, live⟩ (before ++ action :: after) = some final) :
    (∀ frame ∈ physHands middle.mm action, frame < middle.mm.max ∧ bitmapTest middle.mm.bitmap frame = false) ∧
    final.live.Nodup ∧ (∀ frame ∈ final.live, frame < final.mm.max ∧ bitmapTest final.mm.bitmap frame = true) ∧
    final.mm.used = countSet final.mm.bitmap final.mm.max := by
  have start : Intact ⟨⟨bitmap, used, physMmBitmapMax memLower memUpper⟩, live⟩ :=
    ⟨physMmBitmapMax_le memLower memUpper, reserved, counted, distinct, allocated⟩
  have kept : ∀ before action after, Intact before → RunVisible before action →
      physStep before action = some after → Intact after :=
    fun _ _ _ intact visible stepped => (physStep_intact intact visible stepped).1
  have whole := run_invariant Intact kept start met ran
  obtain ⟨earlier, later⟩ := meets_append met reached
  have intact := run_invariant Intact kept start earlier reached
  obtain ⟨_, same, ran⟩ := run_append.mp ran
  rw [reached] at same
  cases same
  obtain ⟨next, stepped, _⟩ := run_cons.mp ran
  exact ⟨(physStep_intact intact later.1 stepped).2, whole.distinct, whole.allocated, whole.counted⟩

def physExample : PhysState := ⟨⟨fun index => if index = 0 then 1 else 0, 1, physMmBitmapMax 262144 0⟩, []⟩

theorem frames_handed_out_once_example : ∃ final,
    run physStep physExample [.alloc, .nAlloc 40, .free 1, .alloc, .free 20, .nAlloc 3] = some final ∧
    final.live.length = 43 ∧ final.live.Nodup ∧ final.mm.used = countSet final.mm.bitmap final.mm.max := by
  have ends : (run physStep physExample [.alloc, .nAlloc 40, .free 1, .alloc, .free 20, .nAlloc 3]).map
      (fun final => final.live.length) = some 43 := by decide +kernel
  have middle : (run physStep physExample [.alloc]).isSome = true := by decide +kernel
  obtain ⟨final, ran, same⟩ := Option.map_eq_some_iff.mp ends
  obtain ⟨_, reached⟩ := Option.isSome_iff_exists.mp middle
  have reserved : bitmapTest physExample.mm.bitmap 0 = true := by decide +kernel
  have counted : physExample.mm.used = countSet physExample.mm.bitmap (physMmBitmapMax 262144 0) := by decide +kernel
  have unowned : ∀ frame ∈ physExample.live, frame < physMmBitmapMax 262144 0 ∧
      bitmapTest physExample.mm.bitmap frame = true := by simp [physExample]
  have met : Meets physStep RunVisible physExample ([.alloc] ++ .nAlloc 40 :: [.free 1, .alloc, .free 20, .nAlloc 3]) := by
    decide +kernel
  have whole := frames_handed_out_once reserved counted List.nodup_nil unowned met reached ran
  exact ⟨final, ran, same, whole.2.1, whole.2.2.2⟩

/-- Frames 1 and 2 are allocated and 1 is freed. A call for two frames then gives
frames 1 and 2, and 2 has two owners. -/
theorem frame_handed_out_twice : ∃ before final,
    run physStep physExample [.alloc, .alloc, .free 1] = some before ∧ before.live = [2] ∧
    physHands before.mm (.nAlloc 2) = [1, 2] ∧ bitmapTest before.mm.bitmap 2 = true ∧
    physStep before (.nAlloc 2) = some final ∧ final.live = [1, 2, 2] ∧
    final.mm.used ≠ countSet final.mm.bitmap final.mm.max := by
  have ends : (run physStep physExample [.alloc, .alloc, .free 1]).map (fun before =>
      (before.live, physHands before.mm (.nAlloc 2), bitmapTest before.mm.bitmap 2,
        (physStep before (.nAlloc 2)).map fun final =>
          (final.live, decide (final.mm.used ≠ countSet final.mm.bitmap final.mm.max)))) =
      some ([2], [1, 2], true, some ([1, 2, 2], true)) := by decide +kernel
  obtain ⟨before, ran, same⟩ := Option.map_eq_some_iff.mp ends
  simp only [Prod.mk.injEq] at same
  obtain ⟨live, hands, set, called⟩ := same
  obtain ⟨final, stepped, after⟩ := Option.map_eq_some_iff.mp called
  simp only [Prod.mk.injEq, decide_eq_true_eq] at after
  exact ⟨before, final, ran, live, hands, set, stepped, after⟩

end YuzuOS.Proofs.PhysicalFrames
