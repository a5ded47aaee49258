import YuzuOS.Proofs.IniStrip

/-! What the functions of the INI parser make of any string in the line buffer, and the
places that they come to. -/

namespace YuzuOS.Proofs.IniReading
open YuzuOS.Library YuzuOS.Libc YuzuOS.Core YuzuOS.Proofs.IniLines YuzuOS.Proofs.IniStrip

variable {memory : Memory} {address place line turns : Nat} {text front rest ends : List (BitVec 8)}
  {goesOn : Bool → BitVec 8 → Bool} {space : Bool}

theorem terminated_drop (terminated : Terminated memory address (front ++ rest)) :
    Terminated memory (address + front.length) rest := by
  have holds := terminated.holds
  have fits := terminated.fits
  rw [List.append_assoc] at holds
  rw [List.length_append] at fits
  exact ⟨(Memory.holds_append.mp holds).2, fun zero => terminated.nonzero (List.mem_append_right _ zero), by omega⟩

/-- A zero that is written into a string ends it there. -/
theorem terminated_cut (terminated : Terminated memory address (front ++ rest)) :
    Terminated (memory.store8 (address + front.length) 0) address front := by
  have fits := terminated.fits
  rw [List.length_append] at fits
  refine ⟨Memory.holds_append.mpr ⟨?_, ?_, trivial⟩, fun zero => terminated.nonzero (List.mem_append_left _ zero), by omega⟩
  · exact (Memory.holds_append.mp (Memory.holds_append.mp terminated.holds).1).1.congr fun place _ upper =>
      Memory.write_outside (.inl upper)
  · exact Memory.write_inside le_rfl (Nat.lt_succ_self _)

/-! ### Scans -/

def scanFrom (goesOn : Bool → BitVec 8 → Bool) (memory : Memory) : Nat → Bool → Nat → Option Nat
  | 0, _, _ => none
  | turns + 1, space, string =>
    if goesOn space (memory string) then scanFrom goesOn memory turns (isspace (memory string)) (string + 1) else some string

def passed (goesOn : Bool → BitVec 8 → Bool) : Bool → List (BitVec 8) → List (BitVec 8)
  | _, [] => []
  | space, byte :: rest => if goesOn space byte then byte :: passed goesOn (isspace byte) rest else []

theorem passed_append (goesOn : Bool → BitVec 8 → Bool) (space : Bool) (text : List (BitVec 8)) :
    passed goesOn space text ++ text.drop (passed goesOn space text).length = text := by
  induction text generalizing space with
  | nil => rfl
  | cons byte rest ih =>
    rw [passed]
    split
    · rw [List.cons_append, List.length_cons, List.drop_succ_cons, ih]
    · rfl

theorem scan_passed (terminated : Terminated memory address text) (stops : ∀ space, goesOn space 0 = false)
    (enough : text.length < turns) :
    scanFrom goesOn memory turns space address = some (address + (passed goesOn space text).length) ∧
      ∀ place ∈ scanPlaces goesOn memory turns space address, address ≤ place ∧ place ≤ address + text.length := by
  induction text generalizing address turns space with
  | nil =>
    obtain ⟨turns, rfl⟩ := Nat.exists_eq_succ_of_ne_zero (Nat.ne_of_gt enough)
    have zero : memory address = 0 := terminated.stop
    rw [scanFrom, scanPlaces, zero, stops]
    simp [passed]
  | cons byte rest ih =>
    obtain ⟨turns, rfl⟩ := Nat.exists_eq_succ_of_ne_zero (Nat.ne_of_gt (Nat.zero_lt_of_lt enough))
    have here : memory address = byte := terminated.holds.1
    rw [scanFrom, scanPlaces, passed, here]
    cases more : goesOn space byte with
    | false => simp
    | true =>
      have later : Terminated memory (address + 1) rest := terminated_drop (show Terminated memory address ([byte] ++ rest) from terminated)
      obtain ⟨stop, places⟩ := ih later (Nat.lt_of_succ_lt_succ enough)
      simp only [if_true, List.length_cons, List.forall_mem_cons]
      refine ⟨by rw [stop]; congr 1; omega, by omega, fun place member => ?_⟩
      have bounds := places place member
      omega

theorem iniSkipFrom_scan (space : Bool) (string : Nat) :
    iniSkipFrom memory turns string = scanFrom iniSkips memory turns space string := by
  induction turns generalizing space string with
  | zero => rfl
  | succ turns ih =>
    rw [iniSkipFrom, scanFrom, ← ih]
    simp only [iniSkips, decide_eq_true_eq]

theorem iniFindFrom_scan (chars : Option (List (BitVec 8))) (string : Nat) :
    iniFindFrom memory chars turns space string = scanFrom (iniSeeks chars) memory turns space string := by
  induction turns generalizing space string with
  | zero => rfl
  | succ turns ih =>
    rw [iniFindFrom, scanFrom, ← ih]
    simp only [iniSeeks, decide_eq_true_eq]

theorem passed_skips (space : Bool) (nonzero : 0 ∉ text) : passed iniSkips space text = text.takeWhile isspace := by
  induction text generalizing space with
  | nil => rfl
  | cons byte rest ih =>
    rw [List.mem_cons, not_or] at nonzero
    have stored : byte ≠ 0 := Ne.symm nonzero.1
    have same : iniSkips space byte = isspace byte := by
      simp only [iniSkips, ne_eq, stored, not_false_eq_true, true_and, Bool.decide_eq_true]
    rw [passed, same, List.takeWhile_cons, ih _ nonzero.2]

theorem iniSkip_terminated (terminated : Terminated memory address text) :
    iniSkip memory address = some (address + (text.takeWhile isspace).length) ∧
      ∀ place ∈ iniSkipPlaces memory address, address ≤ place ∧ place ≤ address + text.length := by
  rw [iniSkip, iniSkipFrom_scan false, ← passed_skips false terminated.nonzero]
  exact scan_passed terminated (fun _ => rfl) terminated.fits

theorem iniFind_terminated (chars : Option (List (BitVec 8))) (terminated : Terminated memory address text) :
    iniFind memory address chars = some (address + (passed (iniSeeks chars) false text).length) ∧
      ∀ place ∈ iniFindPlaces memory address chars, address ≤ place ∧ place ≤ address + text.length := by
  rw [iniFind, iniFindFrom_scan]
  exact scan_passed terminated (fun _ => rfl) terminated.fits

theorem strlenPlaces_terminated (terminated : Terminated memory address text)
    (member : place ∈ strlenPlaces memory address) :
    address ≤ place ∧ place ≤ address + text.length :=
  (scan_passed terminated (fun _ => rfl) terminated.fits).2 place member

/-- `strlen` reads on as long as there is no terminator. -/
theorem scanPlaces_reaches {length : Nat} (stored : ∀ i < length, memory (address + i) ≠ 0) (space : Bool)
    (enough : length < turns) :
    address + length ∈ scanPlaces (fun _ byte => byte ≠ 0) memory turns space address := by
  induction length generalizing address turns space with
  | zero =>
    obtain ⟨turns, rfl⟩ := Nat.exists_eq_succ_of_ne_zero (Nat.ne_of_gt enough)
    exact List.mem_cons_self
  | succ length ih =>
    obtain ⟨turns, rfl⟩ := Nat.exists_eq_succ_of_ne_zero (Nat.ne_of_gt (Nat.zero_lt_of_lt enough))
    have here : memory address ≠ 0 := stored 0 (Nat.zero_lt_succ _)
    have behind : ∀ i < length, memory (address + 1 + i) ≠ 0 := fun i bound => by
      rw [Nat.add_right_comm]
      exact stored (i + 1) (Nat.succ_lt_succ bound)
    have later := ih behind (isspace (memory address)) (Nat.lt_of_succ_lt_succ enough)
    rw [scanPlaces, if_pos (by simpa using here)]
    rw [Nat.add_right_comm] at later
    exact List.mem_cons_of_mem _ later

/-! ### Stripping -/

/-- What the loop of `ini_strip` leaves of a string; both are read from the end. -/
def stripEnds : List (BitVec 8) → List (BitVec 8)
  | [] => []
  | c :: rest =>
    if c = 0x20 then stripEnds rest
    else match rest with
      | d :: e :: more => if 0x09 ≤ d ∧ e ≤ 0x0D then stripEnds more else c :: rest
      | _ => c :: rest

/-- Whether the loop stays in the buffer. What lies in front of the string there is read from the end, too. -/
def staysInside (front : List (BitVec 8)) (ends : List (BitVec 8)) : Bool :=
  match ends with
  | [] => true
  | c :: rest =>
    if c = 0x20 then staysInside front rest
    else match rest ++ front with
      | [] => false
      | [d] => d < 0x09
      | d :: e :: _ => if 0x09 ≤ d ∧ e ≤ 0x0D then staysInside front (rest.drop 2) else true
termination_by ends.length

theorem stripEnds_space (rest : List (BitVec 8)) : stripEnds (0x20 :: rest) = stripEnds rest := by
  rcases rest with - | ⟨d, - | ⟨e, more⟩⟩
  · exact if_pos rfl
  · exact if_pos rfl
  · exact if_pos rfl

theorem stripEnds_other {c : BitVec 8} (other : c ≠ 0x20) : stripEnds (c :: rest) =
    match rest with
    | d :: e :: more => if 0x09 ≤ d ∧ e ≤ 0x0D then stripEnds more else c :: rest
    | _ => c :: rest := by
  rcases rest with - | ⟨d, - | ⟨e, more⟩⟩
  · exact if_neg other
  · exact if_neg other
  · exact if_neg other

theorem stripEnds_short {c : BitVec 8} (other : c ≠ 0x20) (short : rest.length < 2) :
    stripEnds (c :: rest) = c :: rest := by
  rw [stripEnds_other other]
  rcases rest with - | ⟨_, - | ⟨_, more⟩⟩
  · rfl
  · rfl
  · simp only [List.length_cons] at short
    omega

theorem staysInside_other {c : BitVec 8} (other : c ≠ 0x20) : staysInside front (c :: rest) =
    match rest ++ front with
    | [] => false
    | [d] => decide (d < 0x09)
    | d :: e :: _ => if 0x09 ≤ d ∧ e ≤ 0x0D then staysInside front (rest.drop 2) else true := by
  rw [staysInside, if_neg other]

theorem stripLoop_done {string pString : Nat} (done : pString ≤ string) :
    iniStripLoop string turns pString memory = memory ∧ iniStripPlaces string turns pString memory = [] := by
  cases turns with
  | zero => exact ⟨rfl, rfl⟩
  | succ turns => exact ⟨if_neg (Nat.not_lt.mpr done), if_neg (Nat.not_lt.mpr done)⟩

theorem holds_behind (holds : memory.Holds line ((ends ++ front).reverse ++ [0])) :
    memory.Holds (line + front.length) (ends.reverse ++ [0]) := by
  rw [List.reverse_append, List.append_assoc] at holds
  have behind := (Memory.holds_append.mp holds).2
  rwa [List.length_reverse] at behind

theorem holds_before {string : Nat} (holds : memory.Holds string (ends.reverse ++ [0])) (before : place < string) :
    (memory.store8 place 0).Holds string (ends.reverse ++ [0]) :=
  holds.congr fun _ lower _ => Memory.write_outside (.inr (by omega))

/-- What one call of the loop does to a string, and whether it stays in the buffer. -/
structure LoopEnds (memory : Memory) (line turns : Nat) (front ends : List (BitVec 8)) : Prop where
  left : (iniStripLoop (line + front.length) turns (line + (ends ++ front).length) memory).Holds (line + front.length)
    ((stripEnds ends).reverse ++ [0])
  inside : (∀ place ∈ iniStripPlaces (line + front.length) turns (line + (ends ++ front).length) memory, line ≤ place) ↔
    staysInside front ends = true

variable {c d e : BitVec 8} {more : List (BitVec 8)}

theorem loopEnds_space (here : memory (line + (rest ++ front).length) = 0x20)
    (later : LoopEnds (memory.store8 (line + (rest ++ front).length) 0) line turns front rest) :
    LoopEnds memory line (turns + 1) front (0x20 :: rest) := by
  have longer : line + front.length < line + (0x20 :: rest ++ front).length := by
    simp only [List.cons_append, List.length_cons, List.length_append]
    omega
  have first : line + (0x20 :: rest ++ front).length - 1 = line + (rest ++ front).length := rfl
  constructor
  · rw [iniStripLoop, if_pos longer, first, stripEnds_space]
    simp only [here, if_true]
    exact later.left
  · rw [iniStripPlaces, if_pos longer, first, staysInside]
    simp only [here, if_true, List.forall_mem_cons, Nat.le_add_right, true_and]
    exact later.inside

theorem loopEnds_one (positive : 0 < line) (holds : memory.Holds line ([c].reverse ++ [0])) (other : c ≠ 0x20) :
    LoopEnds memory line (turns + 1) [] [c] := by
  have here : memory line = c := holds.1
  have longer : line < line + 1 := Nat.lt_succ_self _
  constructor
  · change (iniStripLoop line (turns + 1) (line + 1) memory).Holds line ((stripEnds [c]).reverse ++ [0])
    rw [iniStripLoop, if_pos longer, stripEnds_other other]
    simp only [Nat.add_sub_cancel, here, if_neg other]
    split
    · split
      · rw [(stripLoop_done (by omega)).1]
        exact holds_before holds (by omega)
      · exact holds
    · exact holds
  · change (∀ place ∈ iniStripPlaces line (turns + 1) (line + 1) memory, line ≤ place) ↔ staysInside [] [c] = true
    refine iff_of_false (fun inside => ?_) (by simp [staysInside_other other])
    have outside : line - 1 ∈ iniStripPlaces line (turns + 1) (line + 1) memory := by
      rw [iniStripPlaces, if_pos longer]
      simp only [Nat.add_sub_cancel, here, if_neg other]
      split <;> simp
    have lower := inside _ outside
    omega

theorem loopEnds_two (positive : 0 < line) (holds : memory.Holds line ((c :: rest ++ front).reverse ++ [0]))
    (other : c ≠ 0x20) (ahead : rest ++ front = [d]) : LoopEnds memory line (turns + 1) front (c :: rest) := by
  have sizes : rest.length + front.length = 1 := by
    have size := congrArg List.length ahead
    rwa [List.length_append] at size
  have behind := holds_behind holds
  rw [List.cons_append, ahead] at holds
  have here : memory (line + 1) = c := (holds_last holds).2
  have there : memory line = d := holds_second holds
  have place : line + (c :: rest ++ front).length = line + 2 := by rw [List.cons_append, ahead]; rfl
  have longer : line + front.length < line + 2 := by omega
  have first : line + 2 - 1 = line + 1 := rfl
  have whole : stripEnds (c :: rest) = c :: rest := stripEnds_short other (by omega)
  constructor
  · rw [place, iniStripLoop, if_pos longer, whole]
    simp only [first, Nat.add_sub_cancel, here, there, if_neg other]
    split
    · split
      · rw [(stripLoop_done (by omega)).1]
        exact holds_before behind (by omega)
      · exact behind
    · exact behind
  · rw [place, iniStripPlaces, if_pos longer, staysInside_other other, ahead]
    simp only [first, Nat.add_sub_cancel, here, there, if_neg other]
    by_cases nine : 0x09 ≤ d
    · have high : ¬d < 0x09 := fun below => not_le_of_below below nine
      simp only [if_pos nine, decide_eq_true_eq, high, iff_false, List.forall_mem_cons, not_and]
      intro _ _ before
      omega
    · have low := below_of_not_le nine
      simp only [if_neg nine, decide_eq_true_eq, low, iff_true, List.forall_mem_cons]
      exact ⟨Nat.le_succ _, le_rfl, List.forall_mem_nil _⟩

theorem loopEnds_three (holds : memory.Holds line ((c :: rest ++ front).reverse ++ [0])) (other : c ≠ 0x20)
    (ahead : rest ++ front = d :: e :: more)
    (later : rest.drop 2 ++ front = more → LoopEnds (memory.store8 (line + more.length) 0) line turns front (rest.drop 2)) :
    LoopEnds memory line (turns + 1) front (c :: rest) := by
  have sizes : rest.length + front.length = more.length + 2 := by
    have size := congrArg List.length ahead
    rwa [List.length_append] at size
  have behind := holds_behind holds
  rw [List.cons_append, ahead] at holds
  have here : memory (line + (more.length + 2)) = c := (holds_last holds).2
  have there : memory (line + (more.length + 1)) = d := holds_second holds
  have last : memory (line + more.length) = e := (holds_third holds).2
  have place : line + (c :: rest ++ front).length = line + (more.length + 3) := by rw [List.cons_append, ahead]; rfl
  have longer : line + front.length < line + (more.length + 3) := by omega
  have first : line + (more.length + 3) - 1 = line + (more.length + 2) := rfl
  have second : line + (more.length + 2) - 1 = line + (more.length + 1) := rfl
  have third : line + (more.length + 1) - 1 = line + more.length := rfl
  by_cases passes : 0x09 ≤ d ∧ e ≤ 0x0D
  · rcases Nat.lt_or_ge rest.length 2 with short | long
    · -- the loop ends in front of the string
      have done : line + more.length ≤ line + front.length := by omega
      constructor
      · rw [place, iniStripLoop, if_pos longer, stripEnds_short other short]
        simp only [first, second, third, here, there, last, if_neg other, if_pos passes.1, if_pos passes.2]
        rw [(stripLoop_done done).1]
        exact holds_before behind (by omega)
      · have nothing : rest.drop 2 = [] := List.drop_eq_nil_of_le (by omega)
        rw [place, iniStripPlaces, if_pos longer, staysInside_other other, ahead]
        simp only [first, second, third, here, there, last, if_neg other, if_pos passes.1, if_pos passes.2, if_pos passes,
          List.forall_mem_cons, Nat.le_add_right, true_and]
        rw [(stripLoop_done done).2, nothing, staysInside]
        exact iff_of_true (List.forall_mem_nil _) rfl
    · obtain ⟨d', e', rest, rfl⟩ : ∃ d' e' others, rest = d' :: e' :: others := by
        rcases rest with - | ⟨d', - | ⟨e', others⟩⟩
        · exact absurd long (by simp)
        · exact absurd long (by simp)
        · exact ⟨d', e', others, rfl⟩
      simp only [List.cons_append, List.cons.injEq] at ahead
      obtain ⟨rfl, rfl, rfl⟩ := ahead
      have ends := later rfl
      constructor
      · have passed : stripEnds (c :: d' :: e' :: rest) = stripEnds rest := (stripEnds_other other).trans (if_pos passes)
        rw [place, iniStripLoop, if_pos longer, passed]
        simp only [first, second, third, here, there, last, if_neg other, if_pos passes.1, if_pos passes.2]
        exact ends.left
      · rw [place, iniStripPlaces, if_pos longer, staysInside_other other]
        simp only [first, second, third, here, there, last, if_neg other, if_pos passes.1, if_pos passes.2, List.forall_mem_cons,
          Nat.le_add_right, true_and, List.cons_append]
        rw [if_pos passes]
        exact ends.inside
  · have whole : stripEnds (c :: rest) = c :: rest := by
      rw [stripEnds_other other]
      rcases rest with - | ⟨_, - | ⟨_, rest⟩⟩
      · rfl
      · rfl
      · simp only [List.cons_append, List.cons.injEq] at ahead
        obtain ⟨rfl, rfl, rfl⟩ := ahead
        exact if_neg passes
    constructor
    · rw [place, iniStripLoop, if_pos longer, whole]
      simp only [first, second, third, here, there, last, if_neg other]
      split
      next nine =>
        rw [if_neg fun low => passes ⟨nine, low⟩]
        exact behind
      next => exact behind
    · rw [place, iniStripPlaces, if_pos longer, staysInside_other other, ahead]
      simp only [first, second, third, here, there, last, if_neg other, if_neg passes, iff_true]
      split
      next nine =>
        rw [if_neg fun low => passes ⟨nine, low⟩]
        simp
      next => simp

theorem loop_ends (positive : 0 < line) (holds : memory.Holds line ((ends ++ front).reverse ++ [0]))
    (enough : ends.length ≤ turns) :
    LoopEnds memory line turns front ends := by
  induction size : ends.length using Nat.strong_induction_on generalizing ends memory turns with
  | _ length ih =>
    cases ends with
    | nil =>
      have done : line + ([] ++ front).length ≤ line + front.length := le_rfl
      constructor
      · rw [(stripLoop_done done).1]
        exact holds_behind holds
      · rw [(stripLoop_done done).2, staysInside]
        exact iff_of_true (List.forall_mem_nil _) rfl
    | cons c rest =>
      obtain ⟨turns, rfl⟩ := Nat.exists_eq_succ_of_ne_zero (Nat.ne_of_gt (Nat.zero_lt_of_lt enough))
      obtain ⟨text, here⟩ := holds_last holds
      by_cases space : c = 0x20
      · subst space
        exact loopEnds_space here (ih rest.length (size ▸ Nat.lt_succ_self _) (holds_cut text) (Nat.le_of_succ_le_succ enough) rfl)
      · rcases ahead : rest ++ front with - | ⟨d, - | ⟨e, more⟩⟩
        · obtain ⟨rfl, rfl⟩ := List.append_eq_nil_iff.mp ahead
          exact loopEnds_one positive holds space
        · exact loopEnds_two positive holds space ahead
        · refine loopEnds_three holds space ahead fun same => ?_
          subst same
          rw [List.cons_append, ahead] at holds
          rw [List.length_cons] at size enough
          have fewer : (rest.drop 2).length = rest.length - 2 := List.length_drop
          exact ih (rest.drop 2).length (by omega) (holds_cut (holds_third holds).1) (by omega) rfl

theorem stripEnds_suffix (ends : List (BitVec 8)) : stripEnds ends <:+ ends := by
  induction size : ends.length using Nat.strong_induction_on generalizing ends with
  | _ length ih =>
    cases ends with
    | nil => exact List.suffix_rfl
    | cons c rest =>
      by_cases space : c = 0x20
      · subst space
        rw [stripEnds_space]
        exact (ih rest.length (size ▸ Nat.lt_succ_self _) rest rfl).trans (List.suffix_cons _ _)
      · rcases rest with - | ⟨d, - | ⟨e, more⟩⟩
        · exact ⟨[], stripEnds_short space (by decide)⟩
        · exact ⟨[], stripEnds_short space (by simp)⟩
        · rw [stripEnds_other space]
          simp only
          split
          · simp only [List.length_cons] at size
            have later := ih more.length (by omega) more rfl
            exact later.trans (List.suffix_append [c, d, e] more)
          · exact List.suffix_rfl

def stripText (text : List (BitVec 8)) : List (BitVec 8) := (stripEnds text.reverse).reverse

theorem stripText_front (text : List (BitVec 8)) : stripText text <+: text := by
  have front := List.reverse_prefix.mpr (stripEnds_suffix text.reverse)
  rwa [List.reverse_reverse] at front

variable {lead : List (BitVec 8)}

theorem iniStrip_reads (positive : 0 < line) (holds : memory.Holds line (lead ++ text ++ [0])) (nonzero : 0 ∉ text)
    (fits : text.length < 2 ^ 32) :
    ∃ after, iniStrip (line + lead.length) memory = some after ∧
      Terminated after (line + lead.length) (stripText text) ∧
      (∀ place, line + lead.length + text.length ≤ place → after place = memory place) ∧
      (∀ place, after place = memory place ∨ after place = 0 ∧ Clearable (memory place)) ∧
      (∀ place ∈ iniStripAllPlaces (line + lead.length) memory, place ≤ line + lead.length + text.length) ∧
      ((∀ place ∈ iniStripAllPlaces (line + lead.length) memory, line ≤ place) ↔ staysInside lead.reverse text.reverse = true) := by
  have behind : memory.Holds (line + lead.length) (text ++ [0]) := by
    rw [List.append_assoc] at holds
    exact (Memory.holds_append.mp holds).2
  have terminated : Terminated memory (line + lead.length) text := ⟨behind, nonzero, fits⟩
  have whole : (text.reverse ++ lead.reverse).reverse = lead ++ text := by simp
  have place : line + (text.reverse ++ lead.reverse).length = line + lead.length + text.length := by
    simp only [List.length_append, List.length_reverse]
    omega
  have ends : LoopEnds memory line text.length lead.reverse text.reverse :=
    loop_ends positive (whole ▸ holds) List.length_reverse.le
  obtain ⟨left, inside⟩ := ends
  rw [place, List.length_reverse] at left inside
  refine ⟨_, by rw [iniStrip, terminated.strlen]; rfl, ⟨left, fun zero => nonzero ((stripText_front text).subset zero), ?_⟩,
    fun place above => iniStripLoop_frame fun member => ?_, fun place => iniStripLoop_clears _ _ _ _ _, fun place member => ?_, ?_⟩
  · exact (stripText_front text).length_le.trans_lt fits
  · have upper := iniStripPlaces_lt member
    omega
  · rw [iniStripAllPlaces, terminated.strlen] at member
    rcases List.mem_append.mp member with read | looped
    · exact (strlenPlaces_terminated terminated read).2
    · exact (iniStripPlaces_lt looped).le
  · rw [iniStripAllPlaces, terminated.strlen, ← inside]
    constructor
    · intro all place member
      exact all place (List.mem_append_right _ member)
    · intro all place member
      rcases List.mem_append.mp member with read | looped
      · have bounds := strlenPlaces_terminated terminated read
        omega
      · exact all place looped

/-- The loop comes two places in front of the string at most, and only one place behind a zero there. -/
theorem iniStripPlaces_ge {string pString : Nat} (member : place ∈ iniStripPlaces string turns pString memory) :
    string ≤ place + 2 ∧ (memory (string - 1) = 0 → string ≤ place + 1) := by
  induction turns generalizing pString memory with
  | zero => cases member
  | succ turns ih =>
    have cleared {p : Nat} (zero : memory (string - 1) = 0) : memory.store8 p 0 (string - 1) = 0 := by
      rcases eq_or_ne (string - 1) p with rfl | other
      · exact Memory.write_inside le_rfl (Nat.lt_succ_self _)
      · exact (Memory.write_outside (by omega)).trans zero
    rw [iniStripPlaces] at member
    dsimp only at member
    split at member
    next more =>
      split at member
      next =>
        rcases List.mem_cons.mp member with here | later
        · omega
        · exact ⟨(ih later).1, fun zero => (ih later).2 (cleared zero)⟩
      next =>
        split at member
        next nine =>
          simp only [List.mem_cons] at member
          have high (zero : memory (string - 1) = 0) : pString - 1 - 1 ≠ string - 1 := by
            intro same
            rw [same, zero] at nine
            exact absurd nine (by decide)
          rcases member with here | here | here | later
          · omega
          · omega
          · refine ⟨by omega, fun zero => ?_⟩
            have apart := high zero
            omega
          · split at later
            next => exact ⟨(ih later).1, fun zero => (ih later).2 (cleared zero)⟩
            next => cases later
        next =>
          simp only [List.mem_cons, List.not_mem_nil, or_false] at member
          omega
    next => cases member

/-! ### Names and values -/

/-- A zero in the memory ends some string. -/
theorem terminated_exists {stop : Nat} (zero : memory stop = 0) (behind : address ≤ stop)
    (fits : stop < address + 2 ^ 32) :
    ∃ text, Terminated memory address text ∧ address + text.length ≤ stop := by
  obtain ⟨length, rfl⟩ := Nat.exists_eq_add_of_le behind
  induction length generalizing address with
  | zero => exact ⟨[], ⟨⟨zero, trivial⟩, by simp, by simp⟩, le_rfl⟩
  | succ length ih =>
    by_cases here : memory address = 0
    · exact ⟨[], ⟨⟨here, trivial⟩, by simp, by simp⟩, by simp⟩
    · have place : address + (length + 1) = address + 1 + length := by omega
      rw [place] at zero fits ⊢
      obtain ⟨text, terminated, inside⟩ := ih zero (Nat.le_add_right _ _) (by omega)
      refine ⟨memory address :: text, ⟨⟨rfl, terminated.holds⟩, ?_, ?_⟩, ?_⟩
      · rw [List.mem_cons, not_or]
        exact ⟨Ne.symm here, terminated.nonzero⟩
      · rw [List.length_cons]
        omega
      · rw [List.length_cons]
        omega

theorem strncpy_last {target : Memory} {n : Nat} : strncpy target 0 memory address n n = target n := by
  have short : strnlen memory address n ≤ n := by
    induction n generalizing address with
    | zero => exact le_rfl
    | succ n ih =>
      rw [strnlen]
      split
      · exact Nat.zero_le _
      · exact Nat.succ_le_succ ih
  rw [strncpy, Memory.write_outside (by omega)]
  split
  · exact Memory.write_outside (by omega)
  · rfl

theorem strncpy_first {target : Memory} (n : Nat) : strncpy target 0 memory address (n + 1) 0 = memory address := by
  rw [strncpy, strnlen]
  split
  next zero => rw [Memory.write_zero, if_pos (Nat.succ_ne_zero n).symm, Memory.fill, Memory.write_inside le_rfl (by omega), zero]
  next => exact Memory.write_inside le_rfl (by omega)

theorem strncpyPlaces_terminated {n : Nat} (terminated : Terminated memory address text)
    (member : place ∈ strncpyPlaces memory address n) :
    address ≤ place ∧ place ≤ address + text.length := by
  obtain ⟨i, inside, rfl⟩ := List.mem_map.mp member
  have bound := List.mem_range.mp inside
  rw [strnlen_eq terminated.holds terminated.nonzero] at bound
  omega

theorem passed_length (goesOn : Bool → BitVec 8 → Bool) (space : Bool) (text : List (BitVec 8)) :
    (passed goesOn space text).length ≤ text.length := by
  have whole := congrArg List.length (passed_append goesOn space text)
  rw [List.length_append] at whole
  omega

theorem terminated_passed (terminated : Terminated memory address text) (goesOn : Bool → BitVec 8 → Bool)
    (space : Bool) :
    Terminated (if memory (address + (passed goesOn space text).length) ≠ 0
      then memory.store8 (address + (passed goesOn space text).length) 0 else memory) address (passed goesOn space text) := by
  have whole := passed_append goesOn space text
  split
  next => exact terminated_cut (whole.symm ▸ terminated)
  next zero =>
    have ended : text.length ≤ (passed goesOn space text).length := by
      by_contra short
      have stored : memory (address + (passed goesOn space text).length) ≠ 0 := by
        rw [terminated.get (Nat.lt_of_not_le short)]
        exact fun same => terminated.nonzero (same ▸ List.getElem_mem _)
      exact zero stored
    rw [List.drop_eq_nil_of_le ended, List.append_nil] at whole
    rwa [whole]

structure ItemRead (memory : Memory) (line start stop last : Nat) (indent name : List (BitVec 8)) where
  stripped : Memory
  tail : Nat
  cut : Memory
  value : Nat
  finish : Memory
  strips : iniStrip start (memory.store8 stop 0) = some stripped
  finds : iniFind stripped (stop + 1) none = some tail
  cuts : cut = if stripped tail ≠ 0 then stripped.store8 tail 0 else stripped
  skips : iniSkip cut (stop + 1) = some value
  ends : iniStrip value cut = some finish
  named : Terminated finish start (stripText name)
  valued : ∃ text, Terminated finish value text
  reached : stop < tail ∧ tail ≤ last
  nameBelow : ∀ place ∈ iniStripAllPlaces start (memory.store8 stop 0), place ≤ stop
  nameInside : (∀ place ∈ iniStripAllPlaces start (memory.store8 stop 0), line ≤ place) ↔
    staysInside indent.reverse name.reverse = true
  valueInside : (∀ place ∈ iniFindPlaces stripped (stop + 1) none, line ≤ place ∧ place ≤ last) ∧
    (∀ place ∈ iniSkipPlaces cut (stop + 1), line ≤ place ∧ place ≤ last) ∧
    (∀ place ∈ iniStripAllPlaces value cut, line ≤ place ∧ place ≤ last) ∧
    ∀ place ∈ strncpyPlaces finish start (iniNameMax - 1), line ≤ place ∧ place ≤ last

variable {indent name value : List (BitVec 8)} {byte : BitVec 8}

theorem iniStrip_value {stop : Nat} {spaces : List (BitVec 8)} (zero : memory stop = 0)
    (terminated : Terminated memory (stop + 1) (spaces ++ value)) :
    ∃ finish, iniStrip (stop + 1 + spaces.length) memory = some finish ∧ (∀ place < stop, finish place = memory place) ∧
      finish stop = 0 ∧ (∃ text, Terminated finish (stop + 1 + spaces.length) text) ∧
      ∀ place ∈ iniStripAllPlaces (stop + 1 + spaces.length) memory, stop ≤ place ∧
        place ≤ stop + 1 + (spaces ++ value).length := by
  have behind := terminated_drop terminated
  have bounds {place : Nat} (member : place ∈ iniStripPlaces (stop + 1 + spaces.length) value.length
      (stop + 1 + spaces.length + value.length) memory) : stop ≤ place ∧ place ≤ stop + 1 + (spaces ++ value).length := by
    have upper := iniStripPlaces_lt member
    obtain ⟨lower, near⟩ := iniStripPlaces_ge member
    rw [List.length_append]
    rcases Nat.eq_zero_or_pos spaces.length with none | some
    · have place := near (by rw [none]; exact zero)
      omega
    · omega
  have last : iniStripLoop (stop + 1 + spaces.length) value.length (stop + 1 + spaces.length + value.length) memory
      (stop + 1 + spaces.length + value.length) = 0 := iniStripLoop_zero behind.stop
  refine ⟨_, by rw [iniStrip, behind.strlen]; rfl, fun place below => iniStripLoop_frame fun member => ?_,
    iniStripLoop_zero zero, ?_, fun place member => ?_⟩
  · have lower := (bounds member).1
    omega
  · obtain ⟨text, ended, _⟩ := terminated_exists last (Nat.le_add_right _ _) (by have fits := behind.fits; omega)
    exact ⟨text, ended⟩
  · rw [iniStripAllPlaces, behind.strlen] at member
    rcases List.mem_append.mp member with read | looped
    · have inside := strlenPlaces_terminated behind read
      rw [List.length_append]
      omega
    · exact bounds looped

theorem item_read (positive : 0 < line) (holds : memory.Holds line (indent ++ (name ++ byte :: value) ++ [0]))
    (nonzero : 0 ∉ name ++ byte :: value) (fits : (name ++ byte :: value).length < 2 ^ 32) :
    Nonempty (ItemRead memory line (line + indent.length) (line + indent.length + name.length)
      (line + indent.length + (name ++ byte :: value).length) indent name) := by
  rw [List.append_assoc] at holds
  obtain ⟨front, whole⟩ := Memory.holds_append.mp holds
  have terminated : Terminated memory (line + indent.length) (name ++ byte :: value) := ⟨whole, nonzero, fits⟩
  have named := terminated_cut terminated
  generalize stopped : line + indent.length + name.length = stop at named ⊢
  have size : (name ++ byte :: value).length = name.length + 1 + value.length := by
    rw [List.length_append, List.length_cons]
    omega
  have cutHolds : (memory.store8 stop 0).Holds line (indent ++ name ++ [0]) := by
    rw [List.append_assoc]
    refine Memory.holds_append.mpr ⟨front.congr fun place _ upper => Memory.write_outside (by omega), named.holds⟩
  obtain ⟨stripped, strips, nameLeft, frame, clears, nameBelow, nameInside⟩ := iniStrip_reads positive cutHolds named.nonzero named.fits
  rw [stopped] at frame nameBelow
  have valueHere : Terminated stripped (stop + 1) value := by
    have behind : Terminated memory (line + indent.length + (name ++ [byte]).length) value :=
      terminated_drop (show Terminated memory (line + indent.length) (name ++ [byte] ++ value) by simpa using terminated)
    have place : line + indent.length + (name ++ [byte]).length = stop + 1 := by
      rw [List.length_append, List.length_singleton]
      omega
    rw [place] at behind
    exact behind.congr fun place lower _ => (frame place (by omega)).trans (Memory.write_outside (by omega))
  obtain ⟨finds, findPlaces⟩ := iniFind_terminated none valueHere
  have short := passed_length (iniSeeks none) false value
  have cutValue := terminated_passed valueHere (iniSeeks none) false
  generalize (passed (iniSeeks none) false value) = seen at finds short cutValue
  generalize cuts : (if stripped (stop + 1 + seen.length) ≠ 0 then stripped.store8 (stop + 1 + seen.length) 0 else stripped) = cut
    at cutValue
  have same {place : Nat} (below : place ≤ stop) : cut place = stripped place := by
    rw [← cuts]
    split
    · exact Memory.write_outside (by omega)
    · rfl
  have zero : stripped stop = 0 := (frame stop le_rfl).trans (Memory.write_inside le_rfl (Nat.lt_succ_self _))
  obtain ⟨skips, skipPlaces⟩ := iniSkip_terminated cutValue
  rw [← List.takeWhile_append_dropWhile (p := isspace) (l := seen)] at cutValue
  obtain ⟨finish, ends, kept, ended, valued, stripPlaces⟩ := iniStrip_value ((same le_rfl).trans zero) cutValue
  rw [List.takeWhile_append_dropWhile] at stripPlaces
  have shorter := (stripText_front name).length_le
  have nameKept : Terminated finish (line + indent.length) (stripText name) := by
    refine nameLeft.congr fun place _ upper => ?_
    rcases Nat.lt_or_ge place stop with below | above
    · exact (kept place below).trans (same below.le)
    · have here : place = stop := by omega
      rw [here, ended, zero]
  refine ⟨⟨stripped, stop + 1 + seen.length, cut, _, finish, strips, finds, cuts.symm, skips, ends, nameKept, valued, by omega,
    nameBelow, nameInside, fun place member => ?_, fun place member => ?_, fun place member => ?_, fun place member => ?_⟩⟩
  · have bounds := findPlaces place member
    omega
  · have bounds := skipPlaces place member
    omega
  · have bounds := stripPlaces place member
    omega
  · have bounds := strncpyPlaces_terminated nameKept member
    omega

end YuzuOS.Proofs.IniReading
