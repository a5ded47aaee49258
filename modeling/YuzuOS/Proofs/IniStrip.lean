import Mathlib.Data.List.DropRight
import YuzuOS.Proofs.IniLines

/-! Which strings `ini_strip` strips as it should. Read from the end, a turn of its loop
passes one space, or three characters, or stops. -/

namespace YuzuOS.Proofs.IniStrip
open YuzuOS.Library YuzuOS.Libc YuzuOS.Core YuzuOS.Proofs.IniLines

variable {memory : Memory} {address place string turns pString : Nat} {text ends rest : List (BitVec 8)}
  {c d e : BitVec 8}

/-- The strings, read from the end, on which the turns come out at the end of the white space. -/
inductive Passes : List (BitVec 8) → Prop
  | empty : Passes []
  | space {rest : List (BitVec 8)} (tail : Passes rest) : Passes (0x20 :: rest)
  | group {c d e : BitVec 8} {rest : List (BitVec 8)} (last : isspace c ∧ c ≠ 0x20) (middle : isspace d) (first : isspace e ∧ e ≠ 0x20)
      (tail : Passes rest) : Passes (c :: d :: e :: rest)
  | low {c d : BitVec 8} {rest : List (BitVec 8)} (text : isspace c = false) (below : d < 0x09) : Passes (c :: d :: rest)
  | high {c d e : BitVec 8} {rest : List (BitVec 8)} (text : isspace c = false) (above : 0x09 ≤ d) (beyond : 0x0D < e) :
      Passes (c :: d :: e :: rest)

/-- The string loses the white space at its end, and nothing outside is touched. -/
structure Strips (memory : Memory) (address : Nat) (text : List (BitVec 8)) : Prop where
  stripped : ∃ after, iniStrip address memory = some after ∧ after.Holds address (text.rdropWhile isspace ++ [0]) ∧
    ∀ place, place < address ∨ address + text.length ≤ place → after place = memory place
  inside : ∀ place ∈ iniStripPlaces address text.length (address + text.length) memory, address ≤ place ∧ place ≤ address + text.length

/-- Only places that are read are written to. -/
theorem iniStripLoop_frame (outside : place ∉ iniStripPlaces string turns pString memory) :
    iniStripLoop string turns pString memory place = memory place := by
  induction turns generalizing pString memory with
  | zero => rfl
  | succ turns ih =>
    rw [iniStripPlaces] at outside
    rw [iniStripLoop]
    dsimp only at outside ⊢
    split at outside
    next more =>
      rw [if_pos more]
      split at outside
      next space =>
        rw [if_pos space]
        obtain ⟨here, later⟩ := not_or.mp (mt List.mem_cons.mpr outside)
        exact (ih later).trans (Memory.write_outside (by omega))
      next other =>
        rw [if_neg other]
        split at outside
        next nine =>
          rw [if_pos nine]
          simp only [List.mem_cons, not_or] at outside
          split
          next low =>
            rw [if_pos low] at outside
            exact (ih outside.2.2.2).trans (Memory.write_outside (by omega))
          next => rfl
        next nine => rw [if_neg nine]
    next done => rw [if_neg done]

theorem iniStripPlaces_lt (member : place ∈ iniStripPlaces string turns pString memory) : place < pString := by
  induction turns generalizing pString memory with
  | zero => cases member
  | succ turns ih =>
    rw [iniStripPlaces] at member
    dsimp only at member
    split at member
    next =>
      split at member
      next =>
        rcases List.mem_cons.mp member with here | later
        · omega
        · exact (ih later).trans_le (Nat.sub_le _ _)
      next =>
        split at member
        next =>
          simp only [List.mem_cons] at member
          rcases member with here | here | here | later
          · omega
          · omega
          · omega
          · split at later
            next =>
              have below := ih later
              omega
            next => cases later
        next =>
          simp only [List.mem_cons, List.not_mem_nil, or_false] at member
          omega
    next => cases member

/-- What a turn leaves behind is cleared for good. -/
theorem iniStripLoop_zero (zero : memory place = 0) : iniStripLoop string turns pString memory place = 0 := by
  rcases iniStripLoop_clears string turns pString memory place with same | cleared
  · exact same.trans zero
  · exact cleared.1

theorem holds_last (holds : memory.Holds address ((c :: rest).reverse ++ [0])) :
    memory.Holds address rest.reverse ∧ memory (address + rest.length) = c := by
  rw [List.reverse_cons, List.append_assoc] at holds
  obtain ⟨front, last⟩ := Memory.holds_append.mp holds
  rw [List.length_reverse] at last
  exact ⟨front, last.1⟩

/-- A zero behind the front of a string ends it there. -/
theorem holds_cut (holds : memory.Holds address rest.reverse) :
    (memory.store8 (address + rest.length) 0).Holds address (rest.reverse ++ [0]) := by
  refine Memory.holds_append.mpr ⟨holds.congr fun place _ upper => ?_, ?_, trivial⟩
  · rw [List.length_reverse] at upper
    exact Memory.write_outside (.inl upper)
  · rw [List.length_reverse]
    exact Memory.write_inside le_rfl (Nat.lt_succ_self _)

/-- The loop strips a string that is read from its end, and stays inside. -/
def LoopStrips (memory : Memory) (address turns : Nat) (ends : List (BitVec 8)) : Prop :=
  (iniStripLoop address turns (address + ends.length) memory).Holds address ((ends.dropWhile isspace).reverse ++ [0]) ∧
    ∀ place ∈ iniStripPlaces address turns (address + ends.length) memory, address ≤ place

theorem loopStrips_space (rest : List (BitVec 8)) (space : memory (address + rest.length) = 0x20) :
    LoopStrips memory address (turns + 1) (0x20 :: rest) ↔
      LoopStrips (memory.store8 (address + rest.length) 0) address turns rest := by
  have more : address < address + (rest.length + 1) := by omega
  have first : address + (rest.length + 1) - 1 = address + rest.length := rfl
  unfold LoopStrips
  rw [List.length_cons, iniStripLoop, iniStripPlaces, if_pos more, if_pos more]
  simp only [first, space, if_true, List.forall_mem_cons, Nat.le_add_right, true_and]
  rfl

theorem holds_nonzero (holds : memory.Holds address (ends.reverse ++ [0])) (nonzero : 0 ∉ ends) {i : Nat}
    (inside : i < ends.length) :
    memory (address + i) ≠ 0 := by
  have bound : i < ends.reverse.length := by rwa [List.length_reverse]
  rw [(Memory.holds_append.mp holds).1.get bound]
  intro zero
  exact nonzero (List.mem_reverse.mp (zero ▸ List.getElem_mem bound))

/-- Without a store the string is stripped only if nothing was to be. -/
theorem holds_unchanged (holds : memory.Holds address ((c :: rest).reverse ++ [0])) (nonzero : 0 ∉ c :: rest) :
    memory.Holds address (((c :: rest).dropWhile isspace).reverse ++ [0]) ↔ isspace c = false := by
  constructor
  · intro stripped
    by_contra white
    rw [Bool.not_eq_false] at white
    rw [List.dropWhile_cons_of_pos white] at stripped
    have shorter : (rest.dropWhile isspace).length ≤ rest.length := (List.dropWhile_suffix isspace).length_le
    obtain ⟨front, stop, -⟩ := Memory.holds_append.mp stripped
    rw [List.length_reverse] at stop
    exact holds_nonzero holds nonzero (Nat.lt_succ_of_le shorter) stop
  · intro text
    rw [List.dropWhile_cons_of_neg (by rw [text]; exact Bool.false_ne_true)]
    exact holds

theorem cut_short
    (stripped : (iniStripLoop address turns (address + rest.length) (memory.store8 (address + rest.length) 0)).Holds address (text.reverse ++ [0]))
    (longer : rest.length < text.length) (nonzero : 0 ∉ text) : False := by
  have zero : (memory.store8 (address + rest.length) 0) (address + rest.length) = 0 := Memory.write_inside le_rfl (Nat.lt_succ_self _)
  exact holds_nonzero stripped nonzero longer (iniStripLoop_zero zero)

theorem loopStrips_outside
    (outside : ∃ place ∈ iniStripPlaces address turns (address + ends.length) memory, place < address) :
    ¬LoopStrips memory address turns ends := by
  obtain ⟨place, member, before⟩ := outside
  exact fun strips => Nat.not_le_of_lt before (strips.2 place member)

theorem loopStrips_one (positive : 0 < address) (here : memory address = c) (other : c ≠ 0x20) :
    ¬LoopStrips memory address (turns + 1) [c] := by
  apply loopStrips_outside
  refine ⟨address - 1, ?_, by omega⟩
  have more : address < address + 1 := Nat.lt_succ_self _
  rw [List.length_singleton, iniStripPlaces, if_pos more]
  simp only [Nat.add_sub_cancel, here, if_neg other]
  split
  · exact List.mem_cons_of_mem _ List.mem_cons_self
  · exact List.mem_cons_of_mem _ List.mem_cons_self

theorem holds_second (holds : memory.Holds address ((c :: d :: rest).reverse ++ [0])) :
    memory (address + rest.length) = d := by
  obtain ⟨front, -⟩ := holds_last holds
  rw [List.reverse_cons] at front
  have last := (Memory.holds_append.mp front).2.1
  rwa [List.length_reverse] at last

theorem holds_third (holds : memory.Holds address ((c :: d :: e :: rest).reverse ++ [0])) :
    memory.Holds address rest.reverse ∧ memory (address + rest.length) = e := by
  obtain ⟨front, -⟩ := holds_last holds
  rw [List.reverse_cons, List.reverse_cons, List.append_assoc] at front
  obtain ⟨text, last⟩ := Memory.holds_append.mp front
  rw [List.length_reverse] at last
  exact ⟨text, last.1⟩

theorem loopStrips_low (holds : memory.Holds address ((c :: d :: rest).reverse ++ [0])) (nonzero : 0 ∉ c :: d :: rest)
    (other : c ≠ 0x20) (low : ¬0x09 ≤ d) :
    LoopStrips memory address (turns + 1) (c :: d :: rest) ↔ isspace c = false := by
  have more : address < address + (rest.length + 1 + 1) := by omega
  have first : address + (rest.length + 1 + 1) - 1 = address + (rest.length + 1) := rfl
  have second : address + (rest.length + 1) - 1 = address + rest.length := rfl
  have here : memory (address + (rest.length + 1)) = c := (holds_last holds).2
  unfold LoopStrips
  rw [List.length_cons, List.length_cons, iniStripLoop, iniStripPlaces, if_pos more, if_pos more]
  simp only [first, second, here, holds_second holds, if_neg other, if_neg low, List.forall_mem_cons, Nat.le_add_right, true_and]
  rw [holds_unchanged holds nonzero]
  exact and_iff_left (List.forall_mem_nil _)

theorem loopStrips_two (positive : 0 < address) (holds : memory.Holds address ([c, d].reverse ++ [0]))
    (other : c ≠ 0x20) (nine : 0x09 ≤ d) :
    ¬LoopStrips memory address (turns + 1) [c, d] := by
  apply loopStrips_outside
  refine ⟨address - 1, ?_, by omega⟩
  have more : address < address + 2 := by omega
  have first : address + 2 - 1 = address + 1 := rfl
  have second : address + 1 - 1 = address := rfl
  have here : memory (address + 1) = c := (holds_last holds).2
  have there : memory address = d := holds_second holds
  change address - 1 ∈ iniStripPlaces address (turns + 1) (address + 2) memory
  rw [iniStripPlaces, if_pos more]
  simp only [first, second, here, there, if_neg other, if_pos nine]
  exact List.mem_cons_of_mem _ (List.mem_cons_of_mem _ List.mem_cons_self)

theorem dropWhile_longer (rest : List (BitVec 8)) (other : ¬(isspace c ∧ isspace d ∧ isspace e)) :
    rest.length < ((c :: d :: e :: rest).dropWhile isspace).length := by
  rw [List.dropWhile_cons]
  split
  next first =>
    rw [List.dropWhile_cons]
    split
    next second =>
      have third : ¬isspace e := fun third => other ⟨first, second, third⟩
      rw [List.dropWhile_cons_of_neg third]
      exact Nat.lt_succ_self _
    next =>
      simp only [List.length_cons]
      omega
  next =>
    simp only [List.length_cons]
    omega

theorem loopStrips_three (holds : memory.Holds address ((c :: d :: e :: rest).reverse ++ [0]))
    (nonzero : 0 ∉ c :: d :: e :: rest) (other : c ≠ 0x20) (nine : 0x09 ≤ d) :
    LoopStrips memory address (turns + 1) (c :: d :: e :: rest) ↔
      if e ≤ 0x0D then
        (isspace c ∧ isspace d ∧ isspace e) ∧ LoopStrips (memory.store8 (address + rest.length) 0) address turns rest
      else isspace c = false := by
  have more : address < address + (rest.length + 1 + 1 + 1) := by omega
  have first : address + (rest.length + 1 + 1 + 1) - 1 = address + (rest.length + 1 + 1) := rfl
  have second : address + (rest.length + 1 + 1) - 1 = address + (rest.length + 1) := rfl
  have third : address + (rest.length + 1) - 1 = address + rest.length := rfl
  have here : memory (address + (rest.length + 1 + 1)) = c := (holds_last holds).2
  have there : memory (address + (rest.length + 1)) = d := holds_second holds
  obtain ⟨text, last⟩ := holds_third holds
  unfold LoopStrips
  rw [List.length_cons, List.length_cons, List.length_cons, iniStripLoop, iniStripPlaces, if_pos more, if_pos more]
  simp only [first, second, third, here, there, last, if_neg other, if_pos nine, List.forall_mem_cons, Nat.le_add_right, true_and]
  by_cases low : e ≤ 0x0D
  · simp only [if_pos low]
    by_cases white : isspace c ∧ isspace d ∧ isspace e
    · rw [List.dropWhile_cons_of_pos white.1, List.dropWhile_cons_of_pos white.2.1, List.dropWhile_cons_of_pos white.2.2]
      exact (and_iff_right white).symm
    · refine ⟨fun strips => (cut_short strips.1 (dropWhile_longer rest white) fun zero => nonzero ?_).elim,
        fun strips => absurd strips.1 white⟩
      exact (List.dropWhile_suffix isspace).subset zero
  · simp only [if_neg low]
    rw [holds_unchanged holds nonzero]
    exact and_iff_left (List.forall_mem_nil _)

/-! ### All turns -/

theorem isspace_iff : isspace c ↔ c = 0x20 ∨ 0x09 ≤ c ∧ c ≤ 0x0D := decide_eq_true_iff

theorem isspace_nine (white : isspace d) : 0x09 ≤ d := by
  rcases isspace_iff.mp white with rfl | control
  · decide
  · exact control.1

theorem isspace_low (white : isspace e) : e ≤ 0x0D ↔ e ≠ 0x20 := by
  rcases isspace_iff.mp white with rfl | control
  · decide
  · refine iff_of_true control.2 fun space => ?_
    rw [space] at control
    exact absurd control.2 (by decide)

theorem not_le_of_below {low high : BitVec 8} (below : low < high) : ¬high ≤ low := by
  have order : low.toNat < high.toNat := below
  intro above
  have back : high.toNat ≤ low.toNat := above
  omega

theorem below_of_not_le {low high : BitVec 8} (above : ¬high ≤ low) : low < high := by
  have order : ¬high.toNat ≤ low.toNat := above
  exact Nat.lt_of_not_le order

theorem passes_low (other : c ≠ 0x20) (low : ¬0x09 ≤ d) : Passes (c :: d :: rest) ↔ isspace c = false := by
  constructor
  · intro passes
    cases passes with
    | space => exact absurd rfl other
    | group last middle => exact absurd (isspace_nine middle) low
    | low text => exact text
    | high text => exact text
  · exact fun text => .low text (below_of_not_le low)

theorem passes_nine (other : c ≠ 0x20) (nine : 0x09 ≤ d) :
    Passes (c :: d :: e :: rest) ↔
      if e ≤ 0x0D then (isspace c ∧ isspace d ∧ isspace e) ∧ Passes rest else isspace c = false := by
  constructor
  · intro passes
    cases passes with
    | space => exact absurd rfl other
    | group last middle first tail =>
      rw [if_pos ((isspace_low first.1).mpr first.2)]
      exact ⟨⟨last.1, middle, first.1⟩, tail⟩
    | low text below => exact absurd nine (not_le_of_below below)
    | high text above beyond =>
      rw [if_neg (not_le_of_below beyond)]
      exact text
  · split
    next low => exact fun ⟨⟨last, middle, first⟩, tail⟩ => .group ⟨last, other⟩ middle ⟨first, (isspace_low first).mp low⟩ tail
    next high => exact fun text => .high text nine (below_of_not_le high)

theorem passes_short (other : c ≠ 0x20) : ¬Passes [c] := by
  intro passes
  cases passes
  exact other rfl

theorem passes_two (other : c ≠ 0x20) (nine : 0x09 ≤ d) : ¬Passes [c, d] := by
  intro passes
  cases passes with
  | space => exact other rfl
  | low text below => exact not_le_of_below below nine

theorem passes_space : Passes (0x20 :: rest) ↔ Passes rest := by
  constructor
  · intro passes
    cases passes with
    | space tail => exact tail
    | group last => exact absurd rfl last.2
    | low text => exact absurd text (by decide)
    | high text => exact absurd text (by decide)
  · exact .space

/-- The loop does what it should on the strings that pass, and on no others. -/
theorem loopStrips_iff (positive : 0 < address) (holds : memory.Holds address (ends.reverse ++ [0]))
    (nonzero : 0 ∉ ends) (enough : ends.length ≤ turns) : LoopStrips memory address turns ends ↔ Passes ends := by
  induction size : ends.length using Nat.strong_induction_on generalizing ends memory turns with
  | _ length ih =>
    cases ends with
    | nil =>
      refine iff_of_true ?_ .empty
      cases turns with
      | zero => exact ⟨holds, List.forall_mem_nil _⟩
      | succ turns =>
        have stop : ¬address < address + 0 := Nat.lt_irrefl _
        unfold LoopStrips
        rw [List.length_nil, iniStripLoop, iniStripPlaces, if_neg stop, if_neg stop]
        exact ⟨holds, List.forall_mem_nil _⟩
    | cons c rest =>
      obtain ⟨turns, rfl⟩ := Nat.exists_eq_succ_of_ne_zero (Nat.ne_of_gt (Nat.zero_lt_of_lt enough))
      obtain ⟨front, here⟩ := holds_last holds
      by_cases space : c = 0x20
      · subst space
        rw [loopStrips_space rest here, passes_space]
        exact ih rest.length (size ▸ Nat.lt_succ_self _) (holds_cut front) (fun zero => nonzero (List.mem_cons_of_mem _ zero))
          (Nat.le_of_succ_le_succ enough) rfl
      · cases rest with
        | nil => exact iff_of_false (loopStrips_one positive here space) (passes_short space)
        | cons d rest =>
          by_cases nine : 0x09 ≤ d
          · cases rest with
            | nil => exact iff_of_false (loopStrips_two positive holds space nine) (passes_two space nine)
            | cons e rest =>
              rw [loopStrips_three holds nonzero space nine, passes_nine space nine]
              simp only [List.length_cons] at size enough
              have later := ih rest.length (by omega) (holds_cut (holds_third holds).1)
                (fun zero => nonzero (List.mem_cons_of_mem _ (List.mem_cons_of_mem _ (List.mem_cons_of_mem _ zero))))
                (show rest.length ≤ turns by omega) rfl
              rw [later]
          · rw [loopStrips_low holds nonzero space nine, passes_low space nine]

theorem ini_strip_iff (positive : 0 < address) (terminated : Terminated memory address text) :
    Strips memory address text ↔ Passes text.reverse := by
  have holds : memory.Holds address (text.reverse.reverse ++ [0]) := by
    rw [List.reverse_reverse]
    exact terminated.holds
  have loop := loopStrips_iff positive holds (fun zero => terminated.nonzero (List.mem_reverse.mp zero)) (List.length_reverse.le)
  rw [← loop, LoopStrips, List.length_reverse]
  have call : iniStrip address memory = some (iniStripLoop address text.length (address + text.length) memory) := by
    rw [iniStrip, terminated.strlen, Option.map_some]
  constructor
  · intro strips
    obtain ⟨after, ran, stripped, -⟩ := strips.stripped
    rw [Option.some.inj (ran.symm.trans call)] at stripped
    exact ⟨stripped, fun place member => (strips.inside place member).1⟩
  · rintro ⟨stripped, inside⟩
    have apart {place : Nat} (outside : place < address ∨ address + text.length ≤ place) :
        place ∉ iniStripPlaces address text.length (address + text.length) memory := by
      intro member
      have lower := inside place member
      have upper := iniStripPlaces_lt member
      omega
    exact ⟨⟨_, call, stripped, fun place outside => iniStripLoop_frame (apart outside)⟩,
      fun place member => ⟨inside place member, (iniStripPlaces_lt member).le⟩⟩

def exampleMemory (text : List (BitVec 8)) : Memory := fun place => text.getD (place - 16) 0

theorem exampleMemory_terminated (nonzero : 0 ∉ text) (short : text.length < 2 ^ 32) :
    Terminated (exampleMemory text) 16 text := by
  refine ⟨Memory.holds_append.mpr ⟨Memory.holds_of_get fun i bound => ?_, ?_, trivial⟩, nonzero, short⟩
  · rw [exampleMemory, Nat.add_sub_cancel_left]
    exact (List.getElem_eq_getD 0).symm
  · rw [exampleMemory, Nat.add_sub_cancel_left]
    simp

/-- Three letters and a space. -/
theorem ini_strip_iff_example : Strips (exampleMemory [0x61, 0x62, 0x63, 0x20]) 16 [0x61, 0x62, 0x63, 0x20] :=
  (ini_strip_iff (by decide) (exampleMemory_terminated (by decide) (by decide))).mpr
    (.space (.high (by decide) (by decide) (by decide)))

/-- The tabulator behind three letters stays. -/
theorem ini_strip_misses : ¬Strips (exampleMemory [0x61, 0x62, 0x63, 0x09]) 16 [0x61, 0x62, 0x63, 0x09] := by
  intro strips
  obtain ⟨after, ran, stripped, -⟩ := strips.stripped
  have terminated : Terminated (exampleMemory [0x61, 0x62, 0x63, 0x09]) 16 [0x61, 0x62, 0x63, 0x09] :=
    exampleMemory_terminated (by decide) (by decide)
  rw [iniStrip, terminated.strlen, Option.map_some] at ran
  have last : after 19 = 0x09 := by
    rw [← Option.some.inj ran]
    decide
  have stop : after 19 = 0 := stripped.2.2.2.1
  exact absurd (last.symm.trans stop) (by decide)

end YuzuOS.Proofs.IniStrip
