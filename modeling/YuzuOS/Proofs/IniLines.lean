import YuzuOS.Core.Ini

/-! What the functions of the INI parser do with one line. On lines without white
space at their ends nothing is stripped; the bytes that `ini_strip` clears by
its surplus decrements lie in front of the string. -/

namespace YuzuOS.Proofs.IniLines
open YuzuOS.Library YuzuOS.Libc YuzuOS.Core

variable {memory : Memory} {address turns : Nat} {string : List (BitVec 8)}

structure Terminated (memory : Memory) (address : Nat) (string : List (BitVec 8)) : Prop where
  holds : memory.Holds address (string ++ [0])
  nonzero : 0 ∉ string
  fits : string.length < 2 ^ 32

theorem Terminated.stop (terminated : Terminated memory address string) : memory (address + string.length) = 0 :=
  (Memory.holds_append.mp terminated.holds).2.1

theorem Terminated.get (terminated : Terminated memory address string) {i : Nat} (bound : i < string.length) :
    memory (address + i) = string[i] := (Memory.holds_append.mp terminated.holds).1.get bound

theorem Terminated.congr {other : Memory} (terminated : Terminated memory address string)
    (same : ∀ place, address ≤ place → place ≤ address + string.length → other place = memory place) :
    Terminated other address string := by
  refine ⟨terminated.holds.congr fun place lower upper => same place lower ?_, terminated.nonzero, terminated.fits⟩
  rw [List.length_append, List.length_singleton] at upper
  omega

theorem strlenFrom_eq (holds : memory.Holds address (string ++ [0])) (nonzero : 0 ∉ string)
    (enough : string.length < turns) :
    strlenFrom memory turns address = some string.length := by
  induction string generalizing address turns with
  | nil =>
    obtain ⟨turns, rfl⟩ := Nat.exists_eq_succ_of_ne_zero (Nat.ne_of_gt enough)
    rw [strlenFrom, if_pos holds.1]
    rfl
  | cons byte rest ih =>
    obtain ⟨turns, rfl⟩ := Nat.exists_eq_succ_of_ne_zero (Nat.ne_of_gt (Nat.zero_lt_of_lt enough))
    simp only [List.mem_cons, not_or] at nonzero
    have here : memory address ≠ 0 := fun zero => nonzero.1 (zero.symm.trans holds.1)
    rw [strlenFrom, if_neg here, ih holds.2 nonzero.2 (Nat.lt_of_succ_lt_succ enough)]
    rfl

theorem Terminated.strlen (terminated : Terminated memory address string) :
    strlen memory address = some string.length :=
  strlenFrom_eq terminated.holds terminated.nonzero terminated.fits

theorem Terminated.stringAt (terminated : Terminated memory address string) :
    stringAt memory address = some string := by
  rw [Libc.stringAt, terminated.strlen, Option.map_some]
  refine congrArg some (List.ext_getElem (by simp) fun i bound inside => ?_)
  rw [List.getElem_map, List.getElem_range, terminated.get inside]

theorem strnlen_eq (holds : memory.Holds address (string ++ [0])) (nonzero : 0 ∉ string) (n : Nat) :
    strnlen memory address n = min string.length n := by
  induction string generalizing address n with
  | nil =>
    cases n with
    | zero => rfl
    | succ n => rw [strnlen, if_pos holds.1, List.length_nil, Nat.zero_min]
  | cons byte rest ih =>
    simp only [List.mem_cons, not_or] at nonzero
    have here : memory address ≠ 0 := fun zero => nonzero.1 (zero.symm.trans holds.1)
    cases n with
    | zero => rfl
    | succ n => rw [strnlen, if_neg here, ih holds.2 nonzero.2, List.length_cons, Nat.succ_min_succ]

/-- An array that is longer by a terminator takes a whole string. -/
theorem strncpy_terminated {target : Memory} {n : Nat} (terminated : Terminated memory address string)
    (short : string.length ≤ n) (last : target n = 0) :
    Terminated (strncpy target 0 memory address n) 0 string ∧ strncpy target 0 memory address n n = 0 := by
  have size := strnlen_eq terminated.holds terminated.nonzero n
  rw [Nat.min_eq_left short] at size
  have padded : ∀ place, string.length ≤ place → place ≤ n → strncpy target 0 memory address n place = 0 := by
    intro place lower upper
    rw [strncpy, size, Memory.write_outside (by omega)]
    split
    next room =>
      rcases Nat.lt_or_eq_of_le upper with inside | rfl
      · rw [Memory.fill, Memory.write_inside (by omega) (by omega)]
      · rw [Memory.fill, Memory.write_outside (by omega), last]
    next full =>
      have same : place = n := by omega
      rw [same, last]
  refine ⟨⟨Memory.holds_append.mpr ⟨Memory.holds_of_get fun i bound => ?_, ?_, trivial⟩, terminated.nonzero, terminated.fits⟩,
    padded n short le_rfl⟩
  · rw [Nat.zero_add, strncpy, size, Memory.write_inside (Nat.zero_le i) (by omega), Nat.sub_zero, terminated.get bound]
  · rw [Nat.zero_add]
    exact padded _ le_rfl short

/-! ### White space at the ends -/

/-- Bytes that `ini_strip` may clear. -/
def Clearable (byte : BitVec 8) : Prop := byte = 0x20 ∨ byte ≤ 0x0D

theorem iniStripLoop_clears (string turns pString : Nat) (memory : Memory) (place : Nat) :
    iniStripLoop string turns pString memory place = memory place ∨
      iniStripLoop string turns pString memory place = 0 ∧ Clearable (memory place) := by
  induction turns generalizing pString memory with
  | zero => exact .inl rfl
  | succ turns ih =>
    have cleared : ∀ p, Clearable (memory p) → ∀ q, (iniStripLoop string turns q (memory.store8 p 0) place = memory place ∨
        iniStripLoop string turns q (memory.store8 p 0) place = 0 ∧ Clearable (memory place)) := by
      intro p clearable q
      by_cases here : place = p
      · subst here
        have zero : memory.store8 place 0 place = 0 := Memory.write_inside le_rfl (Nat.lt_succ_self _)
        rcases ih q (memory.store8 place 0) with same | gone
        · exact .inr ⟨same.trans zero, clearable⟩
        · exact .inr ⟨gone.1, clearable⟩
      · have other : memory.store8 p 0 place = memory place := Memory.write_outside (by omega)
        rw [← other]
        exact ih q (memory.store8 p 0)
    rw [iniStripLoop]
    simp only
    split
    next =>
      split
      next space => exact cleared _ (.inl space) _
      next =>
        split
        next =>
          split
          next low => exact cleared _ (.inr low) _
          next => exact .inl rfl
        next => exact .inl rfl
    next => exact .inl rfl

theorem iniStrip_clears (terminated : Terminated memory address string) :
    ∃ after, iniStrip address memory = some after ∧
      ∀ place, after place = memory place ∨ after place = 0 ∧ Clearable (memory place) := by
  rw [iniStrip, terminated.strlen]
  exact ⟨_, rfl, fun place => iniStripLoop_clears _ _ _ _ _⟩

/-- No byte of the string is white space or a control character, the spaces inside apart. -/
structure Clean (string : List (BitVec 8)) : Prop where
  visible : ∀ byte ∈ string, ¬ byte ≤ 0x0D
  last : string.getLast? ≠ some 0x20

theorem visible_nine {byte : BitVec 8} (visible : ¬ byte ≤ 0x0D) : 0x09 ≤ byte := by
  have large : ¬ byte.toNat ≤ 13 := visible
  have least : 9 ≤ byte.toNat := by omega
  exact least

theorem Terminated.visible (terminated : Terminated memory address string) (clean : Clean string) {i : Nat}
    (bound : i < string.length) :
    ¬ memory (address + i) ≤ 0x0D := by
  rw [terminated.get bound]
  exact clean.visible _ (List.getElem_mem bound)

/-- Only the two bytes in front of a clean string may be cleared. -/
theorem iniStrip_clean (terminated : Terminated memory address string) (clean : Clean string) (room : 2 ≤ address) :
    ∃ after, iniStrip address memory = some after ∧ (∀ place, address ≤ place → after place = memory place) ∧
      (memory (address - 1) = 0 → after = memory) := by
  rw [iniStrip, terminated.strlen, Option.map_some]
  refine ⟨_, rfl, ?_⟩
  rcases Nat.eq_zero_or_pos string.length with empty | positive
  · rw [empty]
    exact ⟨fun _ _ => rfl, fun _ => rfl⟩
  · obtain ⟨turns, length⟩ := Nat.exists_eq_succ_of_ne_zero (Nat.ne_of_gt positive)
    have notSpace : ¬ memory (address + turns) = 0x20 := by
      rw [terminated.get (by omega)]
      intro space
      apply clean.last
      rw [List.getLast?_eq_getElem?, length, Nat.succ_sub_one, List.getElem?_eq_getElem (by omega), space]
    have first : address + (turns + 1) - 1 = address + turns := by omega
    rw [length, Nat.succ_eq_add_one, iniStripLoop, if_pos (by omega)]
    simp only [first, if_neg notSpace]
    cases turns with
    | zero =>
      -- Both surplus reads are in front of the string.
      split
      next nine =>
        refine ⟨fun place lower => ?_, fun zero => absurd (zero ▸ nine) (by decide)⟩
        split
        next =>
          rw [iniStripLoop]
          exact Memory.write_outside (.inr (by omega))
        next => rfl
      next => exact ⟨fun _ _ => rfl, fun _ => rfl⟩
    | succ turns =>
      have second : address + (turns + 1) - 1 = address + turns := by omega
      rw [second, if_pos (visible_nine (terminated.visible clean (by omega)))]
      cases turns with
      | zero =>
        rw [Nat.add_zero]
        split
        next =>
          rw [iniStripLoop, if_neg (by omega)]
          refine ⟨fun place lower => Memory.write_outside (by omega), fun zero => ?_⟩
          funext place
          rcases eq_or_ne place (address - 1) with rfl | other
          · rw [zero]
            exact Memory.write_inside le_rfl (Nat.lt_succ_self _)
          · exact Memory.write_outside (by omega)
        next => exact ⟨fun _ _ => rfl, fun _ => rfl⟩
      | succ turns =>
        have third : address + (turns + 1) - 1 = address + turns := by omega
        rw [third, if_neg (terminated.visible clean (by omega))]
        exact ⟨fun _ _ => rfl, fun _ => rfl⟩

/-! ### Looking through a line -/

theorem iniSkip_here (visible : memory address = 0 ∨ isspace (memory address) = false) :
    iniSkip memory address = some address := by
  have stays : ¬ (memory address ≠ 0 ∧ isspace (memory address) = true) := by
    rintro ⟨nonzero, space⟩
    rcases visible with zero | other
    · exact nonzero zero
    · rw [other] at space
      cases space
  have some : (2 : Nat) ^ 32 = (2 ^ 32 - 1) + 1 := by decide
  rw [iniSkip, some, iniSkipFrom, if_neg stays]

theorem iniSkip_blank {length : Nat}
    (blank : ∀ i < length, memory (address + i) = 0 ∨ isspace (memory (address + i)) = true)
    (stop : memory (address + length) = 0) (enough : length < turns) :
    ∃ place, iniSkipFrom memory turns address = some place ∧ memory place = 0 := by
  induction length generalizing address turns with
  | zero =>
    obtain ⟨turns, rfl⟩ := Nat.exists_eq_succ_of_ne_zero (Nat.ne_of_gt enough)
    rw [Nat.add_zero] at stop
    exact ⟨address, by rw [iniSkipFrom, if_neg fun more => more.1 stop], stop⟩
  | succ length ih =>
    obtain ⟨turns, rfl⟩ := Nat.exists_eq_succ_of_ne_zero (Nat.ne_of_gt (Nat.zero_lt_of_lt enough))
    rw [iniSkipFrom]
    split
    next =>
      apply ih
      · intro i bound
        have place : address + 1 + i = address + (i + 1) := by omega
        rw [place]
        exact blank (i + 1) (Nat.succ_lt_succ bound)
      · rw [Nat.add_right_comm, ← Nat.add_assoc] at *
        exact stop
      · omega
    next stays =>
      refine ⟨address, rfl, ?_⟩
      rcases blank 0 (Nat.zero_lt_succ _) with zero | space
      · exact zero
      · exact by_contra fun nonzero => stays ⟨nonzero, space⟩

/-- No inline comment starts in the string. -/
def Uncommented : Bool → List (BitVec 8) → Prop
  | _, [] => True
  | space, byte :: rest => ¬(space = true ∧ byte = 0x3B) ∧ Uncommented (isspace byte) rest

theorem strchr_inline (byte : BitVec 8) (nonzero : byte ≠ 0) : strchr iniInlineComment byte = true ↔ byte = 0x3B := by
  have absent : ¬byte = 0#8 := nonzero
  simp [strchr, iniInlineComment, absent]

/-- A scan goes on to the first of the characters or to the terminator. -/
theorem iniFindFrom_eq {chars : Option (List (BitVec 8))} {space : Bool} (holds : memory.Holds address string)
    (plain : ∀ byte ∈ string, byte ≠ 0 ∧ chars.any (strchr · byte) = false) (uncommented : Uncommented space string)
    (stop : memory (address + string.length) = 0 ∨ chars.any (strchr · (memory (address + string.length))) = true)
    (enough : string.length < turns) :
    iniFindFrom memory chars turns space address = some (address + string.length) := by
  induction string generalizing address turns space with
  | nil =>
    obtain ⟨turns, rfl⟩ := Nat.exists_eq_succ_of_ne_zero (Nat.ne_of_gt enough)
    rw [iniFindFrom, if_neg]
    · rfl
    · rintro ⟨nonzero, other, _⟩
      rcases stop with zero | found
      · exact nonzero zero
      · exact other found
  | cons byte rest ih =>
    obtain ⟨turns, rfl⟩ := Nat.exists_eq_succ_of_ne_zero (Nat.ne_of_gt (Nat.zero_lt_of_lt enough))
    obtain ⟨nonzero, absent⟩ := plain byte List.mem_cons_self
    have place : address + (rest.length + 1) = address + 1 + rest.length := by omega
    rw [List.length_cons, place] at stop ⊢
    rw [iniFindFrom, holds.1, if_pos]
    · exact ih holds.2 (fun byte member => plain byte (List.mem_cons_of_mem _ member)) uncommented.2 stop (Nat.lt_of_succ_lt_succ enough)
    · refine ⟨nonzero, by rw [absent]; exact Bool.false_ne_true, ?_⟩
      rintro ⟨space, comment⟩
      exact uncommented.1 ⟨space, (strchr_inline byte nonzero).mp comment⟩

/-! ### Fetching a line -/

def stored (content : List (BitVec 8)) : List (BitVec 8) := content.filter (· ≠ 0x0D)

theorem stored_eq (content : List (BitVec 8)) (visible : ∀ byte ∈ content, byte ≠ 0x0D) : stored content = content :=
  List.filter_eq_self.mpr fun byte member => by simpa using visible byte member

theorem stored_length (content : List (BitVec 8)) : (stored content).length ≤ content.length :=
  List.length_filter_le _ _

def lineEnd (crlf : Bool) : List (BitVec 8) := if crlf then [0x0D, 0x0A] else [0x0A]

end YuzuOS.Proofs.IniLines
