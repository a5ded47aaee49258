import YuzuOS.Proofs.IniDocument

/-! INI files written one item to a line come back from the parser as they are:
each key once, in order, with its section and its value. -/

namespace YuzuOS.Proofs.IniRoundTrip
open YuzuOS.Library YuzuOS.Libc YuzuOS.Core YuzuOS.Proofs.IniLines YuzuOS.Proofs.IniDocument

inductive IniLine
  | blank (spaces : List (BitVec 8))
  | comment (mark : BitVec 8) (remark : List (BitVec 8))
  | heading (name : List (BitVec 8))
  | entry (key value : List (BitVec 8))

def IniLine.content : IniLine → List (BitVec 8)
  | .blank spaces => spaces
  | .comment mark remark => mark :: remark
  | .heading name => 0x5B :: (name ++ [0x5D])
  | .entry key value => key ++ 0x3D :: value

def Printable (byte : BitVec 8) : Prop := 0x20 ≤ byte ∧ byte ≤ 0x7E

/-- A character of a section name or of a key. -/
def NameChar (byte : BitVec 8) : Prop := Printable byte ∧ byte ∉ [0x20, 0x3D, 0x3A, 0x3B, 0x23, 0x5B, 0x5D]

structure Name (name : List (BitVec 8)) : Prop where
  some : 1 ≤ name.length
  short : name.length ≤ 49
  chars : ∀ byte ∈ name, NameChar byte

structure Value (value : List (BitVec 8)) : Prop where
  chars : ∀ byte ∈ value, Printable byte
  first : value.head? ≠ some 0x20
  last : value.getLast? ≠ some 0x20
  uncommented : ¬ [0x20, 0x3B] <:+: value

/-- A line of white space may hold any, and a comment any text. -/
def IniLine.Formed : IniLine → Prop
  | .blank spaces => ∀ byte ∈ spaces, isspace byte = true ∧ byte ≠ 0x0A
  | .comment mark remark => mark ∈ iniStartComment ∧ ∀ byte ∈ remark, byte ≠ 0 ∧ byte ≠ 0x0A
  | .heading name => Name name
  | .entry key value => Name key ∧ Value value

/-- A line as it is in the file, with its end. -/
structure PhysicalLine where
  line : IniLine
  crlf : Bool

def PhysicalLine.bytes (physical : PhysicalLine) : List (BitVec 8) := physical.line.content ++ lineEnd physical.crlf

structure PhysicalLine.Formed (physical : PhysicalLine) : Prop where
  line : physical.line.Formed
  short : physical.line.content.length < iniLineMax

/-- The calls that a file is to give, from a current section on. -/
def expected : List (BitVec 8) → List IniLine → List IniCall
  | _, [] => []
  | _, .heading name :: rest => expected name rest
  | current, .entry key value :: rest => ⟨current, key, value⟩ :: expected current rest
  | current, .blank _ :: rest => expected current rest
  | current, .comment _ _ :: rest => expected current rest

def IniLine.current (current : List (BitVec 8)) : IniLine → List (BitVec 8)
  | .heading name => name
  | _ => current

def IniLine.calls (current : List (BitVec 8)) : IniLine → List IniCall
  | .entry key value => [⟨current, key, value⟩]
  | _ => []

theorem expected_cons (current : List (BitVec 8)) (line : IniLine) (rest : List IniLine) :
    expected current (line :: rest) = line.calls current ++ expected (line.current current) rest := by
  cases line <;> rfl

theorem NameChar.facts {byte : BitVec 8} (char : NameChar byte) :
    byte ≠ 0 ∧ ¬ byte ≤ 0x0D ∧ isspace byte = false ∧ byte ≠ 0x0D ∧
    byte ≠ 0x0A ∧ byte ≠ 0xEF := by
  obtain ⟨⟨lower, upper⟩, others⟩ := char
  have low : 32 ≤ byte.toNat := lower
  have high : byte.toNat ≤ 126 := upper
  simp only [List.mem_cons, not_or] at others
  have differs : ∀ other : BitVec 8, other.toNat < 32 ∨ 126 < other.toNat → byte ≠ other := by
    rintro other outside rfl
    omega
  refine ⟨differs _ (.inl (by decide)), fun small => ?_, ?_, differs _ (.inl (by decide)), differs _ (.inl (by decide)),
    differs _ (.inr (by decide))⟩
  · have small : byte.toNat ≤ 13 := small
    omega
  · rw [isspace, decide_eq_false_iff_not]
    rintro (space | ⟨_, small⟩)
    · exact others.1 space
    · have small : byte.toNat ≤ 13 := small
      omega

theorem Printable.facts {byte : BitVec 8} (char : Printable byte) :
    byte ≠ 0 ∧ ¬ byte ≤ 0x0D ∧ byte ≠ 0x0D ∧ byte ≠ 0x0A ∧
    (isspace byte = true ↔ byte = 0x20) := by
  obtain ⟨lower, upper⟩ := char
  have low : 32 ≤ byte.toNat := lower
  have differs : ∀ other : BitVec 8, other.toNat < 32 → byte ≠ other := by
    rintro other outside rfl
    omega
  have visible : ¬ byte ≤ 0x0D := by
    intro small
    have small : byte.toNat ≤ 13 := small
    omega
  refine ⟨differs _ (by decide), visible, differs _ (by decide), differs _ (by decide), ?_⟩
  rw [isspace, decide_eq_true_eq]
  exact or_iff_left fun control => visible control.2

theorem uncommented_plain {string : List (BitVec 8)} (plain : ∀ byte ∈ string, byte ≠ 0x3B) (space : Bool) :
    Uncommented space string := by
  induction string generalizing space with
  | nil => trivial
  | cons byte rest ih =>
    exact ⟨fun comment => plain byte List.mem_cons_self comment.2,
      ih (fun other member => plain other (List.mem_cons_of_mem _ member)) _⟩

theorem uncommented_value {string : List (BitVec 8)} (printable : ∀ byte ∈ string, Printable byte)
    (plain : ¬ [0x20, 0x3B] <:+: string) {space : Bool} (first : space = true → string.head? ≠ some 0x3B) :
    Uncommented space string := by
  induction string generalizing space with
  | nil => trivial
  | cons byte rest ih =>
    refine ⟨fun comment => first comment.1 (congrArg some comment.2), ?_⟩
    apply ih (fun other member => printable other (List.mem_cons_of_mem _ member))
      (fun inside => plain (inside.trans (List.infix_cons List.infix_rfl)))
    intro space comment
    obtain ⟨others, shape⟩ := List.head?_eq_some_iff.mp comment
    have blank := ((printable byte List.mem_cons_self).facts.2.2.2.2).mp space
    exact plain ⟨[], others, by rw [shape, blank]; rfl⟩

theorem Value.clean {value : List (BitVec 8)} (formed : Value value) : Clean value :=
  ⟨fun byte member => (formed.chars byte member).facts.2.1, formed.last⟩

theorem Name.clean {name : List (BitVec 8)} (formed : Name name) : Clean name := by
  refine ⟨fun byte member => (formed.chars byte member).facts.2.1, fun space => ?_⟩
  have char := formed.chars _ (List.mem_of_getLast? space)
  exact char.2 List.mem_cons_self

theorem Name.excludes {name : List (BitVec 8)} (formed : Name name) {byte : BitVec 8} (member : byte ∈ name) :
    byte ≠ 0 ∧ byte ≠ 0x3D ∧ byte ≠ 0x3A ∧ byte ≠ 0x3B ∧ byte ≠ 0x23 ∧ byte ≠ 0x5B ∧ byte ≠ 0x5D := by
  have char := formed.chars byte member
  have others := char.2
  simp only [List.mem_cons, List.not_mem_nil, or_false, not_or] at others
  exact ⟨char.facts.1, others.2.1, others.2.2.1, others.2.2.2.1, others.2.2.2.2.1, others.2.2.2.2.2.1, others.2.2.2.2.2.2⟩

section Turn
variable {answer : List IniCall → Int} {state : IniState} {line : Nat} {current name key value : List (BitVec 8)}

structure Inside (state : IniState) (current : List (BitVec 8)) : Prop where
  terminated : Terminated state.sectionName 0 current
  last : state.sectionName (iniSectionMax - 1) = 0

/-- What a turn is to do: the calls of the line and its section. -/
def Served (answer : List IniCall → Int) (line : Nat) (state : IniState) (calls : List IniCall)
    (current : List (BitVec 8)) : Prop :=
  ∃ after, iniParseLine answer line state = some after ∧ Inside after current ∧ after.calls = calls.reverse ++ state.calls

/-- White space and comments end in the same place. -/
theorem served_skipped {first : BitVec 8} {memory : Memory} {start : Nat} (inside : Inside state current)
    (holds : state.memory line = first) (nonzero : first ≠ 0) (noMark : first ≠ 0xEF)
    (strip : iniStrip line state.memory = some memory) (skip : iniSkip memory line = some start)
    (found : strchr iniStartComment (memory start) = true) : Served answer line state [] current := by
  have begins : ¬ state.memory line = 0 := fun zero => nonzero (holds.symm.trans zero)
  have noBom : ¬ (state.iLine + 1 = 1 ∧ state.memory line = 0xEF ∧ state.memory (line + 1) = 0xBB ∧ state.memory (line + 2) = 0xBF) :=
    fun bom => noMark (holds.symm.trans bom.2.1)
  refine ⟨{ state with iLine := state.iLine + 1, memory }, ?_, ⟨inside.terminated, inside.last⟩, rfl⟩
  rw [iniParseLine, if_neg begins]
  simp only [if_neg noBom, strip, Option.bind_some, skip, found, if_true]

theorem served_blank {spaces : List (BitVec 8)} (inside : Inside state current)
    (terminated : Terminated state.memory line spaces) (blank : ∀ byte ∈ spaces, isspace byte = true) :
    Served answer line state [] current := by
  cases spaces with
  | nil =>
    have empty : state.memory line = 0 := terminated.stop
    refine ⟨state, ?_, inside, rfl⟩
    rw [iniParseLine, if_pos empty]
  | cons first rest =>
    obtain ⟨memory, strip, cleared⟩ := iniStrip_clears terminated
    have space := blank first List.mem_cons_self
    have stop : memory (line + (first :: rest).length) = 0 := by
      rcases cleared (line + (first :: rest).length) with same | gone
      · rw [same, terminated.stop]
      · exact gone.1
    have spaces : ∀ i < (first :: rest).length, memory (line + i) = 0 ∨ isspace (memory (line + i)) = true := by
      intro i bound
      rcases cleared (line + i) with same | gone
      · rw [same, terminated.get bound]
        exact .inr (blank _ (List.getElem_mem bound))
      · exact .inl gone.1
    obtain ⟨start, skip, zero⟩ := iniSkip_blank spaces stop terminated.fits
    refine served_skipped inside terminated.holds.1 ?_ ?_ strip skip ?_
    · rintro rfl
      exact absurd space (by decide)
    · rintro rfl
      exact absurd space (by decide)
    · rw [zero]
      decide

theorem served_comment {mark : BitVec 8} {remark : List (BitVec 8)} (inside : Inside state current)
    (terminated : Terminated state.memory line (mark :: remark)) (marks : mark ∈ iniStartComment) :
    Served answer line state [] current := by
  have either : mark = 0x3B ∨ mark = 0x23 := by simpa [iniStartComment] using marks
  obtain ⟨memory, strip, cleared⟩ := iniStrip_clears terminated
  have kept : memory line = mark := by
    rcases cleared line with same | gone
    · exact same.trans terminated.holds.1
    · have clearable := gone.2
      rw [terminated.holds.1] at clearable
      rcases either with rfl | rfl <;> exact absurd clearable (by simp [Clearable])
  have skip : iniSkip memory line = some line := by
    apply iniSkip_here
    rw [kept]
    rcases either with rfl | rfl <;> decide
  refine served_skipped inside terminated.holds.1 ?_ ?_ strip skip ?_
  · rcases either with rfl | rfl <;> decide
  · rcases either with rfl | rfl <;> decide
  · rw [kept]
    rcases either with rfl | rfl <;> decide

theorem item_start (answer : List IniCall → Int) {first : BitVec 8} {rest : List (BitVec 8)}
    (terminated : Terminated state.memory line (first :: rest)) (clean : Clean (first :: rest)) (room : 2 ≤ line)
    (visible : isspace first = false) (noMark : first ≠ 0xEF) (noComment : strchr iniStartComment first = false) :
    ∃ memory, Terminated memory line (first :: rest) ∧
      iniParseLine answer line state =
        let state := { state with iLine := state.iLine + 1, memory }
        if memory line = 0x5B then
          (iniFind memory (line + 1) (some [0x5D])).map fun stop =>
            if memory stop = 0x5D then
              { state with
                memory := memory.store8 stop 0
                sectionName := strncpy state.sectionName 0 (memory.store8 stop 0) (line + 1) (iniSectionMax - 1)
                prevName := state.prevName.store8 0 0 }
            else state.failed
        else
          (iniFind memory line (some [0x3D, 0x3A])).bind fun stop =>
            if memory stop = 0x3D ∨ memory stop = 0x3A then
              (iniStrip line (memory.store8 stop 0)).bind fun memory =>
                (iniFind memory (stop + 1) none).bind fun last =>
                  let memory := if memory last ≠ 0 then memory.store8 last 0 else memory
                  (iniSkip memory (stop + 1)).bind fun value =>
                    (iniStrip value memory).bind fun memory =>
                      iniHandle answer memory line value
                        { state with memory, prevName := strncpy state.prevName 0 memory line (iniNameMax - 1) }
            else some state.failed := by
  obtain ⟨memory, strip, same, _⟩ := iniStrip_clean terminated clean room
  have kept : Terminated memory line (first :: rest) := terminated.congr fun place lower _ => same place lower
  have here : memory line = first := kept.holds.1
  have nonzero : first ≠ 0 := fun zero => terminated.nonzero (zero ▸ List.mem_cons_self)
  have begins : ¬ state.memory line = 0 := fun zero => nonzero (terminated.holds.1.symm.trans zero)
  have noBom : ¬ (state.iLine + 1 = 1 ∧ state.memory line = 0xEF ∧ state.memory (line + 1) = 0xBB ∧ state.memory (line + 2) = 0xBF) :=
    fun bom => noMark (terminated.holds.1.symm.trans bom.2.1)
  have skip : iniSkip memory line = some line := iniSkip_here (.inr (here ▸ visible))
  refine ⟨memory, kept, ?_⟩
  rw [iniParseLine, if_neg begins]
  simp only [if_neg noBom, strip, Option.bind_some, skip, here, noComment, Nat.lt_irrefl, and_false, if_false, if_pos nonzero,
    Bool.false_eq_true]

theorem served_heading (inside : Inside state current)
    (terminated : Terminated state.memory line (0x5B :: (name ++ [0x5D]))) (formed : Name name) (room : 2 ≤ line) :
    Served answer line state [] name := by
  have clean : Clean (0x5B :: (name ++ [0x5D])) := by
    refine ⟨fun byte member => ?_, ?_⟩
    · simp only [List.mem_cons, List.mem_append, List.not_mem_nil, or_false] at member
      rcases member with rfl | member | rfl
      · decide
      · exact (formed.chars byte member).facts.2.1
      · decide
    · rw [← List.cons_append, List.getLast?_concat]
      decide
  obtain ⟨memory, kept, turn⟩ := item_start answer terminated clean room (by decide) (by decide) (by decide)
  have here : memory line = 0x5B := kept.holds.1
  obtain ⟨body, closing⟩ := Memory.holds_append.mp (Memory.holds_append.mp kept.holds.2).1
  have bracket : memory (line + 1 + name.length) = 0x5D := closing.1
  have find : iniFind memory (line + 1) (some [0x5D]) = some (line + 1 + name.length) := by
    apply iniFindFrom_eq body
    · intro byte member
      obtain ⟨nonzero, _, _, _, _, _, other⟩ := formed.excludes member
      refine ⟨nonzero, ?_⟩
      have differs : ¬byte = 0x5D#8 := other
      have positive : ¬byte = 0#8 := nonzero
      simp [strchr, differs, positive]
    · exact uncommented_plain (fun byte member => (formed.excludes member).2.2.2.1) false
    · rw [bracket]
      decide
    · have short := formed.short
      omega
  have copied : Terminated (memory.store8 (line + 1 + name.length) 0) (line + 1) name := by
    refine ⟨Memory.holds_append.mpr ⟨body.congr fun place _ upper => Memory.write_outside (.inl upper), ?_, trivial⟩, ?_, ?_⟩
    · exact Memory.write_inside le_rfl (Nat.lt_succ_self _)
    · exact fun zero => (formed.excludes zero).1 rfl
    · have short := formed.short
      omega
  obtain ⟨arrived, last⟩ := strncpy_terminated copied formed.short inside.last
  refine ⟨{ state with
    iLine := state.iLine + 1
    memory := memory.store8 (line + 1 + name.length) 0
    sectionName := strncpy state.sectionName 0 (memory.store8 (line + 1 + name.length) 0) (line + 1) (iniSectionMax - 1)
    prevName := state.prevName.store8 0 0 }, ?_, ⟨arrived, last⟩, rfl⟩
  rw [turn]
  simp only [here, if_true, find, Option.map_some, bracket]

/-- The handler is called with the strings, and its answer is not part of the record. -/
theorem iniHandle_calls (answer : List IniCall → Int) (state : IniState) {names : Memory} {place text : Nat}
    (sections : Terminated state.sectionName 0 current) (keyAt : Terminated names place key)
    (valueAt : Terminated state.memory text value) :
    ∃ after, iniHandle answer names place text state = some after ∧ after.sectionName = state.sectionName ∧
      after.calls = ⟨current, key, value⟩ :: state.calls := by
  rw [iniHandle, sections.stringAt, keyAt.stringAt, valueAt.stringAt]
  refine ⟨_, rfl, ?_, ?_⟩
  all_goals
    simp only
    split
    · simp only [IniState.failed]
      split <;> rfl
    · rfl

theorem served_entry (inside : Inside state current)
    (terminated : Terminated state.memory line (key ++ 0x3D :: value)) (name : Name key) (formed : Value value)
    (room : 2 ≤ line) : Served answer line state [⟨current, key, value⟩] current := by
  have clean : Clean (key ++ 0x3D :: value) := by
    refine ⟨fun byte member => ?_, ?_⟩
    · simp only [List.mem_append, List.mem_cons] at member
      rcases member with member | rfl | member
      · exact (name.chars byte member).facts.2.1
      · decide
      · exact (formed.chars byte member).facts.2.1
    · rw [List.getLast?_append, List.getLast?_cons, Option.some_or]
      cases last : value.getLast? with
      | none => decide
      | some byte => exact last ▸ formed.last
  obtain ⟨first, rest, rfl⟩ := List.exists_cons_of_length_pos name.some
  have starts := name.excludes List.mem_cons_self
  have noComment : strchr iniStartComment first = false := by
    have positive : ¬first = 0#8 := starts.1
    have noSemicolon : ¬first = 0x3B#8 := starts.2.2.2.1
    have noHash : ¬first = 0x23#8 := starts.2.2.2.2.1
    simp [strchr, iniStartComment, positive, noSemicolon, noHash]
  have facts := (name.chars first List.mem_cons_self).facts
  obtain ⟨memory, kept, turn⟩ := item_start answer terminated clean room facts.2.2.1 facts.2.2.2.2.2 noComment
  have whole : memory.Holds line ((first :: rest) ++ (0x3D :: (value ++ [0]))) := by simpa using kept.holds
  obtain ⟨keyHolds, equals, valueHolds⟩ := Memory.holds_append.mp whole
  obtain ⟨stop, place⟩ : ∃ stop, stop = line + (first :: rest).length := ⟨_, rfl⟩
  rw [← place] at equals valueHolds
  have notBracket : ¬memory line = 0x5B := fun same => starts.2.2.2.2.2.1 (keyHolds.1.symm.trans same)
  have find : iniFind memory line (some [0x3D, 0x3A]) = some stop := by
    rw [place]
    apply iniFindFrom_eq keyHolds
    · intro byte member
      obtain ⟨nonzero, noEquals, noColon, _⟩ := name.excludes member
      refine ⟨nonzero, ?_⟩
      have positive : ¬byte = 0#8 := nonzero
      have equal : ¬byte = 0x3D#8 := noEquals
      have colon : ¬byte = 0x3A#8 := noColon
      simp [strchr, positive, equal, colon]
    · exact uncommented_plain (fun byte member => (name.excludes member).2.2.2.1) false
    · rw [← place, equals]
      decide
    · have short := name.short
      omega
  have nonzero : 0 ∉ first :: rest := fun zero => (name.excludes zero).1 rfl
  have small : (first :: rest).length < 2 ^ 32 := by
    have short := name.short
    omega
  have cutKey : Terminated (memory.store8 stop 0) line (first :: rest) := by
    refine ⟨Memory.holds_append.mpr ⟨keyHolds.congr fun other _ upper => ?_, ?_, trivial⟩, nonzero, small⟩
    · exact Memory.write_outside (.inl (place ▸ upper))
    · rw [← place]
      exact Memory.write_inside le_rfl (Nat.lt_succ_self _)
  obtain ⟨stripped, stripKey, same, _⟩ := iniStrip_clean cutKey name.clean room
  have keyKept : Terminated stripped line (first :: rest) := cutKey.congr fun other lower _ => same other lower
  have cut : stripped stop = 0 := by
    rw [same stop (by omega)]
    exact Memory.write_inside le_rfl (Nat.lt_succ_self _)
  have valueKept : Terminated stripped (stop + 1) value := by
    refine ⟨valueHolds.congr fun other lower _ => ?_, fun zero => (formed.chars 0 zero).facts.1 rfl, ?_⟩
    · rw [same other (by omega)]
      exact Memory.write_outside (.inr lower)
    · have fits := terminated.fits
      simp only [List.cons_append, List.length_cons, List.length_append] at fits
      omega
  have findValue : iniFind stripped (stop + 1) none = some (stop + 1 + value.length) := by
    apply iniFindFrom_eq (Memory.holds_append.mp valueKept.holds).1
    · exact fun byte member => ⟨(formed.chars byte member).facts.1, rfl⟩
    · exact uncommented_value formed.chars formed.uncommented fun never => absurd never Bool.false_ne_true
    · exact .inl valueKept.stop
    · exact valueKept.fits
  have skip : iniSkip stripped (stop + 1) = some (stop + 1) := by
    apply iniSkip_here
    cases value with
    | nil => exact .inl valueKept.stop
    | cons byte others =>
      refine .inr ?_
      rw [valueKept.holds.1, Bool.eq_false_iff]
      intro space
      exact formed.first (congrArg some ((formed.chars byte List.mem_cons_self).facts.2.2.2.2.mp space))
  obtain ⟨final, stripValue, _, untouched⟩ := iniStrip_clean valueKept formed.clean (by omega)
  rw [Nat.add_sub_cancel] at untouched
  have unchanged := untouched cut
  subst unchanged
  obtain ⟨after, handled, sections, calls⟩ := iniHandle_calls answer
    { state with iLine := state.iLine + 1, memory := final, prevName := strncpy state.prevName 0 final line (iniNameMax - 1) }
    inside.terminated keyKept valueKept
  refine ⟨after, ?_, ⟨sections ▸ inside.terminated, sections ▸ inside.last⟩, calls⟩
  have ended : final (stop + 1 + value.length) = 0 := valueKept.stop
  rw [turn]
  simp only [notBracket, if_false, find, Option.bind_some, equals, true_or, if_true, stripKey, findValue, ended,
    ne_eq, not_true_eq_false, skip, stripValue]
  exact handled

theorem content_bytes {item : IniLine} (formed : item.Formed) {byte : BitVec 8} (member : byte ∈ item.content) :
    byte ≠ 0 ∧ byte ≠ 0x0A := by
  cases item with
  | blank spaces =>
    obtain ⟨space, notFeed⟩ := formed byte member
    refine ⟨?_, notFeed⟩
    rintro rfl
    exact absurd space (by decide)
  | comment mark remark =>
    have either : mark = 0x3B ∨ mark = 0x23 := by simpa [iniStartComment] using formed.1
    rcases List.mem_cons.mp member with same | inside
    · rcases either with mark | mark <;> exact same ▸ mark ▸ by decide
    · exact formed.2 byte inside
  | heading name =>
    simp only [IniLine.content, List.mem_cons, List.mem_append, List.not_mem_nil, or_false] at member
    rcases member with rfl | inside | rfl
    · decide
    · exact ⟨(formed.chars byte inside).facts.1, (formed.chars byte inside).facts.2.2.2.2.1⟩
    · decide
  | entry key value =>
    simp only [IniLine.content, List.mem_append, List.mem_cons] at member
    rcases member with inside | rfl | inside
    · exact ⟨(formed.1.chars byte inside).facts.1, (formed.1.chars byte inside).facts.2.2.2.2.1⟩
    · decide
    · exact ⟨(formed.2.chars byte inside).facts.1, (formed.2.chars byte inside).facts.2.2.2.1⟩

theorem served_line (answer : List IniCall → Int) (state : IniState) {item : IniLine} (inside : Inside state current)
    (formed : item.Formed) (room : 2 ≤ line) (terminated : Terminated state.memory line (stored item.content)) :
    Served answer line state (item.calls current) (item.current current) := by
  cases item with
  | blank spaces =>
    apply served_blank inside terminated
    exact fun byte member => (formed byte (List.mem_filter.mp member).1).1
  | comment mark remark =>
    have either : mark = 0x3B ∨ mark = 0x23 := by simpa [iniStartComment] using formed.1
    have kept : stored (mark :: remark) = mark :: stored remark := by
      rcases either with rfl | rfl <;> simp [stored]
    rw [IniLine.content, kept] at terminated
    exact served_comment inside terminated formed.1
  | heading name =>
    have kept : stored (IniLine.heading name).content = (IniLine.heading name).content := by
      apply stored_eq
      intro byte member
      simp only [IniLine.content, List.mem_cons, List.mem_append, List.not_mem_nil, or_false] at member
      rcases member with rfl | member | rfl
      · decide
      · exact (formed.chars byte member).facts.2.2.2.1
      · decide
    rw [kept] at terminated
    exact served_heading inside terminated formed room
  | entry key value =>
    have kept : stored (IniLine.entry key value).content = (IniLine.entry key value).content := by
      apply stored_eq
      intro byte member
      simp only [IniLine.content, List.mem_append, List.mem_cons] at member
      rcases member with member | rfl | member
      · exact (formed.1.chars byte member).facts.2.2.2.1
      · decide
      · exact (formed.2.chars byte member).facts.2.2.1
    rw [kept] at terminated
    exact served_entry inside terminated formed.1 formed.2 room

theorem loop_turn (answer : List IniCall → Int) (turns : Nat) {text : Memory} {buffer : Nat} {item : IniLine}
    {crlf : Bool} (inside : Inside state current) (formed : item.Formed) (short : item.content.length < iniLineMax)
    (room : 2 ≤ line) (holds : text.Holds buffer (item.content ++ lineEnd crlf)) :
    ∃ next after, iniParseLoop answer text line (turns + 1) buffer state =
      iniParseLoop answer text line turns next after ∧
      Inside after (item.current current) ∧ after.calls = (item.calls current).reverse ++ state.calls ∧
      (next = buffer + item.content.length + (lineEnd crlf).length ∨
        next = buffer + item.content.length + 1 ∧ text.Holds next [0x0A] ∧ crlf = true) := by
  have more : text buffer ≠ 0 := by
    cases shape : item.content with
    | nil =>
      rw [shape] at holds
      cases crlf with
      | false => exact holds.1 ▸ by decide
      | true => exact holds.1 ▸ by decide
    | cons byte rest =>
      rw [shape] at holds
      exact holds.1 ▸ (content_bytes formed (shape ▸ List.mem_cons_self)).1
  obtain ⟨next, memory, fetched, filled, onward⟩ := iniLineGet_eq line state.memory holds
    (fun feed => (content_bytes formed feed).2 rfl) short
  have terminated : Terminated memory line (stored item.content) := by
    refine ⟨filled, fun zero => (content_bytes formed (List.mem_filter.mp zero).1).1 rfl, ?_⟩
    have few := stored_length item.content
    unfold iniLineMax at short
    omega
  obtain ⟨after, ran, kept, calls⟩ := served_line answer { state with memory }
    ⟨inside.terminated, inside.last⟩ formed room terminated
  refine ⟨next, after, ?_, kept, calls, onward⟩
  rw [iniParseLoop, if_neg more, fetched]
  simp only [ran, Option.bind_some]

theorem loop_served {text : Memory} {buffer turns : Nat} {lines : List PhysicalLine} (inside : Inside state current)
    (formed : ∀ physical ∈ lines, physical.Formed) (room : 2 ≤ line)
    (holds : text.Holds buffer (lines.flatMap PhysicalLine.bytes ++ [0]))
    (enough : (lines.flatMap PhysicalLine.bytes).length < turns) :
    ∃ final, iniParseLoop answer text line turns buffer state = some final ∧
      final.calls = (expected current (lines.map PhysicalLine.line)).reverse ++ state.calls := by
  induction lines generalizing buffer state current turns with
  | nil =>
    obtain ⟨turns, rfl⟩ := Nat.exists_eq_succ_of_ne_zero (Nat.ne_of_gt enough)
    have ended : text buffer = 0 := holds.1
    exact ⟨state, by rw [iniParseLoop, if_pos ended], rfl⟩
  | cons physical rest ih =>
    obtain ⟨turns, rfl⟩ := Nat.exists_eq_succ_of_ne_zero (Nat.ne_of_gt (Nat.zero_lt_of_lt enough))
    have here := formed physical List.mem_cons_self
    have later : ∀ other ∈ rest, other.Formed := fun other member => formed other (List.mem_cons_of_mem _ member)
    rw [List.flatMap_cons, List.append_assoc] at holds
    obtain ⟨first, remaining⟩ := Memory.holds_append.mp holds
    have size : physical.bytes.length = physical.line.content.length + (lineEnd physical.crlf).length := List.length_append
    have ends : 1 ≤ (lineEnd physical.crlf).length := by cases physical.crlf <;> decide
    rw [List.flatMap_cons, List.length_append, size] at enough
    rw [size, ← Nat.add_assoc] at remaining
    obtain ⟨next, after, turned, kept, calls, onward⟩ := loop_turn answer turns inside here.line here.short room first
    have collect : ∀ final : IniState,
        final.calls = (expected (physical.line.current current) (rest.map PhysicalLine.line)).reverse ++ after.calls →
        final.calls = (expected current ((physical :: rest).map PhysicalLine.line)).reverse ++ state.calls := by
      intro final gathered
      rw [gathered, calls, List.map_cons, expected_cons, List.reverse_append, List.append_assoc]
    rcases onward with rfl | ⟨rfl, feed, crlf⟩
    · have bound : (rest.flatMap PhysicalLine.bytes).length < turns := by omega
      obtain ⟨final, ran, gathered⟩ := ih kept later remaining bound
      exact ⟨final, turned.trans ran, collect final gathered⟩
    · -- The line feed that did not fit is an empty line of its own.
      have two : (lineEnd true).length = 2 := rfl
      rw [crlf, two] at enough remaining
      obtain ⟨turns, rfl⟩ := Nat.exists_eq_succ_of_ne_zero (show turns ≠ 0 by omega)
      have alone : text.Holds (buffer + physical.line.content.length + 1) ((IniLine.blank []).content ++ lineEnd false) := feed
      have blank : (IniLine.blank []).Formed := fun _ member => absurd member List.not_mem_nil
      obtain ⟨next, again, turnedAgain, keptAgain, callsAgain, ended⟩ := loop_turn answer turns kept blank (by decide) room alone
      have place := ended.resolve_right fun wrong => Bool.false_ne_true wrong.2.2
      have same : next = buffer + physical.line.content.length + 2 := place
      have bound : (rest.flatMap PhysicalLine.bytes).length < turns := by omega
      rw [← same] at remaining
      obtain ⟨final, ran, gathered⟩ := ih keptAgain later remaining bound
      exact ⟨final, turned.trans (turnedAgain.trans ran), collect final (gathered.trans (by rw [callsAgain]; rfl))⟩

/-- Whatever lies around the line buffer, and however the handler answers. -/
theorem ini_round_trip (answer : List IniCall → Int) {lines : List PhysicalLine}
    (formed : ∀ physical ∈ lines, physical.Formed) {text : Memory} {buffer : Nat}
    (holds : text.Holds buffer (lines.flatMap PhysicalLine.bytes ++ [0])) (memory : Memory) (room : 2 ≤ line)
    {turns : Nat} (enough : (lines.flatMap PhysicalLine.bytes).length < turns) :
    ∃ final, iniParse answer text buffer line memory turns = some final ∧
      final.calls.reverse = expected [] (lines.map PhysicalLine.line) := by
  have inside : Inside ⟨memory, fun _ => 0, fun _ => 0, 0, 0, []⟩ [] :=
    ⟨⟨⟨rfl, trivial⟩, List.not_mem_nil, by decide⟩, rfl⟩
  obtain ⟨final, ran, calls⟩ := loop_served inside formed room holds enough
  refine ⟨final, ran, ?_⟩
  rw [calls, List.append_nil, List.reverse_reverse]

end Turn

/-- A section `[s]`, a comment, and the key `k` with the value `v w`, in lines of both kinds. -/
def smallFile : List PhysicalLine :=
  [⟨.heading [0x73], true⟩, ⟨.comment 0x23 [0x20, 0x0D], false⟩, ⟨.blank [], true⟩, ⟨.entry [0x6B] [0x76, 0x20, 0x77], false⟩]

theorem smallFile_formed : ∀ physical ∈ smallFile, physical.Formed := by
  intro physical member
  simp only [smallFile, List.mem_cons, List.not_mem_nil, or_false] at member
  rcases member with rfl | rfl | rfl | rfl
  · exact ⟨⟨by decide, by decide, by simp [NameChar, Printable]⟩, by decide⟩
  · exact ⟨⟨by decide, by decide⟩, by decide⟩
  · exact ⟨(fun _ member => absurd member List.not_mem_nil), by decide⟩
  · have key : Name [0x6B] := ⟨by decide, by decide, by simp [NameChar, Printable]⟩
    have value : Value [0x76, 0x20, 0x77] := ⟨by simp [Printable], by decide, by decide, by decide⟩
    exact ⟨⟨key, value⟩, by decide⟩

theorem ini_round_trip_example : ∃ final,
    iniParse (fun _ => 1) (fun place => (smallFile.flatMap PhysicalLine.bytes ++ [0]).getD place 0) 0 2 (fun _ => 0x0D) 30 = some final ∧
      final.calls = [⟨[0x73], [0x6B], [0x76, 0x20, 0x77]⟩] := by
  have holds : Memory.Holds (fun place => (smallFile.flatMap PhysicalLine.bytes ++ [0]).getD place 0) 0
      (smallFile.flatMap PhysicalLine.bytes ++ [0]) := by
    apply Memory.holds_of_get
    intro i bound
    rw [Nat.zero_add]
    exact (List.getElem_eq_getD 0).symm
  obtain ⟨final, ran, calls⟩ := ini_round_trip (fun _ => 1) smallFile_formed holds (fun _ => 0x0D) le_rfl (by decide : _ < 30)
  refine ⟨final, ran, ?_⟩
  rw [← List.reverse_reverse final.calls, calls]
  rfl

end YuzuOS.Proofs.IniRoundTrip
