import YuzuOS.Proofs.IniKinds

/-! How `ini_line_get` takes the lines of a text one by one. -/

namespace YuzuOS.Proofs.IniDocument
open YuzuOS.Library YuzuOS.Libc YuzuOS.Core YuzuOS.Proofs.IniLines YuzuOS.Proofs.IniReading YuzuOS.Proofs.IniKinds

/-- The text lies between `low` and `high`, the line buffer starts at `line`. -/
def Inside (low high line : Nat) : IniPlace → Prop
  | .text place => low ≤ place ∧ place < high
  | .line place => line ≤ place ∧ place < line + iniLineMax
  | .sectionName place => place < iniSectionMax
  | .prevName place => place < iniNameMax

/-- The next line of a text without its carriage returns, and what follows it; none if the text
ends before. -/
def takeLine : Nat → List (BitVec 8) → Option (List (BitVec 8) × List (BitVec 8))
  | 0, content => some ([], content)
  | _ + 1, [] => none
  | turns + 1, byte :: rest =>
    if byte = 0x0D then takeLine turns rest
    else if byte = 0x0A then some ([], rest)
    else (takeLine turns rest).map fun (stored, rest) => (byte :: stored, rest)

def lineText (stored : List (BitVec 8)) : List (BitVec 8) := stored.takeWhile (· ≠ 0)

variable {text memory after : Memory} {turns buffer next line : Nat} {content stored rest : List (BitVec 8)}

structure Fetched (text memory after : Memory) (turns buffer next line : Nat) (content stored rest : List (BitVec 8)) :
    Prop where
  ran : iniLineGetLoop text turns buffer line memory = (next, after)
  behind : text.Holds next rest
  ends : next + rest.length = buffer + content.length
  short : stored.length ≤ turns
  wrote : after.Holds line stored
  frame : ∀ place, place < line ∨ line + stored.length ≤ place → after place = memory place
  places : ∀ low base, low ≤ buffer → base ≤ line → line + turns ≤ base + iniLineMax →
    ∀ place ∈ iniLineGetPlaces text turns buffer line, Inside low (buffer + content.length) base place

theorem lineGet_fetched (holds : text.Holds buffer content) (taken : takeLine turns content = some (stored, rest))
    (line : Nat) (memory : Memory) :
    ∃ next after, Fetched text memory after turns buffer next line content stored rest := by
  induction turns generalizing content buffer line memory stored with
  | zero =>
    obtain ⟨rfl, rfl⟩ := Prod.mk.inj (Option.some.inj taken)
    exact ⟨buffer, memory, rfl, holds, rfl, le_rfl, trivial, fun _ _ => rfl, nofun⟩
  | succ turns ih =>
    cases content with
    | nil => cases taken
    | cons byte content =>
      obtain ⟨here, later⟩ := holds
      have inText {low base : Nat} (below : low ≤ buffer) : Inside low (buffer + (byte :: content).length) base (.text buffer) :=
        ⟨below, by rw [List.length_cons]; omega⟩
      have size : buffer + 1 + content.length = buffer + (byte :: content).length := by rw [List.length_cons]; omega
      rw [takeLine] at taken
      split at taken
      next carriage =>
        obtain ⟨next, after, fetched⟩ := ih later taken line memory
        refine ⟨next, after, ?_, fetched.behind, fetched.ends.trans size, Nat.le_succ_of_le fetched.short, fetched.wrote, fetched.frame, ?_⟩
        · rw [iniLineGetLoop, here, if_pos carriage]
          exact fetched.ran
        · intro low base below inside room
          rw [iniLineGetPlaces, here, if_pos carriage, ← size]
          exact List.forall_mem_cons.mpr ⟨size ▸ inText below, fetched.places low base (by omega) inside (by omega)⟩
      next other =>
        split at taken
        next feed =>
          obtain ⟨rfl, rfl⟩ := Prod.mk.inj (Option.some.inj taken)
          refine ⟨buffer + 1, memory, ?_, later, size, Nat.zero_le _, trivial, fun _ _ => rfl, ?_⟩
          · rw [iniLineGetLoop, here, if_neg other, if_pos feed]
          · intro low base below _ _
            rw [iniLineGetPlaces, here, if_neg other, if_pos feed]
            exact List.forall_mem_singleton.mpr (inText below)
        next plain =>
          obtain ⟨⟨tail, _⟩, found, same⟩ := Option.map_eq_some_iff.mp taken
          obtain ⟨rfl, rfl⟩ := Prod.mk.inj same
          obtain ⟨next, after, fetched⟩ := ih later found (line + 1) (memory.store8 line byte)
          have frame := fetched.frame
          refine ⟨next, after, ?_, fetched.behind, fetched.ends.trans size, Nat.succ_le_succ fetched.short, ⟨?_, fetched.wrote⟩, ?_, ?_⟩
          · rw [iniLineGetLoop, here, if_neg other, if_neg plain]
            exact fetched.ran
          · rw [frame line (.inl (Nat.lt_succ_self _))]
            exact Memory.write_inside le_rfl (Nat.lt_succ_self _)
          · intro place outside
            rw [List.length_cons] at outside
            rw [frame place (by omega)]
            exact Memory.write_outside (by omega)
          · intro low base below inside room
            rw [iniLineGetPlaces, here, if_neg other, if_neg plain, ← size]
            refine List.forall_mem_cons.mpr ⟨size ▸ inText below, List.forall_mem_cons.mpr ⟨⟨inside, by omega⟩, ?_⟩⟩
            exact fetched.places low base (by omega) (by omega) (by omega)

/-- The end of the text is read when no line ends in front of it. -/
theorem lineGet_outside (holds : text.Holds buffer content) (ends : takeLine turns content = none) (line : Nat) :
    .text (buffer + content.length) ∈ iniLineGetPlaces text turns buffer line := by
  induction turns generalizing content buffer line with
  | zero => cases ends
  | succ turns ih =>
    cases content with
    | nil => exact List.mem_cons_self
    | cons byte content =>
      obtain ⟨here, later⟩ := holds
      have size : buffer + (byte :: content).length = buffer + 1 + content.length := by rw [List.length_cons]; omega
      rw [iniLineGetPlaces, here, size]
      rw [takeLine] at ends
      refine List.mem_cons_of_mem _ ?_
      split at ends
      next carriage =>
        rw [if_pos carriage]
        exact ih later ends line
      next other =>
        rw [if_neg other]
        split at ends
        next feed => cases ends
        next plain =>
          rw [if_neg plain]
          exact List.mem_cons_of_mem _ (ih later (Option.map_eq_none_iff.mp ends) (line + 1))

/-- A line that leaves a byte of the buffer has a zero behind it. -/
theorem fetched_ends
    (fetched : Fetched text (memory.fill line iniLineMax 0) after iniLineMax buffer next line content stored rest)
    (short : stored.length < iniLineMax) : after.Holds line (stored ++ [0]) := by
  refine Memory.holds_append.mpr ⟨fetched.wrote, ?_, trivial⟩
  rw [fetched.frame _ (.inr le_rfl)]
  exact Memory.write_inside (Nat.le_add_right _ _) (Nat.add_lt_add_left short _)

theorem lineText_nonzero (stored : List (BitVec 8)) : 0 ∉ lineText stored := fun zero => by
  have visible := List.mem_takeWhile_imp zero
  exact absurd rfl (of_decide_eq_true visible)

/-- A line that leaves a byte of the buffer is terminated. -/
theorem fetched_terminated
    (fetched : Fetched text (memory.fill line iniLineMax 0) after iniLineMax buffer next line content stored rest)
    (short : (lineText stored).length < iniLineMax) : Terminated after line (lineText stored) := by
  have whole : lineText stored ++ stored.dropWhile (· ≠ 0) = stored := List.takeWhile_append_dropWhile
  have wrote := fetched.wrote
  rw [← whole] at wrote
  obtain ⟨front, behind⟩ := Memory.holds_append.mp wrote
  refine ⟨Memory.holds_append.mpr ⟨front, ?_, trivial⟩, lineText_nonzero stored, short.trans (by decide)⟩
  cases left : stored.dropWhile (· ≠ 0) with
  | nil =>
    rw [left, List.append_nil] at whole
    rw [fetched.frame _ (.inr (by rw [whole]))]
    exact Memory.write_inside (Nat.le_add_right _ _) (Nat.add_lt_add_left short _)
  | cons byte more =>
    have zero := List.head?_dropWhile_not (· ≠ 0) stored
    rw [left] at behind zero
    exact behind.1.trans (by simpa using zero)

theorem fetched_full
    (fetched : Fetched text (memory.fill line iniLineMax 0) after iniLineMax buffer next line content stored rest)
    (full : ¬(lineText stored).length < iniLineMax) {i : Nat} (inside : i < iniLineMax) : after (line + i) ≠ 0 := by
  have whole : lineText stored ++ stored.dropWhile (· ≠ 0) = stored := List.takeWhile_append_dropWhile
  have wrote := fetched.wrote
  rw [← whole] at wrote
  have bound : i < (lineText stored).length := by omega
  rw [(Memory.holds_append.mp wrote).1.get bound]
  exact fun zero => lineText_nonzero stored (zero ▸ List.getElem_mem bound)

theorem takeLine_le (taken : takeLine turns content = some (stored, rest)) : rest.length ≤ content.length := by
  induction turns generalizing content stored with
  | zero =>
    obtain ⟨-, rfl⟩ := Prod.mk.inj (Option.some.inj taken)
    exact le_rfl
  | succ turns ih =>
    cases content with
    | nil => cases taken
    | cons byte content =>
      rw [takeLine] at taken
      split at taken
      next => exact Nat.le_succ_of_le (ih taken)
      next =>
        split at taken
        next =>
          obtain ⟨-, rfl⟩ := Prod.mk.inj (Option.some.inj taken)
          exact Nat.le_succ _
        next =>
          obtain ⟨⟨tail, _⟩, found, same⟩ := Option.map_eq_some_iff.mp taken
          obtain ⟨-, rfl⟩ := Prod.mk.inj same
          exact Nat.le_succ_of_le (ih found)

theorem takeLine_shorter (taken : takeLine (turns + 1) content = some (stored, rest)) :
    rest.length < content.length := by
  cases content with
  | nil => cases taken
  | cons byte content =>
    rw [takeLine] at taken
    split at taken
    next => exact Nat.lt_succ_of_le (takeLine_le taken)
    next =>
      split at taken
      next =>
        obtain ⟨-, rfl⟩ := Prod.mk.inj (Option.some.inj taken)
        exact Nat.lt_succ_self _
      next =>
        obtain ⟨⟨tail, _⟩, found, same⟩ := Option.map_eq_some_iff.mp taken
        obtain ⟨-, rfl⟩ := Prod.mk.inj same
        exact Nat.lt_succ_of_le (takeLine_le found)

theorem takeLine_append (oneLine : 0x0A ∉ content) (turns : Nat) (rest : List (BitVec 8)) :
    takeLine (content.length + turns) (content ++ rest) =
      (takeLine turns rest).map fun (tail, rest) => (IniLines.stored content ++ tail, rest) := by
  induction content with
  | nil =>
    rw [List.length_nil, Nat.zero_add, List.nil_append]
    exact Option.map_id'.symm
  | cons byte content ih =>
    rw [List.mem_cons, not_or] at oneLine
    rw [List.length_cons, Nat.succ_add, List.cons_append, takeLine, ih oneLine.2]
    by_cases carriage : byte = 0x0D
    · rw [if_pos carriage]
      simp [IniLines.stored, carriage]
    · have other : ¬byte = 13#8 := carriage
      rw [if_neg carriage, if_neg (Ne.symm oneLine.1), Option.map_map]
      simp [IniLines.stored, other, Function.comp_def]

theorem takeLine_line (oneLine : 0x0A ∉ content) (enough : content.length < turns) :
    takeLine turns (content ++ 0x0A :: rest) = some (IniLines.stored content, rest) := by
  obtain ⟨more, rfl⟩ := Nat.exists_eq_add_of_lt enough
  rw [Nat.add_assoc, takeLine_append oneLine]
  simp [takeLine]

theorem takeLine_end (crlf : Bool) (more : Nat) : takeLine (more + 1) (lineEnd crlf) = some ([], []) ∨
    takeLine (more + 1) (lineEnd crlf) = some ([], [0x0A]) ∧ crlf = true := by
  cases crlf with
  | false => exact .inl rfl
  | true =>
    cases more with
    | zero => exact .inr ⟨rfl, rfl⟩
    | succ more => exact .inl rfl

/-- The line is in the buffer; a carriage return that no longer fits leaves the line feed behind it. -/
theorem iniLineGet_eq (line : Nat) (memory : Memory) {crlf : Bool}
    (holds : text.Holds buffer (content ++ lineEnd crlf)) (oneLine : 0x0A ∉ content)
    (short : content.length < iniLineMax) : ∃ next after, iniLineGet text buffer line memory = (next, after) ∧
      after.Holds line (IniLines.stored content ++ [0]) ∧
      (next = buffer + content.length + (lineEnd crlf).length ∨
        next = buffer + content.length + 1 ∧ text.Holds next [0x0A] ∧ crlf = true) := by
  obtain ⟨more, length⟩ := Nat.exists_eq_add_of_lt short
  have taken := takeLine_append oneLine (more + 1) (lineEnd crlf)
  rw [← Nat.add_assoc, ← length] at taken
  have few := (stored_length content).trans_lt short
  rcases takeLine_end crlf more with ended | ⟨ended, carriage⟩
  · rw [ended] at taken
    simp only [Option.map_some, List.append_nil] at taken
    obtain ⟨next, after, fetched⟩ := lineGet_fetched holds taken line (memory.fill line iniLineMax 0)
    have place := fetched.ends
    rw [List.length_nil, List.length_append, Nat.add_zero, ← Nat.add_assoc] at place
    exact ⟨next, after, fetched.ran, fetched_ends fetched few, .inl place⟩
  · rw [ended] at taken
    simp only [Option.map_some, List.append_nil] at taken
    obtain ⟨next, after, fetched⟩ := lineGet_fetched holds taken line (memory.fill line iniLineMax 0)
    have place := fetched.ends
    have two : (lineEnd crlf).length = 2 := by rw [carriage]; rfl
    rw [List.length_singleton, List.length_append, two] at place
    exact ⟨next, after, fetched.ran, fetched_ends fetched few, .inr ⟨by omega, fetched.behind, carriage⟩⟩

variable {state : IniState} (answer : List IniCall → Int)

theorem parseLine_blank (blank : state.memory line = 0) : iniParseLine answer line state = some state := if_pos blank

theorem parseLoop_fetched
    (fetched : Fetched text (state.memory.fill line iniLineMax 0) after iniLineMax buffer next line content stored rest)
    (more : text buffer ≠ 0) (turns : Nat) : iniParseLoop answer text line (turns + 1) buffer state =
      (iniParseLine answer line { state with memory := after }).bind (iniParseLoop answer text line turns next) := by
  rw [iniParseLoop, if_neg more, iniLineGet, fetched.ran]

theorem parsePlaces_fetched
    (fetched : Fetched text (state.memory.fill line iniLineMax 0) after iniLineMax buffer next line content stored rest)
    (more : text buffer ≠ 0) (turns : Nat) : iniParsePlaces answer text line (turns + 1) buffer state =
      .text buffer :: ((List.range iniLineMax).map (fun i => .line (line + i)) ++ iniLineGetPlaces text iniLineMax buffer line ++
        iniParseLinePlaces line { state with memory := after } ++
        (iniParseLine answer line { state with memory := after }).elim [] (iniParsePlaces answer text line turns next)) := by
  rw [iniParsePlaces, if_neg more, iniLineGet, fetched.ran]

end YuzuOS.Proofs.IniDocument
