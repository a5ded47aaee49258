import YuzuOS.Proofs.IniDocument

/-! What `ini_parse` returns for a document, and what it is meant to return: the number of the
first line that is malformed or that the handler refuses. -/

namespace YuzuOS.Proofs.IniResult
open YuzuOS.Library YuzuOS.Libc YuzuOS.Core YuzuOS.Proofs.IniLines YuzuOS.Proofs.IniStrip YuzuOS.Proofs.IniReading YuzuOS.Proofs.IniKinds
  YuzuOS.Proofs.IniDocument

/-! ### The lines of a document -/

/-- A physical line: what it is taken for, what it is meant to be, and what the handler answers. -/
structure LineOutcome where
  empty : Bool
  taken : LineKind
  meant : LineKind
  answered : Option Int

/-- `ini_parse` reports the line. -/
def LineOutcome.reported (outcome : LineOutcome) : Bool :=
  outcome.taken = .malformed ∨ outcome.answered = some iniSuccess

theorem reported_iff {outcome : LineOutcome} :
    outcome.reported = true ↔ outcome.taken = .malformed ∨ outcome.answered = some iniSuccess :=
  decide_eq_true_iff

/-- The line is malformed, or its call of the handler failed or was left out. -/
def LineOutcome.wrong (outcome : LineOutcome) : Bool :=
  outcome.meant = .malformed ∨ outcome.answered = some iniFailure ∨ outcome.meant.calls ∧ outcome.answered = none

/-- The lines of a document with the answers that the handler gives. `ini_parse` takes a line for
the first one if it has come to no line before that is not empty. -/
def outcomes (opened known first named : Bool) : List (List (BitVec 8)) → List Int → List LineOutcome
  | [], _ => []
  | text :: lines, answers =>
    let meant := meantKind first named text
    let named := meant.keyed named
    if text = [] then ⟨true, .skipped, meant, none⟩ :: outcomes opened known false named lines answers
    else
      let taken := codeKind opened known text
      let known := taken.named known
      if taken.calls then ⟨false, taken, meant, answers.head?⟩ :: outcomes false known false named lines answers.tail
      else ⟨false, taken, meant, none⟩ :: outcomes false known false named lines answers

def returned : Nat → List LineOutcome → Nat
  | _, [] => 0
  | count, outcome :: later =>
    if outcome.empty then returned count later
    else if outcome.reported then count + 1
    else returned (count + 1) later

/-- The number of the first line with an error, or 0. -/
def firstWrong (lines : List LineOutcome) : Nat := (lines.findIdx? (·.wrong)).elim 0 (· + 1)

def answers (answer : List IniCall → Int) : List IniCall → List Int
  | [] => []
  | call :: calls => answers answer calls ++ [answer (call :: calls)]

/-- A line of a document without its line feed. -/
structure LineFormed (content : List (BitVec 8)) : Prop where
  oneLine : 0x0A ∉ content
  nonzero : 0 ∉ content
  short : content.length < iniLineMax

/-- The lines with their line feeds and the terminator. -/
def document (lines : List (List (BitVec 8))) : List (BitVec 8) := lines.flatMap (· ++ [0x0A]) ++ [0]

variable {content rest : List (BitVec 8)} {lines : List (List (BitVec 8))} {turns : Nat}

theorem lineText_stored (nonzero : 0 ∉ content) : lineText (stored content) = stored content := by
  refine List.takeWhile_eq_self_iff.mpr fun byte member => decide_eq_true ?_
  rintro rfl
  exact nonzero (List.mem_of_mem_filter member)

theorem document_cons (content : List (BitVec 8)) (lines : List (List (BitVec 8))) :
    document (content :: lines) = content ++ 0x0A :: document lines := by
  simp [document]

/-! ### Runs -/

variable {answer : List IniCall → Int} {text : Memory} {line buffer : Nat} {state after : IniState} {kind : LineKind}

structure Answered (answer : List IniCall → Int) (state after : IniState) (kind : LineKind) (given : List Int) :
    Prop where
  calls : answers answer after.calls = answers answer state.calls ++ given
  size : given.length = if kind.calls then 1 else 0
  result : after.result =
    if state.result = 0 ∧ (kind = .malformed ∨ given.head? = some iniSuccess) then state.iLine + 1 else state.result

theorem answered_silent (other : kind.calls = false) (reports : after.calls = state.calls ∧
    after.result = if state.result = 0 ∧ kind = .malformed then state.iLine + 1 else state.result) :
    Answered answer state after kind [] := by
  refine ⟨by rw [reports.1, List.append_nil], by rw [other]; rfl, ?_⟩
  simpa using reports.2

theorem answered_call (calls : kind.calls = true) (wellFormed : kind ≠ .malformed) (reports : ∃ call, after.calls = call :: state.calls ∧
    after.result = if answer after.calls = 0 ∧ state.result = 0 then state.iLine + 1 else state.result) :
    Answered answer state after kind [answer after.calls] := by
  obtain ⟨call, grown, result⟩ := reports
  refine ⟨by rw [grown, answers], by rw [calls]; rfl, result.trans ?_⟩
  simp only [wellFormed, false_or, List.head?_cons, Option.some.injEq, iniSuccess, and_comm]

theorem turn_answered (turn : Turn answer state after kind) : ∃ given, Answered answer state after kind given := by
  have reports := turn.reports
  cases kind with
  | skipped => exact ⟨[], answered_silent rfl (by simpa [Reports] using reports)⟩
  | heading => exact ⟨[], answered_silent rfl (by simpa [Reports] using reports)⟩
  | malformed => exact ⟨[], answered_silent rfl (by simpa [Reports] using reports)⟩
  | continuation => exact ⟨_, answered_call rfl nofun reports⟩
  | item name => exact ⟨_, answered_call rfl nofun reports⟩

/-- What `ini_parse` returns from a state on. -/
def returnedFrom (state : IniState) (first named : Bool) (lines : List (List (BitVec 8))) (given : List Int) : Nat :=
  if state.result = 0 then returned state.iLine (outcomes (state.iLine + 1 = 1) (state.prevName 0 ≠ 0) first named lines given)
  else state.result

variable {string : List (BitVec 8)} {given : List Int}

theorem outcomes_filled (filled : string ≠ []) (opened known first named : Bool) (lines : List (List (BitVec 8)))
    (size : given.length = if (codeKind opened known string).calls then 1 else 0) (later : List Int) :
    outcomes opened known first named (string :: lines) (given ++ later) =
      ⟨false, codeKind opened known string, meantKind first named string, given.head?⟩ ::
        outcomes false ((codeKind opened known string).named known) false ((meantKind first named string).keyed named) lines later := by
  rw [outcomes]
  simp only
  rw [if_neg filled]
  split at size
  next calls =>
    obtain ⟨given, rfl⟩ := List.length_eq_one_iff.mp size
    rw [if_pos calls]
    rfl
  next silent =>
    rw [if_neg silent, List.eq_nil_of_length_eq_zero size]
    rfl

theorem returnedFrom_turn (filled : string ≠ [])
    (turn : Turn answer state after (codeKind (state.iLine + 1 = 1) (state.prevName 0 ≠ 0) string))
    (answered : Answered answer state after (codeKind (state.iLine + 1 = 1) (state.prevName 0 ≠ 0) string) given)
    (first named : Bool) (lines : List (List (BitVec 8))) (later : List Int) :
    returnedFrom state first named (string :: lines) (given ++ later) =
      returnedFrom after false ((meantKind first named string).keyed named) lines later := by
  have result := answered.result
  have opened : decide (after.iLine + 1 = 1) = false := by
    rw [turn.iLine]
    exact decide_eq_false (by simp)
  have known := Bool.eq_iff_iff.mpr (decide_eq_true_iff.trans turn.named)
  unfold returnedFrom
  rw [opened, known, outcomes_filled filled _ _ _ _ _ answered.size, turn.iLine]
  generalize codeKind (state.iLine + 1 = 1) (state.prevName 0 ≠ 0) string = kind at result ⊢
  by_cases clear : state.result = 0
  · rw [if_pos clear, returned, if_neg Bool.false_ne_true]
    by_cases reports : kind = .malformed ∨ given.head? = some iniSuccess
    · have number : after.result = state.iLine + 1 := result.trans (if_pos ⟨clear, reports⟩)
      rw [number, if_pos (reported_iff.mpr reports), if_neg (Nat.succ_ne_zero _)]
    · have number : after.result = 0 := (result.trans (if_neg fun both => reports both.2)).trans clear
      rw [number, if_neg (mt reported_iff.mp reports), if_pos rfl]
  · have number : after.result = state.result := result.trans (if_neg fun both => clear both.1)
    rw [number, if_neg clear, if_neg clear]

theorem loop_next (positive : 0 < line) (formed : LineFormed content) (kept : Kept state)
    (holds : text.Holds buffer (document (content :: lines))) (first named : Bool) (answer : List IniCall → Int) :
    ∃ next after given, text.Holds next (document lines) ∧ Kept after ∧
      (∀ turns, iniParseLoop answer text line (turns + 1) buffer state = iniParseLoop answer text line turns next after) ∧
      answers answer after.calls = answers answer state.calls ++ given ∧
      ∀ lines later, returnedFrom state first named (stored content :: lines) (given ++ later) =
        returnedFrom after false ((meantKind first named (stored content)).keyed named) lines later := by
  rw [document_cons] at holds
  have more : text buffer ≠ 0 := by
    cases content with
    | nil => exact fun zero => absurd (holds.1.symm.trans zero) (by decide)
    | cons byte content => exact fun zero => formed.nonzero (by rw [← zero, holds.1]; exact List.mem_cons_self)
  have taken : takeLine iniLineMax (content ++ 0x0A :: document lines) = some (stored content, document lines) :=
    takeLine_line formed.oneLine formed.short
  obtain ⟨next, memory, fetched⟩ := lineGet_fetched holds taken line (state.memory.fill line iniLineMax 0)
  have loop := parseLoop_fetched answer fetched more
  have whole := lineText_stored formed.nonzero
  have terminated := fetched_terminated fetched (by rw [whole]; exact (stored_length content).trans_lt formed.short)
  rw [whole] at terminated
  have keptAfter : Kept { state with memory } := ⟨kept.sectionName, kept.prevName⟩
  by_cases empty : stored content = []
  · have blank : memory line = 0 := (terminated_empty terminated).mpr empty
    have ran : iniParseLine answer line { state with memory } = some { state with memory } := parseLine_blank answer blank
    rw [ran] at loop
    refine ⟨next, _, [], fetched.behind, keptAfter, loop, (List.append_nil _).symm, fun lines later => ?_⟩
    simp only [returnedFrom, outcomes, empty, returned, List.nil_append, if_true]
  · obtain ⟨after, ran, turn⟩ := parseLine_turn answer positive keptAfter terminated empty
    rw [ran] at loop
    obtain ⟨given, answered⟩ := turn_answered turn
    exact ⟨next, after, given, fetched.behind, turn.kept, loop, answered.calls,
      fun lines later => returnedFrom_turn empty turn answered first named lines later⟩

theorem loop_returns (answer : List IniCall → Int) (positive : 0 < line)
    (formed : ∀ content ∈ lines, LineFormed content) (kept : Kept state) (holds : text.Holds buffer (document lines))
    (enough : lines.length < turns) (first named : Bool) :
    ∃ final given, iniParseLoop answer text line turns buffer state = some final ∧
      answers answer final.calls = answers answer state.calls ++ given ∧
      final.result = returnedFrom state first named (lines.map stored) given := by
  induction lines generalizing buffer state turns first named with
  | nil =>
    obtain ⟨turns, rfl⟩ := Nat.exists_eq_succ_of_ne_zero (Nat.ne_of_gt enough)
    refine ⟨state, [], if_pos holds.1, (List.append_nil _).symm, ?_⟩
    unfold returnedFrom
    split
    next clear => exact clear
    next => rfl
  | cons content lines ih =>
    obtain ⟨turns, rfl⟩ := Nat.exists_eq_succ_of_ne_zero (Nat.ne_of_gt (Nat.zero_lt_of_lt enough))
    obtain ⟨next, after, given, behind, keptAfter, loop, calls, counts⟩ :=
      loop_next positive (formed content List.mem_cons_self) kept holds first named answer
    obtain ⟨final, more, ran, grown, result⟩ := ih (fun content member => formed content (List.mem_cons_of_mem _ member)) keptAfter
      behind (Nat.lt_of_succ_lt_succ enough) false ((meantKind first named (stored content)).keyed named)
    refine ⟨final, given ++ more, (loop turns).trans ran, ?_, ?_⟩
    · rw [grown, calls, List.append_assoc]
    · rw [result, List.map_cons, counts]

/-! ### The condition -/

def runOutcomes (lines : List (List (BitVec 8))) (given : List Int) : List LineOutcome :=
  outcomes true false true false (lines.map stored) given

theorem iniParse_returns (answer : List IniCall → Int) (positive : 0 < line)
    (formed : ∀ content ∈ lines, LineFormed content) (holds : text.Holds buffer (document lines)) (memory : Memory)
    (enough : lines.length < turns) :
    ∃ final, iniParse answer text buffer line memory turns = some final ∧
      final.result = returned 0 (runOutcomes lines (answers answer final.calls)) := by
  have kept : Kept ⟨memory, fun _ => 0, fun _ => 0, 0, 0, []⟩ := ⟨rfl, rfl⟩
  obtain ⟨final, given, ran, calls, result⟩ := loop_returns answer positive formed kept holds enough true false
  have whole : answers answer final.calls = given := calls
  exact ⟨final, ran, whole ▸ result⟩

theorem outcomes_counted (opened known first named : Bool) (lines : List (List (BitVec 8))) (given : List Int) :
    ∀ outcome ∈ outcomes opened known first named lines given, outcome.reported = true → outcome.empty = false := by
  induction lines generalizing opened known first named given with
  | nil => nofun
  | cons string lines ih =>
    rw [outcomes]
    simp only
    split
    · exact List.forall_mem_cons.mpr ⟨fun reports => (reported_iff.mp reports).elim nofun nofun, ih _ _ _ _ _⟩
    · split
      · exact List.forall_mem_cons.mpr ⟨fun _ => rfl, ih _ _ _ _ _⟩
      · exact List.forall_mem_cons.mpr ⟨fun _ => rfl, ih _ _ _ _ _⟩

theorem returned_none {list : List LineOutcome} (none : list.findIdx? (·.reported) = none) (count : Nat) :
    returned count list = 0 := by
  induction list generalizing count with
  | nil => rfl
  | cons outcome later ih =>
    rw [List.findIdx?_cons] at none
    split at none
    next => cases none
    next silent =>
      have rest := ih (Option.map_eq_none_iff.mp none)
      rw [returned, rest, rest, if_neg silent, ite_self]

/-- The number of a reported line lacks the empty lines in front of it. -/
theorem returned_some {list : List LineOutcome}
    (counted : ∀ outcome ∈ list, outcome.reported = true → outcome.empty = false) {i : Nat}
    (found : list.findIdx? (·.reported) = some i) (count : Nat) :
    returned count list + (list.take i).countP (·.empty) = count + i + 1 := by
  induction list generalizing count i with
  | nil => cases found
  | cons outcome later ih =>
    obtain ⟨here, behind⟩ := List.forall_mem_cons.mp counted
    rw [List.findIdx?_cons] at found
    split at found
    next reports =>
      cases found
      rw [returned, if_neg (by rw [here reports]; exact Bool.false_ne_true), if_pos reports]
      rfl
    next silent =>
      obtain ⟨j, later, rfl⟩ := Option.map_eq_some_iff.mp found
      rw [returned, if_neg silent, List.take_succ_cons, List.countP_cons]
      split
      next empty =>
        have number := ih behind later count
        omega
      next filled =>
        have number := ih behind later (count + 1)
        omega

/-- Nothing is wrong or reported, or the empty lines that are not counted make up for the lines by
which the report comes late. -/
def Meets (list : List LineOutcome) : Prop :=
  (∀ outcome ∈ list, outcome.wrong = false ∧ outcome.reported = false) ∨
    ∃ i j, list.findIdx? (·.wrong) = some i ∧ list.findIdx? (·.reported) = some j ∧ i + (list.take j).countP (·.empty) = j

theorem returned_firstWrong_iff {list : List LineOutcome}
    (counted : ∀ outcome ∈ list, outcome.reported = true → outcome.empty = false) :
    returned 0 list = firstWrong list ↔ Meets list := by
  unfold firstWrong Meets
  cases reports : list.findIdx? (·.reported) with
  | none =>
    have silent := List.findIdx?_eq_none_iff.mp reports
    rw [returned_none reports]
    cases wrongs : list.findIdx? (·.wrong) with
    | none =>
      have right := List.findIdx?_eq_none_iff.mp wrongs
      exact iff_of_true rfl (.inl fun outcome member => ⟨right outcome member, silent outcome member⟩)
    | some i =>
      refine iff_of_false (Nat.succ_ne_zero i).symm ?_
      rintro (quiet | ⟨_, _, _, late, _⟩)
      · rw [List.findIdx?_eq_none_iff.mpr fun outcome member => (quiet outcome member).1] at wrongs
        cases wrongs
      · cases late
  | some j =>
    have number := returned_some counted reports 0
    have noisy : ¬∀ outcome ∈ list, outcome.wrong = false ∧ outcome.reported = false := fun quiet => by
      rw [List.findIdx?_eq_none_iff.mpr fun outcome member => (quiet outcome member).2] at reports
      cases reports
    rw [or_iff_right noisy]
    cases wrongs : list.findIdx? (·.wrong) with
    | none =>
      have bound := (List.countP_le_length (p := (·.empty)) (l := list.take j)).trans (List.length_take_le j list)
      refine iff_of_false (fun same => ?_) ?_
      · rw [same] at number
        change 0 + _ = _ at number
        omega
      · rintro ⟨_, _, none, _⟩
        cases none
    | some i =>
      change returned 0 list = i + 1 ↔ _
      constructor
      · intro same
        exact ⟨i, j, rfl, rfl, by omega⟩
      · rintro ⟨_, _, first, second, late⟩
        cases first
        cases second
        omega

theorem ini_parse_result_iff (answer : List IniCall → Int) (positive : 0 < line)
    (formed : ∀ content ∈ lines, LineFormed content) (holds : text.Holds buffer (document lines)) (memory : Memory)
    (enough : lines.length < turns) :
    ∃ final, iniParse answer text buffer line memory turns = some final ∧
      (final.result = firstWrong (runOutcomes lines (answers answer final.calls)) ↔
        Meets (runOutcomes lines (answers answer final.calls))) := by
  obtain ⟨final, ran, result⟩ := iniParse_returns answer positive formed holds memory enough
  refine ⟨final, ran, ?_⟩
  rw [result]
  exact returned_firstWrong_iff (outcomes_counted _ _ _ _ _ _)

/-- `"abc"` is malformed, and it is the first line. -/
theorem ini_parse_result_iff_example : ∃ final,
    iniParse (fun _ => iniSuccess) (exampleMemory [0x61, 0x62, 0x63, 0x0A]) 16 4096 (fun _ => 0) 2 = some final ∧
      Meets (runOutcomes [[0x61, 0x62, 0x63]] (answers (fun _ => iniSuccess) final.calls)) ∧ final.result = 1 := by
  have formed : ∀ content ∈ ([[0x61, 0x62, 0x63]] : List (List (BitVec 8))), LineFormed content :=
    List.forall_mem_singleton.mpr ⟨by decide, by decide, by decide⟩
  have holds : (exampleMemory [0x61, 0x62, 0x63, 0x0A]).Holds 16 (document [[0x61, 0x62, 0x63]]) :=
    (exampleMemory_terminated (by decide) (by decide)).holds
  obtain ⟨final, ran, right⟩ :=
    ini_parse_result_iff (fun _ => iniSuccess) (show 0 < 4096 by decide) formed holds (fun _ => 0)
      (show [[0x61, 0x62, 0x63]].length < 2 by decide)
  have run : (iniParse (fun _ => iniSuccess) (exampleMemory [0x61, 0x62, 0x63, 0x0A]) 16 4096 (fun _ => 0) 2).map
      (fun final => answers (fun _ => iniSuccess) final.calls) = some [] := by decide +kernel
  rw [ran] at run
  have silent : answers (fun _ => iniSuccess) final.calls = [] := Option.some.inj run
  rw [silent] at right
  refine ⟨final, ran, ?_⟩
  rw [silent]
  have meets : Meets (runOutcomes [[0x61, 0x62, 0x63]] []) := .inr ⟨0, 0, by decide, by decide, by decide⟩
  have first : firstWrong (runOutcomes [[0x61, 0x62, 0x63]] []) = 1 := by decide
  exact ⟨meets, (right.mpr meets).trans first⟩

/-- The key of `"abc=d"` is served, and yet its line is reported. -/
theorem ini_parse_refuses : ¬∃ final,
    iniParse (fun _ => iniSuccess) (exampleMemory [0x61, 0x62, 0x63, 0x3D, 0x64, 0x0A]) 16 4096 (fun _ => 0) 2 =
      some final ∧
      final.result = firstWrong (runOutcomes [[0x61, 0x62, 0x63, 0x3D, 0x64]] (answers (fun _ => iniSuccess) final.calls)) := by
  rintro ⟨final, ran, result⟩
  have run : (iniParse (fun _ => iniSuccess) (exampleMemory [0x61, 0x62, 0x63, 0x3D, 0x64, 0x0A]) 16 4096 (fun _ => 0) 2).map
      (fun final => (final.result, answers (fun _ => iniSuccess) final.calls)) = some (1, [iniSuccess]) := by decide +kernel
  rw [ran] at run
  obtain ⟨number, given⟩ := Prod.mk.inj (Option.some.inj run)
  rw [number, given] at result
  exact absurd result (by decide +kernel)

end YuzuOS.Proofs.IniResult
