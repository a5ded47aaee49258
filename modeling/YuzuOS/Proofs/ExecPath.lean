import YuzuOS.Libc.Unistd
import YuzuOS.Proofs.Getenv

/-! What `execvpe` executes. It takes the first directory of a `PATH` that is not empty, and
never comes to the end of one that is empty or not set. -/

namespace YuzuOS.Proofs.ExecPath
open YuzuOS.Library YuzuOS.Libc YuzuOS.Proofs.IniLines

def isColon (byte : BitVec 8) : Bool := byte = 0x3A

def pathDirs (path : Option (List (BitVec 8))) : List (List (BitVec 8)) := path.elim [] (·.splitOnP isColon)

def candidate (file dir : List (BitVec 8)) : List (BitVec 8) := dir ++ 0x2F :: file

/-- The first candidate that `stat` finds is executed, and an error is returned without one. -/
def Chosen (stat : List (BitVec 8) → Int) (file : List (BitVec 8)) (argv envp : Nat) (dirs : List (List (BitVec 8)))
    (outcome : ExecvpeOutcome) : Prop :=
  match dirs.find? fun dir => 0 ≤ stat (candidate file dir) with
  | some dir => outcome = .execve (candidate file dir) argv envp
  | none => ∃ result < 0, outcome = .returned result

/-- What is asked for: a file name with a slash is executed as given. -/
def Right (stat : List (BitVec 8) → Int) (file : List (BitVec 8)) (argv envp : Nat) (path : Option (List (BitVec 8)))
    (outcome : ExecvpeOutcome) : Prop :=
  (0x2F ∈ file → outcome = .execve file argv envp) ∧ (0x2F ∉ file → Chosen stat file argv envp (pathDirs path) outcome)

variable {memory pathname : Memory} {stat : List (BitVec 8) → Int} {file path length argv envp turns : Nat}
  {text front rest : List (BitVec 8)} {dirs : List (List (BitVec 8))} {state : ExecvpeState}

theorem chosen_found {dir : List (BitVec 8)} (found : 0 ≤ stat (candidate text dir)) :
    Chosen stat text argv envp (dir :: dirs) (.execve (candidate text dir) argv envp) := by
  simp [Chosen, found]

theorem chosen_missing {dir : List (BitVec 8)} {outcome : ExecvpeOutcome} (missing : ¬0 ≤ stat (candidate text dir)) :
    Chosen stat text argv envp (dir :: dirs) outcome ↔ Chosen stat text argv envp dirs outcome := by
  simp only [Chosen, List.find?_cons, missing, decide_false]

theorem strcat_terminated {target : Memory} {s1 s2 : Nat} (first : Terminated target s1 front)
    (second : Terminated memory s2 text) (fits : (front ++ text).length < 2 ^ 32) :
    ∃ after, strcat target s1 memory s2 = some after ∧ Terminated after s1 (front ++ text) := by
  refine ⟨target.write (s1 + front.length) (text.length + 1) fun i => memory (s2 + i), ?_, ?_, ?_, fits⟩
  · rw [strcat, first.strlen, Option.bind_some, strcpy, second.strlen, Option.map_some]
  · rw [List.append_assoc, Memory.holds_append]
    constructor
    · exact (Memory.holds_append.mp first.holds).1.congr fun place _ upper => Memory.write_outside (.inl upper)
    · have behind := second.holds
      refine Memory.holds_of_get fun i bound => ?_
      rw [List.length_append, List.length_singleton] at bound
      rw [Memory.write_inside (by omega) (by omega), Nat.add_sub_cancel_left]
      exact behind.get (by simpa using bound)
  · rw [List.mem_append, not_or]
    exact ⟨first.nonzero, second.nonzero⟩

theorem cat_terminated {s : Nat} (first : Terminated pathname 0 front) (second : Terminated memory s text)
    (fits : (front ++ text).length < maxPathLen) :
    ∃ after, pathnameCat pathname memory s = some after ∧ Terminated after 0 (front ++ text) := by
  have small : (front ++ text).length < 2 ^ 32 := Nat.lt_trans fits (by decide)
  obtain ⟨after, ran, terminated⟩ := strcat_terminated first second small
  refine ⟨after, ?_, terminated⟩
  rw [List.length_append] at fits
  rw [pathnameCat, first.strlen, Option.bind_some, second.strlen, Option.bind_some, if_pos fits, ran]

theorem slash_terminated : Terminated slash 0 [0x2F] := ⟨⟨rfl, rfl, trivial⟩, by decide, by decide⟩

theorem complete_candidate (copied : pathname.Holds 0 front) (nonzero : 0 ∉ front) (named : Terminated memory file text)
    (fits : (candidate text front).length < maxPathLen) :
    ∃ after, execvpeComplete memory file pathname front.length = some after ∧
      Terminated after 0 (candidate text front) := by
  have whole : candidate text front = front ++ [0x2F] ++ text := (List.append_assoc front [0x2F] text).symm
  rw [whole] at fits ⊢
  simp only [List.length_append, List.length_singleton] at fits
  have inside : front.length < maxPathLen := by omega
  have cut : Terminated (pathname.store8 front.length 0) 0 front := by
    refine ⟨Memory.holds_append.mpr ⟨copied.congr fun place _ upper => ?_, ?_, trivial⟩, nonzero, Nat.lt_trans inside (by decide)⟩
    · exact Memory.write_outside (.inl (by omega))
    · exact Memory.write_inside (by omega) (by omega)
  obtain ⟨second, ran, separated⟩ := cat_terminated cut slash_terminated (by simp only [List.length_append, List.length_singleton]; omega)
  obtain ⟨third, completed, terminated⟩ := cat_terminated separated named (by simp only [List.length_append, List.length_singleton]; omega)
  refine ⟨third, ?_, terminated⟩
  rw [execvpeComplete, pathnamePut, if_pos inside, Option.bind_some, ran, Option.bind_some, completed]

theorem dirs_head (front rest : List (BitVec 8)) (plain : ∀ byte ∈ front, isColon byte = false) :
    ∃ dirs, (front ++ rest).splitOnP isColon = (front ++ rest.takeWhile fun byte => !isColon byte) :: dirs := by
  induction rest generalizing front with
  | nil => exact ⟨[], by rw [List.takeWhile_nil, List.append_nil, List.splitOnP_eq_singleton plain]⟩
  | cons byte rest ih =>
    cases colon : isColon byte with
    | true =>
      refine ⟨rest.splitOnP isColon, ?_⟩
      rw [List.splitOnP_append_cons front rest colon, List.splitOnP_eq_singleton plain, List.takeWhile_cons_of_neg (by simp [colon]),
        List.append_nil]
      rfl
    | false =>
      obtain ⟨dirs, split⟩ := ih (front ++ [byte]) (by simpa [or_imp, forall_and, colon] using plain)
      refine ⟨dirs, ?_⟩
      rw [List.takeWhile_cons_of_pos (by simp [colon])]
      simpa using split

theorem dirs_colon (plain : ∀ byte ∈ front, isColon byte = false) :
    (front ++ 0x3A :: rest).splitOnP isColon = front :: rest.splitOnP isColon := by
  rw [List.splitOnP_append_cons front rest (by decide), List.splitOnP_eq_singleton plain]
  rfl

theorem colon_turn (stat : List (BitVec 8) → Int) (colon : memory (path + state.i) = 0x3A)
    (copied : state.pathname.Holds 0 front) (start : state.pathStart = front.length) (nonzero : 0 ∉ front)
    (named : Terminated memory file text) (fits : (candidate text front).length < maxPathLen) :
    ∃ after, Terminated after 0 (candidate text front) ∧
      execvpeTurn memory stat file path state =
        some (⟨after, stat (candidate text front), state.i + 1, 0⟩, decide (0 ≤ stat (candidate text front))) := by
  obtain ⟨after, completed, terminated⟩ := complete_candidate copied nonzero named fits
  refine ⟨after, terminated, ?_⟩
  simp only [execvpeTurn, colon, if_true, start, completed, Option.bind_some, terminated.stringAt, Option.map_some]

theorem copy_turn {byte : BitVec 8} (stat : List (BitVec 8) → Int) (file : Nat)
    (here : memory (path + state.i) = byte) (other : byte ≠ 0x3A) (copied : state.pathname.Holds 0 front)
    (start : state.pathStart = front.length) (inside : front.length < maxPathLen) :
    ∃ after, after.Holds 0 (front ++ [byte]) ∧
      execvpeTurn memory stat file path state =
        some ({ state with pathname := after, i := state.i + 1, pathStart := front.length + 1 }, false) := by
  refine ⟨state.pathname.store8 front.length byte, ?_, ?_⟩
  · refine Memory.holds_append.mpr ⟨copied.congr fun place _ upper => ?_, ?_, trivial⟩
    · exact Memory.write_outside (.inl (by omega))
    · exact Memory.write_inside (by omega) (by omega)
  · simp only [execvpeTurn, here, if_neg other, start, pathnamePut, if_pos inside, Option.map_some]

/-- A directory of which a part is copied has room for the name of the file. -/
theorem front_fits (plain : ∀ byte ∈ front, isColon byte = false)
    (fits : ∀ dir ∈ (front ++ rest).splitOnP isColon, (candidate text dir).length < maxPathLen) :
    (candidate text front).length < maxPathLen := by
  obtain ⟨dirs, split⟩ := dirs_head front rest plain
  have first := fits _ (split ▸ List.mem_cons_self)
  simp only [candidate, List.length_append, List.length_cons] at first ⊢
  omega

/-- What the loop does behind the first part of a turn. -/
def goesOn (memory : Memory) (stat : List (BitVec 8) → Int) (file path length turns : Nat) (state : ExecvpeState) :
    Option ExecvpeState :=
  if state.i = length then
    (execvpeComplete memory file state.pathname state.pathStart).map fun pathname => { state with pathname }
  else execvpeLoop memory stat file path length turns state

/-- From any place of the list on, with a part of a directory copied, the search chooses among the directories left. -/
theorem loop_chooses (stat : List (BitVec 8) → Int) (argv envp : Nat) (front : List (BitVec 8)) (state : ExecvpeState)
    (named : Terminated memory file text) (holds : memory.Holds (path + state.i) rest)
    (left : length = state.i + rest.length) (copied : state.pathname.Holds 0 front)
    (start : state.pathStart = front.length) (plain : ∀ byte ∈ front, isColon byte = false)
    (nonzero : 0 ∉ front ++ rest)
    (fits : ∀ dir ∈ (front ++ rest).splitOnP isColon, (candidate text dir).length < maxPathLen)
    (enough : rest.length ≤ turns) :
    ∃ outcome, (goesOn memory stat file path length turns state).bind (execvpeFinish stat argv envp length) =
      some outcome ∧
      Chosen stat text argv envp ((front ++ rest).splitOnP isColon) outcome := by
  induction rest generalizing front state turns with
  | nil =>
    have fitsHere := front_fits plain fits
    rw [List.append_nil] at nonzero ⊢
    rw [List.length_nil, Nat.add_zero] at left
    obtain ⟨after, completed, terminated⟩ := complete_candidate copied nonzero named fitsHere
    rw [List.splitOnP_eq_singleton plain, goesOn, if_pos left.symm, start, completed, Option.map_some, Option.bind_some, execvpeFinish,
      if_pos left.symm, terminated.stringAt, Option.map_some]
    refine ⟨_, rfl, ?_⟩
    by_cases found : 0 ≤ stat (candidate text front)
    · simp only [if_pos found]
      exact chosen_found found
    · simp only [if_neg found]
      exact (chosen_missing found).mpr ⟨_, Int.not_le.mp found, rfl⟩
  | cons byte rest ih =>
    have fitsHere := front_fits plain fits
    simp only [List.mem_append, List.mem_cons, not_or] at nonzero
    obtain ⟨copyable, nonzeroByte, nonzeroRest⟩ := nonzero
    rw [List.length_cons] at left enough
    obtain ⟨turns, rfl⟩ := Nat.exists_eq_succ_of_ne_zero (Nat.ne_of_gt (Nat.lt_of_lt_of_le (Nat.zero_lt_succ _) enough))
    have more : state.i ≠ length := by omega
    rw [goesOn, if_neg more, execvpeLoop]
    by_cases colon : byte = 0x3A
    · subst colon
      obtain ⟨after, terminated, turn⟩ := colon_turn stat holds.1 copied start copyable named fitsHere
      rw [dirs_colon plain] at fits ⊢
      rw [turn, Option.bind_some]
      by_cases found : 0 ≤ stat (candidate text front)
      · refine ⟨.execve (candidate text front) argv envp, ?_, chosen_found found⟩
        have last : state.i + 1 = length ∨ state.i + 1 < length := by omega
        simp only [found, decide_true, if_true, Option.bind_some, execvpeFinish, terminated.stringAt, Option.map_some]
        cases last with
        | inl ends => rw [if_pos ends]
        | inr before => rw [if_neg (Nat.ne_of_lt before), if_pos ⟨before, trivial⟩]
      · obtain ⟨outcome, ran, chosen⟩ := ih [] ⟨after, stat (candidate text front), state.i + 1, 0⟩ holds.2
          (by simp only; omega) trivial rfl nofun (by simpa using nonzeroRest) (fun dir member => fits dir (List.mem_cons_of_mem _ member))
          (Nat.le_of_succ_le_succ enough)
        refine ⟨outcome, ?_, (chosen_missing found).mpr chosen⟩
        simp only [found, decide_false]
        exact ran
    · have inside : front.length < maxPathLen := by
        rw [candidate, List.length_append] at fitsHere
        omega
      obtain ⟨after, stored, turn⟩ := copy_turn stat file holds.1 colon copied start inside
      have whole : front ++ byte :: rest = front ++ [byte] ++ rest := (List.append_assoc front [byte] rest).symm
      have plainByte : ∀ other ∈ front ++ [byte], isColon other = false := by
        intro other member
        cases List.mem_append.mp member with
        | inl before => exact plain other before
        | inr last => rw [List.mem_singleton.mp last, isColon, decide_eq_false colon]
      have nonzeroHere : 0 ∉ front ++ [byte] ++ rest := by
        simp only [List.mem_append, List.mem_singleton, not_or]
        exact ⟨⟨copyable, nonzeroByte⟩, nonzeroRest⟩
      rw [whole] at fits ⊢
      rw [turn, Option.bind_some]
      exact ih (front ++ [byte]) { state with pathname := after, i := state.i + 1, pathStart := front.length + 1 } holds.2
        (by simp only; omega) stored (by simp) plainByte nonzeroHere fits (Nat.le_of_succ_le_succ enough)

theorem path_searched (stat : List (BitVec 8) → Int) (argv envp : Nat) (named : Terminated memory file text)
    (value : Terminated memory path rest) (nonempty : rest ≠ [])
    (fits : ∀ dir ∈ rest.splitOnP isColon, (candidate text dir).length < maxPathLen) :
    ∃ outcome, (execvpeLoop memory stat file path rest.length rest.length ⟨fun _ => 0, -1, 0, 0⟩).bind
        (execvpeFinish stat argv envp rest.length) = some outcome ∧
      Chosen stat text argv envp (rest.splitOnP isColon) outcome := by
  have more : ¬0 = rest.length := fun none => nonempty (List.eq_nil_of_length_eq_zero none.symm)
  have front := (Memory.holds_append.mp value.holds).1
  obtain ⟨outcome, ran, chosen⟩ := loop_chooses stat argv envp [] ⟨fun _ => 0, -1, 0, 0⟩ named front
    (Nat.zero_add _).symm trivial rfl nofun value.nonzero fits le_rfl
  rw [goesOn, if_neg more] at ran
  exact ⟨outcome, ran, chosen⟩

theorem turn_moves {next : ExecvpeState} {leaves : Bool}
    (turned : execvpeTurn memory stat file path state = some (next, leaves)) :
    next.i = state.i + 1 ∧ (leaves = true → 0 ≤ next.result) := by
  rw [execvpeTurn] at turned
  by_cases colon : memory (path + state.i) = 0x3A
  · rw [if_pos colon, Option.bind_eq_some_iff] at turned
    obtain ⟨pathname, -, turned⟩ := turned
    obtain ⟨name, -, same⟩ := Option.map_eq_some_iff.mp turned
    obtain ⟨rfl, rfl⟩ := Prod.mk.inj same
    exact ⟨rfl, of_decide_eq_true⟩
  · rw [if_neg colon] at turned
    obtain ⟨pathname, -, same⟩ := Option.map_eq_some_iff.mp turned
    obtain ⟨rfl, rfl⟩ := Prod.mk.inj same
    exact ⟨rfl, nofun⟩

/-- With a length of zero, the loop is only left at a colon behind the string. -/
theorem loop_overruns {after : ExecvpeState} (ran : execvpeLoop memory stat file path 0 turns state = some after) :
    0 < after.i ∧ 0 ≤ after.result := by
  induction turns generalizing state with
  | zero => cases ran
  | succ turns ih =>
    rw [execvpeLoop, Option.bind_eq_some_iff] at ran
    obtain ⟨⟨next, leaves⟩, turned, ran⟩ := ran
    have moved := turn_moves turned
    cases leaves with
    | true =>
      have same : next = after := Option.some.inj ran
      rw [← same]
      exact ⟨moved.1 ▸ Nat.succ_pos _, moved.2 rfl⟩
    | false =>
      have more : next.i ≠ 0 := moved.1 ▸ Nat.succ_ne_zero _
      simp only [Bool.false_eq_true, if_false, if_neg more] at ran
      exact ih ran

/-- `envpath` is a value of `PATH`, and null if there is none. -/
def PathAt (memory : Memory) (envpath : Nat) : Option (List (BitVec 8)) → Prop
  | none => envpath = 0
  | some path => envpath ≠ 0 ∧ Terminated memory envpath path

theorem slash_found (named : Terminated memory file text) :
    ((List.range text.length).any fun i => memory (file + i) = 0x2F) = true ↔ 0x2F ∈ text := by
  rw [List.any_eq_true]
  constructor
  · intro found
    obtain ⟨i, member, here⟩ := found
    have bound := List.mem_range.mp member
    rw [named.get bound, decide_eq_true_eq] at here
    exact here ▸ List.getElem_mem bound
  · intro member
    obtain ⟨i, bound, here⟩ := List.getElem_of_mem member
    exact ⟨i, List.mem_range.mpr bound, decide_eq_true ((named.get bound).trans here)⟩

theorem not_right_negative {outcome : ExecvpeOutcome} {result : Int} (returned : outcome = .returned result)
    (positive : 0 ≤ result) :
    ¬Chosen stat text argv envp dirs outcome := by
  intro chosen
  rw [Chosen, returned] at chosen
  split at chosen
  · cases chosen
  · obtain ⟨negative, below, same⟩ := chosen
    have equal := ExecvpeOutcome.returned.inj same
    omega

/-- Without a slash in the name, a value of `PATH` without characters is never searched right. -/
theorem empty_overruns {outcome : ExecvpeOutcome}
    (ran : (execvpeLoop memory stat file path 0 turns state).bind (execvpeFinish stat argv envp 0) = some outcome) :
    ¬Chosen stat text argv envp dirs outcome := by
  obtain ⟨after, looped, finished⟩ := Option.bind_eq_some_iff.mp ran
  obtain ⟨moved, positive⟩ := loop_overruns looped
  rw [execvpeFinish, if_neg (Nat.ne_of_gt moved), if_neg fun both => Nat.not_lt_zero _ both.1] at finished
  exact not_right_negative (Option.some.inj finished).symm positive

/-- `execvpe` ends and executes the right file, or returns an error without one, if and only if the name of the
file has a slash or `PATH` is set and not empty. -/
theorem execvpe_right_iff {environ name block envpath : Nat} {value : Option (List (BitVec 8))}
    (named : Terminated memory file text) (answered : getenv memory environ name = some envpath)
    (valued : PathAt memory envpath value) (fits : ∀ dir ∈ pathDirs value, (candidate text dir).length < maxPathLen) :
    (∃ turns outcome, execvpe memory stat environ name block file argv envp turns = some outcome ∧
      Right stat text argv envp value outcome) ↔ 0x2F ∈ text ∨ ∃ path, value = some path ∧ path ≠ [] := by
  by_cases slashed : 0x2F ∈ text
  · refine iff_of_true ⟨0, .execve text argv envp, ?_, ?_⟩ (.inl slashed)
    · rw [execvpe, named.strlen, Option.bind_some, if_pos ((slash_found named).mpr slashed), named.stringAt, Option.map_some]
    · exact ⟨fun _ => rfl, fun absent => absurd slashed absent⟩
  · have plain := fun found => slashed ((slash_found named).mp found)
    simp only [execvpe, named.strlen, Option.bind_some, if_neg plain, answered, Right, slashed, false_or, false_implies, not_false_eq_true,
      true_implies, true_and]
    cases value with
    | none =>
      have zero : memory.fill block maxPathLen 0 block = 0 := Memory.write_inside le_rfl (Nat.lt_add_of_pos_right (by decide))
      have empty : Terminated (memory.fill block maxPathLen 0) block [] := ⟨⟨zero, trivial⟩, nofun, by decide⟩
      refine iff_of_false (fun right => ?_) nofun
      obtain ⟨turns, outcome, ran, chosen⟩ := right
      have null : envpath = 0 := valued
      simp only [if_pos null, empty.strlen, Option.bind_some] at ran
      exact empty_overruns ran chosen
    | some path =>
      obtain ⟨set, terminated⟩ := valued
      simp only [if_neg set, terminated.strlen, Option.bind_some]
      by_cases empty : path = []
      · refine iff_of_false (fun right => ?_) fun right => ?_
        · obtain ⟨turns, outcome, ran, chosen⟩ := right
          rw [empty] at ran
          exact empty_overruns ran chosen
        · obtain ⟨other, same, nonempty⟩ := right
          exact nonempty ((Option.some.inj same).symm.trans empty)
      · refine iff_of_true ?_ ⟨path, rfl, empty⟩
        obtain ⟨outcome, ran, chosen⟩ := path_searched stat argv envp named terminated empty fits
        exact ⟨path.length, outcome, ran, chosen⟩

/-- `PATH` at 16, `sh` at 21 and one entry of the environment, which `getenv` takes for `PATH`. -/
def exampleProgram : Memory :=
  Getenv.exampleEnviron [0x50, 0x41, 0x54, 0x48, 0, 0x73, 0x68] ([0x50, 0x50, 0x50, 0x50] ++ 0x3D :: [0x2F, 0x62, 0x69, 0x6E])

theorem exampleProgram_path : Terminated exampleProgram 16 [0x50, 0x41, 0x54, 0x48] :=
  ⟨⟨rfl, rfl, rfl, rfl, rfl, trivial⟩, by decide, by decide⟩

theorem exampleProgram_file : Terminated exampleProgram 21 [0x73, 0x68] :=
  ⟨⟨rfl, rfl, rfl, trivial⟩, by decide, by decide⟩

theorem exampleProgram_value : PathAt exampleProgram 133 (some [0x2F, 0x62, 0x69, 0x6E]) :=
  ⟨by decide, ⟨rfl, rfl, rfl, rfl, rfl, trivial⟩, by decide, by decide⟩

theorem exampleProgram_set : getenv exampleProgram 64 16 = some 133 := by
  have whole : Getenv.Environ exampleProgram 64 [.setting 128 [0x50, 0x50, 0x50, 0x50] [0x2F, 0x62, 0x69, 0x6E]] :=
    Getenv.exampleEnviron_environ _ _ _ (by decide) (by decide) (by decide)
  have valid := (Getenv.name_checked 64 [] exampleProgram_path (by decide) (by decide)).1
  have count := (whole.counted 16 []).1
  have word : exampleProgram.load32 (64 + 4 * 0) = 128 := whole.words.1
  have turn := (Getenv.setting_turn exampleProgram_path (whole.stands _ List.mem_cons_self) word (fun _ => Nat.zero_le _) 0).1
  rw [getenv, valid, Option.bind_some, if_pos rfl, count, Option.bind_some]
  refine turn.trans ?_
  decide

theorem exampleProgram_unset : getenv exampleProgram 0 16 = some 0 := by
  have valid := (Getenv.name_checked 0 [] exampleProgram_path (by decide) (by decide)).1
  rw [getenv, valid, Option.bind_some, if_pos rfl, pointersArrayCount, if_pos rfl, Option.bind_some, getenvLoop]

/-- A path of one directory. -/
theorem execvpe_right_iff_example : ∃ turns outcome,
    execvpe exampleProgram (fun _ => 0) 64 16 0 21 0 0 turns = some outcome ∧
      Right (fun _ => 0) [0x73, 0x68] 0 0 (some [0x2F, 0x62, 0x69, 0x6E]) outcome :=
  (execvpe_right_iff exampleProgram_file exampleProgram_set exampleProgram_value (by decide)).mpr (.inr ⟨_, rfl, by decide⟩)

/-- Without `PATH` the search for `sh` never returns an error. -/
theorem execvpe_overruns_unset : ¬∀ (memory : Memory) (stat : List (BitVec 8) → Int)
    (environ name block envpath file argv envp : Nat) (text : List (BitVec 8)) (value : Option (List (BitVec 8))),
    Terminated memory file text → getenv memory environ name = some envpath → PathAt memory envpath value →
    (∀ dir ∈ pathDirs value, (candidate text dir).length < maxPathLen) →
    ∃ turns outcome, execvpe memory stat environ name block file argv envp turns = some outcome ∧
      Right stat text argv envp value outcome := by
  intro right
  obtain ⟨turns, outcome, ran, chosen⟩ :=
    right exampleProgram (fun _ => -2) 0 16 4096 0 21 0 0 _ none exampleProgram_file exampleProgram_unset rfl nofun
  have absent : 0x2F ∉ [0x73, (0x68 : BitVec 8)] := by decide
  have plain := fun found => absent ((slash_found exampleProgram_file).mp found)
  have zero : exampleProgram.fill 4096 maxPathLen 0 4096 = 0 := Memory.write_inside le_rfl (by decide)
  have empty : Terminated (exampleProgram.fill 4096 maxPathLen 0) 4096 [] := ⟨⟨zero, trivial⟩, nofun, by decide⟩
  rw [execvpe, exampleProgram_file.strlen, Option.bind_some, if_neg plain, exampleProgram_unset, Option.bind_some] at ran
  simp only [if_true, empty.strlen, Option.bind_some] at ran
  exact empty_overruns ran (chosen.2 absent)

end YuzuOS.Proofs.ExecPath
