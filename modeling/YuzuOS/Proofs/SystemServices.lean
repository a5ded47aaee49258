import YuzuOS.Proofs.IniRoundTrip
import YuzuOS.Services.System

/-! What comes of a configuration file, in any order of the processes that the service becomes. -/

namespace YuzuOS.Proofs.SystemServices
open YuzuOS.Library YuzuOS.Core YuzuOS.Services IniLines IniRoundTrip

/-- A process by the values that it has not come to yet, in a text with so many bytes left. -/
inductive Service
  | pending (left : Nat) (values : List (List (BitVec 8)))
  | launching (path : List (BitVec 8))
  | running (path : List (BitVec 8))
  | waiting

inductive Splits : Service → List Service → Prop
  | line {left rest values} (less : rest < left) : Splits (.pending left values) [.pending rest values]
  | key {left rest value values} (less : rest < left) :
      Splits (.pending left (value :: values)) [.pending rest values, .launching value]
  | done {left} : Splits (.pending left []) [.waiting]
  | started {value} : Splits (.launching value) [.running value]

variable {starts : List (BitVec 8) → Bool} {path value : List (BitVec 8)} {values : List (List (BitVec 8))}
  {kind : Service} {made : List Service} {text memory : Memory} {line buffer : Nat} {state : IniState}
  {current : List (BitVec 8)}

namespace Service

def rank : Service → Nat
  | .pending left _ => 2 * left + 1
  | .launching _ => 1
  | .running _ => 0
  | .waiting => 0

def runners (path : List (BitVec 8)) : Service → Nat
  | .pending _ values => values.count path
  | .launching other => if other = path then 1 else 0
  | .running other => if other = path then 1 else 0
  | .waiting => 0

def waiters : Service → Nat
  | .pending _ _ => 1
  | .launching _ => 0
  | .running _ => 0
  | .waiting => 1

end Service

theorem Splits.rank_lt (splits : Splits kind made) : (made.map Service.rank).sum < kind.rank := by
  cases splits with
  | line less =>
    simp only [List.map_cons, List.map_nil, List.sum_cons, List.sum_nil, Service.rank]
    omega
  | key less =>
    simp only [List.map_cons, List.map_nil, List.sum_cons, List.sum_nil, Service.rank]
    omega
  | done => simp [Service.rank]
  | started => simp [Service.rank]

theorem Splits.runners_eq (path : List (BitVec 8)) (splits : Splits kind made) :
    (made.map (Service.runners path)).sum = kind.runners path := by
  cases splits with
  | line => simp [Service.runners]
  | @key _ _ value _ => simp [Service.runners, List.count_cons]
  | done => simp [Service.runners]
  | started => simp [Service.runners]

theorem Splits.waiters_eq (splits : Splits kind made) : (made.map Service.waiters).sum = kind.waiters := by
  cases splits with
  | line => rfl
  | key => rfl
  | done => rfl
  | started => rfl

/-! ### Processes in a text -/

structure Rest (text : Memory) (buffer : Nat) (state : IniState) (left : Nat) (values : List (List (BitVec 8)))
    (current : List (BitVec 8)) (items : List PhysicalLine) : Prop where
  formed : ∀ physical ∈ items, physical.Formed
  inside : Inside state current
  holds : text.Holds buffer (items.flatMap PhysicalLine.bytes ++ [0])
  left : (items.flatMap PhysicalLine.bytes).length = left
  values : (expected current (items.map PhysicalLine.line)).map IniCall.value = values

inductive Follows (text : Memory) : SystemProcess → Service → Prop
  | parsing {place : Nat} {parser : IniState} {left : Nat} {rest : List (List (BitVec 8))} {heading : List (BitVec 8)}
      {items : List PhysicalLine} (behind : Rest text place parser left rest heading items) :
      Follows text (.parsing place parser) (.pending left rest)
  | launching {program : List (BitVec 8)} : Follows text (.launching program) (.launching program)
  | running {program : List (BitVec 8)} : Follows text (.running program) (.running program)
  | waiting : Follows text .waiting .waiting

theorem line_starts {item : IniLine} {crlf : Bool} (formed : item.Formed)
    (holds : text.Holds buffer (item.content ++ lineEnd crlf)) : text buffer ≠ 0 := by
  cases shape : item.content with
  | nil =>
    rw [shape] at holds
    cases crlf with
    | false => exact holds.1 ▸ by decide
    | true => exact holds.1 ▸ by decide
  | cons byte rest =>
    rw [shape] at holds
    exact holds.1 ▸ (content_bytes formed (shape ▸ List.mem_cons_self)).1

/-- A line has one call at most, so the last one shows whether it had one. -/
theorem handlerCall_line {item : IniLine} {after : IniState}
    (calls : after.calls = (item.calls current).reverse ++ state.calls) :
    handlerCall state after = (item.calls current).head? := by
  have silent (same : after.calls = state.calls) : handlerCall state after = none := by
    rw [handlerCall, same, if_neg (Nat.lt_irrefl _)]
  cases item with
  | entry key value =>
    have more : after.calls = ⟨current, key, value⟩ :: state.calls := calls
    rw [handlerCall, more, List.length_cons, if_pos (Nat.lt_succ_self _)]
    rfl
  | blank spaces => exact silent calls
  | comment mark remark => exact silent calls
  | heading name => exact silent calls

theorem parsing_turn (starts : List (BitVec 8) → Bool) {item : IniLine} {crlf : Bool} (inside : Inside state current)
    (formed : item.Formed) (short : item.content.length < iniLineMax) (room : 2 ≤ line)
    (holds : text.Holds buffer (item.content ++ lineEnd crlf)) :
    ∃ next after, systemTurn starts text line (.parsing buffer state) =
        some (match item.calls current with
          | [] => [.parsing next after]
          | call :: _ => systemIniHandler call next after) ∧
      Inside after (item.current current) ∧
      (next = buffer + item.content.length + (lineEnd crlf).length ∨
        next = buffer + item.content.length + 1 ∧ text.Holds next [0x0A] ∧ crlf = true) := by
  obtain ⟨next, memory, fetched, filled, onward⟩ := IniDocument.iniLineGet_eq line state.memory holds
    (fun feed => (content_bytes formed feed).2 rfl) short
  have terminated : Terminated memory line (stored item.content) := by
    refine ⟨filled, fun zero => (content_bytes formed (List.mem_filter.mp zero).1).1 rfl, ?_⟩
    have few := stored_length item.content
    unfold iniLineMax at short
    omega
  obtain ⟨after, ran, kept, calls⟩ := served_line (fun _ => iniSuccess) { state with memory }
    ⟨inside.terminated, inside.last⟩ formed room terminated
  have called : handlerCall state after = (item.calls current).head? := handlerCall_line calls
  refine ⟨next, after, ?_, kept, onward⟩
  rw [systemTurn, if_neg (line_starts formed holds), fetched]
  simp only [ran, Option.map_some]
  rw [called]
  cases item.calls current with
  | nil => rfl
  | cons call rest => rfl

/-- The rest behind the line. A line feed that did not fit is an empty line of its own. -/
theorem Rest.advance {left next : Nat} {physical : PhysicalLine} {items : List PhysicalLine} {after : IniState}
    (rest : Rest text buffer state left values current (physical :: items))
    (inside : Inside after (physical.line.current current))
    (onward : next = buffer + physical.line.content.length + (lineEnd physical.crlf).length ∨
      next = buffer + physical.line.content.length + 1 ∧ text.Holds next [0x0A] ∧ physical.crlf = true) :
    ∃ fewer later items, fewer < left ∧ values = (physical.line.calls current).map IniCall.value ++ later ∧
      Rest text next after fewer later (physical.line.current current) items := by
  have formed : ∀ other ∈ items, other.Formed := fun other member => rest.formed other (List.mem_cons_of_mem _ member)
  have left_eq := rest.left
  have holds := rest.holds
  have ends : 1 ≤ (lineEnd physical.crlf).length := by cases physical.crlf <;> decide
  have size : physical.bytes.length = physical.line.content.length + (lineEnd physical.crlf).length :=
    List.length_append
  rw [List.flatMap_cons, List.length_append, size] at left_eq
  rw [List.flatMap_cons, List.append_assoc] at holds
  obtain ⟨-, remaining⟩ := Memory.holds_append.mp holds
  rw [size, ← Nat.add_assoc] at remaining
  have calls : values = (physical.line.calls current).map IniCall.value ++
      (expected (physical.line.current current) (items.map PhysicalLine.line)).map IniCall.value := by
    rw [← rest.values, List.map_cons, expected_cons, List.map_append]
  rcases onward with rfl | ⟨rfl, feed, crlf⟩
  · exact ⟨_, _, items, by omega, calls, formed, inside, remaining, rfl, rfl⟩
  · have two : (lineEnd true).length = 2 := rfl
    rw [crlf, two] at left_eq remaining
    have blank : (PhysicalLine.mk (.blank []) false).Formed :=
      ⟨fun _ member => absurd member List.not_mem_nil, by decide⟩
    have kept : ∀ other ∈ PhysicalLine.mk (.blank []) false :: items, other.Formed := by
      intro other member
      rcases List.mem_cons.mp member with rfl | old
      · exact blank
      · exact formed other old
    refine ⟨_, _, ⟨.blank [], false⟩ :: items, ?_, calls, kept, inside, ?_, rfl, rfl⟩
    · rw [List.flatMap_cons, List.length_append]
      change 1 + _ < _
      omega
    · rw [List.flatMap_cons, List.append_assoc]
      exact Memory.holds_append.mpr ⟨feed, remaining⟩

theorem calls_one (current : List (BitVec 8)) (item : IniLine) :
    item.calls current = [] ∨ ∃ call, item.calls current = [call] := by
  cases item with
  | entry key value => exact .inr ⟨⟨current, key, value⟩, rfl⟩
  | blank spaces => exact .inl rfl
  | comment mark remark => exact .inl rfl
  | heading name => exact .inl rfl

theorem follows_turn (room : 2 ≤ line) {process : SystemProcess} {next : List SystemProcess}
    (follows : Follows text process kind) (turned : systemTurn starts text line process = some next) :
    ∃ kinds, Splits kind kinds ∧ List.Forall₂ (Follows text) next kinds := by
  cases follows with
  | @parsing place parser left rest heading items behind =>
    cases items with
    | nil =>
      have ended : text place = 0 := behind.holds.1
      have empty : rest = [] := behind.values.symm
      rw [systemTurn, if_pos ended] at turned
      cases turned
      rw [empty]
      exact ⟨_, .done, .cons .waiting .nil⟩
    | cons physical items =>
      have here := behind.formed physical List.mem_cons_self
      have holds := behind.holds
      rw [List.flatMap_cons, List.append_assoc] at holds
      obtain ⟨first, -⟩ := Memory.holds_append.mp holds
      obtain ⟨onto, after, ran, inside, onward⟩ := parsing_turn starts behind.inside here.line here.short room first
      obtain ⟨fewer, later, items, less, values, following⟩ := behind.advance inside onward
      rw [ran] at turned
      cases turned
      rw [values]
      rcases calls_one heading physical.line with silent | ⟨call, single⟩
      · rw [silent]
        exact ⟨_, .line less, .cons (.parsing following) .nil⟩
      · rw [single]
        exact ⟨_, .key less, .cons (.parsing following) (.cons .launching .nil)⟩
  | launching =>
    rw [systemTurn] at turned
    split at turned
    next =>
      cases turned
      exact ⟨_, .started, .cons .running .nil⟩
    next => cases turned
  | running => cases turned
  | waiting => cases turned

/-- A process that has a turn to take can take it, when its program can be loaded. -/
theorem busy_turns (room : 2 ≤ line) {process : SystemProcess} (follows : Follows text process kind)
    (loads : ∀ path, 0 < kind.runners path → starts path = true) (busy : process.Busy) :
    (systemTurn starts text line process).isSome = true := by
  cases follows with
  | @parsing place parser left rest heading items behind =>
    cases items with
    | nil =>
      have ended : text place = 0 := behind.holds.1
      rw [systemTurn, if_pos ended]
      rfl
    | cons physical items =>
      have here := behind.formed physical List.mem_cons_self
      have holds := behind.holds
      rw [List.flatMap_cons, List.append_assoc] at holds
      obtain ⟨first, -⟩ := Memory.holds_append.mp holds
      obtain ⟨onto, after, ran, -, -⟩ := parsing_turn starts behind.inside here.line here.short room first
      rw [ran]
      rfl
  | @launching program =>
    have loaded : starts program = true := loads program (by simp [Service.runners])
    rw [systemTurn, if_pos loaded]
    rfl
  | running => exact absurd busy id
  | waiting => exact absurd busy id

/-- Processes without a turn are what their kinds say. -/
theorem counted (path : List (BitVec 8)) {processes : List SystemProcess} {kinds : List Service}
    (together : List.Forall₂ (Follows text) processes kinds) (done : ∀ process ∈ processes, ¬process.Busy) :
    processes.countP (·.runs path) = (kinds.map (Service.runners path)).sum ∧
      processes.countP (·.waits) = (kinds.map Service.waiters).sum := by
  induction together with
  | nil => exact ⟨rfl, rfl⟩
  | @cons process kind processes kinds follows together ih =>
    have idle := done process List.mem_cons_self
    obtain ⟨runs, waits⟩ := ih fun other member => done other (List.mem_cons_of_mem _ member)
    cases follows with
    | parsing behind => exact absurd trivial idle
    | launching => exact absurd trivial idle
    | @running program =>
      rw [List.countP_cons, List.countP_cons, runs, waits]
      by_cases same : program = path
      · have turned : path = program := same.symm
        simp [SystemProcess.runs, SystemProcess.waits, Service.runners, Service.waiters, same, Nat.add_comm]
      · have turned : ¬path = program := fun equal => same equal.symm
        simp [SystemProcess.runs, SystemProcess.waits, Service.runners, Service.waiters, same, turned]
    | waiting =>
      rw [List.countP_cons, List.countP_cons, runs, waits]
      simp [SystemProcess.runs, SystemProcess.waits, Service.runners, Service.waiters, Nat.add_comm]

def fileValues (lines : List PhysicalLine) : List (List (BitVec 8)) :=
  (expected [] (lines.map PhysicalLine.line)).map IniCall.value

/-- A section with the programs `a` and `b`. -/
def serviceFile : List PhysicalLine :=
  [⟨.heading [0x77], false⟩, ⟨.entry [0x6B] [0x61], false⟩, ⟨.entry [0x6B] [0x62], true⟩]

theorem serviceFile_formed : ∀ physical ∈ serviceFile, physical.Formed := by
  intro physical member
  have key : Name [0x6B] := ⟨by decide, by decide, by simp [NameChar, Printable]⟩
  simp only [serviceFile, List.mem_cons, List.not_mem_nil, or_false] at member
  rcases member with rfl | rfl | rfl
  · exact ⟨⟨by decide, by decide, by simp [NameChar, Printable]⟩, by decide⟩
  · exact ⟨⟨key, by simp [Printable], by decide, by decide, by decide⟩, by decide⟩
  · exact ⟨⟨key, by simp [Printable], by decide, by decide, by decide⟩, by decide⟩

def serviceText : Memory := fun place => (serviceFile.flatMap PhysicalLine.bytes ++ [0]).getD place 0

end YuzuOS.Proofs.SystemServices
