import Mathlib.Algebra.Ring.Nat
import Mathlib.Data.List.Forall2
import YuzuOS.Library.Run

/-! Processes that take turns in any order. A turn puts new processes in the place of one of them. -/

namespace YuzuOS.Library

variable {π : Type u} {γ : Type v}

/-- The process at `i` takes its turn. -/
def interleave (turn : π → Option (List π)) (processes : List π) (i : Nat) : Option (List π) :=
  processes[i]?.bind fun process => (turn process).map fun made => processes.take i ++ made ++ processes.drop (i + 1)

/-- One of the processes is replaced as its kind allows. -/
def Replaces (splits : γ → List γ → Prop) (before after : List γ) : Prop :=
  ∃ first kind rest made, before = first ++ kind :: rest ∧ splits kind made ∧ after = first ++ made ++ rest

variable {turn : π → Option (List π)} {splits : γ → List γ → Prop} {related : π → γ → Prop}
  {processes next final : List π} {kinds before after : List γ} {i : Nat}

theorem interleave_some : interleave turn processes i = some next ↔
    ∃ first process rest made, processes = first ++ process :: rest ∧ first.length = i ∧ turn process = some made ∧
      next = first ++ made ++ rest := by
  constructor
  · intro stepped
    obtain ⟨process, found, later⟩ := Option.bind_eq_some_iff.mp stepped
    obtain ⟨made, turned, rfl⟩ := Option.map_eq_some_iff.mp later
    obtain ⟨inside, same⟩ := List.getElem?_eq_some_iff.mp found
    refine ⟨processes.take i, process, processes.drop (i + 1), made, ?_, ?_, turned, rfl⟩
    · rw [← same, List.getElem_cons_drop, List.take_append_drop]
    · exact List.length_take_of_le (Nat.le_of_lt inside)
  · rintro ⟨first, process, rest, made, rfl, rfl, turned, rfl⟩
    simp [interleave, turned]

/-- A process that can take a turn can take it whatever the others do. -/
theorem interleave_isSome {process : π} (found : processes[i]? = some process) :
    (interleave turn processes i).isSome = (turn process).isSome := by
  simp [interleave, found]

theorem related_split {first rest : List π} {process : π}
    (together : List.Forall₂ related (first ++ process :: rest) kinds) :
    ∃ firsts kind others, kinds = firsts ++ kind :: others ∧ List.Forall₂ related first firsts ∧ related process kind ∧
      List.Forall₂ related rest others := by
  induction first generalizing kinds with
  | nil =>
    obtain ⟨kind, others, one, more, rfl⟩ := List.forall₂_cons_left_iff.mp together
    exact ⟨[], kind, others, rfl, .nil, one, more⟩
  | cons head first ih =>
    obtain ⟨headKind, tail, one, more, rfl⟩ := List.forall₂_cons_left_iff.mp together
    obtain ⟨firsts, kind, others, rfl, before, here, behind⟩ := ih more
    exact ⟨headKind :: firsts, kind, others, rfl, .cons one before, here, behind⟩

/-- Processes and their kinds go together. -/
theorem interleave_related
    (follows : ∀ process kind made, related process kind → turn process = some made →
      ∃ kinds, splits kind kinds ∧ List.Forall₂ related made kinds)
    (together : List.Forall₂ related processes kinds) (stepped : interleave turn processes i = some next) :
    ∃ after, Replaces splits kinds after ∧ List.Forall₂ related next after := by
  obtain ⟨first, process, rest, made, rfl, -, turned, rfl⟩ := interleave_some.mp stepped
  obtain ⟨firsts, kind, others, rfl, before, here, behind⟩ := related_split together
  obtain ⟨kinds, split, follow⟩ := follows process kind made here turned
  exact ⟨_, ⟨firsts, kind, others, kinds, rfl, split, rfl⟩, List.rel_append (List.rel_append before follow) behind⟩

/-- What a split keeps of one kind, a replacement keeps of the whole. -/
theorem Replaces.sum_eq {weight : γ → Nat} (keeps : ∀ kind made, splits kind made → (made.map weight).sum = weight kind)
    (replaces : Replaces splits before after) : (after.map weight).sum = (before.map weight).sum := by
  obtain ⟨first, kind, rest, made, rfl, split, rfl⟩ := replaces
  simp only [List.map_append, List.map_cons, List.sum_append, List.sum_cons, keeps kind made split]
  omega

theorem Replaces.sum_lt {weight : γ → Nat} (falls : ∀ kind made, splits kind made → (made.map weight).sum < weight kind)
    (replaces : Replaces splits before after) : (after.map weight).sum < (before.map weight).sum := by
  obtain ⟨first, kind, rest, made, rfl, split, rfl⟩ := replaces
  have less := falls kind made split
  simp only [List.map_append, List.map_cons, List.sum_append, List.sum_cons]
  omega

/-- A weight that every split keeps is kept by every run, and one that every split lowers bounds its length. -/
theorem run_interleave
    (follows : ∀ process kind made, related process kind → turn process = some made →
      ∃ kinds, splits kind kinds ∧ List.Forall₂ related made kinds)
    {rank : γ → Nat} (falls : ∀ kind made, splits kind made → (made.map rank).sum < rank kind)
    (together : List.Forall₂ related processes kinds) {schedule : List Nat}
    (ran : run (interleave turn) processes schedule = some final) :
    ∃ after, List.Forall₂ related final after ∧ schedule.length + (after.map rank).sum ≤ (kinds.map rank).sum ∧
      ∀ weight : γ → Nat, (∀ kind made, splits kind made → (made.map weight).sum = weight kind) →
        (after.map weight).sum = (kinds.map weight).sum := by
  induction schedule generalizing processes kinds with
  | nil =>
    cases ran
    exact ⟨kinds, together, by simp, fun _ _ => rfl⟩
  | cons i schedule ih =>
    obtain ⟨next, stepped, ran⟩ := run_cons.mp ran
    obtain ⟨middle, replaced, follow⟩ := interleave_related follows together stepped
    obtain ⟨after, ended, bound, kept⟩ := ih follow ran
    have less := replaced.sum_lt falls
    refine ⟨after, ended, ?_, fun weight keeps => (kept weight keeps).trans (replaced.sum_eq keeps)⟩
    rw [List.length_cons]
    omega

end YuzuOS.Library
