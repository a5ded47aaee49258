import Mathlib.Data.List.Basic

/-! Runs of a partial step function. A step that gives `none` does not return,
so no state follows it. Invariants are proved for one step and lifted here. -/

namespace YuzuOS.Library

variable {σ : Type u} {α : Type v}

def run (step : σ → α → Option σ) : σ → List α → Option σ
  | state, [] => some state
  | state, action :: rest => (step state action).bind fun next => run step next rest

/-- Every step of the run meets the condition in the state it starts from. -/
def Meets (step : σ → α → Option σ) (condition : σ → α → Prop) : σ → List α → Prop
  | _, [] => True
  | state, action :: rest => condition state action ∧
      ∀ next, step state action = some next → Meets step condition next rest

variable {step : σ → α → Option σ} {condition : σ → α → Prop}

instance Meets.decidable [∀ state action, Decidable (condition state action)] :
    ∀ (state : σ) (actions : List α), Decidable (Meets step condition state actions)
  | _, [] => isTrue trivial
  | state, action :: rest =>
    match inferInstanceAs (Decidable (condition state action)), stepped : step state action with
    | isFalse fails, _ => isFalse fun met => fails met.1
    | isTrue holds, none => isTrue ⟨holds, fun _ same => by rw [stepped] at same; cases same⟩
    | isTrue holds, some next =>
      match Meets.decidable next rest with
      | isTrue later => isTrue ⟨holds, fun other same => by rw [stepped] at same; cases same; exact later⟩
      | isFalse fails => isFalse fun met => fails (met.2 next stepped)

@[simp] theorem run_nil (state : σ) : run step state [] = some state := rfl

theorem run_cons {state final : σ} {action : α} {rest : List α} :
    run step state (action :: rest) = some final ↔
      ∃ next, step state action = some next ∧ run step next rest = some final := by
  simp only [run, Option.bind_eq_some_iff]

theorem run_append {state final : σ} {first rest : List α} :
    run step state (first ++ rest) = some final ↔
      ∃ middle, run step state first = some middle ∧ run step middle rest = some final := by
  induction first generalizing state with
  | nil => simp
  | cons action first ih =>
    rw [List.cons_append, run_cons]
    constructor
    · rintro ⟨next, stepped, ran⟩
      obtain ⟨middle, before, after⟩ := ih.mp ran
      exact ⟨middle, run_cons.mpr ⟨next, stepped, before⟩, after⟩
    · rintro ⟨middle, before, after⟩
      obtain ⟨next, stepped, before⟩ := run_cons.mp before
      exact ⟨next, stepped, ih.mpr ⟨middle, before, after⟩⟩

theorem meets_append {state middle : σ} {first rest : List α}
    (met : Meets step condition state (first ++ rest)) (ran : run step state first = some middle) :
    Meets step condition state first ∧ Meets step condition middle rest := by
  induction first generalizing state with
  | nil =>
    cases ran
    exact ⟨trivial, met⟩
  | cons action first ih =>
    obtain ⟨next, stepped, ran⟩ := run_cons.mp ran
    have later := ih (met.2 next stepped) ran
    refine ⟨⟨met.1, fun other same => ?_⟩, later.2⟩
    rw [stepped] at same
    cases same
    exact later.1

/-- What one guarded step preserves, a whole guarded run preserves. -/
theorem run_invariant (invariant : σ → Prop) {state final : σ} {actions : List α}
    (preserved : ∀ before action after, invariant before → condition before action →
      step before action = some after → invariant after)
    (holds : invariant state) (met : Meets step condition state actions)
    (ran : run step state actions = some final) : invariant final := by
  induction actions generalizing state with
  | nil => cases ran; exact holds
  | cons action rest ih =>
    obtain ⟨next, stepped, ran⟩ := run_cons.mp ran
    exact ih (preserved _ _ _ holds met.1 stepped) (met.2 next stepped) ran

/-- Steps that return under the condition make runs that return. -/
theorem run_returns (invariant : σ → Prop) {state : σ} {actions : List α}
    (returns : ∀ before action, invariant before → condition before action →
      ∃ after, step before action = some after ∧ invariant after)
    (holds : invariant state) (met : Meets step condition state actions) :
    ∃ final, run step state actions = some final ∧ invariant final := by
  induction actions generalizing state with
  | nil => exact ⟨state, rfl, holds⟩
  | cons action rest ih =>
    obtain ⟨next, stepped, kept⟩ := returns state action holds met.1
    obtain ⟨final, ran, ended⟩ := ih kept (met.2 next stepped)
    exact ⟨final, run_cons.mpr ⟨next, stepped, ran⟩, ended⟩

/-- A condition on the actions alone can be added. -/
theorem Meets.append {state : σ} {first rest : List α} (met : Meets step condition state first)
    (later : ∀ middle, run step state first = some middle → Meets step condition middle rest) :
    Meets step condition state (first ++ rest) := by
  induction first generalizing state with
  | nil => exact later state rfl
  | cons action first ih =>
    exact ⟨met.1, fun next stepped => ih (met.2 next stepped) fun middle ran =>
      later middle (run_cons.mpr ⟨next, stepped, ran⟩)⟩

theorem Meets.and {state : σ} {actions : List α} {allowed : α → Prop} (met : Meets step condition state actions)
    (every : ∀ action ∈ actions, allowed action) :
    Meets step (fun state action => condition state action ∧ allowed action) state actions := by
  induction actions generalizing state with
  | nil => trivial
  | cons action rest ih =>
    refine ⟨⟨met.1, every action List.mem_cons_self⟩, fun next stepped => ih (met.2 next stepped) ?_⟩
    exact fun other member => every other (List.mem_cons_of_mem _ member)

theorem meets_of_mem {actions : List α} (every : ∀ action ∈ actions, ∀ state, condition state action) (state : σ) :
    Meets step condition state actions := by
  induction actions generalizing state with
  | nil => trivial
  | cons action rest ih =>
    exact ⟨every action List.mem_cons_self state,
      fun next _ => ih (fun other member => every other (List.mem_cons_of_mem _ member)) next⟩

theorem meets_of_forall (always : ∀ state action, condition state action) (state : σ)
    (actions : List α) : Meets step condition state actions :=
  meets_of_mem (fun action _ state => always state action) state

/-- A step invariant that needs no guard holds after every run. -/
theorem run_always (invariant : σ → Prop) {state final : σ} {actions : List α}
    (preserved : ∀ before action after, invariant before → step before action = some after → invariant after)
    (holds : invariant state) (ran : run step state actions = some final) : invariant final := by
  have met : Meets step (fun _ _ => True) state actions := meets_of_forall (fun _ _ => trivial) state actions
  exact run_invariant invariant (fun before action after kept _ => preserved before action after kept) holds met ran

/-- If the actions of the others do not touch what one of them sees, its own actions alone lead to what it sees. -/
theorem run_filter (related : σ → σ → Prop) {mine : α → Bool} {allowed : α → Prop} {state other final : σ} {actions : List α}
    (own : ∀ state other action next, allowed action → mine action = true → related state other →
      step state action = some next → ∃ last, step other action = some last ∧ related next last)
    (others : ∀ state other action next, allowed action → mine action = false → related state other →
      step state action = some next → related next other)
    (start : related state other) (every : ∀ action ∈ actions, allowed action) (ran : run step state actions = some final) :
    ∃ last, run step other (actions.filter mine) = some last ∧ related final last := by
  induction actions generalizing state other with
  | nil =>
    cases ran
    exact ⟨other, rfl, start⟩
  | cons action rest ih =>
    obtain ⟨next, stepped, ran⟩ := run_cons.mp ran
    have here := every action List.mem_cons_self
    have later := fun action member => every action (List.mem_cons_of_mem _ member)
    cases whose : mine action with
    | true =>
      obtain ⟨middle, again, related⟩ := own _ _ _ _ here whose start stepped
      obtain ⟨last, alone, ended⟩ := ih related later ran
      rw [List.filter_cons_of_pos whose]
      exact ⟨last, run_cons.mpr ⟨middle, again, alone⟩, ended⟩
    | false =>
      have foreign : ¬mine action = true := by simp [whose]
      rw [List.filter_cons_of_neg foreign]
      exact ih (others _ _ _ _ here whose start stepped) later ran

end YuzuOS.Library
