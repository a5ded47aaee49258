import YuzuOS.Library.Run

/-! Two machines that take the same actions, where one stops exactly when the other does. -/

namespace YuzuOS.Library

variable {σ : Type u} {τ : Type v} {α : Type w} {step : σ → α → Option σ} {mirror : τ → α → Option τ}
  {related : σ → τ → Prop} {allowed : α → Prop} {state : σ} {image : τ} {actions : List α}

/-- Steps that keep two states related, or both give none, make runs that do. -/
theorem run_simulates
    (steps : ∀ state image action, allowed action → related state image →
      Option.Rel related (step state action) (mirror image action))
    (start : related state image) (every : ∀ action ∈ actions, allowed action) :
    Option.Rel related (run step state actions) (run mirror image actions) := by
  induction actions generalizing state image with
  | nil => exact .some start
  | cons action rest ih =>
    have stepped := steps state image action (every action List.mem_cons_self) start
    simp only [run]
    generalize step state action = next at stepped
    generalize mirror image action = reflected at stepped
    cases stepped with
    | none => exact .none
    | some kept => exact ih kept fun other member => every other (List.mem_cons_of_mem _ member)

/-- Steps that return and keep two states related, where the machine meets a condition, make runs that do. -/
theorem run_simulates_met {condition : σ → α → Prop}
    (steps : ∀ state image action, related state image → condition state action →
      ∃ next reflected, step state action = some next ∧ mirror image action = some reflected ∧ related next reflected)
    (start : related state image) (met : Meets step condition state actions) :
    ∃ final last, run step state actions = some final ∧ run mirror image actions = some last ∧ related final last := by
  induction actions generalizing state image with
  | nil => exact ⟨state, image, rfl, rfl, start⟩
  | cons action rest ih =>
    obtain ⟨next, reflected, stepped, mirrored, kept⟩ := steps state image action start met.1
    obtain ⟨final, last, ran, reflects, ended⟩ := ih kept (met.2 next stepped)
    exact ⟨final, last, run_cons.mpr ⟨next, stepped, ran⟩, run_cons.mpr ⟨reflected, mirrored, reflects⟩, ended⟩

/-- Where the mirror comes to an end, so does the machine. -/
theorem run_mirrored (every : Option.Rel related (run step state actions) (run mirror image actions)) {reflected : τ}
    (ran : run mirror image actions = some reflected) :
    ∃ final, run step state actions = some final ∧ related final reflected := by
  rw [ran] at every
  cases ended : run step state actions with
  | none =>
    rw [ended] at every
    cases every
  | some final =>
    rw [ended] at every
    cases every with
    | some kept => exact ⟨final, rfl, kept⟩

end YuzuOS.Library
