import Mathlib.Data.List.Nodup
import Mathlib.Data.List.Perm.Subperm

/-! Counting the members of a list that satisfy a predicate. -/

namespace YuzuOS.Library

/-- Two predicates that differ at one member differ by one in count. -/
theorem countP_insert {α : Type u} {items : List α} {item : α} {p q : α → Bool} (nodup : items.Nodup)
    (member : item ∈ items) (here : p item = true) (free : q item = false)
    (same : ∀ other, other ≠ item → p other = q other) : items.countP p = items.countP q + 1 := by
  obtain ⟨low, high, rfl⟩ := List.append_of_mem member
  have absent := (List.nodup_cons.mp (List.nodup_middle.mp nodup)).1
  have lower : low.countP p = low.countP q := by
    apply List.countP_congr
    intro other inside
    rw [same other fun equal => absent (List.mem_append_left _ (equal ▸ inside))]
  have upper : high.countP p = high.countP q := by
    apply List.countP_congr
    intro other inside
    rw [same other fun equal => absent (List.mem_append_right _ (equal ▸ inside))]
  simp only [List.countP_append, List.countP_cons, here, free, lower, upper, if_true, if_false, Bool.false_eq_true]
  omega

/-- A predicate of the numbers below a bound that tells those below another one. -/
theorem countP_range_lt {low high : Nat} {p : Nat → Bool} (below : low ≤ high)
    (tells : ∀ i < high, p i = true ↔ i < low) : (List.range high).countP p = low := by
  obtain ⟨extra, rfl⟩ := Nat.exists_eq_add_of_le below
  have lower : (List.range low).countP p = (List.range low).length := by
    apply List.countP_eq_length.mpr
    intro i member
    have bound := List.mem_range.mp member
    exact (tells i (Nat.lt_add_right extra bound)).mpr bound
  have upper : ((List.range extra).map (low + ·)).countP p = 0 := by
    apply List.countP_eq_zero.mpr
    intro i member holds
    obtain ⟨offset, inside, rfl⟩ := List.mem_map.mp member
    have bound := (tells (low + offset) (Nat.add_lt_add_left (List.mem_range.mp inside) low)).mp holds
    omega
  rw [List.range_add, List.countP_append, lower, upper, List.length_range, Nat.add_zero]

/-- Distinct numbers below a bound are no more than it. -/
theorem length_le_of_below {items : List Nat} {bound : Nat} (nodup : items.Nodup)
    (below : ∀ item ∈ items, item < bound) :
    items.length ≤ bound := by
  have inside : items ⊆ List.range bound := fun item member => List.mem_range.mpr (below item member)
  simpa using (List.subperm_of_subset nodup inside).length_le

end YuzuOS.Library
