import Mathlib.Data.List.TakeWhile

/-! The non-empty pieces of a list between separators, and how a scan from left
to right comes to the next one. -/

namespace YuzuOS.Library

variable {α : Type u} {separates : α → Bool} {items first rest : List α} {item : α}

def tokens (separates : α → Bool) (items : List α) : List (List α) :=
  (items.splitOnP separates).filter fun token => !token.isEmpty

@[simp] theorem tokens_nil : tokens separates [] = [] := by simp [tokens]

theorem tokens_append (separator : separates item = true) :
    tokens separates (first ++ item :: rest) = tokens separates first ++ tokens separates rest := by
  rw [tokens, List.splitOnP_append_cons first rest separator, List.filter_append]
  rfl

theorem tokens_separator (separator : separates item = true) :
    tokens separates (item :: rest) = tokens separates rest := by
  have split : tokens separates ([] ++ item :: rest) = tokens separates [] ++ tokens separates rest :=
    tokens_append separator
  simpa using split

theorem tokens_word (some : first ≠ []) (word : ∀ item ∈ first, separates item = false) :
    tokens separates first = [first] := by
  rw [tokens, List.splitOnP_eq_singleton word]
  simp [some]

theorem tokens_skip (separates : α → Bool) (items : List α) :
    tokens separates (items.dropWhile separates) = tokens separates items := by
  induction items with
  | nil => rfl
  | cons item rest ih =>
    cases separator : separates item with
    | true => rw [List.dropWhile_cons_of_pos separator, ih, tokens_separator separator]
    | false => rw [List.dropWhile_cons_of_neg (by simp [separator])]

/-- The first token goes up to the next separator. -/
theorem tokens_next (starts : separates item = false) : tokens separates (item :: rest) =
    (item :: rest).takeWhile (fun item => !separates item) ::
      tokens separates ((item :: rest).dropWhile fun item => !separates item) := by
  have whole := List.takeWhile_append_dropWhile (p := fun item => !separates item) (l := item :: rest)
  have some : (item :: rest).takeWhile (fun item => !separates item) ≠ [] := by simp [starts]
  have word : ∀ other ∈ (item :: rest).takeWhile (fun item => !separates item), separates other = false := by
    intro other member
    simpa using List.mem_takeWhile_imp member
  cases behind : (item :: rest).dropWhile fun item => !separates item with
  | nil =>
    rw [behind, List.append_nil] at whole
    rw [tokens_nil, whole]
    rw [whole] at some word
    exact tokens_word some word
  | cons separator others =>
    have separator_true : separates separator = true := by
      have remains : (item :: rest).dropWhile (fun item => !separates item) ≠ [] := by simp [behind]
      have head := List.head_dropWhile_not (fun item => !separates item) remains
      simpa [behind] using head
    calc tokens separates (item :: rest)
        = tokens separates ((item :: rest).takeWhile (fun item => !separates item) ++ separator :: others) := by
          rw [← behind, whole]
      _ = tokens separates ((item :: rest).takeWhile fun item => !separates item) ++ tokens separates others :=
          tokens_append separator_true
      _ = (item :: rest).takeWhile (fun item => !separates item) :: tokens separates (separator :: others) := by
          rw [tokens_word some word, tokens_separator separator_true, List.singleton_append]

theorem tokens_repeat (separator : separates item = true) :
    tokens separates (first ++ item :: item :: rest) = tokens separates (first ++ item :: rest) := by
  rw [tokens_append separator, tokens_append separator, tokens_separator separator]

theorem tokens_trailing (separator : separates item = true) :
    tokens separates (first ++ [item]) = tokens separates first := by
  rw [tokens_append separator, tokens_nil, List.append_nil]

theorem drop_takeWhile_length (p : α → Bool) (items : List α) :
    items.drop (items.takeWhile p).length = items.dropWhile p := by
  have split : (items.takeWhile p ++ items.dropWhile p).drop (items.takeWhile p).length = items.dropWhile p := List.drop_left
  rwa [List.takeWhile_append_dropWhile] at split

end YuzuOS.Library
