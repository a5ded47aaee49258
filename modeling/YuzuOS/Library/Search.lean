import Mathlib.Data.List.Basic

/-! Linear searches with an action that may change a state: it is tried on one item
after another until its result is not negative. -/

namespace YuzuOS.Library.Search

variable {α β σ : Type*}

/-- The result of the last try, and the state behind it. -/
def search (action : α → σ → Int × σ) : List α → Int → σ → Int × σ
  | [], result, state => (result, state)
  | item :: rest, _, state =>
    let (result, state) := action item state
    if 0 ≤ result then (result, state) else search action rest result state

/-- The state behind all items. -/
def behind (action : α → σ → Int × σ) (items : List α) (state : σ) : σ :=
  items.foldl (fun state item => (action item state).2) state

/-- The action is tried on all items, and none of its results is accepted. -/
def Refused (action : α → σ → Int × σ) : List α → σ → Prop
  | [], _ => True
  | item :: rest, state => (action item state).1 < 0 ∧ Refused action rest (action item state).2

variable {action : α → σ → Int × σ} {first second items : List α} {result : Int} {state : σ}

theorem search_cons (item : α) (rest : List α) : search action (item :: rest) result state =
    if 0 ≤ (action item state).1 then action item state else search action rest (action item state).1 (action item state).2 := rfl

/-- The items that were refused are passed. -/
theorem search_behind {item : α} {rest : List α} (refused : Refused action first state) :
    search action (first ++ item :: rest) result state =
      search action (item :: rest) result (behind action first state) := by
  induction first generalizing result state with
  | nil => rfl
  | cons head first ih =>
    rw [List.cons_append, search_cons, if_neg (Int.not_le.mpr refused.1), ih refused.2]
    rfl

theorem refused_append {item : α} : Refused action (first ++ [item]) state ↔
    Refused action first state ∧ (action item (behind action first state)).1 < 0 := by
  induction first generalizing state with
  | nil => exact and_comm
  | cons head first ih => rw [List.cons_append, Refused, Refused, ih, and_assoc]; rfl

/-- Either an item is accepted, and none behind it is tried, or all are tried in vain. -/
theorem search_cases (action : α → σ → Int × σ) (items : List α) (result : Int) (state : σ) :
    (∃ tried item rest, items = tried ++ item :: rest ∧ Refused action tried state ∧
      0 ≤ (action item (behind action tried state)).1 ∧
        search action items result state = action item (behind action tried state)) ∨
    Refused action items state ∧ (search action items result state).2 = behind action items state := by
  induction items generalizing result state with
  | nil => exact .inr ⟨trivial, rfl⟩
  | cons item rest ih =>
    rw [search_cons]
    by_cases accepted : 0 ≤ (action item state).1
    · rw [if_pos accepted]
      exact .inl ⟨[], item, rest, rfl, trivial, accepted, rfl⟩
    · have negative := Int.not_le.mp accepted
      rw [if_neg accepted]
      rcases ih (action item state).1 (action item state).2 with ⟨tried, found, more, same, refused, accepted, ran⟩ | ⟨refused, ran⟩
      · exact .inl ⟨item :: tried, found, more, by rw [same]; rfl, ⟨negative, refused⟩, accepted, ran⟩
      · exact .inr ⟨⟨negative, refused⟩, ran⟩

/-- The error of the last item is the result of a search in vain. -/
theorem search_last {item : α} (refused : Refused action (first ++ [item]) state) :
    search action (first ++ [item]) result state = action item (behind action first state) := by
  obtain ⟨before, last⟩ := refused_append.mp refused
  rw [search_behind before, search_cons, if_neg (Int.not_le.mpr last)]
  rfl

theorem search_append {item : α} {rest : List α} : search action ((item :: rest) ++ second) result state =
    if 0 ≤ (search action (item :: rest) result state).1 then search action (item :: rest) result state
    else search action second (search action (item :: rest) result state).1 (search action (item :: rest) result state).2 := by
  induction rest generalizing item result state with
  | nil =>
    rw [List.singleton_append, search_cons, search_cons]
    by_cases accepted : 0 ≤ (action item state).1
    · rw [if_pos accepted, if_pos accepted, if_pos accepted]
    · rw [if_neg accepted, if_neg accepted]
      exact (if_neg accepted).symm
  | cons next rest ih =>
    rw [List.cons_append, search_cons, search_cons item (next :: rest)]
    by_cases accepted : 0 ≤ (action item state).1
    · rw [if_pos accepted, if_pos accepted, if_pos accepted]
    · rw [if_neg accepted, if_neg accepted]
      exact ih

/-- A search in parts, none of which is empty, is a search in all of them. -/
theorem search_flatMap {parts : β → List α} {groups : List β} (filled : ∀ group ∈ groups, parts group ≠ [])
    (fresh : Int) :
    search (fun group => search action (parts group) fresh) groups result state =
      search action (groups.flatMap parts) result state := by
  induction groups generalizing result state with
  | nil => rfl
  | cons group groups ih =>
    obtain ⟨here, later⟩ := List.forall_mem_cons.mp filled
    obtain ⟨item, rest, shape⟩ := List.exists_cons_of_ne_nil here
    rw [search_cons, ih later, List.flatMap_cons, shape, search_append]
    rfl

end YuzuOS.Library.Search
