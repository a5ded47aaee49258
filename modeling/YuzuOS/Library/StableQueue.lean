import Mathlib.Data.List.Sort

/-! Stable priority queues as sorted lists: insertion goes behind every equal
key, and each run of equal keys is led by its oldest element. -/

namespace YuzuOS.Library

variable {α : Type u} {κ : Type v} [LinearOrder κ] {key : α → κ}

def SortedBy (key : α → κ) (items : List α) : Prop :=
  items.Pairwise fun first second => key first ≤ key second

def stableInsert (key : α → κ) (new : α) (items : List α) : List α :=
  items.orderedInsert (fun first second => key first < key second) new

/-- The first element of each distinct key, in order. -/
def leaders (key : α → κ) : List α → List α
  | [] => []
  | item :: rest => item :: (leaders key rest).filter fun other => key other ≠ key item

theorem SortedBy.append_iff {low high : List α} : SortedBy key (low ++ high) ↔
    SortedBy key low ∧ SortedBy key high ∧ ∀ first ∈ low, ∀ second ∈ high, key first ≤ key second :=
  List.pairwise_append

theorem SortedBy.erase [BEq α] {items : List α} (sorted : SortedBy key items) (item : α) :
    SortedBy key (items.erase item) := sorted.sublist List.erase_sublist

/-- An insertion cuts the queue behind the last key that is not larger. -/
theorem stableInsert_split (new : α) {items : List α} (sorted : SortedBy key items) :
    ∃ low high, items = low ++ high ∧ stableInsert key new items = low ++ new :: high ∧
      (∀ item ∈ low, key item ≤ key new) ∧ ∀ item ∈ high, key new < key item := by
  induction items with
  | nil => exact ⟨[], [], rfl, rfl, by simp, by simp⟩
  | cons item items ih =>
    have later := List.pairwise_cons.mp sorted
    by_cases larger : key new < key item
    · refine ⟨[], item :: items, rfl, by simp [stableInsert, larger], by simp, ?_⟩
      intro other member
      rcases List.mem_cons.mp member with rfl | member
      · exact larger
      · exact lt_of_lt_of_le larger (later.1 other member)
    · obtain ⟨low, high, split, inserted, below, above⟩ := ih later.2
      refine ⟨item :: low, high, by simp [split], ?_, ?_, above⟩
      · simpa [stableInsert, larger] using inserted
      · intro other member
        rcases List.mem_cons.mp member with rfl | member
        · exact not_lt.mp larger
        · exact below other member

theorem stableInsert_between {low high : List α} {new : α} (below : ∀ item ∈ low, key item ≤ key new)
    (above : ∀ item ∈ high, key new < key item) : stableInsert key new (low ++ high) = low ++ new :: high := by
  induction low with
  | nil =>
    cases high with
    | nil => rfl
    | cons item high => simp [stableInsert, above]
  | cons item low ih =>
    have later := ih fun other member => below other (List.mem_cons_of_mem _ member)
    have behind : ¬ key new < key item := not_lt.mpr (below item List.mem_cons_self)
    simpa [stableInsert, behind] using later

theorem stableInsert_perm (new : α) (items : List α) : (stableInsert key new items).Perm (new :: items) :=
  List.perm_orderedInsert _ new items

theorem stableInsert_erase [DecidableEq α] {new : α} {items : List α} (sorted : SortedBy key items)
    (fresh : new ∉ items) :
    (stableInsert key new items).erase new = items := by
  obtain ⟨low, high, shape, inserted, _⟩ := stableInsert_split new sorted
  have before : new ∉ low := fun member => fresh (shape ▸ List.mem_append_left _ member)
  rw [inserted, List.erase_append_right _ before, List.erase_cons_head, shape]

theorem SortedBy.insert {low high : List α} {new : α} (sorted : SortedBy key (low ++ high))
    (below : ∀ item ∈ low, key item ≤ key new) (above : ∀ item ∈ high, key new < key item) :
    SortedBy key (low ++ new :: high) := by
  obtain ⟨sortedLow, sortedHigh, across⟩ := SortedBy.append_iff.mp sorted
  refine SortedBy.append_iff.mpr
    ⟨sortedLow, List.pairwise_cons.mpr ⟨fun item member => (above item member).le, sortedHigh⟩, ?_⟩
  intro first firstMember second secondMember
  rcases List.mem_cons.mp secondMember with rfl | secondMember
  · exact below first firstMember
  · exact across first firstMember second secondMember

/-- Insertion depends on the keys of the elements involved only. -/
theorem stableInsert_congr {other : α → κ} {new : α} {items : List α}
    (same : ∀ item ∈ new :: items, other item = key item) :
    stableInsert other new items = stableInsert key new items := by
  induction items with
  | nil => rfl
  | cons item items ih =>
    have later := ih (fun other member => same other (by
      rcases List.mem_cons.mp member with rfl | member <;> simp [*]))
    simp only [stableInsert, List.orderedInsert_cons, same new (by simp), same item (by simp)] at later ⊢
    rw [later]

theorem leaders_sublist (items : List α) : (leaders key items).Sublist items := by
  induction items with
  | nil => exact List.Sublist.refl _
  | cons item items ih => exact (List.filter_sublist.trans ih).cons_cons item

/-- Which elements lead depends on which keys are equal. -/
theorem leaders_congr_iff {ι : Type w} [LinearOrder ι] {other : α → ι} {items : List α}
    (same : ∀ first ∈ items, ∀ second ∈ items, other first = other second ↔ key first = key second) :
    leaders other items = leaders key items := by
  induction items with
  | nil => rfl
  | cons item items ih =>
    rw [leaders, leaders, ih fun first inside second member => same first (by simp [inside]) second (by simp [member])]
    congr 1
    apply List.filter_congr
    intro later member
    have inside := (leaders_sublist items).subset member
    simp [same later (by simp [inside]) item (by simp)]

theorem leaders_append (low high : List α) : leaders key (low ++ high) =
    leaders key low ++ (leaders key high).filter fun item => ∀ other ∈ low, key item ≠ key other := by
  induction low with
  | nil => simp [leaders]
  | cons item low ih =>
    simp only [List.cons_append, leaders, ih, List.filter_append, List.filter_filter, List.cons_append,
      List.mem_cons, forall_eq_or_imp]
    congr 2
    apply List.filter_congr
    intro other _
    simp

theorem leaders_append_of_lt {low high : List α}
    (apart : ∀ first ∈ low, ∀ second ∈ high, key first < key second) :
    leaders key (low ++ high) = leaders key low ++ leaders key high := by
  rw [leaders_append, List.filter_eq_self.mpr]
  intro item member
  have inside := (leaders_sublist high).subset member
  simpa using fun other otherMember => (apart other otherMember item inside).ne'

/-- Every element has a leader of its own key that does not come after it. -/
theorem exists_leader {items : List α} {item : α} (member : item ∈ items) :
    ∃ leader ∈ leaders key items, key leader = key item := by
  induction items with
  | nil => cases member
  | cons first items ih =>
    by_cases same : key item = key first
    · exact ⟨first, by simp [leaders], same.symm⟩
    · rcases List.mem_cons.mp member with rfl | member
      · exact False.elim (same rfl)
      · obtain ⟨leader, found, equal⟩ := ih member
        exact ⟨leader, by simp [leaders, found, equal, same], equal⟩

theorem leaders_eq_nil {items : List α} : leaders key items = [] ↔ items = [] := by
  cases items <;> simp [leaders]

/-- A new element of a key that is already queued does not lead; any other
becomes the leader of a group between its neighbours. -/
theorem leaders_insert {low high : List α} {new : α}
    (below : ∀ item ∈ low, key item ≤ key new) (above : ∀ item ∈ high, key new < key item) :
    leaders key (low ++ new :: high) =
      if ∃ item ∈ low, key item = key new then leaders key low ++ leaders key high
      else leaders key low ++ new :: leaders key high := by
  have ahead : leaders key (new :: high) = new :: leaders key high :=
    by
    have single : ∀ first ∈ [new], ∀ second ∈ high, key first < key second := by simpa using above
    exact leaders_append_of_lt single
  have kept : (leaders key high).filter (fun item => ∀ other ∈ low, key item ≠ key other) = leaders key high := by
    apply List.filter_eq_self.mpr
    intro item member
    have larger := above item ((leaders_sublist high).subset member)
    simpa using fun other otherMember => (lt_of_le_of_lt (below other otherMember) larger).ne'
  rw [leaders_append, ahead, List.filter_cons, kept]
  split
  next follows =>
    split
    next led =>
      obtain ⟨item, member, same⟩ := led
      exact False.elim ((of_decide_eq_true follows) item member same.symm)
    next => rfl
  next follows =>
    split
    next => rfl
    next led =>
      exact False.elim (follows (decide_eq_true fun other member same => led ⟨other, member, same.symm⟩))

/-- Whether an element leads depends on the elements ahead of it only. -/
theorem mem_leaders_iff {low high : List α} {item : α} (nodup : (low ++ item :: high).Nodup) :
    item ∈ leaders key (low ++ item :: high) ↔ ∀ other ∈ low, key other ≠ key item := by
  have absent : item ∉ leaders key low := by
    intro member
    have disjoint := List.disjoint_of_nodup_append nodup
    exact disjoint ((leaders_sublist low).subset member) List.mem_cons_self
  rw [leaders_append]
  simp [absent, leaders, eq_comm]

/-- Removing a follower leaves the leaders as they are. -/
theorem leaders_remove_follower {low high : List α} {item : α} (led : ∃ other ∈ low, key other = key item) :
    leaders key (low ++ item :: high) = leaders key (low ++ high) := by
  obtain ⟨other, member, same⟩ := led
  simp only [leaders_append, leaders, List.filter_cons, List.filter_filter]
  rw [if_neg (by simpa using ⟨other, member, same.symm⟩)]
  congr 1
  apply List.filter_congr
  intro later _
  have covered : (∀ other ∈ low, key later ≠ key other) → key later ≠ key item :=
    fun apart => same ▸ apart other member
  simpa using covered

/-- What stands in a removed leader's place: the next element if it has its key. -/
def heirs (key : α → κ) (item : α) (after : List α) : List α → List α
  | [] => after
  | next :: _ => if key next = key item then next :: after else after

theorem leaders_remove_leader {low high : List α} {item : α}
    (sorted : SortedBy key (low ++ item :: high)) (leads : ∀ other ∈ low, key other ≠ key item) :
    ∃ after, leaders key (low ++ item :: high) = leaders key low ++ item :: after ∧
      leaders key (low ++ high) = leaders key low ++ heirs key item after high := by
  obtain ⟨_, sortedHigh, across⟩ := SortedBy.append_iff.mp sorted
  have ahead := List.pairwise_cons.mp sortedHigh
  have strict : ∀ first ∈ low, ∀ second ∈ item :: high, key first < key second := by
    intro first firstMember second secondMember
    have bound := lt_of_le_of_ne (across first firstMember item List.mem_cons_self) (leads first firstMember)
    rcases List.mem_cons.mp secondMember with rfl | secondMember
    · exact bound
    · exact lt_of_lt_of_le bound (ahead.1 second secondMember)
  refine ⟨(leaders key high).filter fun other => key other ≠ key item, leaders_append_of_lt strict, ?_⟩
  rw [leaders_append_of_lt fun first member second inside => strict first member second (by simp [inside])]
  congr 1
  cases high with
  | nil => rfl
  | cons next rest =>
    simp only [heirs]
    split
    next same => simp [leaders, same]
    next different =>
      symm
      apply List.filter_eq_self.mpr
      intro other member
      have larger := lt_of_le_of_ne (ahead.1 next List.mem_cons_self) (Ne.symm different)
      have later := (List.pairwise_cons.mp ahead.2).1
      rcases List.mem_cons.mp ((leaders_sublist (next :: rest)).subset member) with rfl | inside
      · simpa using larger.ne'
      · simpa using (lt_of_lt_of_le larger (later other inside)).ne'

end YuzuOS.Library
