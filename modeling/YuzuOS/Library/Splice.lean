import YuzuOS.Library.Ring

/-! Cutting circular lists into stretches and joining stretches into circular
lists. A stretch keeps its inner links, so only its two ends are looked at. -/

namespace YuzuOS.Library

variable {α : Type u} {links changed : Links α} {first last head tail node : α} {nodes others rest : List α}

/-- A stretch of nodes with its two ends. -/
structure Span (first : α) (nodes : List α) (last : α) : Prop where
  first : nodes.head? = some first
  last : nodes.getLast? = some last

theorem span_singleton (node : α) : Span node [node] node := ⟨rfl, rfl⟩

theorem Span.exists (filled : nodes ≠ []) : ∃ first last, Span first nodes last :=
  ⟨nodes.head filled, nodes.getLast filled, List.head?_eq_some_head filled, List.getLast?_eq_some_getLast filled⟩

theorem Span.append (front : Span first nodes last) (rear : Span head others tail) :
    Span first (nodes ++ others) tail :=
  ⟨by simp [front.first], by simp [rear.last]⟩

theorem Span.first_mem (span : Span first nodes last) : first ∈ nodes := List.mem_of_mem_head? span.first

theorem Span.last_mem (span : Span first nodes last) : last ∈ nodes := List.mem_of_getLast? span.last

theorem Span.singleton (span : Span node nodes node) (nodup : nodes.Nodup) : nodes = [node] := by
  cases nodes with
  | nil => cases span.first
  | cons head rest =>
    cases rest with
    | nil => rw [Option.some.inj span.first]
    | cons next rest =>
      have same : head = node := Option.some.inj span.first
      have tail := span.last
      rw [List.getLast?_cons_cons] at tail
      exact absurd (List.mem_of_getLast? tail) (same ▸ (List.nodup_cons.mp nodup).1)

theorem Span.cons (span : Span first nodes last) : ∃ rest, nodes = first :: rest := by
  obtain ⟨rest, shape⟩ := List.head?_eq_some_iff.mp span.first
  exact ⟨rest, shape⟩

/-- The links inside a stretch leave out those that its ends have to the outside. -/
theorem Span.congr (span : Span first nodes last) (nodup : nodes.Nodup) (chain : nodes.IsChain links.Joined)
    (next : ∀ node ∈ nodes, node ≠ last → changed.next node = links.next node)
    (prev : ∀ node ∈ nodes, node ≠ first → changed.prev node = links.prev node) : nodes.IsChain changed.Joined := by
  apply List.isChain_iff_forall_rel_of_append_cons_cons.mpr
  intro here there front rear shape
  have joined := List.isChain_iff_forall_rel_of_append_cons_cons.mp chain shape
  subst shape
  have ends : last ∈ there :: rear := by
    have tail := span.last
    rw [List.getLast?_append_of_ne_nil _ (by simp), List.getLast?_cons_cons] at tail
    exact List.mem_of_getLast? tail
  have starts : first ∈ front ++ [here] := by
    have head := span.first
    cases front with
    | nil => simpa using head.symm
    | cons node front => simpa using .inl (Option.some.inj head).symm
  have inner : here ∉ there :: rear := (List.nodup_cons.mp (List.nodup_append.mp nodup).2.1).1
  have split : front ++ here :: there :: rear = front ++ [here] ++ there :: rear := by simp
  have apart : there ∉ front ++ [here] := by
    rw [split] at nodup
    exact fun member => (List.nodup_append.mp nodup).2.2 there member there List.mem_cons_self rfl
  constructor
  · rw [next here (by simp) fun same => inner (same ▸ ends)]
    exact joined.1
  · rw [prev there (by simp) fun same => apart (same ▸ starts)]
    exact joined.2

/-- A ring is a stretch whose last node leads to its first one. -/
theorem Span.cycle_iff (span : Span first nodes last) :
    Cycle links nodes ↔ nodes.Nodup ∧ nodes.IsChain links.Joined ∧ links.Joined last first := by
  obtain ⟨rest, rfl⟩ := span.cons
  obtain ⟨front, shape⟩ := List.getLast?_eq_some_iff.mp span.last
  exact Ring.open_iff shape

/-- A ring of two stretches. -/
theorem cycle_append_iff (front : Span first nodes last) (rear : Span head others tail) :
    Cycle links (nodes ++ others) ↔ (nodes ++ others).Nodup ∧ nodes.IsChain links.Joined ∧ others.IsChain links.Joined ∧
      links.Joined last head ∧ links.Joined tail first := by
  rw [(front.append rear).cycle_iff, List.isChain_append]
  simp only [front.last, rear.first, Option.mem_def, Option.some.injEq, forall_eq']
  tauto

/-- A stretch of a ring becomes a ring of its own when its ends are joined. -/
theorem Cycle.close (cycle : Cycle links (nodes ++ others)) (span : Span first nodes last)
    (edge : changed.Joined last first) (next : ∀ node ∈ nodes, node ≠ last → changed.next node = links.next node)
    (prev : ∀ node ∈ nodes, node ≠ first → changed.prev node = links.prev node) : Cycle changed nodes := by
  have nodup := (List.nodup_append.mp cycle.nodup).1
  refine span.cycle_iff.mpr ⟨nodup, span.congr nodup ?_ next prev, edge⟩
  cases others with
  | nil =>
    rw [List.append_nil] at cycle
    exact (span.cycle_iff.mp cycle).2.1
  | cons node rest =>
    obtain ⟨head, tail, rear⟩ := Span.exists (List.cons_ne_nil node rest)
    exact ((cycle_append_iff span rear).mp cycle).2.1

/-- Two stretches become a ring when their ends are joined. -/
theorem Cycle.join (front : Span first nodes last) (rear : Span head others tail) (nodup : (nodes ++ others).Nodup)
    (inner : nodes.IsChain links.Joined) (outer : others.IsChain links.Joined) (edge : changed.Joined last head)
    (back : changed.Joined tail first)
    (next : ∀ node ∈ nodes ++ others, node ≠ last → node ≠ tail → changed.next node = links.next node)
    (prev : ∀ node ∈ nodes ++ others, node ≠ first → node ≠ head → changed.prev node = links.prev node) :
    Cycle changed (nodes ++ others) := by
  obtain ⟨low, high, apart⟩ := List.nodup_append.mp nodup
  refine (cycle_append_iff front rear).mpr ⟨nodup, front.congr low inner ?_ ?_, rear.congr high outer ?_ ?_, edge, back⟩
  · exact fun node member other => next node (List.mem_append_left _ member) other fun same => apart _ member _ rear.last_mem same
  · exact fun node member other => prev node (List.mem_append_left _ member) other fun same => apart _ member _ rear.first_mem same
  · exact fun node member other =>
      next node (List.mem_append_right _ member) (fun same => apart _ front.last_mem _ member same.symm) other
  · exact fun node member other =>
      prev node (List.mem_append_right _ member) (fun same => apart _ front.first_mem _ member same.symm) other

/-- The links of a ring's members decide each other. -/
theorem Cycle.determined (nodes : List α) (cycle : Cycle links nodes) (other : Cycle changed nodes)
    (member : node ∈ nodes) :
    changed.next node = links.next node ∧ changed.prev node = links.prev node := by
  obtain ⟨left, right, rfl⟩ := List.append_of_mem member
  have here := cycle.from_member
  have there := other.from_member
  obtain ⟨front, last, shape⟩ := Ring.exists_last node (right ++ left)
  have back := ((Ring.open_iff shape).mp here).2.2.2.trans ((Ring.open_iff shape).mp there).2.2.2.symm
  refine ⟨?_, back.symm⟩
  cases whole : right ++ left with
  | nil =>
    rw [whole] at here there
    rw [here.next_head_nil, there.next_head_nil]
  | cons entry rest =>
    rw [whole] at here there
    rw [here.next_head, there.next_head]

/-- A stretch of a ring and its two neighbours. -/
theorem Ring.around (ring : Ring links head (others ++ nodes ++ rest)) (span : Span first nodes last) :
    (head :: others).getLast? = some (links.prev first) ∧ (rest ++ [head]).head? = some (links.next last) ∧
      nodes.IsChain links.Joined := by
  have joined := ring.joined
  have split : head :: (others ++ nodes ++ rest ++ [head]) = (head :: others) ++ (nodes ++ (rest ++ [head])) := by simp
  rw [split] at joined
  obtain ⟨_, inner, enters⟩ := List.isChain_append.mp joined
  obtain ⟨chain, _, leaves⟩ := List.isChain_append.mp inner
  obtain ⟨_, before, front⟩ := Span.exists (List.cons_ne_nil head others)
  obtain ⟨after, _, rear⟩ := Span.exists (show rest ++ [head] ≠ [] by simp)
  refine ⟨?_, ?_, chain⟩
  · rw [front.last, (enters before front.last first (by simp [span.first])).2]
  · rw [rear.first, (leaves last span.last after rear.first).1]

/-- What surrounds a stretch of a ring, read from behind the stretch to its front. -/
theorem span_around {before after : α} (front : (head :: others).getLast? = some before)
    (rear : (rest ++ [head]).head? = some after) :
    Span after (rest ++ head :: others) before := by
  refine ⟨?_, ?_⟩
  · cases rest with
    | nil => simpa using rear
    | cons node rest => simpa using rear
  · rw [List.getLast?_append_of_ne_nil _ (by simp), front]

section Writes
variable [DecidableEq α]

/-- The four writes that put a stretch between two neighbours. -/
def Links.insertSpan (links : Links α) (first last before after : α) : Links α :=
  (((links.setPrev first before).setNext before first).setNext last after).setPrev after last

/-- A stretch put between the ends of another one closes a ring. -/
theorem Cycle.splice (front : Span first nodes last) (rear : Span head others tail) (nodup : (nodes ++ others).Nodup)
    (inner : nodes.IsChain links.Joined) (outer : others.IsChain links.Joined) :
    Cycle (links.insertSpan first last tail head) (nodes ++ others) := by
  have apart := (List.nodup_append.mp nodup).2.2
  have lastTail : tail ≠ last := (apart last front.last_mem tail rear.last_mem).symm
  have firstHead : first ≠ head := apart first front.first_mem head rear.first_mem
  refine Cycle.join front rear nodup inner outer ?_ ?_ ?_ ?_
  · simp [Links.insertSpan, Links.Joined]
  · simp [Links.insertSpan, Links.Joined, lastTail, firstHead]
  · intro node _ notLast notTail
    simp [Links.insertSpan, notLast, notTail]
  · intro node _ notFirst notHead
    simp [Links.insertSpan, notFirst, notHead]

end Writes
end YuzuOS.Library
