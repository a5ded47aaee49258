import YuzuOS.Library.Splice

/-! Any number of rings in one heap, each read from its head as a sequence. An
edit is described by the ring it leaves and by the nodes whose links it may write. -/

namespace YuzuOS.Library

variable {α : Type u}

/-- The sequences of a heap, by the heads of their rings. -/
abbrev Rings (α : Type u) := α → Option (List α)

namespace Rings
variable {links changed : Links α} {rings : Rings α} {head other node first last front rear : α}
  {nodes others extra edited left right : List α}

/-- No ring holds the node. -/
def Unlinked (rings : Rings α) (node : α) : Prop := ∀ head nodes, rings head = some nodes → node ∉ head :: nodes

/-- Some sequence holds the node. -/
def Linked (rings : Rings α) (node : α) : Prop := ∃ head nodes, rings head = some nodes ∧ node ∈ nodes

/-- The address is the head of a ring. -/
def Heads (rings : Rings α) (head : α) : Prop := ∃ nodes, rings head = some nodes

/-- Every sequence changed in the same way. -/
def mapAll (change : List α → List α) (rings : Rings α) : Rings α := fun head => (rings head).map change

theorem Heads.mapAll {change : List α → List α} (heads : rings.Heads head) : (rings.mapAll change).Heads head := by
  obtain ⟨nodes, found⟩ := heads
  exact ⟨change nodes, by rw [Rings.mapAll, found, Option.map_some]⟩

/-- Every sequence is a ring, and no node is in two of them. -/
structure Held (links : Links α) (rings : Rings α) : Prop where
  ring : ∀ {head nodes}, rings head = some nodes → Ring links head nodes
  apart : ∀ {head other node nodes others}, rings head = some nodes → rings other = some others →
    node ∈ head :: nodes → node ∈ other :: others → head = other

theorem Held.untouched {left : Rings α} (held : Held links rings) (after : Held changed left)
    (before : rings head = some nodes) (kept : left head = some nodes) (member : node ∈ head :: nodes) :
    changed.next node = links.next node ∧ changed.prev node = links.prev node :=
  Cycle.determined (head :: nodes) (held.ring before) (after.ring kept) member

theorem Held.elsewhere (held : Held links rings) (found : rings head = some nodes) (present : rings other = some others)
    (different : other ≠ head) (member : node ∈ other :: others) : node ∉ head :: nodes :=
  fun inside => different (held.apart present found member inside)

theorem Unlinked.ne (unlinked : rings.Unlinked node) (found : rings head = some nodes) : node ≠ head := by
  rintro rfl
  exact unlinked node nodes found List.mem_cons_self

/-- Links of unlinked nodes do not matter. -/
theorem Held.congr (held : Held links rings) (same : ∀ node, ¬ rings.Unlinked node →
    changed.next node = links.next node ∧ changed.prev node = links.prev node) : Held changed rings := by
  refine ⟨fun found => (held.ring found).congr fun node member => same node fun unlinked => ?_, held.apart⟩
  exact unlinked _ _ found member

theorem Linked.split (linked : rings.Linked node) : ∃ head left right, rings head = some (left ++ node :: right) := by
  obtain ⟨head, nodes, found, member⟩ := linked
  obtain ⟨left, right, rfl⟩ := List.append_of_mem member
  exact ⟨head, left, right, found⟩

/-- A node is once in its own sequence and in no other one. -/
theorem Held.once (held : Held links rings) (found : rings head = some (left ++ node :: right)) :
    node ∉ left ∧ node ∉ right ∧ node ≠ head ∧
      ∀ other others, other ≠ head → rings other = some others → node ∉ others := by
  obtain ⟨notHead, nodup⟩ := List.nodup_cons.mp (held.ring found).nodup
  obtain ⟨_, tail, apart⟩ := List.nodup_append.mp nodup
  refine ⟨fun member => apart _ member _ List.mem_cons_self rfl, (List.nodup_cons.mp tail).1, ?_, ?_⟩
  · rintro rfl
    exact notHead (by simp)
  · exact fun other others different present member =>
      different (held.apart present found (List.mem_cons_of_mem _ member) (by simp))

section Writes
variable [DecidableEq α]

def edit (head : α) (change : List α → List α) (rings : Rings α) : Rings α :=
  Function.update rings head ((rings head).map change)

theorem edit_eq {change : List α → List α} (found : rings head = some nodes) :
    rings.edit head change = Function.update rings head (some (change nodes)) := by
  rw [edit, found, Option.map_some]

/-- A change that concerns the nodes of one ring only. -/
theorem mapAll_eq {change : List α → List α} (found : rings head = some nodes)
    (fixed : ∀ other others, other ≠ head → rings other = some others → change others = others) :
    rings.mapAll change = Function.update rings head (some (change nodes)) := by
  funext other
  by_cases same : other = head
  · subst same
    simp [mapAll, found]
  · rw [Function.update_of_ne same, mapAll]
    cases present : rings other with
    | none => rfl
    | some others => rw [Option.map_some, fixed other others same present]

theorem Held.drop (held : Held links rings) : Held links (Function.update rings head none) := by
  have present : ∀ {other others}, Function.update rings head none other = some others → rings other = some others := by
    intro other others found
    rw [Function.update_apply] at found
    split at found
    · cases found
    · exact found
  exact ⟨fun found => held.ring (present found), fun found again => held.apart (present found) (present again)⟩

/-- One ring is written anew and keeps clear of the others. -/
theorem Held.put (held : Held links rings) (ring : Ring changed head nodes)
    (clear : ∀ other others, other ≠ head → rings other = some others → ∀ node ∈ other :: others,
      node ∉ head :: nodes ∧ changed.next node = links.next node ∧ changed.prev node = links.prev node) :
    Held changed (Function.update rings head (some nodes)) := by
  constructor
  · intro other others found
    by_cases same : other = head
    · subst same
      rw [Function.update_self] at found
      cases found
      exact ring
    · rw [Function.update_of_ne same] at found
      exact (held.ring found).congr fun node member => (clear other others same found node member).2
  · intro first second node left right found again inside within
    by_cases same : first = head <;> by_cases equal : second = head
    · rw [same, equal]
    · subst same
      rw [Function.update_self] at found
      rw [Function.update_of_ne equal] at again
      cases found
      exact absurd inside (clear second right equal again node within).1
    · subst equal
      rw [Function.update_of_ne same] at found
      rw [Function.update_self] at again
      cases again
      exact absurd within (clear first left same found node inside).1
    · rw [Function.update_of_ne same] at found
      rw [Function.update_of_ne equal] at again
      exact held.apart found again inside within

/-- A ring keeps some of its nodes and takes in unlinked ones. -/
theorem Held.relink (held : Held links rings) (found : rings head = some nodes) (unlinked : ∀ node ∈ extra, rings.Unlinked node)
    (ring : Ring changed head edited) (only : ∀ node ∈ edited, node ∈ nodes ∨ node ∈ extra)
    (frame : ∀ node, node ∉ head :: nodes → node ∉ extra →
      changed.next node = links.next node ∧ changed.prev node = links.prev node) :
    Held changed (Function.update rings head (some edited)) := by
  apply held.put ring
  intro other others different present node member
  have outside := held.elsewhere found present different member
  have absent : node ∉ extra := fun inside => unlinked node inside other others present member
  refine ⟨?_, frame node outside absent⟩
  rintro (_ | ⟨_, inside⟩)
  · exact outside List.mem_cons_self
  · rcases only node inside with old | new
    · exact outside (List.mem_cons_of_mem _ old)
    · exact absent new

/-- A new ring of unlinked nodes. -/
theorem Held.adopt (held : Held links rings) (unlinked : ∀ node ∈ head :: nodes, rings.Unlinked node)
    (ring : Ring changed head nodes) (frame : ∀ node, node ∉ head :: nodes →
      changed.next node = links.next node ∧ changed.prev node = links.prev node) :
    Held changed (Function.update rings head (some nodes)) := by
  apply held.put ring
  intro other others _ present node member
  have outside : node ∉ head :: nodes := fun inside => unlinked node inside other others present member
  exact ⟨outside, frame node outside⟩

theorem Unlinked.update (unlinked : rings.Unlinked node) (different : node ≠ head) (absent : node ∉ edited) :
    Unlinked (Function.update rings head (some edited)) node := by
  intro other others found
  by_cases same : other = head
  · subst same
    rw [Function.update_self] at found
    cases found
    simpa [different] using absent
  · rw [Function.update_of_ne same] at found
    exact unlinked other others found

/-- A ring read from another member. -/
theorem Held.reread (held : Held links rings) (found : rings head = some (left ++ node :: right)) :
    Held links (Function.update (Function.update rings head none) node (some (right ++ head :: left))) := by
  apply held.drop.put (held.ring found).rotate
  intro other others _ present item member
  have elsewhere : other ≠ head := by
    rintro rfl
    rw [Function.update_self] at present
    cases present
  rw [Function.update_of_ne elsewhere] at present
  have outside := held.elsewhere found present elsewhere member
  refine ⟨fun inside => outside ?_, rfl, rfl⟩
  simp only [List.mem_append, List.mem_cons] at inside ⊢
  tauto

theorem unlinked_drop (free : ¬ rings.Linked node) : Unlinked (Function.update rings node none) node := by
  intro other others present
  by_cases same : other = node
  · subst same
    rw [Function.update_self] at present
    cases present
  · rw [Function.update_of_ne same] at present
    rintro (_ | ⟨_, member⟩)
    · exact same rfl
    · exact free ⟨other, others, present, member⟩

/-- What a ring gives up is in no ring. -/
theorem Held.released (held : Held links rings) (found : rings head = some nodes) (member : node ∈ nodes)
    (absent : node ∉ edited) :
    Unlinked (Function.update rings head (some edited)) node := by
  have inside : node ∈ head :: nodes := List.mem_cons_of_mem _ member
  have different : node ≠ head := by
    rintro rfl
    exact (List.nodup_cons.mp (held.ring found).nodup).1 member
  intro other others present
  by_cases same : other = head
  · subst same
    rw [Function.update_self] at present
    cases present
    simpa [different] using absent
  · rw [Function.update_of_ne same] at present
    exact fun again => same (held.apart present found again inside)

/-- What a ring that is dropped held is in no ring. -/
theorem Held.dropped (held : Held links rings) (found : rings head = some nodes) (member : node ∈ head :: nodes) :
    Unlinked (Function.update rings head none) node := by
  intro other others present again
  rw [Function.update_apply] at present
  split at present
  · cases present
  · exact absurd (held.apart present found again member) ‹_›

/-- The neighbours of a stretch become neighbours of each other. -/
theorem Held.takeSpan (held : Held links rings) (found : rings head = some (left ++ nodes ++ right))
    (span : Span first nodes last) :
    Held (links.bypass (links.prev first) (links.next last)) (Function.update rings head (some (left ++ right))) ∧
      nodes.IsChain (links.bypass (links.prev first) (links.next last)).Joined := by
  obtain ⟨before, after, chain⟩ := (held.ring found).around span
  have outside := span_around before after
  have cycle : Cycle links ((right ++ head :: left) ++ nodes) := by
    have turned : Cycle links ((head :: left ++ nodes) ++ right) := held.ring found
    simpa using turned.rotate
  obtain ⟨_, nodup, apart⟩ := List.nodup_append.mp cycle.nodup
  have closed : Cycle (links.bypass (links.prev first) (links.next last)) (right ++ head :: left) := by
    apply cycle.close outside
    · simp [Links.bypass, Links.Joined]
    · intro node _ different
      simp [Links.bypass, different]
    · intro node _ different
      simp [Links.bypass, different]
  have ring : Ring (links.bypass (links.prev first) (links.next last)) head (left ++ right) := closed.rotate
  constructor
  · apply held.relink found (fun _ inside => absurd inside List.not_mem_nil) ring
    · intro node member
      simp only [List.mem_append] at member ⊢
      tauto
    · intro node absent _
      have away : node ∉ right ++ head :: left := by
        simp only [List.mem_append, List.mem_cons] at absent ⊢
        tauto
      have notBefore : node ≠ links.prev first := fun same => away (same ▸ outside.last_mem)
      have notAfter : node ≠ links.next last := fun same => away (same ▸ outside.first_mem)
      simp [Links.bypass, notBefore, notAfter]
  · apply span.congr nodup chain
    · intro node member _
      have different := apart _ outside.last_mem node member
      simp [Links.bypass, different.symm]
    · intro node member _
      have different := apart _ outside.first_mem node member
      simp [Links.bypass, different.symm]

/-- An unlinked stretch is put into a ring. -/
theorem Held.insertSpan (held : Held links rings) (found : rings head = some (left ++ right))
    (span : Span first nodes last) (nodup : nodes.Nodup) (chain : nodes.IsChain links.Joined)
    (unlinked : ∀ node ∈ nodes, rings.Unlinked node) (before : (head :: left).getLast? = some front)
    (after : (right ++ [head]).head? = some rear) :
    Held (links.insertSpan first last front rear) (Function.update rings head (some (left ++ nodes ++ right))) := by
  have outside := span_around before after
  have cycle : Cycle links (right ++ head :: left) := by
    have turned : Cycle links ((head :: left) ++ right) := held.ring found
    exact turned.rotate
  have fresh : ∀ node ∈ nodes, node ∉ right ++ head :: left := by
    intro node member inside
    apply unlinked node member head _ found
    simp only [List.mem_append, List.mem_cons] at inside ⊢
    tauto
  have whole : (nodes ++ (right ++ head :: left)).Nodup :=
    List.nodup_append.mpr ⟨nodup, cycle.nodup, fun node member other inside same => fresh node member (same ▸ inside)⟩
  have closed : Cycle (links.insertSpan first last front rear) (nodes ++ (right ++ head :: left)) :=
    Cycle.splice span outside whole chain (outside.cycle_iff.mp cycle).2.1
  have ring : Ring (links.insertSpan first last front rear) head (left ++ nodes ++ right) := by
    have turned : Cycle (links.insertSpan first last front rear) ((nodes ++ right) ++ head :: left) := by simpa using closed
    have again : Cycle (links.insertSpan first last front rear) (head :: (left ++ nodes ++ right)) := by simpa using turned.rotate
    exact again
  apply held.relink found unlinked ring
  · intro node member
    simp only [List.mem_append] at member ⊢
    tauto
  · intro node absent foreign
    have away : node ∉ right ++ head :: left := by
      simp only [List.mem_append, List.mem_cons] at absent ⊢
      tauto
    have notBefore : node ≠ front := fun same => away (same ▸ outside.last_mem)
    have notAfter : node ≠ rear := fun same => away (same ▸ outside.first_mem)
    have notFirst : node ≠ first := fun same => foreign (same ▸ span.first_mem)
    have notLast : node ≠ last := fun same => foreign (same ▸ span.last_mem)
    simp [Links.insertSpan, notBefore, notAfter, notFirst, notLast]

/-- An unlinked stretch gets a head of its own. -/
theorem Held.adoptSpan (held : Held links rings) (span : Span first nodes last) (nodup : (head :: nodes).Nodup)
    (chain : nodes.IsChain links.Joined) (unlinked : ∀ node ∈ head :: nodes, rings.Unlinked node) :
    Held (links.insertSpan first last head head) (Function.update rings head (some nodes)) := by
  have whole : (nodes ++ [head]).Nodup := (List.perm_append_singleton head nodes).nodup_iff.mpr nodup
  have closed : Cycle (links.insertSpan first last head head) (nodes ++ [head]) :=
    Cycle.splice span (span_singleton head) whole chain (List.isChain_singleton head)
  apply held.adopt unlinked (closed.rotate : Cycle _ ([head] ++ nodes))
  intro node absent
  simp only [List.mem_cons, not_or] at absent
  have notFirst : node ≠ first := fun same => absent.2 (same ▸ span.first_mem)
  have notLast : node ≠ last := fun same => absent.2 (same ▸ span.last_mem)
  simp [Links.insertSpan, absent.1, notFirst, notLast]

end Writes
end Rings
end YuzuOS.Library
