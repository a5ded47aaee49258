import YuzuOS.Kernel.Dlist
import YuzuOS.Library.RingHeap
import Mathlib.Data.List.Rotate
import Mathlib.Logic.Equiv.Basic

/-! The kernel's lists as sequences. Every call takes a heap of rings to a heap of
rings, and the new sequences are a function of the old ones. -/

namespace YuzuOS.Proofs.DlistSequences
open Kernel Library Rings

variable {α : Type u} {links changed : Links α} {rings : Rings α} {head entry new old list first last before after : α}
  {left right nodes others : List α}

theorem successor (ring : Ring links head (left ++ right)) (front : (head :: left).getLast? = some before) :
    (right ++ [head]).head? = some (links.next before) := by
  obtain ⟨rest, shape⟩ := List.getLast?_eq_some_iff.mp front
  have whole : head :: (left ++ right ++ [head]) = rest ++ ([before] ++ (right ++ [head])) := by
    rw [List.append_assoc, ← List.cons_append, shape]
    simp
  have joined := ring.joined
  rw [whole] at joined
  have tail := (List.isChain_append.mp joined).2.1
  obtain ⟨after, _, rear⟩ := Span.exists (show right ++ [head] ≠ [] by simp)
  rw [rear.first, ((List.isChain_append.mp tail).2.2 before rfl after rear.first).1]

theorem predecessor (ring : Ring links head (left ++ right)) (rear : (right ++ [head]).head? = some after) :
    (head :: left).getLast? = some (links.prev after) := by
  have whole : head :: (left ++ right ++ [head]) = (head :: left) ++ (right ++ [head]) := by simp
  have joined := ring.joined
  rw [whole] at joined
  obtain ⟨_, before, front⟩ := Span.exists (List.cons_ne_nil head left)
  rw [front.last, ((List.isChain_append.mp joined).2.2 before front.last after rear).2]

theorem head_next (ring : Ring links head nodes) : (nodes ++ [head]).head? = some (links.next head) :=
  successor (show Ring links head ([] ++ nodes) from ring) rfl

/-- A head and its sequence with the two links of the head. -/
theorem span_of_ring (ring : Ring links head nodes) (filled : nodes ≠ []) :
    Span (links.next head) nodes (links.prev head) := by
  obtain ⟨first, last, span⟩ := Span.exists filled
  have front := head_next ring
  have rear := predecessor (show Ring links head (nodes ++ []) by simpa using ring) rfl
  rw [List.head?_append_of_ne_nil _ filled] at front
  rw [List.getLast?_cons_of_ne_nil filled] at rear
  exact ⟨front, rear⟩

variable [DecidableEq α]

/-! ### One edit -/

theorem entryRemove_held (held : Held links rings) (found : rings head = some (left ++ entry :: right)) :
    Held (dlistEntryRemove entry links) (Function.update rings head (some (left ++ right))) := by
  have split : rings head = some (left ++ [entry] ++ right) := by simpa using found
  rw [dlistEntryRemove_eq]
  exact (held.takeSpan split (span_singleton entry)).1

theorem entryRemove_unlinked (held : Held links rings) (found : rings head = some (left ++ entry :: right)) :
    Unlinked (Function.update rings head (some (left ++ right))) entry := by
  have nodup := (List.nodup_cons.mp (held.ring found).nodup).2
  have absent : entry ∉ left ++ right := (List.nodup_middle.mp nodup |> List.nodup_cons.mp).1
  exact held.released found (by simp) absent

theorem dlistAddInternal_eq (notBefore : new ≠ before) (notAfter : new ≠ after) :
    dlistAddInternal new before after links = links.insertSpan new new before after := by
  simp only [dlistAddInternal, Links.insertSpan, Links.setNext, Links.setPrev]
  rw [Function.update_comm notAfter, Function.update_comm notBefore]

theorem addInternal_held (held : Held links rings) (found : rings head = some (left ++ right))
    (unlinked : rings.Unlinked new) (front : (head :: left).getLast? = some before)
    (rear : (right ++ [head]).head? = some after) :
    Held (dlistAddInternal new before after links) (Function.update rings head (some (left ++ new :: right))) := by
  have absent := unlinked head _ found
  have outside := span_around front rear
  have away : new ∉ right ++ head :: left := by
    simp only [List.mem_append, List.mem_cons] at absent ⊢
    tauto
  have notBefore : new ≠ before := fun same => away (same ▸ outside.last_mem)
  have notAfter : new ≠ after := fun same => away (same ▸ outside.first_mem)
  rw [dlistAddInternal_eq notBefore notAfter]
  have inserted := held.insertSpan found (span_singleton new) (List.nodup_singleton new) (List.isChain_singleton new)
    (fun node member => List.mem_singleton.mp member ▸ unlinked) front rear
  simpa using inserted

theorem addAfter_held (held : Held links rings) (found : rings head = some (left ++ right))
    (unlinked : rings.Unlinked new) (front : (head :: left).getLast? = some before) :
    Held (dlistAdd new before links) (Function.update rings head (some (left ++ new :: right))) :=
  addInternal_held held found unlinked front (successor (held.ring found) front)

theorem addBefore_held (held : Held links rings) (found : rings head = some (left ++ right))
    (unlinked : rings.Unlinked new) (rear : (right ++ [head]).head? = some after) :
    Held (dlistAddTail new after links) (Function.update rings head (some (left ++ new :: right))) :=
  addInternal_held held found unlinked (predecessor (held.ring found) rear) rear

/-- The new node is put where taking the old one out leaves a gap. -/
theorem dlistReplace_eq (more : links.next old ≠ old) (notBefore : new ≠ links.prev old)
    (notAfter : new ≠ links.next old) :
    dlistReplace old new links =
      (links.bypass (links.prev old) (links.next old)).insertSpan new new (links.prev old) (links.next old) := by
  simp only [dlistReplace, Links.insertSpan, Links.bypass, Links.setNext, Links.setPrev, Function.update_self,
    Function.update_of_ne more.symm, Links.mk.injEq]
  constructor
  · rw [Function.update_comm notBefore, Function.update_idem]
  · rw [Function.update_comm notAfter, Function.update_idem]

theorem replace_held (held : Held links rings) (found : rings head = some (left ++ old :: right))
    (unlinked : rings.Unlinked new) :
    Held (dlistReplace old new links) (Function.update rings head (some (left ++ new :: right))) := by
  have ring := held.ring found
  have split : rings head = some (left ++ [old] ++ right) := by simpa using found
  obtain ⟨front, rear, _⟩ := (held.ring split).around (span_singleton old)
  have cycle : Cycle links (head :: left ++ old :: right) := ring
  have absent := unlinked head _ found
  have more : links.next old ≠ old := cycle.next_ne (by simp)
  have notBefore : new ≠ links.prev old := fun same => absent (same ▸ cycle.prev_mem (by simp))
  have notAfter : new ≠ links.next old := fun same => absent (same ▸ cycle.next_mem (by simp))
  have taken := (held.takeSpan split (span_singleton old)).1
  have different : new ≠ head := unlinked.ne found
  have still : Unlinked (Function.update rings head (some (left ++ right))) new :=
    unlinked.update different fun inside => absent (by simp only [List.mem_append, List.mem_cons] at inside ⊢; tauto)
  rw [dlistReplace_eq more notBefore notAfter]
  have inserted := taken.insertSpan (Function.update_self ..) (span_singleton new) (List.nodup_singleton new)
    (List.isChain_singleton new) (fun node member => List.mem_singleton.mp member ▸ still) front rear
  simpa using inserted

theorem replace_unlinked (held : Held links rings) (found : rings head = some (left ++ old :: right))
    (unlinked : rings.Unlinked new) :
    Unlinked (Function.update rings head (some (left ++ new :: right))) old := by
  have nodup := (List.nodup_cons.mp (held.ring found).nodup).2
  have absent : old ∉ left ++ right := (List.nodup_middle.mp nodup |> List.nodup_cons.mp).1
  have different : old ≠ new := by
    rintro rfl
    exact unlinked head _ found (by simp)
  apply held.released found (by simp)
  simp only [List.mem_append, List.mem_cons] at absent ⊢
  tauto

theorem headInit_held (held : Held links rings) (unlinked : rings.Unlinked entry) :
    Held (dlistHeadInit entry links) (Function.update rings entry (some [])) := by
  apply held.adopt (fun node member => List.mem_singleton.mp member ▸ unlinked)
  · exact Ring.nil_iff.mpr dlistHeadInit_alone
  · intro node outside
    have different : node ≠ entry := fun same => outside (List.mem_singleton.mpr same)
    simp [dlistHeadInit, different]

theorem remove_held {null : α} (held : Held links rings) (found : rings head = some (left ++ entry :: right)) :
    Held (dlistRemove null entry links) (Function.update rings head (some (left ++ right))) := by
  apply (entryRemove_held held found).congr
  intro node linked
  have different : node ≠ entry := fun same => linked (same ▸ entryRemove_unlinked held found)
  simp [dlistRemove, different]

theorem isEmpty_iff (ring : Ring links head nodes) : dlistIsEmpty head links = true ↔ nodes = [] := by
  rw [dlistIsEmpty, decide_eq_true_eq]
  constructor
  · intro loop
    by_contra filled
    have member := (span_of_ring ring filled).first_mem
    rw [loop] at member
    exact (List.nodup_cons.mp ring.nodup).1 member
  · rintro rfl
    exact ring.next_head_nil

theorem splice_held (held : Held links rings) (source : rings list = some nodes) (filled : nodes ≠ [])
    (different : list ≠ head) (found : rings head = some (left ++ right))
    (front : (head :: left).getLast? = some before) (rear : (right ++ [head]).head? = some after) :
    Held (dlistSpliceInternal list before after links)
      (Function.update (Function.update rings list none) head (some (left ++ nodes ++ right))) := by
  have ring := held.ring source
  have span := span_of_ring ring filled
  have chain := (show Ring links list ([] ++ nodes ++ []) by simpa using ring).around span
  have here : Function.update rings list none head = some (left ++ right) := by
    rw [Function.update_of_ne different.symm, found]
  exact held.drop.insertSpan here span (List.nodup_cons.mp ring.nodup).2 chain.2.2
    (fun node member => held.dropped source (List.mem_cons_of_mem _ member)) front rear

theorem splice_unlinked (held : Held links rings) (source : rings list = some nodes) (different : list ≠ head)
    (absent : list ∉ left) (outside : list ∉ right) :
    Unlinked (Function.update (Function.update rings list none) head (some (left ++ nodes ++ right))) list := by
  apply (held.dropped source List.mem_cons_self).update different
  have own := (List.nodup_cons.mp (held.ring source).nodup).1
  simp [absent, outside, own]

theorem cut_held (held : Held links rings) (found : rings head = some (nodes ++ right)) (span : Span first nodes last)
    (unlinked : rings.Unlinked list) (rear : (right ++ [head]).head? = some after) :
    Held ((links.insertSpan first last list list).bypass head after)
      (Function.update (Function.update rings head (some right)) list (some nodes)) := by
  have split : rings head = some ([] ++ nodes ++ right) := by simpa using found
  have nodup := (held.ring found).nodup
  obtain ⟨front, leads, chain⟩ := (held.ring split).around span
  have isHead : head = links.prev first := Option.some.inj front
  have isAfter : after = links.next last := Option.some.inj (rear.symm.trans leads)
  have absent := unlinked head _ found
  have apart := (List.nodup_append.mp (List.nodup_cons.mp nodup).2).2.2
  have inside := List.mem_of_head? rear
  have headList : list ≠ head := unlinked.ne found
  have notHead : ∀ node ∈ nodes, node ≠ head := by
    rintro node member rfl
    exact (List.nodup_cons.mp nodup).1 (List.mem_append_left _ member)
  have afterList : after ≠ list := by
    rintro rfl
    apply absent
    simp only [List.mem_append, List.mem_cons, List.not_mem_nil, or_false] at inside ⊢
    tauto
  have afterFirst : after ≠ first := by
    rintro rfl
    rcases List.mem_append.mp inside with member | member
    · exact apart _ span.first_mem _ member rfl
    · exact notHead _ span.first_mem (List.mem_singleton.mp member)
  have commute : (links.insertSpan first last list list).bypass head after =
      (links.bypass head after).insertSpan first last list list := by
    simp only [Links.insertSpan, Links.bypass, Links.setNext, Links.setPrev, Links.mk.injEq]
    constructor
    · rw [Function.update_comm (notHead last span.last_mem), Function.update_comm headList]
    · rw [Function.update_comm afterList.symm, Function.update_comm afterFirst.symm]
  have taken := held.takeSpan split span
  rw [← isHead, ← isAfter] at taken
  rw [commute]
  have released : ∀ node ∈ list :: nodes, Unlinked (Function.update rings head (some ([] ++ right))) node := by
    rintro node (_ | ⟨_, member⟩)
    · exact unlinked.update headList fun within => absent (List.mem_cons_of_mem _ (List.mem_append_right _ within))
    · exact held.released found (List.mem_append_left _ member) fun within => apart _ member _ within rfl
  have distinct : (list :: nodes).Nodup := by
    refine List.nodup_cons.mpr ⟨fun member => ?_, (List.nodup_append.mp (List.nodup_cons.mp nodup).2).1⟩
    exact absent (List.mem_cons_of_mem _ (List.mem_append_left _ member))
  exact taken.1.adoptSpan span distinct taken.2 released

/-! ### What the calls do to the sequences -/

/-- A call with its arguments; the last one names the stretch between its ends. -/
inductive DlistCall (α : Type u) where
  | add (new head : α)
  | addTail (new head : α)
  | remove (entry : α)
  | removeInit (entry : α)
  | replace (old new : α)
  | replaceInit (old new : α)
  | swap (entry1 entry2 : α)
  | move (list head : α)
  | moveTail (list head : α)
  | moveTailBulk (head first last : α) (stretch : List α)
  | rotateLeft (head : α)
  | rotateFront (list head : α)
  | cutPosition (list head entry : α)
  | cutBefore (list head entry : α)
  | splice (list head : α)
  | spliceInit (list head : α)
  | spliceTail (list head : α)
  | spliceTailInit (list head : α)

namespace DlistCall

def run (null : α) : DlistCall α → Links α → Links α
  | .add new head => dlistAdd new head
  | .addTail new head => dlistAddTail new head
  | .remove entry => dlistRemove null entry
  | .removeInit entry => dlistRemoveInit entry
  | .replace old new => dlistReplace old new
  | .replaceInit old new => dlistReplaceInit old new
  | .swap entry1 entry2 => dlistSwap null entry1 entry2
  | .move list head => dlistMove list head
  | .moveTail list head => dlistMoveTail list head
  | .moveTailBulk head first last _ => dlistMoveTailBulk head first last
  | .rotateLeft head => dlistRotateLeft head
  | .rotateFront list head => dlistRotateFront list head
  | .cutPosition list head entry => dlistCutPosition list head entry
  | .cutBefore list head entry => dlistCutBefore list head entry
  | .splice list head => dlistSplice list head
  | .spliceInit list head => dlistSpliceInit list head
  | .spliceTail list head => dlistSpliceTail list head
  | .spliceTailInit list head => dlistSpliceTailInit list head

/-- What the arguments have to be. A ring that is cut off may replace one that is given up. -/
def Allowed (rings : Rings α) : DlistCall α → Prop
  | .add new head | .addTail new head => rings.Unlinked new ∧ rings.Heads head
  | .remove entry | .removeInit entry => rings.Linked entry
  | .replace old new | .replaceInit old new => rings.Linked old ∧ rings.Unlinked new
  | .swap entry1 entry2 => entry1 ≠ entry2 ∧ rings.Linked entry1 ∧ rings.Linked entry2
  | .move list head | .moveTail list head => rings.Linked list ∧ rings.Heads head
  | .moveTailBulk head first last stretch =>
    Span first stretch last ∧ (∃ source left right, rings source = some (left ++ stretch ++ right)) ∧ rings.Heads head
  | .rotateLeft head => rings.Heads head
  | .rotateFront list head => ∃ nodes, rings head = some nodes ∧ list ∈ nodes
  | .cutPosition list head entry =>
    (∃ nodes, rings head = some nodes ∧ nodes ≠ [] ∧ entry ∈ head :: nodes) ∧ list ≠ head ∧ ¬ rings.Linked list
  | .cutBefore list head entry => (∃ nodes, rings head = some nodes ∧ entry ∈ head :: nodes) ∧ list ≠ head ∧ ¬ rings.Linked list
  | .splice list head | .spliceInit list head | .spliceTail list head | .spliceTailInit list head =>
    rings.Heads list ∧ rings.Heads head ∧ list ≠ head

end DlistCall

def deleted (entry : α) (rings : Rings α) : Rings α := rings.mapAll (List.erase · entry)

def replaced (old new : α) (rings : Rings α) : Rings α :=
  rings.mapAll (List.map fun node => if node = old then new else node)

/-- One sequence cut in two after `count` nodes, the front given to `list`. -/
def cut (count : Nat) (list head : α) (rings : Rings α) : Rings α :=
  let nodes := (rings head).getD []
  Function.update (Function.update rings head (some (nodes.drop count))) list (some (nodes.take count))

/-- One sequence joined to another and its ring given up, unless it is empty. -/
def spliced (join : List α → List α → List α) (list head : α) (rings : Rings α) : Rings α :=
  let nodes := (rings list).getD []
  if nodes = [] then rings else Rings.edit head (join nodes) (Function.update rings list none)

namespace DlistCall

def apply (rings : Rings α) : DlistCall α → Rings α
  | .add new head => rings.edit head (new :: ·)
  | .addTail new head => rings.edit head (· ++ [new])
  | .remove entry => deleted entry rings
  | .removeInit entry => Function.update (deleted entry rings) entry (some [])
  | .replace old new => replaced old new rings
  | .replaceInit old new => Function.update (replaced old new rings) old (some [])
  | .swap entry1 entry2 => rings.mapAll (List.map (Equiv.swap entry1 entry2))
  | .move list head => (deleted list rings).edit head (list :: ·)
  | .moveTail list head => (deleted list rings).edit head (· ++ [list])
  | .moveTailBulk head _ _ stretch => (rings.mapAll (List.filter (· ∉ stretch))).edit head (· ++ stretch)
  | .rotateLeft head => rings.edit head (·.rotate 1)
  | .rotateFront list head => rings.edit head fun nodes => nodes.rotate (nodes.idxOf list)
  | .cutPosition list head entry => cut (if entry = head then 0 else ((rings head).getD []).idxOf entry + 1) list head rings
  | .cutBefore list head entry => cut (((rings head).getD []).idxOf entry) list head rings
  | .splice list head => spliced (fun nodes others => nodes ++ others) list head rings
  | .spliceInit list head => Function.update (spliced (fun nodes others => nodes ++ others) list head rings) list (some [])
  | .spliceTail list head => spliced (fun nodes others => others ++ nodes) list head rings
  | .spliceTailInit list head => Function.update (spliced (fun nodes others => others ++ nodes) list head rings) list (some [])

end DlistCall

/-! ### The sequences by their splits -/

theorem deleted_eq (held : Held links rings) (found : rings head = some (left ++ entry :: right)) :
    deleted entry rings = Function.update rings head (some (left ++ right)) := by
  obtain ⟨absent, _, _, elsewhere⟩ := held.once found
  rw [deleted, mapAll_eq found]
  · rw [List.erase_append_right _ absent, List.erase_cons_head]
  · exact fun other others different present => List.erase_of_not_mem (elsewhere other others different present)

theorem map_replace_of_absent (absent : old ∉ nodes) :
    (nodes.map fun node => if node = old then new else node) = nodes := by
  calc nodes.map (fun node => if node = old then new else node)
    _ = nodes.map id := by
      apply List.map_congr_left
      intro node member
      exact if_neg fun (same : node = old) => absent (same ▸ member)
    _ = nodes := List.map_id nodes

theorem replaced_eq (held : Held links rings) (found : rings head = some (left ++ old :: right)) :
    replaced old new rings = Function.update rings head (some (left ++ new :: right)) := by
  obtain ⟨absent, missing, _, elsewhere⟩ := held.once found
  rw [replaced, mapAll_eq found]
  · rw [List.map_append, List.map_cons, if_pos rfl, map_replace_of_absent absent, map_replace_of_absent missing]
  · exact fun other others different present => map_replace_of_absent (elsewhere other others different present)

theorem deleted_held (held : Held links rings) (linked : rings.Linked entry) :
    Held (dlistEntryRemove entry links) (deleted entry rings) ∧ Unlinked (deleted entry rings) entry := by
  obtain ⟨head, left, right, found⟩ := linked.split
  rw [deleted_eq held found]
  exact ⟨entryRemove_held held found, entryRemove_unlinked held found⟩

theorem replaced_held (held : Held links rings) (linked : rings.Linked old) (unlinked : rings.Unlinked new) :
    Held (dlistReplace old new links) (replaced old new rings) ∧ Unlinked (replaced old new rings) old := by
  obtain ⟨head, left, right, found⟩ := linked.split
  rw [replaced_eq held found]
  exact ⟨replace_held held found unlinked, replace_unlinked held found unlinked⟩

theorem add_held (held : Held links rings) (unlinked : rings.Unlinked new) (heads : rings.Heads head) :
    Held (dlistAdd new head links) (rings.edit head (new :: ·)) := by
  obtain ⟨nodes, found⟩ := heads
  rw [edit_eq found]
  exact addAfter_held held (show rings head = some ([] ++ nodes) from found) unlinked rfl

theorem addTail_held (held : Held links rings) (unlinked : rings.Unlinked new) (heads : rings.Heads head) :
    Held (dlistAddTail new head links) (rings.edit head (· ++ [new])) := by
  obtain ⟨nodes, found⟩ := heads
  rw [edit_eq found]
  exact addBefore_held held (show rings head = some (nodes ++ []) by simpa using found) unlinked rfl

theorem rotateLeft_held (held : Held links rings) (heads : rings.Heads head) :
    Held (dlistRotateLeft head links) (rings.edit head (·.rotate 1)) := by
  obtain ⟨nodes, found⟩ := heads
  have ring := held.ring found
  rw [edit_eq found]
  cases nodes with
  | nil =>
    rw [dlistRotateLeft, if_pos ((isEmpty_iff ring).mpr rfl), List.rotate_nil, ← found, Function.update_eq_self]
    exact held
  | cons first rest =>
    have filled : ¬ dlistIsEmpty head links = true := fun empty => List.cons_ne_nil _ _ ((isEmpty_iff ring).mp empty)
    rw [dlistRotateLeft, if_neg filled, ring.next_head, List.rotate_cons_succ, List.rotate_zero]
    have split : rings head = some ([] ++ first :: rest) := found
    have moved := addTail_held (entryRemove_held held split) (entryRemove_unlinked held split)
      ⟨rest, by rw [Function.update_self]; rfl⟩
    rw [edit_eq (Function.update_self ..), Function.update_idem] at moved
    exact moved

theorem rotateFront_held (held : Held links rings) (found : rings head = some nodes) (member : list ∈ nodes) :
    Held (dlistRotateFront list head links) (rings.edit head fun nodes => nodes.rotate (nodes.idxOf list)) := by
  obtain ⟨left, right, rfl⟩ := List.append_of_mem member
  obtain ⟨absent, _, different, _⟩ := held.once found
  rw [edit_eq found, List.idxOf_append_of_notMem absent, List.idxOf_cons_self, Nat.add_zero, List.rotate_append_length_eq]
  have noRing : rings list = none := by
    cases present : rings list with
    | none => rfl
    | some others => exact absurd (held.apart present found List.mem_cons_self (by simp)) different
  -- The ring is read from `list`, where the head is a node like any other.
  have turned := held.reread found
  have here := Function.update_self list (some (right ++ head :: left)) (Function.update rings head none)
  have removed := entryRemove_held turned here
  have unlinked := entryRemove_unlinked turned here
  rw [Function.update_idem] at removed unlinked
  have added := addTail_held removed unlinked ⟨_, Function.update_self ..⟩
  rw [edit_eq (Function.update_self ..), Function.update_idem, List.append_assoc] at added
  have there : Function.update (Function.update rings head none) list (some (right ++ (left ++ [head]))) list =
      some ((right ++ left) ++ head :: []) := by
    rw [Function.update_self]
    simp
  have back := added.reread there
  rw [Function.update_idem, Function.update_comm different.symm, Function.update_idem, ← noRing, Function.update_eq_self] at back
  exact back

/-! ### Stretches -/

theorem dlistMoveTailBulk_eq (head first last : α) (links : Links α) : dlistMoveTailBulk head first last links =
    (links.bypass (links.prev first) (links.next last)).insertSpan first last
      ((links.bypass (links.prev first) (links.next last)).prev head) head := by
  have read : Function.update links.next (links.prev first) (links.next last) last = links.next last := by
    rw [Function.update_apply, ite_eq_right_iff]
    exact fun _ => rfl
  simp only [dlistMoveTailBulk, Links.insertSpan, Links.bypass, Links.setNext, Links.setPrev, read]

theorem moveTailBulk_held {stretch : List α} {source : α} (held : Held links rings) (span : Span first stretch last)
    (found : rings source = some (left ++ stretch ++ right)) (heads : rings.Heads head) :
    Held (dlistMoveTailBulk head first last links)
      ((rings.mapAll (List.filter (· ∉ stretch))).edit head (· ++ stretch)) := by
  obtain ⟨start, nodup⟩ := List.nodup_cons.mp (held.ring found).nodup
  obtain ⟨inner, _, rest⟩ := List.nodup_append.mp nodup
  obtain ⟨_, distinct, front⟩ := List.nodup_append.mp inner
  have leftKept : left.filter (· ∉ stretch) = left := by
    simpa using fun node member inside => front node member node inside rfl
  have rightKept : right.filter (· ∉ stretch) = right := by
    simpa using fun node member inside => rest node (List.mem_append_right _ inside) node member rfl
  have gone : stretch.filter (· ∉ stretch) = [] := by simp
  have removed : rings.mapAll (List.filter (· ∉ stretch)) = Function.update rings source (some (left ++ right)) := by
    rw [mapAll_eq found]
    · rw [List.filter_append, List.filter_append, leftKept, rightKept, gone, List.append_nil]
    · intro other others different present
      simpa using fun node member inside =>
        different (held.apart present found (List.mem_cons_of_mem _ member) (by simp [inside]))
  obtain ⟨taken, chain⟩ := held.takeSpan found span
  have target : Heads (Function.update rings source (some (left ++ right))) head := removed ▸ heads.mapAll
  obtain ⟨nodes, there⟩ := target
  have whole : Function.update rings source (some (left ++ right)) head = some (nodes ++ []) := by simpa using there
  have unlinked : ∀ node ∈ stretch, Unlinked (Function.update rings source (some (left ++ right))) node := by
    intro node member
    apply held.released found (by simp [member])
    intro inside
    rcases List.mem_append.mp inside with before | after
    · exact front node before node member rfl
    · exact rest node (List.mem_append_right _ member) node after rfl
  have inserted := taken.insertSpan whole span distinct chain unlinked (predecessor (taken.ring whole) rfl) rfl
  rw [removed, edit_eq there, dlistMoveTailBulk_eq]
  simpa using inserted

theorem dlistCutPositionInternal_eq (list head entry : α) (links : Links α) :
    dlistCutPositionInternal list head entry links =
      (links.insertSpan (links.next head) entry list list).bypass head (links.next entry) := by
  simp only [dlistCutPositionInternal, Links.insertSpan, Links.bypass, Links.setNext, Links.setPrev, Function.update_self]

theorem dlistCutBefore_eq (different : links.next head ≠ entry) : dlistCutBefore list head entry links =
    (links.insertSpan (links.next head) (links.prev entry) list list).bypass head entry := by
  simp only [dlistCutBefore, if_neg different, Links.insertSpan, Links.bypass, Links.setNext, Links.setPrev,
    Function.update_self, Function.update_of_ne different.symm]

theorem cut_none_held (held : Held links rings) (heads : rings.Heads head) (free : ¬ rings.Linked list) :
    Held (dlistHeadInit list links) (cut 0 list head rings) := by
  obtain ⟨nodes, found⟩ := heads
  have init := headInit_held held.drop (unlinked_drop free)
  rw [Function.update_idem] at init
  rw [cut, found, Option.getD_some, List.drop_zero, List.take_zero, ← found, Function.update_eq_self]
  exact init

theorem cut_front_held (held : Held links rings) (found : rings head = some (nodes ++ right)) (different : list ≠ head)
    (free : ¬ rings.Linked list) (span : Span first nodes last) (rear : (right ++ [head]).head? = some after) :
    Held ((links.insertSpan first last list list).bypass head after) (cut nodes.length list head rings) := by
  have there : Function.update rings list none head = some (nodes ++ right) := by
    rw [Function.update_of_ne different.symm, found]
  have halves := cut_held held.drop there span (unlinked_drop free) rear
  rw [Function.update_comm different, Function.update_idem] at halves
  rw [cut, found, Option.getD_some, List.drop_left, List.take_left]
  exact halves

theorem cutBefore_held (held : Held links rings) (found : rings head = some nodes) (member : entry ∈ head :: nodes)
    (different : list ≠ head) (free : ¬ rings.Linked list) :
    Held (dlistCutBefore list head entry links) (cut (((rings head).getD []).idxOf entry) list head rings) := by
  have ring := held.ring found
  have split : ∃ front rear, nodes = front ++ rear ∧ (rear ++ [head]).head? = some entry ∧ entry ∉ front ∧
      nodes.idxOf entry = front.length := by
    cases member with
    | head =>
      have absent := (List.nodup_cons.mp ring.nodup).1
      exact ⟨nodes, [], by simp, rfl, absent, List.idxOf_of_notMem absent⟩
    | tail _ inside =>
      obtain ⟨front, rear, rfl⟩ := List.append_of_mem inside
      have absent := (held.once found).1
      refine ⟨front, entry :: rear, rfl, rfl, absent, ?_⟩
      rw [List.idxOf_append_of_notMem absent, List.idxOf_cons_self, Nat.add_zero]
  obtain ⟨front, rear, rfl, leads, absent, index⟩ := split
  have before := predecessor ring leads
  rw [found, Option.getD_some, index]
  by_cases empty : front = []
  · subst empty
    have next : links.next head = entry := Option.some.inj ((head_next ring).symm.trans leads)
    rw [dlistCutBefore, if_pos next]
    exact cut_none_held held ⟨_, found⟩ free
  · obtain ⟨first, last, span⟩ := Span.exists empty
    have isFirst := head_next ring
    rw [List.append_assoc, List.head?_append_of_ne_nil _ empty, span.first] at isFirst
    rw [List.getLast?_cons_of_ne_nil empty, span.last] at before
    have apart : links.next head ≠ entry := by
      rw [← Option.some.inj isFirst]
      rintro rfl
      exact absent span.first_mem
    rw [dlistCutBefore_eq apart, ← Option.some.inj isFirst, ← Option.some.inj before]
    exact cut_front_held held found different free span leads

theorem cutPosition_held (held : Held links rings) (found : rings head = some nodes) (filled : nodes ≠ [])
    (member : entry ∈ head :: nodes) (different : list ≠ head) (free : ¬ rings.Linked list) :
    Held (dlistCutPosition list head entry links)
      (cut (if entry = head then 0 else ((rings head).getD []).idxOf entry + 1) list head rings) := by
  have ring := held.ring found
  have notEmpty : ¬ dlistIsEmpty head links = true := fun empty => filled ((isEmpty_iff ring).mp empty)
  have inside : ¬ (dlistIsSingular head links = true ∧ links.next head ≠ entry ∧ head ≠ entry) := by
    rintro ⟨singular, notNext, notHead⟩
    rw [dlistIsSingular, Bool.and_eq_true, decide_eq_true_eq] at singular
    have span := span_of_ring ring filled
    rw [← singular.2] at span
    rw [span.singleton (List.nodup_cons.mp ring.nodup).2] at member
    simp [notNext.symm, notHead.symm] at member
  rw [dlistCutPosition, if_neg notEmpty, if_neg inside]
  cases member with
  | head =>
    rw [if_pos rfl, if_pos rfl]
    exact cut_none_held held ⟨_, found⟩ free
  | tail _ inside =>
    obtain ⟨front, rear, rfl⟩ := List.append_of_mem inside
    obtain ⟨absent, _, notHead, _⟩ := held.once found
    have split : rings head = some ((front ++ [entry]) ++ rear) := by simpa using found
    obtain ⟨first, last, span⟩ := Span.exists (show front ++ [entry] ≠ [] by simp)
    obtain rfl : entry = last := by simpa using span.last
    have isFirst := head_next (held.ring split)
    rw [List.append_assoc, List.head?_append_of_ne_nil _ (by simp), span.first] at isFirst
    have leads := successor (held.ring split) (show (head :: (front ++ [entry])).getLast? = some entry by simp [List.getLast?_cons])
    have count : (front ++ entry :: rear).idxOf entry + 1 = (front ++ [entry]).length := by
      rw [List.idxOf_append_of_notMem absent, List.idxOf_cons_self, List.length_append, List.length_singleton]
    rw [if_neg notHead, if_neg notHead, found, Option.getD_some, count, dlistCutPositionInternal_eq, ← Option.some.inj isFirst]
    exact cut_front_held held split different free span leads

/-! ### Joining -/

theorem spliced_nil {join : List α → List α → List α} (source : rings list = some []) :
    spliced join list head rings = rings := by
  rw [spliced, source, Option.getD_some, if_pos rfl]

theorem spliced_eq {join : List α → List α → List α} (source : rings list = some nodes) (filled : nodes ≠ [])
    (found : rings head = some others) (different : list ≠ head) :
    spliced join list head rings =
      Function.update (Function.update rings list none) head (some (join nodes others)) := by
  rw [spliced, source, Option.getD_some, if_neg filled]
  exact edit_eq (by rw [Function.update_of_ne different.symm, found])

theorem splice_cases {join : List α → List α → List α} {start stop : α} (held : Held links rings) (source : rings.Heads list)
    (target : rings.Heads head) (different : list ≠ head)
    (joined : ∀ nodes others, nodes ≠ [] → rings list = some nodes → rings head = some others →
      ∃ left right, others = left ++ right ∧ join nodes others = left ++ nodes ++ right ∧
        (head :: left).getLast? = some start ∧ (right ++ [head]).head? = some stop) :
    Held (if dlistIsEmpty list links then links else dlistSpliceInternal list start stop links) (spliced join list head rings) ∧
      Held (if dlistIsEmpty list links then links else dlistHeadInit list (dlistSpliceInternal list start stop links))
        (Function.update (spliced join list head rings) list (some [])) := by
  obtain ⟨nodes, source⟩ := source
  obtain ⟨others, target⟩ := target
  by_cases empty : nodes = []
  · subst empty
    have looks := (isEmpty_iff (held.ring source)).mpr rfl
    rw [if_pos looks, if_pos looks, spliced_nil source, ← source, Function.update_eq_self]
    exact ⟨held, held⟩
  · have looks : ¬ dlistIsEmpty list links = true := fun loop => empty ((isEmpty_iff (held.ring source)).mp loop)
    obtain ⟨left, right, rfl, shape, front, rear⟩ := joined nodes others empty source target
    have spliceHeld := splice_held held source empty different target front rear
    have absent := held.elsewhere target source different List.mem_cons_self
    simp only [List.mem_cons, List.mem_append, not_or] at absent
    rw [if_neg looks, if_neg looks, spliced_eq source empty target different, shape]
    exact ⟨spliceHeld, headInit_held spliceHeld (splice_unlinked held source different absent.2.1 absent.2.2)⟩

theorem splice_front (held : Held links rings) (source : rings.Heads list) (target : rings.Heads head)
    (different : list ≠ head) :
    Held (dlistSplice list head links) (spliced (fun nodes others => nodes ++ others) list head rings) ∧
      Held (dlistSpliceInit list head links)
        (Function.update (spliced (fun nodes others => nodes ++ others) list head rings) list (some [])) := by
  apply splice_cases held source target different
  intro nodes others _ _ found
  exact ⟨[], others, rfl, rfl, rfl, head_next (held.ring found)⟩

theorem splice_behind (held : Held links rings) (source : rings.Heads list) (target : rings.Heads head)
    (different : list ≠ head) :
    Held (dlistSpliceTail list head links) (spliced (fun nodes others => others ++ nodes) list head rings) ∧
      Held (dlistSpliceTailInit list head links)
        (Function.update (spliced (fun nodes others => others ++ nodes) list head rings) list (some [])) := by
  apply splice_cases held source target different
  intro nodes others _ _ found
  refine ⟨others, [], by simp, by simp, ?_, rfl⟩
  exact predecessor (show Ring links head (others ++ []) by simpa using held.ring found) rfl

/-! ### Exchanging -/

section Swap
variable {entry1 entry2 head1 head2 : α} {left1 right1 left2 right2 : List α}

/-- The second entry is taken out, put in the first one's place, and the first one put behind `pos`. -/
theorem swap_steps (null : α) (held : Held links rings) (found : rings head2 = some (left2 ++ entry2 :: right2))
    (there : Function.update rings head2 (some (left2 ++ right2)) head1 = some (left1 ++ entry1 :: right1))
    (again : Function.update (Function.update rings head2 (some (left2 ++ right2))) head1 (some (left1 ++ entry2 :: right1)) head2 =
      some (left ++ right))
    (front : (head2 :: left).getLast? = some (if links.prev entry2 = entry1 then entry2 else links.prev entry2)) :
    Held (dlistSwap null entry1 entry2 links)
      (Function.update (Function.update (Function.update rings head2 (some (left2 ++ right2))) head1
        (some (left1 ++ entry2 :: right1))) head2 (some (left ++ entry1 :: right))) := by
  have removed : Held (dlistRemove null entry2 links) _ := remove_held held found
  have unlinked := entryRemove_unlinked held found
  exact addAfter_held (replace_held removed there unlinked) again (replace_unlinked removed there unlinked) front

theorem map_swap_of_absent (absent : entry1 ∉ nodes) (missing : entry2 ∉ nodes) :
    nodes.map (Equiv.swap entry1 entry2) = nodes := by
  calc nodes.map (Equiv.swap entry1 entry2)
    _ = nodes.map id := by
      apply List.map_congr_left
      intro node member
      exact Equiv.swap_apply_of_ne_of_ne (fun same => absent (same ▸ member)) fun same => missing (same ▸ member)
    _ = nodes := List.map_id nodes

omit [DecidableEq α] in
theorem last_cons_cons (head old node : α) (left rest : List α) :
    (head :: (left ++ old :: node :: rest)).getLast? = (node :: rest).getLast? := by
  have split : head :: (left ++ old :: node :: rest) = (head :: (left ++ [old])) ++ node :: rest := by simp
  rw [split, List.getLast?_append_of_ne_nil _ (List.cons_ne_nil node rest)]

theorem last_replaced (front : (head :: (left ++ old :: right)).getLast? = some before) (absent : old ∉ right) :
    (head :: (left ++ new :: right)).getLast? = some (if before = old then new else before) := by
  cases right with
  | nil =>
    have same : old = before := by simpa [List.getLast?_cons] using front
    simp [List.getLast?_cons, same]
  | cons node rest =>
    rw [last_cons_cons] at front ⊢
    have inside := List.mem_of_getLast? front
    have different : before ≠ old := fun same => absent (same ▸ inside)
    rw [if_neg different, front]

/-- Two entries of one sequence, in either order. -/
theorem swap_same (null : α) (held : Held links rings) (different : entry1 ≠ entry2)
    (found : rings head = some (left2 ++ entry2 :: right2)) (member : entry1 ∈ left2 ++ entry2 :: right2) :
    Held (dlistSwap null entry1 entry2 links) (rings.mapAll (List.map (Equiv.swap entry1 entry2))) := by
  have split : rings head = some (left2 ++ [entry2] ++ right2) := by simpa using found
  have front := ((held.ring split).around (span_singleton entry2)).1
  obtain ⟨absent2, missing2, notHead2, elsewhere2⟩ := held.once found
  have nodup := (held.ring found).nodup
  have elsewhere : ∀ other others, other ≠ head → rings other = some others →
      others.map (Equiv.swap entry1 entry2) = others := by
    intro other others apart present
    apply map_swap_of_absent _ (elsewhere2 other others apart present)
    exact fun inside => apart (held.apart present found (List.mem_cons_of_mem _ inside) (List.mem_cons_of_mem _ member))
  rw [mapAll_eq found elsewhere]
  simp only [List.mem_append, List.mem_cons, different, false_or] at member
  rcases member with inside | inside
  · obtain ⟨front1, rear1, rfl⟩ := List.append_of_mem inside
    have whole : rings head = some (front1 ++ entry1 :: (rear1 ++ entry2 :: right2)) := by simpa using found
    obtain ⟨absent1, missing1, _, _⟩ := held.once whole
    simp only [List.mem_append, List.mem_cons, not_or] at missing1 absent2
    have there : Function.update rings head (some ((front1 ++ entry1 :: rear1) ++ right2)) head =
        some (front1 ++ entry1 :: (rear1 ++ right2)) := by simp
    have again : Function.update (Function.update rings head (some ((front1 ++ entry1 :: rear1) ++ right2))) head
        (some (front1 ++ entry2 :: (rear1 ++ right2))) head = some ((front1 ++ entry2 :: rear1) ++ right2) := by simp
    have stepped := swap_steps null held found there again (last_replaced front missing1.1)
    rw [Function.update_idem, Function.update_idem] at stepped
    rw [List.map_append, List.map_append, List.map_cons, List.map_cons, Equiv.swap_apply_left, Equiv.swap_apply_right,
      map_swap_of_absent absent1 absent2.1, map_swap_of_absent missing1.1 absent2.2.2,
      map_swap_of_absent missing1.2.2 missing2]
    exact stepped
  · obtain ⟨front1, rear1, rfl⟩ := List.append_of_mem inside
    have whole : rings head = some ((left2 ++ entry2 :: front1) ++ entry1 :: rear1) := by simpa using found
    obtain ⟨absent1, missing1, notHead1, _⟩ := held.once whole
    simp only [List.mem_append, List.mem_cons, not_or] at absent1 missing2
    have notPos : links.prev entry2 ≠ entry1 := by
      intro same
      have before := List.mem_of_getLast? front
      rw [same] at before
      simp [notHead1, absent1.1] at before
    have there : Function.update rings head (some (left2 ++ (front1 ++ entry1 :: rear1))) head =
        some ((left2 ++ front1) ++ entry1 :: rear1) := by simp
    have again : Function.update (Function.update rings head (some (left2 ++ (front1 ++ entry1 :: rear1)))) head
        (some ((left2 ++ front1) ++ entry2 :: rear1)) head = some (left2 ++ (front1 ++ entry2 :: rear1)) := by simp
    have stepped := swap_steps null held found there again (by rw [if_neg notPos, front])
    rw [Function.update_idem, Function.update_idem] at stepped
    rw [List.map_append, List.map_cons, List.map_append, List.map_cons, Equiv.swap_apply_left, Equiv.swap_apply_right,
      map_swap_of_absent absent1.1 absent2, map_swap_of_absent absent1.2.2 missing2.1,
      map_swap_of_absent missing1 missing2.2.2]
    exact stepped

theorem swap_apart (null : α) (held : Held links rings) (found1 : rings head1 = some (left1 ++ entry1 :: right1))
    (found2 : rings head2 = some (left2 ++ entry2 :: right2)) (different : head1 ≠ head2) :
    Held (dlistSwap null entry1 entry2 links) (rings.mapAll (List.map (Equiv.swap entry1 entry2))) := by
  have split : rings head2 = some (left2 ++ [entry2] ++ right2) := by simpa using found2
  have front := ((held.ring split).around (span_singleton entry2)).1
  obtain ⟨absent1, missing1, _, elsewhere1⟩ := held.once found1
  obtain ⟨absent2, missing2, _, elsewhere2⟩ := held.once found2
  have outside1 := elsewhere1 head2 _ different.symm found2
  have outside2 := elsewhere2 head1 _ different found1
  simp only [List.mem_append, List.mem_cons, not_or] at outside1 outside2
  have notPos : links.prev entry2 ≠ entry1 := by
    intro same
    have inside := List.mem_of_getLast? front
    rw [same] at inside
    exact held.elsewhere found2 found1 different (List.mem_cons_of_mem _ (by simp : entry1 ∈ left1 ++ entry1 :: right1))
      (by simp only [List.mem_cons, List.mem_append] at inside ⊢; tauto)
  have stepped := swap_steps null held found2 (by rw [Function.update_of_ne different, found1])
    (by rw [Function.update_of_ne different.symm, Function.update_self]) (by rw [if_neg notPos, front])
  rw [Function.update_comm different, Function.update_idem] at stepped
  have exchanged : rings.mapAll (List.map (Equiv.swap entry1 entry2)) =
      Function.update (Function.update rings head1 (some (left1 ++ entry2 :: right1))) head2
        (some (left2 ++ entry1 :: right2)) := by
    funext other
    by_cases second : other = head2
    · subst second
      rw [Function.update_self, mapAll, found2, Option.map_some, List.map_append, List.map_cons, Equiv.swap_apply_right,
        map_swap_of_absent outside1.1 absent2, map_swap_of_absent outside1.2.2 missing2]
    · rw [Function.update_of_ne second]
      by_cases first : other = head1
      · subst first
        rw [Function.update_self, mapAll, found1, Option.map_some, List.map_append, List.map_cons, Equiv.swap_apply_left,
          map_swap_of_absent absent1 outside2.1, map_swap_of_absent missing1 outside2.2.2]
      · rw [Function.update_of_ne first, mapAll]
        cases present : rings other with
        | none => rfl
        | some others =>
          rw [Option.map_some, map_swap_of_absent (elsewhere1 other others first present) (elsewhere2 other others second present)]
  rw [exchanged, Function.update_comm different]
  exact stepped

theorem swap_held (null : α) (held : Held links rings) (different : entry1 ≠ entry2) (linked1 : rings.Linked entry1)
    (linked2 : rings.Linked entry2) :
    Held (dlistSwap null entry1 entry2 links) (rings.mapAll (List.map (Equiv.swap entry1 entry2))) := by
  obtain ⟨head1, left1, right1, found1⟩ := linked1.split
  obtain ⟨head2, left2, right2, found2⟩ := linked2.split
  by_cases same : head1 = head2
  · subst same
    have lists := Option.some.inj (found1.symm.trans found2)
    exact swap_same null held different found2 (lists ▸ by simp)
  · exact swap_apart null held found1 found2 same

end Swap

/-! ### Every call -/

namespace DlistCall

theorem run_held (null : α) (call : DlistCall α) (held : Held links rings) (allowed : call.Allowed rings) :
    Held (call.run null links) (call.apply rings) := by
  cases call with
  | add new head => exact add_held held allowed.1 allowed.2
  | addTail new head => exact addTail_held held allowed.1 allowed.2
  | remove entry =>
    obtain ⟨head, left, right, found⟩ := Linked.split allowed
    rw [apply, deleted_eq held found]
    exact remove_held held found
  | removeInit entry =>
    obtain ⟨removed, unlinked⟩ := deleted_held held allowed
    exact headInit_held removed unlinked
  | replace old new => exact (replaced_held held allowed.1 allowed.2).1
  | replaceInit old new =>
    obtain ⟨replaced, unlinked⟩ := replaced_held held allowed.1 allowed.2
    exact headInit_held replaced unlinked
  | swap entry1 entry2 => exact swap_held null held allowed.1 allowed.2.1 allowed.2.2
  | move list head =>
    obtain ⟨removed, unlinked⟩ := deleted_held held allowed.1
    exact add_held removed unlinked allowed.2.mapAll
  | moveTail list head =>
    obtain ⟨removed, unlinked⟩ := deleted_held held allowed.1
    exact addTail_held removed unlinked allowed.2.mapAll
  | moveTailBulk head first last stretch =>
    obtain ⟨span, ⟨source, left, right, found⟩, heads⟩ := allowed
    exact moveTailBulk_held held span found heads
  | rotateLeft head => exact rotateLeft_held held allowed
  | rotateFront list head =>
    obtain ⟨nodes, found, member⟩ := allowed
    exact rotateFront_held held found member
  | cutPosition list head entry =>
    obtain ⟨⟨nodes, found, filled, member⟩, different, free⟩ := allowed
    exact cutPosition_held held found filled member different free
  | cutBefore list head entry =>
    obtain ⟨⟨nodes, found, member⟩, different, free⟩ := allowed
    exact cutBefore_held held found member different free
  | splice list head => exact (splice_front held allowed.1 allowed.2.1 allowed.2.2).1
  | spliceInit list head => exact (splice_front held allowed.1 allowed.2.1 allowed.2.2).2
  | spliceTail list head => exact (splice_behind held allowed.1 allowed.2.1 allowed.2.2).1
  | spliceTailInit list head => exact (splice_behind held allowed.1 allowed.2.1 allowed.2.2).2

end DlistCall

/-- Each call leaves rings with the sequences it is for, and does not touch the ring of
any other sequence. -/
theorem dlist_refines_sequences (null : α) (call : DlistCall α) (held : Held links rings)
    (allowed : call.Allowed rings) :
    Held (call.run null links) (call.apply rings) ∧
      ∀ head nodes, rings head = some nodes → call.apply rings head = some nodes → ∀ node ∈ head :: nodes,
        (call.run null links).next node = links.next node ∧ (call.run null links).prev node = links.prev node := by
  have after := call.run_held null held allowed
  exact ⟨after, fun head nodes before kept node member => held.untouched after before kept member⟩

/-- Two lists, `0` with `1` and `2`, `3` with `4`: the neighbours `1` and `2` change places. -/
theorem dlist_refines_sequences_example :
    let links : Links Nat := { next := fun node => [1, 2, 0, 4, 3].getD node node, prev := fun node => [2, 0, 1, 4, 3].getD node node }
    let rings : Rings Nat := fun head => if head = 0 then some [1, 2] else if head = 3 then some [4] else none
    Held links rings ∧ Ring ((DlistCall.swap 1 2).run 9 links) 0 [2, 1] ∧
      ((DlistCall.swap 1 2).run 9 links).next 4 = 3 := by
  intro links rings
  have cases : ∀ {head nodes}, rings head = some nodes → head = 0 ∧ nodes = [1, 2] ∨ head = 3 ∧ nodes = [4] := by
    intro head nodes found
    simp only [rings] at found
    split at found
    · exact .inl ⟨‹_›, (Option.some.inj found).symm⟩
    · split at found
      · exact .inr ⟨‹_›, (Option.some.inj found).symm⟩
      · cases found
  have held : Held links rings := by
    constructor
    · intro head nodes found
      rcases cases found with ⟨rfl, rfl⟩ | ⟨rfl, rfl⟩
      · exact ⟨by decide, by simp [Links.Joined, links]⟩
      · exact ⟨by decide, by simp [Links.Joined, links]⟩
    · intro head other node nodes others found present inside within
      rcases cases found with ⟨rfl, rfl⟩ | ⟨rfl, rfl⟩ <;> rcases cases present with ⟨rfl, rfl⟩ | ⟨rfl, rfl⟩
      · rfl
      · simp only [List.mem_cons, List.not_mem_nil, or_false] at inside within
        omega
      · simp only [List.mem_cons, List.not_mem_nil, or_false] at inside within
        omega
      · rfl
  have result := dlist_refines_sequences 9 (.swap 1 2) held ⟨by decide, ⟨0, [1, 2], rfl, by decide⟩, ⟨0, [1, 2], rfl, by decide⟩⟩
  exact ⟨held, result.1.ring (by decide), (result.2 3 [4] rfl (by decide) 4 (by decide)).1⟩

/-- A run of calls, each allowed where it is made. -/
theorem dlist_run_held (null : α) (calls : List (DlistCall α)) (held : Held links rings)
    (allowed : ∀ done call rest, calls = done ++ call :: rest → call.Allowed (done.foldl DlistCall.apply rings)) :
    Held (calls.foldl (fun links call => call.run null links) links) (calls.foldl DlistCall.apply rings) := by
  induction calls generalizing links rings with
  | nil => exact held
  | cons call calls ih =>
    apply ih (call.run_held null held (allowed [] call calls rfl))
    intro done next rest shape
    exact allowed (call :: done) next rest (by rw [shape]; rfl)

end YuzuOS.Proofs.DlistSequences
