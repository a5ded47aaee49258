import Mathlib.Data.List.Chain
import Mathlib.Data.List.Nodup
import Mathlib.Logic.Function.Basic

/-! Circular doubly linked lists over an arbitrary address type. A ring is read
from any of its members as the sequence of the others, so every edit reduces to
a rotation, an insertion at the tail, or the removal of the starting member. -/

namespace YuzuOS.Library

variable {α : Type u}

/-- The two link fields stored at every address. -/
structure Links (α : Type u) where
  next : α → α
  prev : α → α

namespace Links

section Writes
variable [DecidableEq α]

def setNext (links : Links α) (entry value : α) : Links α :=
  { links with next := Function.update links.next entry value }

def setPrev (links : Links α) (entry value : α) : Links α :=
  { links with prev := Function.update links.prev entry value }

/-- The four writes that put `new` between two neighbours. -/
def insertBetween (links : Links α) (new before after : α) : Links α :=
  (((links.setPrev after new).setNext new after).setPrev new before).setNext before new

/-- The two writes that make neighbours of `before` and `after`. -/
def bypass (links : Links α) (before after : α) : Links α :=
  (links.setPrev after before).setNext before after

@[simp] theorem setNext_next (links : Links α) (entry value : α) :
    (links.setNext entry value).next = Function.update links.next entry value := rfl

@[simp] theorem setNext_prev (links : Links α) (entry value : α) :
    (links.setNext entry value).prev = links.prev := rfl

@[simp] theorem setPrev_next (links : Links α) (entry value : α) :
    (links.setPrev entry value).next = links.next := rfl

@[simp] theorem setPrev_prev (links : Links α) (entry value : α) :
    (links.setPrev entry value).prev = Function.update links.prev entry value := rfl

end Writes

def Joined (links : Links α) (first second : α) : Prop :=
  links.next first = second ∧ links.prev second = first

end Links

/-- Starting from `head` and following `next` visits `nodes` in order and
returns to `head`; `prev` goes the same way back. -/
structure Ring (links : Links α) (head : α) (nodes : List α) : Prop where
  nodup : (head :: nodes).Nodup
  joined : (head :: (nodes ++ [head])).IsChain links.Joined

namespace Ring
variable {links links' : Links α} {head entry new : α} {nodes left right : List α}

theorem nil_iff : Ring links head [] ↔ links.next head = head ∧ links.prev head = head := by
  constructor
  · intro ring
    simpa [Links.Joined] using ring.joined
  · intro loop
    exact ⟨by simp, by simpa [Links.Joined] using loop⟩

theorem next_head (ring : Ring links head (entry :: nodes)) : links.next head = entry :=
  (List.isChain_cons_cons.mp ring.joined).1.1

theorem next_head_nil (ring : Ring links head []) : links.next head = head := (nil_iff.mp ring).1

/-- The first member, or the head of a ring of its own. -/
theorem next_first (ring : Ring links head nodes) : links.next head = nodes.headD head := by
  cases nodes with
  | nil => exact ring.next_head_nil
  | cons entry nodes => exact ring.next_head

private theorem chain_unique {last : α} {first second : List α} (absent : last ∉ first) (missing : last ∉ second)
    (chain : (entry :: (first ++ [last])).IsChain links.Joined)
    (again : (entry :: (second ++ [last])).IsChain links.Joined) : first = second := by
  induction first generalizing entry second with
  | nil =>
    cases second with
    | nil => rfl
    | cons item rest =>
      have here := (List.isChain_cons_cons.mp chain).1.1
      have there := (List.isChain_cons_cons.mp again).1.1
      exact False.elim (missing (here.symm.trans there ▸ List.mem_cons_self))
  | cons item rest ih =>
    obtain ⟨here, chain⟩ := List.isChain_cons_cons.mp chain
    cases second with
    | nil =>
      have there := (List.isChain_cons_cons.mp again).1.1
      exact False.elim (absent (there.symm.trans here.1 ▸ List.mem_cons_self))
    | cons other others =>
      obtain ⟨there, again⟩ := List.isChain_cons_cons.mp again
      have same : other = item := there.1.symm.trans here.1
      subst same
      rw [ih (fun member => absent (List.mem_cons_of_mem _ member)) (fun member => missing (List.mem_cons_of_mem _ member))
        chain again]

/-- The links decide what the ring holds. -/
theorem unique (ring : Ring links head left) (other : Ring links head right) : left = right :=
  chain_unique (List.nodup_cons.mp ring.nodup).1 (List.nodup_cons.mp other.nodup).1 ring.joined other.joined

/-- A ring may be read from any member. -/
theorem rotate (ring : Ring links head (left ++ entry :: right)) :
    Ring links entry (right ++ head :: left) := by
  have split : (head :: left ++ [entry]).IsChain links.Joined ∧
      (entry :: (right ++ [head])).IsChain links.Joined := by
    apply List.isChain_split.mp
    simpa using ring.joined
  constructor
  · have order : (head :: (left ++ entry :: right)).Perm (entry :: (right ++ head :: left)) := by
      have swap : (head :: left ++ entry :: right).Perm (entry :: right ++ head :: left) :=
        List.perm_append_comm
      simpa using swap
    exact order.nodup_iff.mp ring.nodup
  · have whole : ((entry :: right) ++ head :: (left ++ [entry])).IsChain links.Joined :=
      List.isChain_split.mpr ⟨by simpa using split.2, by simpa using split.1⟩
    simpa using whole

/-- What comes behind a member. -/
theorem next_member (ring : Ring links head (left ++ entry :: right)) : links.next entry = right.headD head := by
  rw [ring.rotate.next_first]
  cases right with
  | nil => rfl
  | cons second right => rfl

/-- Only the links of a ring's own members matter to it. -/
theorem congr (ring : Ring links head nodes)
    (same : ∀ item ∈ head :: nodes, links'.next item = links.next item ∧ links'.prev item = links.prev item) :
    Ring links' head nodes := by
  refine ⟨ring.nodup, ring.joined.imp_of_mem_imp ?_⟩
  intro first second firstMember secondMember joined
  have member : ∀ item, item ∈ head :: (nodes ++ [head]) → item ∈ head :: nodes := by
    intro item inside
    simp only [List.mem_cons, List.mem_append, List.not_mem_nil, or_false] at inside ⊢
    tauto
  exact ⟨(same first (member first firstMember)).1.trans joined.1,
    (same second (member second secondMember)).2.trans joined.2⟩

/-- The members from `head` to the last one, and the edge that closes the ring. -/
theorem open_iff {last : α} {front : List α} (shape : head :: nodes = front ++ [last]) :
    Ring links head nodes ↔
      (head :: nodes).Nodup ∧ (head :: nodes).IsChain links.Joined ∧ links.Joined last head := by
  have close : head :: (nodes ++ [head]) = front ++ last :: [head] := by
    rw [← List.cons_append, shape]
    simp
  constructor
  · intro ring
    have split := List.isChain_split.mp (close ▸ ring.joined)
    exact ⟨ring.nodup, shape ▸ split.1, by simpa using split.2⟩
  · rintro ⟨nodup, chain, closed⟩
    refine ⟨nodup, ?_⟩
    rw [close]
    exact List.isChain_split.mpr ⟨shape ▸ chain, by simpa using closed⟩

theorem exists_last (head : α) (nodes : List α) : ∃ front last, head :: nodes = front ++ [last] :=
  ⟨(head :: nodes).dropLast, (head :: nodes).getLast (by simp), (List.dropLast_append_getLast (by simp)).symm⟩

/-- The edges of a ring leave no member twice and enter none twice. -/
private theorem tail_edge (ring : Ring links head nodes) {first second : α}
    (inside : second ∈ nodes) (joined : links.Joined first second) {last : α}
    (closed : links.Joined last head) : first ≠ last ∧ second ≠ head := by
  have different : second ≠ head := by
    rintro rfl
    exact (List.nodup_cons.mp ring.nodup).1 inside
  refine ⟨?_, different⟩
  rintro rfl
  exact different (joined.1.symm.trans closed.1)

section Edits
variable [DecidableEq α]

theorem insert_tail (ring : Ring links head nodes) (fresh : new ∉ head :: nodes) :
    Ring (links.insertBetween new (links.prev head) head) head (nodes ++ [new]) := by
  obtain ⟨front, last, shape⟩ := exists_last head nodes
  obtain ⟨nodup, chain, closed⟩ := (open_iff shape).mp ring
  have lastMember : last ∈ head :: nodes := by rw [shape]; simp
  have newLast : new ≠ last := fun same => fresh (same ▸ lastMember)
  have newHead : new ≠ head := fun same => fresh (same ▸ List.mem_cons_self)
  have grown : head :: (nodes ++ [new]) = (head :: nodes) ++ [new] := by simp
  rw [closed.2]
  apply (open_iff grown).mpr
  refine ⟨?_, ?_, ?_⟩
  · have order : (new :: head :: nodes).Perm (head :: (nodes ++ [new])) := by
      simpa using (List.perm_append_singleton new (head :: nodes)).symm
    exact order.nodup_iff.mp (List.nodup_cons.mpr ⟨fresh, nodup⟩)
  · rw [← List.cons_append, shape, List.append_assoc, List.singleton_append]
    refine List.isChain_split.mpr ⟨?_, by simp [Links.Joined, Links.insertBetween]⟩
    rw [← shape]
    apply chain.imp_of_mem_tail_imp
    intro first second firstMember secondMember joined
    have different := tail_edge ring secondMember joined closed
    have firstNew : first ≠ new := fun same => fresh (same ▸ firstMember)
    have secondNew : second ≠ new := fun same => fresh (same ▸ List.mem_cons_of_mem _ secondMember)
    constructor
    · simpa [Links.insertBetween, different.1, firstNew] using joined.1
    · simpa [Links.insertBetween, different.2, secondNew] using joined.2
  · simp [Links.Joined, Links.insertBetween, newLast, newHead.symm]

/-- Removing the member a ring is read from leaves the ring of the others. -/
theorem remove_head (ring : Ring links entry (head :: nodes)) :
    Ring (links.bypass (links.prev entry) (links.next entry)) head nodes := by
  obtain ⟨front, last, shape⟩ := exists_last head nodes
  have whole : entry :: head :: nodes = (entry :: front) ++ [last] := by rw [shape]; rfl
  obtain ⟨nodup, chain, closed⟩ := (open_iff whole).mp ring
  have fresh := (List.nodup_cons.mp nodup).1
  have started := List.isChain_cons_cons.mp chain
  rw [closed.2, started.1.1]
  apply (open_iff shape).mpr
  refine ⟨(List.nodup_cons.mp nodup).2, ?_, by simp [Links.Joined, Links.bypass]⟩
  apply started.2.imp_of_mem_tail_imp
  intro first second firstMember secondMember joined
  have headSecond : second ≠ head := by
    rintro rfl
    exact (List.nodup_cons.mp (List.nodup_cons.mp nodup).2).1 secondMember
  have lastFirst : first ≠ last := by
    rintro rfl
    exact fresh ((joined.1.symm.trans closed.1) ▸ List.mem_cons_of_mem _ secondMember)
  constructor
  · simpa [Links.bypass, lastFirst] using joined.1
  · simpa [Links.bypass, headSecond] using joined.2

end Edits
end Ring

/-- A circular sequence that may be empty and has no distinguished member. -/
def Cycle (links : Links α) : List α → Prop
  | [] => True
  | head :: nodes => Ring links head nodes

namespace Cycle
variable {links links' : Links α} {entry new after : α} {left right rest : List α}

theorem rotate (cycle : Cycle links (left ++ right)) : Cycle links (right ++ left) := by
  cases left with
  | nil => simpa using cycle
  | cons head left =>
    cases right with
    | nil => simpa using cycle
    | cons entry right => exact Ring.rotate cycle

theorem nodup {nodes : List α} (cycle : Cycle links nodes) : nodes.Nodup := by
  cases nodes with
  | nil => exact List.nodup_nil
  | cons head nodes => exact Ring.nodup cycle

theorem congr {nodes : List α} (cycle : Cycle links nodes)
    (same : ∀ item ∈ nodes, links'.next item = links.next item ∧ links'.prev item = links.prev item) :
    Cycle links' nodes := by
  cases nodes with
  | nil => trivial
  | cons head nodes => exact Ring.congr cycle same

theorem from_member (cycle : Cycle links (left ++ entry :: right)) : Ring links entry (right ++ left) :=
  cycle.rotate

/-- A member's successor, read cyclically, and the way back from it. -/
theorem next (cycle : Cycle links (left ++ entry :: right)) (shape : right ++ left ++ [entry] = after :: rest) :
    links.next entry = after ∧ links.prev after = entry := by
  have turned := cycle.from_member
  cases whole : right ++ left with
  | nil =>
    rw [whole] at turned shape
    cases shape
    exact Ring.nil_iff.mp turned
  | cons first others =>
    rw [whole] at turned shape
    cases shape
    exact (List.isChain_cons_cons.mp turned.joined).1

private theorem exists_after (left right : List α) (entry : α) :
    ∃ after rest, right ++ left ++ [entry] = after :: rest :=
  List.exists_cons_of_ne_nil (by simp)

theorem next_mem {nodes : List α} (cycle : Cycle links nodes) (inside : entry ∈ nodes) :
    links.next entry ∈ nodes := by
  obtain ⟨left, right, rfl⟩ := List.append_of_mem inside
  obtain ⟨after, rest, shape⟩ := exists_after left right entry
  have member : after ∈ right ++ left ++ [entry] := by rw [shape]; exact List.mem_cons_self
  rw [(cycle.next shape).1]
  simp only [List.mem_append, List.mem_cons, List.not_mem_nil, or_false] at member ⊢
  tauto

/-- No member of a longer ring points at itself. -/
theorem next_ne (cycle : Cycle links (left ++ entry :: right)) (more : left ++ right ≠ []) :
    links.next entry ≠ entry := by
  have turned := cycle.from_member
  cases whole : right ++ left with
  | nil => simp_all
  | cons first others =>
    rw [whole] at turned
    rw [turned.next_head]
    rintro rfl
    exact (List.nodup_cons.mp turned.nodup).1 List.mem_cons_self

theorem prev_mem {nodes : List α} (cycle : Cycle links nodes) (inside : entry ∈ nodes) :
    links.prev entry ∈ nodes := by
  obtain ⟨left, right, rfl⟩ := List.append_of_mem inside
  obtain ⟨front, last, shape⟩ := Ring.exists_last entry (right ++ left)
  have turned := cycle.from_member
  have member : last ∈ entry :: (right ++ left) := by rw [shape]; simp
  rw [((Ring.open_iff shape).mp turned).2.2.2]
  simp only [List.mem_append, List.mem_cons] at member ⊢
  tauto

theorem next_prev {nodes : List α} (cycle : Cycle links nodes) (inside : entry ∈ nodes) :
    links.next (links.prev entry) = entry := by
  obtain ⟨left, right, rfl⟩ := List.append_of_mem inside
  obtain ⟨front, last, shape⟩ := Ring.exists_last entry (right ++ left)
  have closed := ((Ring.open_iff shape).mp cycle.from_member).2.2
  rw [closed.2, closed.1]

section Edits
variable [DecidableEq α]

/-- Insertion in front of whatever follows `left`, cyclically. -/
theorem insert (cycle : Cycle links (left ++ right)) (fresh : new ∉ left ++ right)
    (shape : right ++ left = after :: rest) :
    Cycle (links.insertBetween new (links.prev after) after) (left ++ new :: right) := by
  have turned : Ring links after rest := by
    have turned := cycle.rotate
    rwa [shape] at turned
  have absent : new ∉ after :: rest := by
    rw [← shape]
    simp only [List.mem_append] at fresh ⊢
    tauto
  have added : Cycle (links.insertBetween new (links.prev after) after) (right ++ (left ++ [new])) := by
    have grown : right ++ (left ++ [new]) = after :: (rest ++ [new]) := by
      rw [← List.append_assoc, shape]
      rfl
    rw [grown]
    exact turned.insert_tail absent
  simpa using added.rotate

/-- Insertion directly behind a member. -/
theorem insert_after (cycle : Cycle links (left ++ entry :: right)) (fresh : new ∉ left ++ entry :: right) :
    Cycle (links.insertBetween new entry (links.next entry)) (left ++ entry :: new :: right) := by
  obtain ⟨after, rest, shape⟩ := exists_after left right entry
  have step := cycle.next shape
  have grouped : left ++ entry :: right = (left ++ [entry]) ++ right := by simp
  rw [grouped] at cycle fresh
  have added := cycle.insert fresh (by rw [← List.append_assoc]; exact shape)
  rw [step.2] at added
  rw [step.1]
  simpa using added

theorem remove (cycle : Cycle links (left ++ entry :: right)) :
    Cycle (links.bypass (links.prev entry) (links.next entry)) (left ++ right) := by
  have turned := cycle.from_member
  apply rotate
  cases whole : right ++ left with
  | nil => trivial
  | cons head nodes =>
    rw [whole] at turned
    exact turned.remove_head

end Edits
end Cycle
end YuzuOS.Library
