import YuzuOS.Library.Ring

/-! The kernel's intrusive lists. Every function takes addresses of embedded
`dlist_head` fields and performs the source's writes in the source's order. -/

namespace YuzuOS.Kernel
open YuzuOS.Library

/-- A node that is a ring of its own: initialised and in no list. -/
def Alone {α : Type u} (links : Links α) (entry : α) : Prop := links.next entry = entry ∧ links.prev entry = entry

theorem Alone.congr {α : Type u} {links links' : Links α} {entry : α} (alone : Alone links entry)
    (same : links'.next entry = links.next entry ∧ links'.prev entry = links.prev entry) : Alone links' entry :=
  ⟨same.1.trans alone.1, same.2.trans alone.2⟩

variable {α : Type u} [DecidableEq α]

def dlistHeadInit (list : α) (links : Links α) : Links α :=
  (links.setNext list list).setPrev list list

def dlistIsEmpty (head : α) (links : Links α) : Bool := links.next head = head

def dlistIsLast (list head : α) (links : Links α) : Bool := links.next list = head

def dlistIsSingular (head : α) (links : Links α) : Bool :=
  !dlistIsEmpty head links && links.next head = links.prev head

def dlistAddInternal (new prev next : α) (links : Links α) : Links α :=
  (((links.setPrev next new).setNext new next).setPrev new prev).setNext prev new

def dlistRemoveInternal (prev next : α) (links : Links α) : Links α :=
  (links.setPrev next prev).setNext prev next

def dlistAdd (new head : α) (links : Links α) : Links α :=
  dlistAddInternal new head (links.next head) links

def dlistAddTail (new head : α) (links : Links α) : Links α :=
  dlistAddInternal new (links.prev head) head links

def dlistEntryRemove (entry : α) (links : Links α) : Links α :=
  dlistRemoveInternal (links.prev entry) (links.next entry) links

/-- The address written for `NULL` is a parameter of the address type. -/
def dlistRemove (null entry : α) (links : Links α) : Links α :=
  ((dlistEntryRemove entry links).setNext entry null).setPrev entry null

def dlistRemoveInit (entry : α) (links : Links α) : Links α :=
  dlistHeadInit entry (dlistEntryRemove entry links)

def dlistReplace (old new : α) (links : Links α) : Links α :=
  let links := links.setNext new (links.next old)
  let links := links.setPrev (links.next new) new
  let links := links.setPrev new (links.prev old)
  links.setNext (links.prev new) new

def dlistReplaceInit (old new : α) (links : Links α) : Links α :=
  dlistHeadInit old (dlistReplace old new links)

def dlistSwap (null entry1 entry2 : α) (links : Links α) : Links α :=
  let pos := links.prev entry2
  let links := dlistReplace entry1 entry2 (dlistRemove null entry2 links)
  dlistAdd entry1 (if pos = entry1 then entry2 else pos) links

def dlistMove (list head : α) (links : Links α) : Links α :=
  dlistAdd list head (dlistEntryRemove list links)

def dlistMoveTail (list head : α) (links : Links α) : Links α :=
  dlistAddTail list head (dlistEntryRemove list links)

def dlistMoveTailBulk (head first last : α) (links : Links α) : Links α :=
  let links := links.setNext (links.prev first) (links.next last)
  let links := links.setPrev (links.next last) (links.prev first)
  let links := links.setNext (links.prev head) first
  let links := links.setPrev first (links.prev head)
  let links := links.setNext last head
  links.setPrev head last

def dlistRotateLeft (head : α) (links : Links α) : Links α :=
  if dlistIsEmpty head links then links else dlistMoveTail (links.next head) head links

def dlistRotateFront (list head : α) (links : Links α) : Links α := dlistMoveTail head list links

def dlistCutPositionInternal (list head entry : α) (links : Links α) : Links α :=
  let newFirst := links.next entry
  let links := links.setNext list (links.next head)
  let links := links.setPrev (links.next list) list
  let links := links.setPrev list entry
  let links := links.setNext entry list
  let links := links.setNext head newFirst
  links.setPrev newFirst head

def dlistCutPosition (list head entry : α) (links : Links α) : Links α :=
  if dlistIsEmpty head links then links
  else if dlistIsSingular head links ∧ links.next head ≠ entry ∧ head ≠ entry then links
  else if entry = head then dlistHeadInit list links
  else dlistCutPositionInternal list head entry links

def dlistCutBefore (list head entry : α) (links : Links α) : Links α :=
  if links.next head = entry then dlistHeadInit list links
  else
    let links := links.setNext list (links.next head)
    let links := links.setPrev (links.next list) list
    let links := links.setPrev list (links.prev entry)
    let links := links.setNext (links.prev list) list
    let links := links.setNext head entry
    links.setPrev entry head

def dlistSpliceInternal (list prev next : α) (links : Links α) : Links α :=
  let first := links.next list
  let last := links.prev list
  (((links.setPrev first prev).setNext prev first).setNext last next).setPrev next last

def dlistSplice (list head : α) (links : Links α) : Links α :=
  if dlistIsEmpty list links then links else dlistSpliceInternal list head (links.next head) links

def dlistSpliceInit (list head : α) (links : Links α) : Links α :=
  if dlistIsEmpty list links then links
  else dlistHeadInit list (dlistSpliceInternal list head (links.next head) links)

def dlistSpliceTail (list head : α) (links : Links α) : Links α :=
  if dlistIsEmpty list links then links else dlistSpliceInternal list (links.prev head) head links

def dlistSpliceTailInit (list head : α) (links : Links α) : Links α :=
  if dlistIsEmpty list links then links
  else dlistHeadInit list (dlistSpliceInternal list (links.prev head) head links)

theorem dlistEntryRemove_eq (entry : α) (links : Links α) :
    dlistEntryRemove entry links = links.bypass (links.prev entry) (links.next entry) := rfl

section Cycles
variable {links : Links α} {entry new after item : α} {left right rest nodes others : List α}

theorem dlistHeadInit_alone : Alone (dlistHeadInit entry links) entry := by
  simp [Alone, dlistHeadInit]

theorem dlistRemoveInit_alone : Alone (dlistRemoveInit entry links) entry := dlistHeadInit_alone

theorem dlistIsEmpty_of_alone (alone : Alone links entry) : dlistIsEmpty entry links = true := by
  simp [dlistIsEmpty, alone.1]

/-- Taking an initialised, unlinked node out changes nothing. -/
theorem dlistRemoveInit_unlinked (alone : Alone links entry) : dlistRemoveInit entry links = links := by
  obtain ⟨next, prev⟩ := alone
  have idle : ∀ f : α → α, f entry = entry → Function.update f entry entry = f := by
    intro f same
    rw [Function.update_eq_self_iff]
    exact same.symm
  cases links
  simp only at next prev
  simp [dlistRemoveInit, dlistHeadInit, dlistEntryRemove, dlistRemoveInternal, Links.setNext, Links.setPrev,
    next, prev, idle]

theorem dlistAddTail_cycle (cycle : Cycle links (left ++ right)) (fresh : new ∉ left ++ right)
    (shape : right ++ left = after :: rest) : Cycle (dlistAddTail new after links) (left ++ new :: right) :=
  cycle.insert fresh shape

theorem dlistAdd_cycle (cycle : Cycle links (left ++ entry :: right)) (fresh : new ∉ left ++ entry :: right) :
    Cycle (dlistAdd new entry links) (left ++ entry :: new :: right) :=
  cycle.insert_after fresh

/-- A ring that loses a member does not read the removed member's links. -/
theorem dlistRemoveInit_cycle (cycle : Cycle links (left ++ entry :: right)) :
    Cycle (dlistRemoveInit entry links) (left ++ right) := by
  have gone := (List.nodup_cons.mp cycle.from_member.nodup).1
  apply cycle.remove.congr
  intro item inside
  have different : item ≠ entry := by
    rintro rfl
    exact gone (by simpa [or_comm] using inside)
  simp [dlistRemoveInit, dlistHeadInit, dlistEntryRemove_eq, different]

/-- What is left of a ring does not read the links that are cleared. -/
theorem dlistRemove_cycle (null : α) (cycle : Cycle links (left ++ entry :: right)) :
    Cycle (dlistRemove null entry links) (left ++ right) := by
  have gone := (List.nodup_cons.mp cycle.from_member.nodup).1
  apply cycle.remove.congr
  intro item inside
  have different : item ≠ entry := by
    rintro rfl
    exact gone (by simpa [or_comm] using inside)
  simp [dlistRemove, dlistEntryRemove_eq, different]

/-- Edits of one ring write only its members and the new node. -/
theorem dlistAddTail_frame (cycle : Cycle links nodes) (member : after ∈ nodes) (isNew : item ≠ new)
    (outside : item ∉ nodes) : (dlistAddTail new after links).next item = links.next item ∧
      (dlistAddTail new after links).prev item = links.prev item := by
  have isAfter : item ≠ after := fun same => outside (same ▸ member)
  have isBefore : item ≠ links.prev after := fun same => outside (same ▸ cycle.prev_mem member)
  simp [dlistAddTail, dlistAddInternal, isNew, isAfter, isBefore]

theorem dlistAdd_frame (cycle : Cycle links nodes) (member : entry ∈ nodes) (isNew : item ≠ new)
    (outside : item ∉ nodes) : (dlistAdd new entry links).next item = links.next item ∧
      (dlistAdd new entry links).prev item = links.prev item := by
  have isEntry : item ≠ entry := fun same => outside (same ▸ member)
  have isAfter : item ≠ links.next entry := fun same => outside (same ▸ cycle.next_mem member)
  simp [dlistAdd, dlistAddInternal, isNew, isEntry, isAfter]

theorem dlistRemoveInit_frame (cycle : Cycle links nodes) (member : entry ∈ nodes) (outside : item ∉ nodes) :
    (dlistRemoveInit entry links).next item = links.next item ∧
      (dlistRemoveInit entry links).prev item = links.prev item := by
  have isEntry : item ≠ entry := fun same => outside (same ▸ member)
  have isAfter : item ≠ links.next entry := fun same => outside (same ▸ cycle.next_mem member)
  have isBefore : item ≠ links.prev entry := fun same => outside (same ▸ cycle.prev_mem member)
  simp [dlistRemoveInit, dlistHeadInit, dlistEntryRemove, dlistRemoveInternal, isEntry, isAfter, isBefore]

theorem dlistAddTail_others (cycle : Cycle links nodes) (member : after ∈ nodes) (other : Cycle links others)
    (apart : ∀ item ∈ others, item ≠ new ∧ item ∉ nodes) : Cycle (dlistAddTail new after links) others :=
  other.congr fun item inside => dlistAddTail_frame cycle member (apart item inside).1 (apart item inside).2

end Cycles
end YuzuOS.Kernel
