import YuzuOS.Kernel.Dlist

/-! Priority lists. A node is embedded in two rings: `node_list` holds every
node, `prio_list` one node of each priority. `none` is a wild pointer or a loop
that does not end within its fuel. -/

namespace YuzuOS.Kernel
open YuzuOS.Library

/-- The `dlist_head` fields that one list head and its nodes embed. -/
inductive Link (ν : Type u)
  | head
  | prioList (node : ν)
  | nodeList (node : ν)
  deriving DecidableEq, Repr

structure Plist (ν : Type u) where
  links : Links (Link ν)
  prio : ν → Int

variable {ν : Type u} [DecidableEq ν]

/-- `dlist_entry(ptr, struct plist_node, prio_list)`. -/
def Link.prioEntry : Link ν → Option ν
  | .prioList node => some node
  | _ => none

/-- `dlist_entry(ptr, struct plist_node, node_list)`. -/
def Link.nodeEntry : Link ν → Option ν
  | .nodeList node => some node
  | _ => none

def plistIsHeadEmpty (list : Plist ν) : Bool := dlistIsEmpty .head list.links

def plistFirst (list : Plist ν) : Option ν := (list.links.next .head).nodeEntry

def plistLast (list : Plist ν) : Option ν := (list.links.prev .head).nodeEntry

def plistNext (node : ν) (list : Plist ν) : Option ν := (list.links.next (.nodeList node)).nodeEntry

def plistHeadInit (list : Plist ν) : Plist ν :=
  { list with links := dlistHeadInit .head list.links }

def plistNodeInit (node : ν) (prio : Int) (list : Plist ν) : Plist ν :=
  { links := dlistHeadInit (.nodeList node) (dlistHeadInit (.prioList node) list.links)
    prio := Function.update list.prio node prio }

/-- The `do … while` of `plist_add`. It gives `next_node`, `iter` and `prev` as
the loop leaves them. -/
def plistAddScan (list : Plist ν) (node first : ν) : Nat → ν → Option ν → Option (Link ν × ν × Option ν)
  | 0, _, _ => none
  | fuel + 1, iter, prev =>
    if list.prio node < list.prio iter then some (.nodeList iter, iter, prev)
    else do
      let after ← (list.links.next (.prioList iter)).prioEntry
      if after = first then some (.head, after, some iter)
      else plistAddScan list node first fuel after (some iter)

def plistAdd (fuel : Nat) (node : ν) (list : Plist ν) : Option (Plist ν) :=
  if plistIsHeadEmpty list then
    some { list with links := dlistAddTail (.nodeList node) .head list.links }
  else do
    let first ← plistFirst list
    let (nextNode, iter, prev) ← plistAddScan list node first fuel first none
    let links := if prev.all (fun prev => list.prio prev ≠ list.prio node)
      then dlistAddTail (.prioList node) (.prioList iter) list.links else list.links
    some { list with links := dlistAddTail (.nodeList node) nextNode links }

/-- The first half of `plist_remove`: a leader hands its place to the next node
and leaves the priority list. -/
def plistRemoveLeader (node : ν) (list : Plist ν) : Option (Links (Link ν)) :=
  if dlistIsEmpty (.prioList node) list.links then some list.links
  else do
    let links ← if list.links.next (.nodeList node) = .head then some list.links
      else do
        let next ← plistNext node list
        some (if dlistIsEmpty (.prioList next) list.links
          then dlistAdd (.prioList next) (.prioList node) list.links else list.links)
    some (dlistRemoveInit (.prioList node) links)

def plistRemove (node : ν) (list : Plist ν) : Option (Plist ν) := do
  let links ← plistRemoveLeader node list
  some { list with links := dlistRemoveInit (.nodeList node) links }

/-- The `plist_foreach_continue` of `plist_requeue`, from the link after `iter`
on. It gives `node_next`. -/
def plistRequeueScan (list : Plist ν) (node : ν) : Nat → Link ν → Option (Link ν)
  | 0, _ => none
  | _ + 1, .head => some .head
  | fuel + 1, pos => do
    let iter ← pos.nodeEntry
    if list.prio node ≠ list.prio iter then some pos
    else plistRequeueScan list node fuel (list.links.next pos)

def plistRequeue (fuel : Nat) (node : ν) (list : Plist ν) : Option (Plist ν) :=
  if list.links.prev .head = .nodeList node then some list
  else do
    let iter ← plistNext node list
    if list.prio node ≠ list.prio iter then some list
    else do
      let removed ← plistRemove node list
      let nodeNext ← plistRequeueScan removed node fuel (removed.links.next (.nodeList iter))
      some { removed with links := dlistAddTail (.nodeList node) nodeNext removed.links }

end YuzuOS.Kernel
