import YuzuOS.Proofs.PlistQueue

/-! Every sequence of list operations runs like a stable priority queue, whose
nodes are ordered by priority and then by the turn they arrived in. -/

namespace YuzuOS.Proofs.PlistRefinement
open YuzuOS.Library YuzuOS.Kernel YuzuOS.Proofs.PlistQueue

inductive PlistOp (ν : Type u)
  | init (node : ν) (prio : Int)
  | add (node : ν)
  | remove (node : ν)
  | requeue (node : ν)

variable {ν : Type u}

def plistStep [DecidableEq ν] (fuel : Nat) (list : Plist ν) : PlistOp ν → Option (Plist ν)
  | .init node prio => some (plistNodeInit node prio list)
  | .add node => plistAdd fuel node list
  | .remove node => plistRemove node list
  | .requeue node => plistRequeue fuel node list

def Earlier (prio : ν → Int) (arrived : ν → Nat) (first second : ν) : Prop :=
  prio first < prio second ∨ prio first = prio second ∧ arrived first < arrived second

theorem Earlier.le {prio : ν → Int} {arrived : ν → Nat} {first second : ν}
    (earlier : Earlier prio arrived first second) : prio first ≤ prio second := by
  rcases earlier with less | ⟨same, _⟩
  · exact less.le
  · exact same.le

theorem Earlier.irrefl {prio : ν → Int} {arrived : ν → Nat} (node : ν) : ¬ Earlier prio arrived node node := by
  simp [Earlier]

/-- A stable priority queue over initialised nodes. `arrived` is the turn of a
node's last addition or requeue. -/
structure Queue (ν : Type u) where
  ready : List ν
  nodes : List ν
  prio : ν → Int
  arrived : ν → Nat
  clock : Nat
  known : ∀ node ∈ nodes, node ∈ ready
  past : ∀ node ∈ nodes, arrived node < clock
  ordered : nodes.Pairwise (Earlier prio arrived)

namespace Queue
variable {queue next : Queue ν} {node : ν}

def empty : Queue ν := ⟨[], [], fun _ => 0, fun _ => 0, 0, by simp, by simp, .nil⟩

/-- The node that a stable priority queue serves first. -/
def Oldest (queue : Queue ν) (node : ν) : Prop :=
  node ∈ queue.nodes ∧ ∀ other ∈ queue.nodes, other ≠ node → Earlier queue.prio queue.arrived node other

theorem sorted (queue : Queue ν) : SortedBy queue.prio queue.nodes := queue.ordered.imp Earlier.le

theorem nodup (queue : Queue ν) : queue.nodes.Nodup := by
  apply queue.ordered.imp
  intro first second earlier same
  rw [same] at earlier
  exact Earlier.irrefl second earlier

theorem oldest_iff_head : queue.Oldest node ↔ queue.nodes.head? = some node := by
  cases shape : queue.nodes with
  | nil => simp [Oldest, shape]
  | cons first rest =>
    have ahead := List.pairwise_cons.mp (shape ▸ queue.ordered)
    simp only [List.head?_cons, Option.some.injEq]
    constructor
    · intro oldest
      by_contra different
      have inside : node ∈ first :: rest := shape ▸ oldest.1
      have later := ahead.1 node (by simpa [Ne.symm different] using inside)
      have before := oldest.2 first (by rw [shape]; exact List.mem_cons_self) different
      simp only [Earlier] at later before
      omega
    · rintro rfl
      refine ⟨by rw [shape]; exact List.mem_cons_self, fun other member different => ?_⟩
      rw [shape] at member
      exact ahead.1 other (by simpa [different] using member)

variable [DecidableEq ν]

/-- Joining behind every node of the same priority keeps the order of arrival. -/
private theorem join_ordered {prio : ν → Int} {arrived : ν → Nat} {clock : Nat} {nodes : List ν}
    (ordered : nodes.Pairwise (Earlier prio arrived)) (past : ∀ other ∈ nodes, arrived other < clock)
    (fresh : node ∉ nodes) :
    (stableInsert prio node nodes).Pairwise (Earlier prio (Function.update arrived node clock)) := by
  have stamped : nodes.Pairwise (Earlier prio (Function.update arrived node clock)) := by
    apply ordered.imp_of_mem
    intro first second firstMember secondMember earlier
    have firstOther : first ≠ node := fun same => fresh (same ▸ firstMember)
    have secondOther : second ≠ node := fun same => fresh (same ▸ secondMember)
    simpa [Earlier, firstOther, secondOther] using earlier
  have sorted : SortedBy prio nodes := ordered.imp Earlier.le
  obtain ⟨low, high, rfl, inserted, below, above⟩ := stableInsert_split node sorted
  rw [inserted]
  obtain ⟨lower, upper, across⟩ := List.pairwise_append.mp stamped
  refine List.pairwise_append.mpr ⟨lower, List.pairwise_cons.mpr ⟨fun item member => .inl (above item member), upper⟩, ?_⟩
  intro first firstMember second secondMember
  rcases List.mem_cons.mp secondMember with rfl | secondMember
  · have other : first ≠ second := fun same => fresh (same ▸ List.mem_append_left _ firstMember)
    rcases lt_or_eq_of_le (below first firstMember) with less | same
    · exact .inl less
    · exact .inr ⟨same, by simpa [other] using past first (List.mem_append_left _ firstMember)⟩
  · exact across first firstMember second secondMember

def init (queue : Queue ν) (node : ν) (prio : Int) (fresh : node ∉ queue.nodes) : Queue ν where
  ready := node :: queue.ready
  nodes := queue.nodes
  prio := Function.update queue.prio node prio
  arrived := queue.arrived
  clock := queue.clock
  known := fun other member => List.mem_cons_of_mem _ (queue.known other member)
  past := queue.past
  ordered := by
    apply queue.ordered.imp_of_mem
    intro first second firstMember secondMember earlier
    have firstOther : first ≠ node := fun same => fresh (same ▸ firstMember)
    have secondOther : second ≠ node := fun same => fresh (same ▸ secondMember)
    simpa [Earlier, firstOther, secondOther] using earlier

private def join (queue : Queue ν) (node : ν) (rest : List ν) (within : rest.Sublist queue.nodes)
    (ready : node ∈ queue.ready) (fresh : node ∉ rest) : Queue ν where
  ready := queue.ready
  nodes := stableInsert queue.prio node rest
  prio := queue.prio
  arrived := Function.update queue.arrived node queue.clock
  clock := queue.clock + 1
  known := by
    intro other member
    rcases List.mem_cons.mp ((stableInsert_perm node rest).mem_iff.mp member) with rfl | member
    · exact ready
    · exact queue.known other (within.subset member)
  past := by
    intro other member
    rcases List.mem_cons.mp ((stableInsert_perm node rest).mem_iff.mp member) with rfl | member
    · simp
    · have different : other ≠ node := fun same => fresh (same ▸ member)
      have bound := queue.past other (within.subset member)
      simp only [Function.update_of_ne different]
      omega
  ordered := join_ordered (queue.ordered.sublist within)
    (fun other member => queue.past other (within.subset member)) fresh

def add (queue : Queue ν) (node : ν) (ready : node ∈ queue.ready) (fresh : node ∉ queue.nodes) : Queue ν :=
  queue.join node queue.nodes (List.Sublist.refl _) ready fresh

def remove (queue : Queue ν) (node : ν) : Queue ν where
  ready := queue.ready
  nodes := queue.nodes.erase node
  prio := queue.prio
  arrived := queue.arrived
  clock := queue.clock
  known := fun other member => queue.known other (List.mem_of_mem_erase member)
  past := fun other member => queue.past other (List.mem_of_mem_erase member)
  ordered := queue.ordered.sublist List.erase_sublist

def requeue (queue : Queue ν) (node : ν) (queued : node ∈ queue.nodes) : Queue ν :=
  queue.join node (queue.nodes.erase node) List.erase_sublist (queue.known node queued)
    (fun member => (queue.nodup.mem_erase_iff.mp member).1 rfl)

/-- One operation. Only an initialised node outside the list may be added, and
a node in the list is not initialised anew. -/
def step (queue : Queue ν) : PlistOp ν → Option (Queue ν)
  | .init node prio => if fresh : node ∉ queue.nodes then some (queue.init node prio fresh) else none
  | .add node =>
    if admitted : node ∈ queue.ready ∧ node ∉ queue.nodes then some (queue.add node admitted.1 admitted.2) else none
  | .remove node => if node ∈ queue.ready then some (queue.remove node) else none
  | .requeue node => if queued : node ∈ queue.nodes then some (queue.requeue node queued) else none

def Joins (prio : ν → Int) (node : ν) (others nodes : List ν) : Prop :=
  ∃ low high, others = low ++ high ∧ nodes = low ++ node :: high ∧
    (∀ item ∈ low, prio item ≤ prio node) ∧ ∀ item ∈ high, prio node < prio item

def Effect (before after : Queue ν) : PlistOp ν → Prop
  | .init _ _ => after.nodes = before.nodes
  | .add node => Joins before.prio node before.nodes after.nodes
  | .remove node => after.nodes = before.nodes.erase node
  | .requeue node => Joins before.prio node (before.nodes.erase node) after.nodes

theorem step_effect {op : PlistOp ν} (stepped : queue.step op = some next) : Effect queue next op := by
  cases op with
  | init node prio =>
    simp only [step, Option.dite_none_right_eq_some, Option.some.injEq] at stepped
    obtain ⟨_, rfl⟩ := stepped
    rfl
  | add node =>
    simp only [step, Option.dite_none_right_eq_some, Option.some.injEq] at stepped
    obtain ⟨_, rfl⟩ := stepped
    exact stableInsert_split node queue.sorted
  | remove node =>
    simp only [step, Option.ite_none_right_eq_some, Option.some.injEq] at stepped
    obtain ⟨_, rfl⟩ := stepped
    rfl
  | requeue node =>
    simp only [step, Option.dite_none_right_eq_some, Option.some.injEq] at stepped
    obtain ⟨_, rfl⟩ := stepped
    exact stableInsert_split node (queue.sorted.erase node)

theorem step_length {op : PlistOp ν} (stepped : queue.step op = some next) :
    next.nodes.length ≤ queue.nodes.length + 1 := by
  cases op with
  | init node prio =>
    simp only [step, Option.dite_none_right_eq_some, Option.some.injEq] at stepped
    obtain ⟨_, rfl⟩ := stepped
    simp [init]
  | add node =>
    simp only [step, Option.dite_none_right_eq_some, Option.some.injEq] at stepped
    obtain ⟨_, rfl⟩ := stepped
    simpa [add, join] using (stableInsert_perm node queue.nodes).length_eq.le
  | remove node =>
    simp only [step, Option.ite_none_right_eq_some, Option.some.injEq] at stepped
    obtain ⟨_, rfl⟩ := stepped
    exact List.erase_sublist.length_le.trans (Nat.le_succ _)
  | requeue node =>
    simp only [step, Option.dite_none_right_eq_some, Option.some.injEq] at stepped
    obtain ⟨queued, rfl⟩ := stepped
    have grown : (queue.requeue node queued).nodes.length = (queue.nodes.erase node).length + 1 :=
      (stableInsert_perm node (queue.nodes.erase node)).length_eq
    have shrunk : (queue.nodes.erase node).length ≤ queue.nodes.length := List.erase_sublist.length_le
    omega

theorem run_length {ops : List (PlistOp ν)} (ran : run step queue ops = some next) :
    next.nodes.length ≤ queue.nodes.length + ops.length := by
  induction ops generalizing queue with
  | nil => cases ran; simp
  | cons op rest ih =>
    obtain ⟨middle, stepped, ran⟩ := run_cons.mp ran
    have first := step_length stepped
    have later := ih ran
    simp only [List.length_cons]
    omega

end Queue

/-- The rings hold the queue's nodes, and an initialised node outside it is
linked nowhere. -/
structure Represents (list : Plist ν) (queue : Queue ν) : Prop where
  holds : Holds list.links list.prio queue.nodes
  prio : ∀ node ∈ queue.ready, list.prio node = queue.prio node
  unlinked : ∀ node ∈ queue.ready, node ∉ queue.nodes → Unlinked list.links node

variable {list : Plist ν} {queue next : Queue ν} {node : ν}

theorem Represents.first (represents : Represents list queue) :
    plistFirst list = some node ↔ queue.Oldest node := by
  rw [Queue.oldest_iff_head, plistFirst, represents.holds.first]
  cases queue.nodes with
  | nil => simp [anchor, Link.nodeEntry]
  | cons first rest => simp [anchor, Link.nodeEntry]

private theorem Represents.insert (represents : Represents list queue) {rest : List ν}
    (ready : ∀ other ∈ node :: rest, other ∈ queue.ready) :
    stableInsert list.prio node rest = stableInsert queue.prio node rest :=
  stableInsert_congr fun other member => represents.prio other (ready other member)

section Steps
variable [DecidableEq ν]

theorem plistHeadInit_represents (list : Plist ν) : Represents (plistHeadInit list) Queue.empty where
  holds := Holds.init list.prio list.links
  prio := by simp [Queue.empty]
  unlinked := by simp [Queue.empty]

private theorem Represents.init (represents : Represents list queue) (prio : Int) (fresh : node ∉ queue.nodes) :
    Represents (plistNodeInit node prio list) (queue.init node prio fresh) := by
  obtain ⟨holds, alone, others⟩ := plistNodeInit_spec represents.holds fresh prio
  refine ⟨?_, ?_, ?_⟩
  · apply holds.congr
    intro other member
    have different : other ≠ node := fun same => fresh (same ▸ member)
    simp [plistNodeInit, different]
  · intro other member
    by_cases same : other = node
    · simp [plistNodeInit, Queue.init, same]
    · have ready : other ∈ queue.ready := by simpa [Queue.init, same] using member
      simpa [plistNodeInit, Queue.init, same] using represents.prio other ready
  · intro other member outside
    by_cases same : other = node
    · exact same ▸ alone
    · have ready : other ∈ queue.ready := by simpa [Queue.init, same] using member
      exact others other same (represents.unlinked other ready outside)

private theorem Represents.add (represents : Represents list queue) {fuel : Nat} (ready : node ∈ queue.ready)
    (fresh : node ∉ queue.nodes) (enough : queue.nodes.length ≤ fuel) :
    ∃ added, plistAdd fuel node list = some added ∧ Represents added (queue.add node ready fresh) := by
  obtain ⟨added, computed, kept, holds, others⟩ :=
    plistAdd_spec represents.holds fresh (represents.unlinked node ready fresh) enough
  have known : ∀ other ∈ node :: queue.nodes, other ∈ queue.ready := by
    intro other member
    rcases List.mem_cons.mp member with rfl | member
    · exact ready
    · exact queue.known other member
  rw [represents.insert known] at holds
  refine ⟨added, computed, kept.symm ▸ holds, fun other member => kept.symm ▸ represents.prio other member, ?_⟩
  intro other member outside
  have absent : other ∉ node :: queue.nodes :=
    fun inside => outside ((stableInsert_perm node queue.nodes).mem_iff.mpr inside)
  exact others other absent (represents.unlinked other member fun inside => absent (List.mem_cons_of_mem _ inside))

private theorem Represents.remove (represents : Represents list queue) (ready : node ∈ queue.ready) :
    ∃ removed, plistRemove node list = some removed ∧ Represents removed (queue.remove node) := by
  by_cases queued : node ∈ queue.nodes
  · obtain ⟨removed, computed, kept, holds, alone, others⟩ := plistRemove_spec represents.holds queued
    refine ⟨removed, computed, kept.symm ▸ holds, fun other member => kept.symm ▸ represents.prio other member, ?_⟩
    intro other member outside
    by_cases same : other = node
    · exact same ▸ alone
    · have absent : other ∉ queue.nodes := fun inside => outside ((List.mem_erase_of_ne same).mpr inside)
      exact others other absent (represents.unlinked other member absent)
  · have idle : queue.remove node = queue := by simp [Queue.remove, List.erase_of_not_mem queued]
    exact ⟨list, plistRemove_unlinked (represents.unlinked node ready queued), idle.symm ▸ represents⟩

private theorem Represents.requeue (represents : Represents list queue) {fuel : Nat} (queued : node ∈ queue.nodes)
    (enough : queue.nodes.length ≤ fuel) :
    ∃ requeued, plistRequeue fuel node list = some requeued ∧ Represents requeued (queue.requeue node queued) := by
  obtain ⟨requeued, computed, kept, holds, others⟩ := plistRequeue_spec represents.holds queued enough
  have known : ∀ other ∈ node :: queue.nodes.erase node, other ∈ queue.ready := by
    intro other member
    rcases List.mem_cons.mp member with rfl | member
    · exact queue.known other queued
    · exact queue.known other (List.mem_of_mem_erase member)
  rw [represents.insert known] at holds
  refine ⟨requeued, computed, kept.symm ▸ holds, fun other member => kept.symm ▸ represents.prio other member, ?_⟩
  intro other member outside
  have absent : other ∉ queue.nodes := by
    intro inside
    apply outside
    apply (stableInsert_perm node (queue.nodes.erase node)).mem_iff.mpr
    by_cases same : other = node
    · simp [same]
    · exact List.mem_cons_of_mem _ ((List.mem_erase_of_ne same).mpr inside)
  exact others other absent (represents.unlinked other member absent)

theorem plistStep_refines {fuel : Nat} {op : PlistOp ν} (represents : Represents list queue)
    (stepped : queue.step op = some next) (enough : queue.nodes.length ≤ fuel) :
    ∃ after, plistStep fuel list op = some after ∧ Represents after next := by
  cases op with
  | init node prio =>
    simp only [Queue.step, Option.dite_none_right_eq_some, Option.some.injEq] at stepped
    obtain ⟨fresh, rfl⟩ := stepped
    exact ⟨_, rfl, represents.init prio fresh⟩
  | add node =>
    simp only [Queue.step, Option.dite_none_right_eq_some, Option.some.injEq] at stepped
    obtain ⟨admitted, rfl⟩ := stepped
    exact represents.add admitted.1 admitted.2 enough
  | remove node =>
    simp only [Queue.step, Option.ite_none_right_eq_some, Option.some.injEq] at stepped
    obtain ⟨ready, rfl⟩ := stepped
    exact represents.remove ready
  | requeue node =>
    simp only [Queue.step, Option.dite_none_right_eq_some, Option.some.injEq] at stepped
    obtain ⟨queued, rfl⟩ := stepped
    exact represents.requeue queued enough

theorem plistRun_refines {fuel : Nat} {ops : List (PlistOp ν)} (represents : Represents list queue)
    (admitted : run Queue.step queue ops = some next) (enough : queue.nodes.length + ops.length ≤ fuel) :
    ∃ final, run (plistStep fuel) list ops = some final ∧ Represents final next := by
  induction ops generalizing list queue with
  | nil =>
    cases admitted
    exact ⟨list, rfl, represents⟩
  | cons op rest ih =>
    obtain ⟨middle, stepped, admitted⟩ := run_cons.mp admitted
    simp only [List.length_cons] at enough
    have grown := Queue.step_length stepped
    have within : queue.nodes.length ≤ fuel := by omega
    have remaining : middle.nodes.length + rest.length ≤ fuel := by omega
    obtain ⟨after, computed, kept⟩ := plistStep_refines represents stepped within
    obtain ⟨final, ran, reached⟩ := ih kept admitted remaining
    exact ⟨final, run_cons.mpr ⟨after, computed, ran⟩, reached⟩

/-- After any admitted operations the rings hold the queue, the first node is
the oldest of minimum priority, removing an unlinked node changes nothing, and
every further operation does to the rings what it does to the queue. -/
theorem plist_refines_stable_queue {fuel : Nat} {ops : List (PlistOp ν)} (list : Plist ν)
    (admitted : run Queue.step Queue.empty ops = some queue) (enough : ops.length ≤ fuel) :
    ∃ final, run (plistStep fuel) (plistHeadInit list) ops = some final ∧ Represents final queue ∧
      (∀ node, plistFirst final = some node ↔ queue.Oldest node) ∧
      (∀ node ∈ queue.ready, node ∉ queue.nodes → plistRemove node final = some final) ∧
      ∀ op next, queue.step op = some next →
        Queue.Effect queue next op ∧ ∃ after, plistStep fuel final op = some after ∧ Represents after next := by
  have within : (Queue.empty : Queue ν).nodes.length + ops.length ≤ fuel := by simpa [Queue.empty] using enough
  obtain ⟨final, ran, represents⟩ := plistRun_refines (plistHeadInit_represents list) admitted within
  have short : queue.nodes.length ≤ fuel := (Queue.run_length admitted).trans within
  refine ⟨final, ran, represents, fun _ => represents.first, ?_, ?_⟩
  · intro node ready outside
    exact plistRemove_unlinked (represents.unlinked node ready outside)
  · intro op next stepped
    exact ⟨Queue.step_effect stepped, plistStep_refines represents stepped short⟩

theorem plist_refines_stable_queue_example :
    ∃ queue, run Queue.step Queue.empty [.init 0 5, .init 1 3, .init 2 5, .add 0, .add 1, .add 2, .requeue 0,
        .remove 1, .remove 1] = some queue ∧ queue.nodes = [2, 0] ∧
      ∃ final, run (plistStep 9) (plistHeadInit ⟨⟨fun _ => .head, fun _ => .head⟩, fun _ => 0⟩)
        [.init 0 5, .init 1 3, .init 2 5, .add 0, .add 1, .add 2, .requeue 0, .remove 1, .remove 1] = some final ∧
        Represents final queue ∧ plistFirst final = some 2 := by
  obtain ⟨queue, admitted, nodes⟩ := Option.map_eq_some_iff.mp (show (run Queue.step Queue.empty [.init 0 5, .init 1 3,
    .init 2 5, .add 0, .add 1, .add 2, .requeue 0, .remove 1, .remove 1]).map Queue.nodes = some [2, 0] by decide)
  obtain ⟨final, ran, represents, first, _⟩ :=
    plist_refines_stable_queue ⟨⟨fun _ => .head, fun _ => .head⟩, fun _ => 0⟩ admitted (le_refl 9)
  exact ⟨queue, admitted, nodes, final, ran, represents, (first 2).mpr (Queue.oldest_iff_head.mpr (by rw [nodes]; rfl))⟩

end Steps
end YuzuOS.Proofs.PlistRefinement
