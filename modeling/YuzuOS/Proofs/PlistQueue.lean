import YuzuOS.Library.StableQueue
import YuzuOS.Library.Run
import YuzuOS.Kernel.Plist

/-! The two rings of a priority list refine one stable priority queue. Every
operation is described by what it does to the queue's sequence of nodes. -/

namespace YuzuOS.Proofs.PlistQueue
open YuzuOS.Library YuzuOS.Kernel

variable {ν : Type u}

/-- Rings that hold `nodes` in order of `prio`: the node list in full, the
priority list through one leader for each priority. -/
structure Holds (links : Links (Link ν)) (prio : ν → Int) (nodes : List ν) : Prop where
  ring : Cycle links (.head :: nodes.map .nodeList)
  sorted : SortedBy prio nodes
  led : Cycle links ((leaders prio nodes).map .prioList)
  followers : ∀ node ∈ nodes, node ∉ leaders prio nodes → Alone links (.prioList node)

def Unlinked (links : Links (Link ν)) (node : ν) : Prop :=
  Alone links (.prioList node) ∧ Alone links (.nodeList node)

/-- The link a new node is put in front of. -/
def anchor : List ν → Link ν
  | [] => .head
  | node :: _ => .nodeList node

variable {links : Links (Link ν)} {prio : ν → Int} {list : Plist ν} {node : ν} {nodes low high : List ν}

theorem Holds.nodup (holds : Holds links prio nodes) : nodes.Nodup :=
  List.Nodup.of_map _ (List.nodup_cons.mp holds.ring.nodup).2

theorem Holds.reorder {other : ν → Int} (holds : Holds links prio nodes)
    (same : ∀ first ∈ nodes, ∀ second ∈ nodes, other first ≤ other second ↔ prio first ≤ prio second) :
    Holds links other nodes := by
  have sorted : SortedBy other nodes := by
    apply holds.sorted.imp_of_mem
    intro first second firstMember secondMember ordered
    exact (same first firstMember second secondMember).mpr ordered
  have led : leaders other nodes = leaders prio nodes := by
    apply leaders_congr_iff
    intro first firstMember second secondMember
    simp only [le_antisymm_iff, same first firstMember second secondMember, same second secondMember first firstMember]
  exact ⟨holds.ring, sorted, led ▸ holds.led, led ▸ holds.followers⟩

theorem Holds.congr {other : ν → Int} (holds : Holds links prio nodes)
    (same : ∀ node ∈ nodes, other node = prio node) : Holds links other nodes :=
  holds.reorder fun first inside second member => by rw [same first inside, same second member]

/-- Two lists of nodes never share a field. -/
private theorem prio_outside (item : ν) : Link.prioList item ∉ (.head :: nodes.map .nodeList : List (Link ν)) := by
  simp

theorem anchor_member (low high : List ν) :
    (anchor high : Link ν) ∈ (.head :: (low ++ high).map .nodeList : List (Link ν)) := by
  cases high <;> simp [anchor]

private theorem anchor_shape (low high : List ν) : ∃ rest,
    high.map .nodeList ++ (.head :: low.map .nodeList) = (anchor high : Link ν) :: rest := by
  cases high with
  | nil => exact ⟨_, rfl⟩
  | cons item high => exact ⟨_, rfl⟩

theorem Holds.first (holds : Holds links prio nodes) : links.next .head = anchor nodes := by
  cases nodes with
  | nil => exact Ring.next_head_nil holds.ring
  | cons first rest => exact Ring.next_head holds.ring

theorem Holds.after (holds : Holds links prio (low ++ node :: high)) :
    links.next (.nodeList node) = anchor high := by
  have split : Cycle links ((.head :: low.map .nodeList) ++ .nodeList node :: high.map .nodeList) := by
    simpa using holds.ring
  cases high with
  | nil => exact (split.next rfl).1
  | cons next high => exact (split.next rfl).1

theorem Holds.last {last : ν} (holds : Holds links prio (low ++ [last])) : links.prev .head = .nodeList last := by
  have split : Cycle links ((.head :: low.map .nodeList) ++ .nodeList last :: []) := by simpa using holds.ring
  exact (split.next rfl).2

private theorem next_leader {left right rest : List ν} {leader after : ν}
    (cycle : Cycle links ((left ++ leader :: right).map .prioList))
    (shape : right ++ left ++ [leader] = after :: rest) : links.next (.prioList leader) = .prioList after := by
  have split : Cycle links (left.map .prioList ++ .prioList leader :: right.map .prioList) := by simpa using cycle
  have turned : right.map .prioList ++ left.map .prioList ++ [Link.prioList leader] =
      .prioList after :: rest.map .prioList := by
    simpa using congrArg (List.map Link.prioList) shape
  exact (split.next turned).1

/-- The last leader that is not behind the new node tells whether its priority
is queued already. -/
private theorem last_leader_decides (sorted : SortedBy prio low) (below : ∀ item ∈ low, prio item ≤ prio node) :
    (leaders prio low).getLast?.all (fun last => !decide (prio last = prio node)) = true ↔
      ¬ ∃ item ∈ low, prio item = prio node := by
  rcases List.eq_nil_or_concat (leaders prio low) with empty | ⟨front, last, shape⟩
  · have none : low = [] := leaders_eq_nil.mp empty
    simp [none, leaders]
  · have member : last ∈ leaders prio low := by rw [shape]; simp
    have inside := (leaders_sublist low).subset member
    rw [shape, List.concat_eq_append, List.getLast?_concat]
    simp only [Option.all_some, Bool.not_eq_eq_eq_not, Bool.not_true, decide_eq_false_iff_not]
    refine not_congr ⟨fun same => ⟨last, inside, same⟩, ?_⟩
    rintro ⟨item, itemMember, same⟩
    obtain ⟨leader, leads, equal⟩ : ∃ leader ∈ leaders prio low, prio leader = prio item :=
      exists_leader itemMember
    have ordered : prio leader ≤ prio last := by
      have sortedLeaders : SortedBy prio (leaders prio low) := List.Pairwise.sublist (leaders_sublist low) sorted
      rw [shape, List.concat_eq_append] at sortedLeaders leads
      rcases List.mem_append.mp leads with earlier | final
      · exact (List.pairwise_append.mp sortedLeaders).2.2 leader earlier last (by simp)
      · rw [List.mem_singleton.mp final]
    exact le_antisymm (below last inside) (same ▸ equal ▸ ordered)

def plistNodes (links : Links (Link ν)) : Nat → Link ν → List ν
  | fuel + 1, .nodeList node => node :: plistNodes links fuel (links.next (.nodeList node))
  | _, _ => []

theorem Holds.walk {fuel : Nat} (holds : Holds links prio (low ++ high)) (enough : high.length ≤ fuel) :
    plistNodes links fuel (anchor high) = high := by
  induction high generalizing low fuel with
  | nil => cases fuel <;> rfl
  | cons node high ih =>
    cases fuel with
    | zero => simp at enough
    | succ fuel =>
      have later : Holds links prio ((low ++ [node]) ++ high) := by simpa using holds
      rw [anchor, plistNodes, holds.after, ih later (Nat.le_of_succ_le_succ enough)]

/-- The scan of `plist_requeue` passes the nodes of its node's priority. -/
private theorem requeue_scan {equal high low : List ν} (holds : Holds list.links prio (low ++ (equal ++ high)))
    (same : ∀ item ∈ equal, list.prio item = list.prio node)
    (above : ∀ item ∈ high, list.prio node < list.prio item) {fuel : Nat} (enough : equal.length < fuel) :
    plistRequeueScan list node fuel (anchor (equal ++ high)) = some (anchor high) := by
  induction equal generalizing low fuel with
  | nil =>
    cases fuel with
    | zero => simp at enough
    | succ fuel =>
      cases high with
      | nil => rfl
      | cons item high =>
        have different : list.prio node ≠ list.prio item := (above item List.mem_cons_self).ne
        simp [plistRequeueScan, anchor, Link.nodeEntry, different]
  | cons item equal ih =>
    cases fuel with
    | zero => simp at enough
    | succ fuel =>
      have later : Holds list.links prio ((low ++ [item]) ++ (equal ++ high)) := by simpa using holds
      have continues := ih later (fun other member => same other (List.mem_cons_of_mem _ member))
        (Nat.lt_of_succ_lt_succ enough)
      simpa [plistRequeueScan, anchor, Link.nodeEntry, same item List.mem_cons_self, holds.after] using continues

variable [DecidableEq ν]

theorem link_node (ring : Cycle links (.head :: (low ++ high).map .nodeList)) (fresh : node ∉ low ++ high) :
    Cycle (dlistAddTail (.nodeList node) (anchor high) links) (.head :: (low ++ node :: high).map .nodeList) := by
  obtain ⟨rest, shape⟩ := anchor_shape low high
  have split : Cycle links ((.head :: low.map .nodeList) ++ high.map .nodeList) := by simpa using ring
  have absent : Link.nodeList node ∉ (.head :: low.map .nodeList) ++ high.map .nodeList := by simpa using fresh
  simpa using dlistAddTail_cycle split absent shape

theorem link_node_prio (ring : Cycle links (.head :: (low ++ high).map .nodeList)) (item : ν) :
    (dlistAddTail (.nodeList node) (anchor high) links).next (.prioList item) = links.next (.prioList item) ∧
    (dlistAddTail (.nodeList node) (anchor high) links).prev (.prioList item) = links.prev (.prioList item) :=
  dlistAddTail_frame ring (anchor_member low high) (by simp) (prio_outside item)

theorem link_node_other (ring : Cycle links (.head :: (low ++ high).map .nodeList)) {item : ν}
    (different : item ≠ node) (outside : item ∉ low ++ high) :
    (dlistAddTail (.nodeList node) (anchor high) links).next (.nodeList item) = links.next (.nodeList item) ∧
    (dlistAddTail (.nodeList node) (anchor high) links).prev (.nodeList item) = links.prev (.nodeList item) :=
  dlistAddTail_frame ring (anchor_member low high) (by simpa using different) (by simpa using outside)

/-- A node whose priority is queued already joins its group without leading it. -/
theorem follow (holds : Holds links prio (low ++ high)) (fresh : node ∉ low ++ high)
    (unlinked : Unlinked links node) (below : ∀ item ∈ low, prio item ≤ prio node)
    (above : ∀ item ∈ high, prio node < prio item) (led : ∃ item ∈ low, prio item = prio node) :
    Holds (dlistAddTail (.nodeList node) (anchor high) links) prio (low ++ node :: high) := by
  have same : leaders prio (low ++ node :: high) = leaders prio (low ++ high) := leaders_remove_follower led
  refine ⟨link_node holds.ring fresh, holds.sorted.insert below above, ?_, ?_⟩
  · rw [same]
    apply holds.led.congr
    intro item member
    obtain ⟨leader, _, rfl⟩ := List.mem_map.mp member
    exact link_node_prio holds.ring leader
  · rw [same]
    intro item member follows
    apply Alone.congr _ (link_node_prio holds.ring item)
    rcases List.mem_append.mp member with lower | upper
    · exact holds.followers item (List.mem_append_left _ lower) follows
    · rcases List.mem_cons.mp upper with rfl | upper
      · exact unlinked.1
      · exact holds.followers item (List.mem_append_right _ upper) follows

private theorem link_prio_node {groups : List ν} {front : ν} (cycle : Cycle links (groups.map .prioList))
    (member : front ∈ groups) {item : Link ν} (other : ∀ node, item ≠ .prioList node) :
    (dlistAddTail (.prioList node) (.prioList front) links).next item = links.next item ∧
    (dlistAddTail (.prioList node) (.prioList front) links).prev item = links.prev item := by
  apply dlistAddTail_frame cycle (List.mem_map.mpr ⟨front, member, rfl⟩) (other node)
  intro inside
  obtain ⟨leader, _, same⟩ := List.mem_map.mp inside
  exact other leader same.symm

private theorem link_prio_other {groups : List ν} {front item : ν} (cycle : Cycle links (groups.map .prioList))
    (member : front ∈ groups) (different : item ≠ node) (outside : item ∉ groups) :
    (dlistAddTail (.prioList node) (.prioList front) links).next (.prioList item) = links.next (.prioList item) ∧
    (dlistAddTail (.prioList node) (.prioList front) links).prev (.prioList item) = links.prev (.prioList item) :=
  dlistAddTail_frame cycle (List.mem_map.mpr ⟨front, member, rfl⟩) (by simpa using different) (by simpa using outside)

/-- A node of a new priority leads a group between its neighbours. -/
theorem lead (holds : Holds links prio (low ++ high)) (fresh : node ∉ low ++ high)
    (below : ∀ item ∈ low, prio item ≤ prio node) (above : ∀ item ∈ high, prio node < prio item)
    (alone : ¬ ∃ item ∈ low, prio item = prio node) {front : ν} {rest : List ν}
    (shape : leaders prio high ++ leaders prio low = front :: rest) :
    Holds (dlistAddTail (.nodeList node) (anchor high) (dlistAddTail (.prioList node) (.prioList front) links))
      prio (low ++ node :: high) := by
  have groups : leaders prio (low ++ high) = leaders prio low ++ leaders prio high :=
    leaders_append_of_lt fun first firstMember second secondMember =>
      lt_of_le_of_lt (below first firstMember) (above second secondMember)
  have grown : leaders prio (low ++ node :: high) = leaders prio low ++ node :: leaders prio high := by
    rw [leaders_insert below above, if_neg alone]
  have cycle : Cycle links ((leaders prio low ++ leaders prio high).map .prioList) := groups ▸ holds.led
  have absent : node ∉ leaders prio low ++ leaders prio high :=
    fun member => fresh ((leaders_sublist _).subset (groups ▸ member))
  have frontMember : front ∈ leaders prio low ++ leaders prio high := by
    have member : front ∈ leaders prio high ++ leaders prio low := by rw [shape]; exact List.mem_cons_self
    simpa [or_comm] using member
  have linked : Cycle (dlistAddTail (.prioList node) (.prioList front) links)
      ((leaders prio low ++ node :: leaders prio high).map .prioList) := by
    have split : Cycle links ((leaders prio low).map .prioList ++ (leaders prio high).map .prioList) := by
      simpa using cycle
    have outside : Link.prioList node ∉ (leaders prio low).map .prioList ++ (leaders prio high).map .prioList := by
      simpa using absent
    have turned : (leaders prio high).map .prioList ++ (leaders prio low).map .prioList =
        Link.prioList front :: rest.map .prioList := by
      rw [← List.map_append, shape]
      rfl
    simpa using dlistAddTail_cycle split outside turned
  have ring : Cycle (dlistAddTail (.prioList node) (.prioList front) links)
      (.head :: (low ++ high).map .nodeList) := by
    apply holds.ring.congr
    intro item member
    apply link_prio_node cycle frontMember
    rintro other rfl
    exact prio_outside other member
  refine ⟨link_node ring fresh, holds.sorted.insert below above, ?_, ?_⟩
  · rw [grown]
    apply linked.congr
    intro item member
    obtain ⟨leader, _, rfl⟩ := List.mem_map.mp member
    exact link_node_prio ring leader
  · rw [grown]
    intro item member follows
    have different : item ≠ node := by
      rintro rfl
      exact follows (by simp)
    have inside : item ∈ low ++ high := by simpa [different] using member
    have outside : item ∉ leaders prio low ++ leaders prio high := by
      intro leader
      exact follows (by simpa [different] using leader)
    apply Alone.congr _ (link_node_prio ring item)
    apply (holds.followers item inside (groups ▸ outside)).congr
    exact link_prio_other cycle frontMember different outside

/-- The scan walks the leaders that are not behind the new node and stops at
the first one that is, or where the ring closes. -/
private theorem scan_leaders {low high others : List ν} {first front : ν}
    (cycle : Cycle list.links ((low ++ high).map .prioList)) (starts : low ++ high = first :: nodes)
    (below : ∀ item ∈ low, list.prio item ≤ list.prio node)
    (above : ∀ item ∈ high, list.prio node < list.prio item) (shape : high ++ low = front :: others) :
    ∀ rest done fuel iter later, low = done ++ rest → rest ++ high = iter :: later →
      (rest ++ high).length ≤ fuel →
      plistAddScan list node first fuel iter done.getLast? = some (anchor high, front, low.getLast?) := by
  intro rest
  induction rest with
  | nil =>
    intro done fuel iter later reached here enough
    simp only [List.nil_append] at here
    simp only [List.append_nil] at reached
    subst here reached
    cases fuel with
    | zero => simp at enough
    | succ fuel =>
      cases shape
      simp [plistAddScan, above, anchor]
  | cons leader rest ih =>
    intro done fuel iter later reached here enough
    cases here
    cases fuel with
    | zero => simp at enough
    | succ fuel =>
      have behind : ¬ list.prio node < list.prio leader :=
        not_lt.mpr (below leader (by rw [reached]; simp))
      have split : Cycle list.links ((done ++ leader :: (rest ++ high)).map .prioList) := by
        simpa [reached] using cycle
      cases remaining : rest ++ high with
      | nil =>
        obtain ⟨rfl, rfl⟩ := List.append_eq_nil_iff.mp remaining
        have whole : done ++ [leader] = first :: nodes := by simpa [reached] using starts
        have closes := next_leader split (by simpa using whole)
        have frontFirst : first = front := by
          have same : first :: nodes = front :: others := by rw [← whole, ← shape, reached]; simp
          exact (List.cons.inj same).1
        simp [plistAddScan, behind, closes, Link.prioEntry, anchor, reached, frontFirst]
      | cons after remainder =>
        have turned : rest ++ high ++ done ++ [leader] = after :: (remainder ++ done ++ [leader]) := by
          rw [remaining]
          rfl
        have moves := next_leader split turned
        have inside : after ∈ rest ++ high := by rw [remaining]; exact List.mem_cons_self
        have notFirst : after ≠ first := by
          rintro rfl
          have nodup : (done ++ leader :: (rest ++ high)).Nodup := List.Nodup.of_map _ split.nodup
          cases done with
          | nil =>
            have leads : leader = after := by simpa [reached] using (List.cons.inj (reached ▸ starts)).1
            exact (List.nodup_cons.mp nodup).1 (leads ▸ inside)
          | cons start done =>
            have leads : start = after := (List.cons.inj (reached ▸ starts)).1
            exact (List.nodup_cons.mp nodup).1 (by rw [leads]; simp at inside ⊢; tauto)
        have continues := ih (done ++ [leader]) fuel after remainder (by simp [reached]) remaining (by
          simp only [List.cons_append, List.length_cons] at enough
          omega)
        rw [List.getLast?_concat] at continues
        simp [plistAddScan, behind, moves, Link.prioEntry, notFirst, continues]

theorem Holds.init (prio : ν → Int) (links : Links (Link ν)) : Holds (dlistHeadInit .head links) prio [] := by
  refine ⟨?_, List.Pairwise.nil, trivial, by simp⟩
  exact Ring.nil_iff.mpr dlistHeadInit_alone

private theorem plistNodeInit_frame (list : Plist ν) (value : Int) {item : Link ν} (prioOther : item ≠ .prioList node)
    (nodeOther : item ≠ .nodeList node) : (plistNodeInit node value list).links.next item = list.links.next item ∧
      (plistNodeInit node value list).links.prev item = list.links.prev item := by
  simp [plistNodeInit, dlistHeadInit, prioOther, nodeOther]

theorem plistNodeInit_spec (holds : Holds list.links prio nodes) (fresh : node ∉ nodes) (value : Int) :
    Holds (plistNodeInit node value list).links prio nodes ∧ Unlinked (plistNodeInit node value list).links node ∧
      ∀ other, other ≠ node → Unlinked list.links other → Unlinked (plistNodeInit node value list).links other := by
  have prioFrame (other : ν) (different : other ≠ node) :=
    plistNodeInit_frame list value (by simpa using different : Link.prioList other ≠ .prioList node) (by simp)
  have nodeFrame (other : ν) (different : other ≠ node) :=
    plistNodeInit_frame list value (by simp) (by simpa using different : Link.nodeList other ≠ .nodeList node)
  have apart (other : ν) (member : other ∈ nodes) : other ≠ node := fun same => fresh (same ▸ member)
  refine ⟨⟨?_, holds.sorted, ?_, ?_⟩, ?_, ?_⟩
  · apply holds.ring.congr
    intro item member
    rcases List.mem_cons.mp member with rfl | member
    · exact plistNodeInit_frame list value (by simp) (by simp)
    · obtain ⟨other, inside, rfl⟩ := List.mem_map.mp member
      exact nodeFrame other (apart other inside)
  · apply holds.led.congr
    intro item member
    obtain ⟨other, inside, rfl⟩ := List.mem_map.mp member
    exact prioFrame other (apart other ((leaders_sublist _).subset inside))
  · intro other member follows
    exact (holds.followers other member follows).congr (prioFrame other (apart other member))
  · simp [Unlinked, Alone, plistNodeInit, dlistHeadInit]
  · intro other different unlinked
    exact ⟨unlinked.1.congr (prioFrame other different), unlinked.2.congr (nodeFrame other different)⟩

/-- What linking a node leaves alone: the fields of every other unlinked node. -/
private theorem Unlinked.link_node {item : ν} (unlinked : Unlinked links item)
    (ring : Cycle links (.head :: (low ++ high).map .nodeList)) (outside : item ∉ node :: (low ++ high)) :
    Unlinked (dlistAddTail (.nodeList node) (anchor high) links) item := by
  obtain ⟨different, absent⟩ := not_or.mp (List.mem_cons.not.mp outside)
  exact ⟨unlinked.1.congr (link_node_prio ring item),
    unlinked.2.congr (link_node_other ring different absent)⟩

private theorem Unlinked.link_prio {groups : List ν} {front item : ν} (unlinked : Unlinked links item)
    (cycle : Cycle links (groups.map .prioList)) (member : front ∈ groups) (outside : item ∉ node :: groups) :
    Unlinked (dlistAddTail (.prioList node) (.prioList front) links) item := by
  obtain ⟨different, absent⟩ := not_or.mp (List.mem_cons.not.mp outside)
  exact ⟨unlinked.1.congr (link_prio_other cycle member different absent),
    unlinked.2.congr (link_prio_node cycle member (by simp))⟩

private theorem plistAdd_empty {fuel : Nat} (holds : Holds list.links list.prio []) :
    plistAdd fuel node list = some { list with links := dlistAddTail (.nodeList node) (anchor []) list.links } := by
  have empty : plistIsHeadEmpty list = true := by simp [plistIsHeadEmpty, dlistIsEmpty, holds.first, anchor]
  simp [plistAdd, empty, anchor]

/-- `plist_add` in a list that is not empty, as the two ways to link a node. -/
private theorem plistAdd_links {fuel : Nat} (holds : Holds list.links list.prio (low ++ high))
    (filled : low ++ high ≠ []) (below : ∀ item ∈ low, list.prio item ≤ list.prio node)
    (above : ∀ item ∈ high, list.prio node < list.prio item) {front : ν} {others : List ν}
    (shape : leaders list.prio high ++ leaders list.prio low = front :: others)
    (enough : (low ++ high).length ≤ fuel) :
    plistAdd fuel node list = some { list with
      links := dlistAddTail (.nodeList node) (anchor high)
        (if ∃ item ∈ low, list.prio item = list.prio node then list.links
          else dlistAddTail (.prioList node) (.prioList front) list.links) } := by
  obtain ⟨first, rest, whole⟩ := List.exists_cons_of_ne_nil filled
  have groups : leaders list.prio (low ++ high) = leaders list.prio low ++ leaders list.prio high :=
    leaders_append_of_lt fun item itemMember other otherMember =>
      lt_of_le_of_lt (below item itemMember) (above other otherMember)
  have starts : leaders list.prio low ++ leaders list.prio high =
      first :: (leaders list.prio rest).filter fun other => list.prio other ≠ list.prio first := by
    rw [← groups, whole]
    rfl
  have bounded : (leaders list.prio low ++ leaders list.prio high).length ≤ fuel := by
    rw [← groups]
    exact (leaders_sublist _).length_le.trans enough
  have scan := scan_leaders (groups ▸ holds.led) starts
    (fun item member => below item ((leaders_sublist low).subset member))
    (fun item member => above item ((leaders_sublist high).subset member)) shape
    (leaders list.prio low) [] fuel first _ rfl starts bounded
  have same : anchor (leaders list.prio high) = anchor high := by cases high <;> rfl
  have notEmpty : plistIsHeadEmpty list = false := by
    simp [plistIsHeadEmpty, dlistIsEmpty, holds.first, whole, anchor]
  have found : plistFirst list = some first := by simp [plistFirst, holds.first, whole, anchor, Link.nodeEntry]
  have decided := last_leader_decides (SortedBy.append_iff.mp holds.sorted).1 below
  rw [same, List.getLast?_nil] at scan
  by_cases queued : ∃ item ∈ low, list.prio item = list.prio node
  · have follows := Bool.eq_false_iff.mpr fun alone => decided.mp alone queued
    simp [plistAdd, notEmpty, found, scan, follows, queued]
  · have leads := decided.mpr queued
    simp only [plistAdd, notEmpty, found, scan, leads, queued, Bool.false_eq_true, if_false, Option.bind_eq_bind,
      Option.bind_some, ne_eq, decide_not, if_true]

/-- `plist_add` puts an unlinked node behind every node that is not behind it. -/
theorem plistAdd_spec {fuel : Nat} (holds : Holds list.links list.prio nodes) (fresh : node ∉ nodes)
    (unlinked : Unlinked list.links node) (enough : nodes.length ≤ fuel) :
    ∃ added, plistAdd fuel node list = some added ∧ added.prio = list.prio ∧
      Holds added.links list.prio (stableInsert list.prio node nodes) ∧
      ∀ other ∉ node :: nodes, Unlinked list.links other → Unlinked added.links other := by
  obtain ⟨low, high, split, inserted, below, above⟩ := stableInsert_split node holds.sorted
  rw [inserted]
  subst split
  by_cases filled : low ++ high = []
  · obtain ⟨rfl, rfl⟩ := List.append_eq_nil_iff.mp filled
    have ring : Cycle list.links (.head :: ([] ++ [] : List ν).map .nodeList) := holds.ring
    refine ⟨_, plistAdd_empty holds, rfl, ?_, fun other outside idle => idle.link_node ring outside⟩
    refine ⟨link_node ring fresh, by simp [SortedBy], ?_, by simp [leaders]⟩
    exact Ring.nil_iff.mpr (unlinked.1.congr (link_node_prio ring node))
  · have groups : leaders list.prio (low ++ high) = leaders list.prio low ++ leaders list.prio high :=
      leaders_append_of_lt fun item itemMember other otherMember =>
        lt_of_le_of_lt (below item itemMember) (above other otherMember)
    obtain ⟨front, others, shape⟩ : ∃ front others,
        leaders list.prio high ++ leaders list.prio low = front :: others := by
      apply List.exists_cons_of_ne_nil
      intro empty
      obtain ⟨none, nothing⟩ := List.append_eq_nil_iff.mp empty
      exact filled (by rw [leaders_eq_nil.mp none, leaders_eq_nil.mp nothing]; rfl)
    refine ⟨_, plistAdd_links holds filled below above shape enough, rfl, ?_⟩
    split
    next queued => exact ⟨follow holds fresh unlinked below above queued,
      fun other outside idle => idle.link_node holds.ring outside⟩
    next alone =>
      refine ⟨lead holds fresh below above alone shape, ?_⟩
      intro other outside idle
      have frontMember : front ∈ leaders list.prio (low ++ high) := by
        have member : front ∈ leaders list.prio high ++ leaders list.prio low := by rw [shape]; exact List.mem_cons_self
        rw [groups]
        simpa [or_comm] using member
      have ring : Cycle (dlistAddTail (.prioList node) (.prioList front) list.links)
          (.head :: (low ++ high).map .nodeList) := by
        apply holds.ring.congr
        intro item member
        apply link_prio_node holds.led frontMember
        rintro other rfl
        exact prio_outside other member
      have kept : other ∉ node :: leaders list.prio (low ++ high) := by
        intro member
        rcases List.mem_cons.mp member with rfl | member
        · exact outside List.mem_cons_self
        · exact outside (List.mem_cons_of_mem _ ((leaders_sublist _).subset member))
      exact (idle.link_prio holds.led frontMember kept).link_node ring outside

theorem plistRemove_unlinked (unlinked : Unlinked list.links node) : plistRemove node list = some list := by
  simp [plistRemove, plistRemoveLeader, dlistIsEmpty_of_alone unlinked.1, dlistRemoveInit_unlinked unlinked.2]

/-- The links after the priority list has lost `node`: its own field is alone
and every node of the queue without it leads or follows as it should. -/
private structure Released (links links' : Links (Link ν)) (prio : ν → Int) (low high : List ν) (node : ν) : Prop where
  led : Cycle links' ((leaders prio (low ++ high)).map .prioList)
  alone : Alone links' (.prioList node)
  followers : ∀ item ∈ low ++ high, item ∉ leaders prio (low ++ high) → Alone links' (.prioList item)
  nodes : ∀ item, (∀ other, item ≠ .prioList other) → links'.next item = links.next item ∧ links'.prev item = links.prev item
  others : ∀ other ∉ low ++ node :: high, Alone links (.prioList other) → Alone links' (.prioList other)

private theorem release_follower (holds : Holds list.links prio (low ++ node :: high))
    (follows : ∃ other ∈ low, prio other = prio node) :
    plistRemoveLeader node list = some list.links ∧ Released list.links list.links prio low high node := by
  have same : leaders prio (low ++ node :: high) = leaders prio (low ++ high) := leaders_remove_follower follows
  have absent : node ∉ leaders prio (low ++ node :: high) := by
    intro member
    obtain ⟨other, inside, equal⟩ := follows
    exact (mem_leaders_iff holds.nodup).mp member other inside equal
  have alone := holds.followers node (by simp) absent
  refine ⟨by simp [plistRemoveLeader, dlistIsEmpty_of_alone alone], same ▸ holds.led, alone, ?_,
    fun _ _ => ⟨rfl, rfl⟩, fun _ _ idle => idle⟩
  intro item member outside
  refine holds.followers item ?_ (same ▸ outside)
  simp only [List.mem_append, List.mem_cons] at member ⊢
  tauto

/-- The only group leaves nothing behind but its next member, who is alone. -/
private theorem release_sole (holds : Holds list.links prio (low ++ node :: high)) {handed : List ν}
    (sole : leaders prio (low ++ node :: high) = [node]) (heir : leaders prio (low ++ high) = handed)
    (short : handed.length ≤ 1) :
    plistRemoveLeader node list = some list.links ∧ Released list.links list.links prio low high node := by
  have ring := holds.led
  rw [sole] at ring
  have alone : Alone list.links (.prioList node) := Ring.nil_iff.mp ring
  have others : ∀ item ∈ low ++ high, Alone list.links (.prioList item) := by
    intro item member
    have different : item ≠ node := by
      rintro rfl
      have nodup := List.nodup_middle.mp holds.nodup
      exact (List.nodup_cons.mp nodup).1 member
    refine holds.followers item ?_ (by simpa [sole] using different)
    simp only [List.mem_append, List.mem_cons] at member ⊢
    tauto
  refine ⟨by simp [plistRemoveLeader, dlistIsEmpty_of_alone alone], ?_, alone, fun item member _ => others item member,
    fun _ _ => ⟨rfl, rfl⟩, fun _ _ idle => idle⟩
  match handed, short with
  | [], _ => rw [heir]; trivial
  | [next], _ =>
    have member : next ∈ low ++ high := (leaders_sublist _).subset (by rw [heir]; simp)
    rw [heir]
    exact Ring.nil_iff.mpr (others next member)

private theorem release_linked {links' : Links (Link ν)} {before after : List ν}
    (holds : Holds links prio (low ++ node :: high))
    (linked : Cycle links' ((before ++ node :: after).map .prioList))
    (heirs : leaders prio (low ++ high) = before ++ after)
    (covers : ∀ item ∈ leaders prio (low ++ node :: high), item ∈ before ++ node :: after)
    (nodes : ∀ item, (∀ other, item ≠ .prioList other) →
      links'.next item = links.next item ∧ links'.prev item = links.prev item)
    (others : ∀ item ∉ before ++ node :: after, links'.next (.prioList item) = links.next (.prioList item) ∧
      links'.prev (.prioList item) = links.prev (.prioList item)) :
    Released links (dlistRemoveInit (.prioList node) links') prio low high node := by
  have split : Cycle links' (before.map .prioList ++ .prioList node :: after.map .prioList) := by simpa using linked
  have member : Link.prioList node ∈ (before ++ node :: after).map Link.prioList := by simp
  have frame (item : ν) (outside : item ∉ before ++ node :: after) :=
    dlistRemoveInit_frame linked member (by simpa using outside : Link.prioList item ∉ _)
  refine ⟨?_, dlistRemoveInit_alone, ?_, ?_, ?_⟩
  · rw [heirs]
    simpa using dlistRemoveInit_cycle split
  · intro item inside outside
    have different : item ≠ node := by
      rintro rfl
      exact (List.nodup_cons.mp (List.nodup_middle.mp holds.nodup)).1 inside
    have unled : item ∉ before ++ node :: after := by
      rw [heirs] at outside
      simp only [List.mem_append, List.mem_cons] at outside ⊢
      tauto
    have queued : item ∈ low ++ node :: high := by
      simp only [List.mem_append, List.mem_cons] at inside ⊢
      tauto
    have alone := holds.followers item queued fun leads => unled (covers item leads)
    exact (alone.congr (others item unled)).congr (frame item unled)
  · intro item foreign
    have outside : item ∉ (before ++ node :: after).map Link.prioList := by
      intro inside
      obtain ⟨other, _, same⟩ := List.mem_map.mp inside
      exact foreign other same.symm
    have kept := dlistRemoveInit_frame linked member outside
    exact ⟨kept.1.trans (nodes item foreign).1, kept.2.trans (nodes item foreign).2⟩
  · intro other outside idle
    have unled : other ∉ before ++ node :: after := by
      intro leads
      apply outside
      rcases List.mem_append.mp leads with first | last
      · have queued := (leaders_sublist _).subset (heirs ▸ List.mem_append_left after first)
        simp only [List.mem_append, List.mem_cons] at queued ⊢
        tauto
      · rcases List.mem_cons.mp last with rfl | last
        · simp
        · have queued := (leaders_sublist _).subset (heirs ▸ List.mem_append_right before last)
          simp only [List.mem_append, List.mem_cons] at queued ⊢
          tauto
    exact (idle.congr (others other unled)).congr (frame other unled)

/-- A leader among others leaves the priority list, to the next node of its
priority if there is one. -/
private theorem release_leader (holds : Holds list.links prio (low ++ node :: high)) {after : List ν}
    (groups : leaders prio (low ++ node :: high) = leaders prio low ++ node :: after)
    (inherited : leaders prio (low ++ high) = leaders prio low ++ heirs prio node after high)
    (many : leaders prio low ++ after ≠ []) :
    ∃ links', plistRemoveLeader node list = some links' ∧ Released list.links links' prio low high node := by
  have cycle : Cycle list.links ((leaders prio low ++ node :: after).map .prioList) := groups ▸ holds.led
  have split : Cycle list.links ((leaders prio low).map .prioList ++ .prioList node :: after.map .prioList) := by
    simpa using cycle
  have busy : dlistIsEmpty (.prioList node) list.links = false := by
    simpa [dlistIsEmpty] using split.next_ne (by simpa using many)
  have covers : ∀ item ∈ leaders prio (low ++ node :: high), item ∈ leaders prio low ++ node :: after :=
    fun item member => groups ▸ member
  cases high with
  | nil =>
    refine ⟨dlistRemoveInit (.prioList node) list.links, ?_,
      release_linked holds cycle inherited covers (fun _ _ => ⟨rfl, rfl⟩) (fun _ _ => ⟨rfl, rfl⟩)⟩
    simp [plistRemoveLeader, busy, holds.after, anchor]
  | cons next high =>
    have found : plistNext node list = some next := by simp [plistNext, holds.after, anchor, Link.nodeEntry]
    by_cases same : prio next = prio node
    · have follows : next ∉ leaders prio low ++ node :: after := by
        rw [← groups]
        have order : low ++ node :: next :: high = (low ++ [node]) ++ next :: high := by simp
        have nodup := holds.nodup
        rw [order] at nodup ⊢
        intro leads
        exact (mem_leaders_iff nodup).mp leads node (by simp) same.symm
      have alone := holds.followers next (by simp) (groups ▸ follows)
      have added := dlistAdd_cycle split (by simpa using follows : Link.prioList next ∉ _)
      have inserted : Cycle (dlistAdd (.prioList next) (.prioList node) list.links)
          ((leaders prio low ++ node :: next :: after).map .prioList) := by simpa using added
      have member : Link.prioList node ∈ (leaders prio low ++ node :: after).map Link.prioList := by simp
      refine ⟨_, ?_, release_linked holds inserted (by simpa [heirs, same] using inherited) ?_ ?_ ?_⟩
      · simp [plistRemoveLeader, busy, holds.after, anchor, found, dlistIsEmpty_of_alone alone]
      · intro item inside
        have covered := covers item inside
        simp only [List.mem_append, List.mem_cons] at covered ⊢
        tauto
      · intro item foreign
        apply dlistAdd_frame cycle member (foreign next)
        intro inside
        obtain ⟨other, _, equal⟩ := List.mem_map.mp inside
        exact foreign other equal.symm
      · intro item outside
        apply dlistAdd_frame cycle member
        · rintro ⟨⟩
          simp at outside
        · intro inside
          apply outside
          simp only [List.mem_map, Link.prioList.injEq, exists_eq_right] at inside
          simp only [List.mem_append, List.mem_cons] at inside ⊢
          tauto
    · have leads : next ∈ leaders prio low ++ node :: after := by
        rw [← groups]
        have order : low ++ node :: next :: high = (low ++ [node]) ++ next :: high := by simp
        have nodup := holds.nodup
        have sorted := holds.sorted
        rw [order] at nodup sorted ⊢
        refine (mem_leaders_iff nodup).mpr fun other inside equal => ?_
        have across := (SortedBy.append_iff.mp holds.sorted).2.2
        have ahead := (SortedBy.append_iff.mp holds.sorted).2.1
        rcases List.mem_append.mp inside with earlier | last
        · have low := across other earlier node List.mem_cons_self
          have high := (List.pairwise_cons.mp ahead).1 next List.mem_cons_self
          exact same (le_antisymm (equal ▸ low) high)
        · exact same (by rw [← List.mem_singleton.mp last, equal])
      have linked : dlistIsEmpty (.prioList next) list.links = false := by
        obtain ⟨left, right, shape⟩ := List.append_of_mem leads
        have turned : Cycle list.links (left.map .prioList ++ .prioList next :: right.map .prioList) := by
          simpa [shape] using cycle
        have others : left.map Link.prioList ++ right.map Link.prioList ≠ [] := by
          intro empty
          have nothing : left = [] ∧ right = [] := by simpa using empty
          rw [nothing.1, nothing.2] at shape
          have alone : [node] = [next] := by
            have size := congrArg List.length shape
            simp only [List.length_append, List.length_cons, List.nil_append, List.length_nil] at size
            have first : leaders prio low = [] := List.length_eq_zero_iff.mp (by omega)
            have rest : after = [] := List.length_eq_zero_iff.mp (by omega)
            simpa [first, rest] using shape
          exact same (by rw [(List.cons.inj alone).1])
        simpa [dlistIsEmpty] using turned.next_ne others
      refine ⟨dlistRemoveInit (.prioList node) list.links, ?_,
        release_linked holds cycle (by simpa [heirs, same] using inherited) covers (fun _ _ => ⟨rfl, rfl⟩) (fun _ _ => ⟨rfl, rfl⟩)⟩
      simp [plistRemoveLeader, busy, holds.after, anchor, found, linked]

private theorem plistRemoveLeader_spec (holds : Holds list.links prio (low ++ node :: high)) :
    ∃ links', plistRemoveLeader node list = some links' ∧ Released list.links links' prio low high node := by
  by_cases follows : ∃ other ∈ low, prio other = prio node
  · exact ⟨_, release_follower holds follows⟩
  · have leads : ∀ other ∈ low, prio other ≠ prio node := fun other member same => follows ⟨other, member, same⟩
    obtain ⟨after, groups, inherited⟩ := leaders_remove_leader holds.sorted leads
    by_cases sole : leaders prio low ++ after = []
    · obtain ⟨first, rest⟩ := List.append_eq_nil_iff.mp sole
      rw [first, rest] at groups inherited
      refine ⟨_, release_sole holds groups inherited ?_⟩
      cases high with
      | nil => simp [heirs]
      | cons next high => simp only [heirs]; split <;> simp
    · exact release_leader holds groups inherited sole

/-- `plist_remove` deletes exactly its node. The priorities that order the list
are those the links were made for; the node's own may have changed since. -/
theorem plistRemove_spec (holds : Holds list.links prio nodes) (member : node ∈ nodes) :
    ∃ removed, plistRemove node list = some removed ∧ removed.prio = list.prio ∧
      Holds removed.links prio (nodes.erase node) ∧ Unlinked removed.links node ∧
      ∀ other ∉ nodes, Unlinked list.links other → Unlinked removed.links other := by
  obtain ⟨low, high, rfl⟩ := List.append_of_mem member
  have absent : node ∉ low := by
    intro inside
    exact (List.nodup_cons.mp (List.nodup_middle.mp holds.nodup)).1 (List.mem_append_left _ inside)
  have erased : (low ++ node :: high).erase node = low ++ high := by
    rw [List.erase_append_right _ absent, List.erase_cons_head]
  obtain ⟨links', computed, released⟩ := plistRemoveLeader_spec holds
  have ring : Cycle links' (.head :: (low ++ node :: high).map .nodeList) := by
    apply holds.ring.congr
    intro item inside
    apply released.nodes
    rintro other rfl
    exact prio_outside other inside
  have split : Cycle links' ((.head :: low.map .nodeList) ++ .nodeList node :: high.map .nodeList) := by
    simpa using ring
  have inside : Link.nodeList node ∈ (.head :: (low ++ node :: high).map .nodeList : List (Link ν)) := by simp
  have prioFrame (item : ν) := dlistRemoveInit_frame ring inside (prio_outside item)
  rw [erased]
  refine ⟨{ list with links := dlistRemoveInit (.nodeList node) links' }, by simp [plistRemove, computed], rfl,
    ⟨?_, ?_, ?_, ?_⟩, ⟨released.alone.congr (prioFrame node), dlistRemoveInit_alone⟩, ?_⟩
  · simpa using dlistRemoveInit_cycle split
  · exact List.Pairwise.sublist (List.Sublist.append_left (List.sublist_cons_self node high) low) holds.sorted
  · apply released.led.congr
    intro item leads
    obtain ⟨leader, _, rfl⟩ := List.mem_map.mp leads
    exact prioFrame leader
  · intro item queued follows
    exact (released.followers item queued follows).congr (prioFrame item)
  · intro other outside idle
    refine ⟨(released.others other outside idle.1).congr (prioFrame other), ?_⟩
    apply (idle.2.congr (released.nodes _ (by simp))).congr
    exact dlistRemoveInit_frame ring inside (by simpa using outside)

/-- `plist_requeue` moves a queued node behind all others of its priority. -/
theorem plistRequeue_spec {fuel : Nat} (holds : Holds list.links list.prio nodes) (member : node ∈ nodes)
    (enough : nodes.length ≤ fuel) :
    ∃ requeued, plistRequeue fuel node list = some requeued ∧ requeued.prio = list.prio ∧
      Holds requeued.links list.prio (stableInsert list.prio node (nodes.erase node)) ∧
      ∀ other ∉ nodes, Unlinked list.links other → Unlinked requeued.links other := by
  obtain ⟨removed, computed, kept, left, unlinked, others⟩ := plistRemove_spec holds member
  obtain ⟨low, tail, rfl⟩ := List.append_of_mem member
  have absent : node ∉ low := by
    intro inside
    exact (List.nodup_cons.mp (List.nodup_middle.mp holds.nodup)).1 (List.mem_append_left _ inside)
  rw [List.erase_append_right _ absent, List.erase_cons_head] at left ⊢
  obtain ⟨_, sortedTail, across⟩ := SortedBy.append_iff.mp holds.sorted
  have below : ∀ item ∈ low, list.prio item ≤ list.prio node :=
    fun item inside => across item inside node List.mem_cons_self
  have ahead := List.pairwise_cons.mp sortedTail
  have unmoved (above : ∀ item ∈ tail, list.prio node < list.prio item)
      (idle : plistRequeue fuel node list = some list) : _ :=
    show ∃ requeued, plistRequeue fuel node list = some requeued ∧ requeued.prio = list.prio ∧
      Holds requeued.links list.prio (stableInsert list.prio node (low ++ tail)) ∧
      ∀ other ∉ low ++ node :: tail, Unlinked list.links other → Unlinked requeued.links other from
    ⟨list, idle, rfl, by rwa [stableInsert_between below above], fun _ _ alone => alone⟩
  cases tail with
  | nil =>
    exact unmoved (by simp) (by simp [plistRequeue, holds.last])
  | cons next rest =>
    have notLast : list.links.prev .head ≠ .nodeList node := by
      intro last
      have back := holds.ring.next_prev List.mem_cons_self
      rw [last, holds.after] at back
      cases back
    have found : plistNext node list = some next := by simp [plistNext, holds.after, anchor, Link.nodeEntry]
    by_cases same : list.prio node = list.prio next
    · obtain ⟨equal, high, split, _, notBehind, above⟩ := stableInsert_split node (List.pairwise_cons.mp ahead.2).2
      subst split
      have equals : ∀ item ∈ equal, list.prio item = list.prio node := fun item inside =>
        le_antisymm (notBehind item inside) (ahead.1 item (by simp [inside]))
      have reaches : ∀ item ∈ low ++ next :: equal, list.prio item ≤ list.prio node := by
        intro item inside
        simp only [List.mem_append, List.mem_cons] at inside
        rcases inside with lower | rfl | upper
        · exact below item lower
        · exact same.ge
        · exact notBehind item upper
      have order : low ++ next :: (equal ++ high) = (low ++ next :: equal) ++ high := by simp
      have scanned : plistRequeueScan removed node fuel (removed.links.next (.nodeList next)) = some (anchor high) := by
        have inside : Holds removed.links list.prio ((low ++ [next]) ++ (equal ++ high)) := by simpa using left
        rw [left.after]
        apply requeue_scan inside (by simpa [kept] using equals) (by simpa [kept] using above)
        simp only [List.length_append, List.length_cons] at enough
        omega
      rw [order] at left ⊢
      have fresh : node ∉ (low ++ next :: equal) ++ high := by
        rw [← order]
        exact (List.nodup_cons.mp (List.nodup_middle.mp holds.nodup)).1
      refine ⟨{ removed with links := dlistAddTail (.nodeList node) (anchor high) removed.links }, ?_, kept, ?_, ?_⟩
      · simp [plistRequeue, notLast, found, same, computed, scanned]
      · rw [stableInsert_between reaches above]
        exact follow left fresh unlinked reaches above ⟨next, by simp, same.symm⟩
      · intro other outside idle
        apply (others other outside idle).link_node left.ring
        simp only [List.mem_append, List.mem_cons] at outside ⊢
        tauto
    · have strict : list.prio node < list.prio next := lt_of_le_of_ne (ahead.1 next List.mem_cons_self) same
      have above : ∀ item ∈ next :: rest, list.prio node < list.prio item := by
        intro item inside
        rcases List.mem_cons.mp inside with rfl | inside
        · exact strict
        · exact lt_of_lt_of_le strict ((List.pairwise_cons.mp ahead.2).1 item inside)
      exact unmoved above (by simp [plistRequeue, notLast, found, same])

end YuzuOS.Proofs.PlistQueue
