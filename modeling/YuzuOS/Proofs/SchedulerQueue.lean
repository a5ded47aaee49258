import YuzuOS.Library.Counting
import YuzuOS.Proofs.PlistQueue
import YuzuOS.Kernel.System

/-! What each scheduler call does to the queue of threads. Every call is
described by its resulting state, in which only the links are left open. -/

namespace YuzuOS.Proofs.SchedulerQueue
open YuzuOS.Library YuzuOS.Kernel YuzuOS.Proofs.PlistQueue

/-- The list holds `nodes`, all of them threads, and the other threads are
linked nowhere. -/
structure Queued (links : Links (Link Nat)) (prio : Nat → Int) (tid : Nat) (nodes : List Nat) : Prop where
  holds : Holds links prio nodes
  known : ∀ node ∈ nodes, node < tid
  unlinked : ∀ node, node < tid → node ∉ nodes → Unlinked links node

variable {links : Links (Link Nat)} {prio : Nat → Int} {tid thread : Nat} {nodes rest : List Nat} {sched next : Sched}

theorem Queued.length_le (queued : Queued links prio tid nodes) : nodes.length ≤ tid :=
  length_le_of_below queued.holds.nodup queued.known

theorem Queued.congr {other : Nat → Int} (queued : Queued links prio tid nodes)
    (same : ∀ node ∈ nodes, other node = prio node) : Queued links other tid nodes :=
  ⟨queued.holds.congr same, queued.known, queued.unlinked⟩

theorem mem_stableInsert {node : Nat} : node ∈ stableInsert prio thread nodes ↔ node = thread ∨ node ∈ nodes := by
  rw [(stableInsert_perm thread nodes).mem_iff, List.mem_cons]

theorem schedThreadQueue_spec (sched : Sched)
    (queued : Queued sched.schedList.links sched.schedList.prio sched.schedTid nodes)
    (known : thread < sched.schedTid) (fresh : thread ∉ nodes) :
    ∃ links, schedThreadQueue thread sched = some { sched with
        schedList := ⟨links, sched.schedList.prio⟩, queued := thread :: sched.queued } ∧
      Queued links sched.schedList.prio sched.schedTid (stableInsert sched.schedList.prio thread nodes) := by
  obtain ⟨⟨links, prio⟩, computed, kept, holds, others⟩ :=
    plistAdd_spec queued.holds fresh (queued.unlinked thread known fresh) queued.length_le
  cases kept
  refine ⟨links, by simp [schedThreadQueue, computed], holds, ?_, ?_⟩
  · intro node member
    rcases mem_stableInsert.mp member with rfl | member
    · exact known
    · exact queued.known node member
  · intro node bound outside
    have absent : node ∉ thread :: nodes := by simpa [mem_stableInsert] using outside
    exact others node absent (queued.unlinked node bound fun member => absent (List.mem_cons_of_mem _ member))

theorem schedThreadUnqueue_spec (sched : Sched) (queued : Queued sched.schedList.links prio sched.schedTid nodes)
    (known : thread < sched.schedTid) :
    ∃ links, schedThreadUnqueue thread sched = some { sched with schedList := ⟨links, sched.schedList.prio⟩ } ∧
      Queued links prio sched.schedTid (nodes.erase thread) := by
  by_cases member : thread ∈ nodes
  · obtain ⟨⟨links, kept⟩, computed, same, holds, alone, others⟩ := plistRemove_spec queued.holds member
    cases same
    refine ⟨links, by simp [schedThreadUnqueue, computed], holds,
      fun node inside => queued.known node (List.mem_of_mem_erase inside), ?_⟩
    intro node bound outside
    by_cases same : node = thread
    · exact same ▸ alone
    · have absent : node ∉ nodes := fun inside => outside ((List.mem_erase_of_ne same).mpr inside)
      exact others node absent (queued.unlinked node bound absent)
  · have idle := plistRemove_unlinked (queued.unlinked thread known member)
    rw [List.erase_of_not_mem member]
    exact ⟨sched.schedList.links, by simp [schedThreadUnqueue, idle], queued⟩

def updated (thread : Nat) (state : ThreadState) (links : Links (Link Nat)) (sched : Sched) : Sched :=
  { sched with
    schedList := ⟨links, sched.schedList.prio⟩
    threads := Function.update sched.threads thread { sched.threads thread with state := state }
    queued := thread :: sched.queued }

/-- An update queues the thread behind all others of its priority. The other
threads' priorities are those the list is in order of. -/
theorem schedThreadUpdate_spec (sched : Sched) (state : ThreadState)
    (queued : Queued sched.schedList.links prio sched.schedTid nodes) (known : thread < sched.schedTid)
    (kept : ∀ node ∈ nodes.erase thread, sched.schedList.prio node = prio node)
    (changes : (sched.threads thread).state ≠ state) :
    ∃ links, schedThreadUpdate thread state sched = some (updated thread state links sched) ∧
      Queued links sched.schedList.prio sched.schedTid
        (stableInsert sched.schedList.prio thread (nodes.erase thread)) := by
  obtain ⟨removed, unqueued, left⟩ := schedThreadUnqueue_spec (schedLock sched) queued known
  have reads : Queued removed sched.schedList.prio sched.schedTid (nodes.erase thread) := left.congr kept
  have fresh : thread ∉ nodes.erase thread := fun member => (queued.holds.nodup.mem_erase_iff.mp member).1 rfl
  obtain ⟨links, computed, holds⟩ := schedThreadQueue_spec
    (Sched.setThread { schedLock sched with schedList := ⟨removed, sched.schedList.prio⟩ } thread
      { sched.threads thread with state := state }) reads known fresh
  refine ⟨links, ?_, holds⟩
  rw [schedThreadUpdate, if_neg changes, unqueued]
  exact congrArg (fun result => result.bind fun sched => some (schedUnlock sched)) computed

theorem updated_setThread {state : ThreadState} {content : Thread} :
    updated thread state links (sched.setThread thread content) = { sched with
      schedList := ⟨links, sched.schedList.prio⟩
      threads := Function.update sched.threads thread { content with state := state }
      queued := thread :: sched.queued } := by
  simp only [updated, Sched.setThread, Function.update_idem, Function.update_self]

def dispatched (thread : Nat) (links : Links (Link Nat)) (sched : Sched) : Sched :=
  let content := sched.threads thread
  let same := sched.schedThread = thread
  { sched with
    schedList := ⟨links, sched.schedList.prio⟩
    schedThread := thread
    schedProcess := if same then sched.schedProcess else content.process
    threads := Function.update sched.threads thread { content with time := 0, state := .running }
    tssStack := if same then sched.tssStack else content.stackKernel
    switchDir := if same then sched.switchDir else (sched.processes content.process).pageDir
    queued := thread :: sched.queued }

theorem schedThreadPopNext_spec (sched : Sched)
    (queued : Queued sched.schedList.links prio sched.schedTid (thread :: rest)) :
    ∃ links, schedThreadPopNext sched =
        some (some thread, { sched with schedList := ⟨links, sched.schedList.prio⟩ }) ∧
      Queued links prio sched.schedTid rest := by
  have starts : sched.schedList.links.next .head = .nodeList thread := queued.holds.first
  have filled : plistIsHeadEmpty sched.schedList = false := by simp [plistIsHeadEmpty, dlistIsEmpty, starts]
  have found : plistFirst sched.schedList = some thread := by simp [plistFirst, starts, Link.nodeEntry]
  obtain ⟨links, removed, left⟩ := schedThreadUnqueue_spec sched queued (queued.known thread List.mem_cons_self)
  rw [List.erase_cons_head] at left
  exact ⟨links, by simp [schedThreadPopNext, filled, found, removed], left⟩

private theorem schedThreadSwitch_spec (sched : Sched)
    (queued : Queued sched.schedList.links sched.schedList.prio sched.schedTid rest) (known : thread < sched.schedTid)
    (fresh : thread ∉ rest) (asleep : (sched.threads thread).state ≠ .running) :
    ∃ links, schedThreadSwitch thread sched = some (dispatched thread links sched) ∧
      Queued links sched.schedList.prio sched.schedTid (stableInsert sched.schedList.prio thread rest) := by
  have changes : ((sched.setThread thread { sched.threads thread with time := 0 }).threads thread).state ≠ .running := by
    simpa [Sched.setThread] using asleep
  obtain ⟨links, computed, holds⟩ := schedThreadUpdate_spec
    (Sched.setThread { sched with schedThread := thread } thread { sched.threads thread with time := 0 }) .running
    queued known (fun _ _ => rfl) changes
  rw [List.erase_of_not_mem fresh] at holds
  rw [updated_setThread] at computed
  refine ⟨links, ?_, holds⟩
  by_cases same : sched.schedThread = thread
  · have unmoved : { sched with schedThread := thread } = sched := by rw [← same]
    rw [unmoved] at computed
    rw [schedThreadSwitch, if_pos same, computed]
    simp only [dispatched, same, if_true]
  · have moved := congrArg (fun result => result.bind fun sched : Sched => some { sched with
      schedProcess := (sched.threads thread).process
      switchDir := (sched.processes (sched.threads thread).process).pageDir
      tssStack := (sched.threads thread).stackKernel }) computed
    rw [schedThreadSwitch, if_neg same]
    refine moved.trans ?_
    simp only [dispatched, same, if_false, Option.bind_some, Function.update_self]

theorem schedSchedule_spec (sched : Sched)
    (queued : Queued sched.schedList.links sched.schedList.prio sched.schedTid (thread :: rest))
    (idle : (sched.threads sched.schedThread).state ≠ .running) (asleep : (sched.threads thread).state ≠ .running) :
    ∃ links, schedSchedule sched = some (dispatched thread links sched) ∧
      Queued links sched.schedList.prio sched.schedTid (stableInsert sched.schedList.prio thread rest) := by
  obtain ⟨popped, removed, left⟩ := schedThreadPopNext_spec (schedLock sched) queued
  have fresh := (List.nodup_cons.mp queued.holds.nodup).1
  obtain ⟨links, computed, holds⟩ := schedThreadSwitch_spec
    { schedLock sched with schedList := ⟨popped, sched.schedList.prio⟩ } left
    (queued.known thread List.mem_cons_self) fresh asleep
  refine ⟨links, ?_, holds⟩
  rw [schedSchedule, if_neg idle, removed]
  exact congrArg (fun result => result.bind fun sched => some (schedUnlock sched)) computed

theorem schedSchedule_running (running : (sched.threads sched.schedThread).state = .running) :
    schedSchedule sched = some sched := by
  simp [schedSchedule, running]

/-- With nothing queued the idle loop never ends. -/
theorem schedSchedule_empty (queued : Queued sched.schedList.links sched.schedList.prio sched.schedTid [])
    (idle : (sched.threads sched.schedThread).state ≠ .running) : schedSchedule sched = none := by
  have starts : sched.schedList.links.next .head = .head := queued.holds.first
  have empty : plistIsHeadEmpty (schedLock sched).schedList = true := by
    simp [plistIsHeadEmpty, dlistIsEmpty, schedLock, starts]
  simp [schedSchedule, idle, schedThreadPopNext, empty]

/-- The walk of `sched_handler` lowers every priority of the queue by the same amount. -/
theorem schedShiftPrio_spec {order : Nat → Int} {low high : List Nat} {fuel : Nat}
    (holds : Holds links order (low ++ high)) (amount : Int) (enough : high.length < fuel) :
    schedShiftPrio amount fuel (anchor high) ⟨links, prio⟩ =
      some ⟨links, fun node => if node ∈ high then prio node - amount else prio node⟩ := by
  induction high generalizing low fuel prio with
  | nil =>
    cases fuel with
    | zero => simp at enough
    | succ fuel => simp [schedShiftPrio, anchor]
  | cons node high ih =>
    cases fuel with
    | zero => simp at enough
    | succ fuel =>
      have later : Holds links order ((low ++ [node]) ++ high) := by simpa using holds
      have absent : node ∉ high := by
        have nodup := (List.nodup_append.mp holds.nodup).2.1
        exact (List.nodup_cons.mp nodup).1
      simp only [schedShiftPrio, anchor, Link.nodeEntry, Option.bind_eq_bind, Option.bind_some]
      rw [holds.after, ih later (Nat.lt_of_succ_lt_succ enough)]
      congr 2
      funext other
      by_cases same : other = node
      · simp [same, absent]
      · simp [same]

def shifted (nodes : List Nat) (thread : Nat) (amount last : Int) (prio : Nat → Int) : Nat → Int :=
  Function.update (fun node => if node ∈ nodes then prio node - amount else prio node) thread (last - amount + 1)

theorem schedPreempt_spec (sched : Sched)
    (queued : Queued sched.schedList.links sched.schedList.prio sched.schedTid nodes)
    (member : sched.schedThread ∈ nodes) (running : (sched.threads sched.schedThread).state = .running) :
    ∃ links amount last, schedPreempt sched = some (updated sched.schedThread .ready links { sched with
        schedList := ⟨links, shifted nodes sched.schedThread amount last sched.schedList.prio⟩ }) ∧
      Queued links (shifted nodes sched.schedThread amount last sched.schedList.prio) sched.schedTid
        (nodes.erase sched.schedThread ++ [sched.schedThread]) := by
  obtain ⟨front, last, shape⟩ : ∃ front last, nodes = front ++ [last] := by
    rcases List.eq_nil_or_concat nodes with empty | ⟨front, last, shape⟩
    · rw [empty] at member
      cases member
    · exact ⟨front, last, by rw [shape, List.concat_eq_append]⟩
  obtain ⟨first, rest, starts⟩ := List.exists_cons_of_ne_nil (List.ne_nil_of_mem member)
  have foundFirst : plistFirst sched.schedList = some first := by
    simp [plistFirst, queued.holds.first, starts, anchor, Link.nodeEntry]
  have foundLast : plistLast sched.schedList = some last := by
    have ends : Holds sched.schedList.links sched.schedList.prio (front ++ [last]) := shape ▸ queued.holds
    simp [plistLast, ends.last, Link.nodeEntry]
  have walked : schedShiftPrio (sched.schedList.prio first) (sched.schedTid + 1) (sched.schedList.links.next .head)
      sched.schedList = some ⟨sched.schedList.links, fun node =>
        if node ∈ nodes then sched.schedList.prio node - sched.schedList.prio first else sched.schedList.prio node⟩ := by
    rw [queued.holds.first]
    have whole : Holds sched.schedList.links sched.schedList.prio ([] ++ nodes) := queued.holds
    exact schedShiftPrio_spec whole _ (Nat.lt_succ_of_le queued.length_le)
  have lastMember : last ∈ nodes := by rw [shape]; simp
  have order : ∀ node ∈ nodes, sched.schedList.prio node ≤ sched.schedList.prio last := by
    intro node inside
    rw [shape] at inside
    rcases List.mem_append.mp inside with before | final
    · exact (SortedBy.append_iff.mp (shape ▸ queued.holds.sorted)).2.2 node before last (by simp)
    · rw [List.mem_singleton.mp final]
  have moved : Queued sched.schedList.links (fun node =>
      if node ∈ nodes then sched.schedList.prio node - sched.schedList.prio first else sched.schedList.prio node)
      sched.schedTid nodes := by
    refine ⟨queued.holds.reorder ?_, queued.known, queued.unlinked⟩
    intro left leftMember right rightMember
    simp only [leftMember, rightMember, if_true]
    omega
  have apart : ∀ node ∈ nodes.erase sched.schedThread, node ≠ sched.schedThread :=
    fun node inside => (queued.holds.nodup.mem_erase_iff.mp inside).1
  have kept : ∀ node ∈ nodes.erase sched.schedThread,
      shifted nodes sched.schedThread (sched.schedList.prio first) (sched.schedList.prio last) sched.schedList.prio node =
        if node ∈ nodes then sched.schedList.prio node - sched.schedList.prio first else sched.schedList.prio node :=
    fun node inside => by rw [shifted, Function.update_of_ne (apart node inside)]
  obtain ⟨links, computed, holds⟩ := schedThreadUpdate_spec { sched with schedList := ⟨sched.schedList.links,
      shifted nodes sched.schedThread (sched.schedList.prio first) (sched.schedList.prio last) sched.schedList.prio⟩ }
    .ready moved (queued.known _ member) kept (by simp [running])
  refine ⟨links, sched.schedList.prio first, sched.schedList.prio last, ?_, ?_⟩
  · simp only [schedPreempt, foundFirst, foundLast, walked, Option.bind_eq_bind, Option.bind_some, lastMember, if_true]
    exact computed
  · have below : ∀ node ∈ nodes.erase sched.schedThread,
        shifted nodes sched.schedThread (sched.schedList.prio first) (sched.schedList.prio last) sched.schedList.prio node ≤
        shifted nodes sched.schedThread (sched.schedList.prio first) (sched.schedList.prio last) sched.schedList.prio
          sched.schedThread := by
      intro node inside
      have queuedNode := List.mem_of_mem_erase inside
      have bound := order node queuedNode
      simp only [shifted, Function.update_of_ne (apart node inside), Function.update_self, queuedNode, if_true]
      omega
    have above : ∀ node ∈ ([] : List Nat), shifted nodes sched.schedThread (sched.schedList.prio first)
        (sched.schedList.prio last) sched.schedList.prio sched.schedThread <
        shifted nodes sched.schedThread (sched.schedList.prio first) (sched.schedList.prio last) sched.schedList.prio node := by
      simp
    have placed := stableInsert_between below above
    rw [List.append_nil] at placed
    rwa [placed] at holds

def spawned (parent stackKernel pageDir : Nat) (sched : Sched) : Sched :=
  { sched with
    schedPid := sched.schedPid + 1
    schedTid := sched.schedTid + 1
    schedList := plistNodeInit sched.schedTid 0 sched.schedList
    threads := Function.update sched.threads sched.schedTid
      { tid := sched.schedTid, time := 0, stackKernel, state := .ready, process := sched.schedPid }
    processes := Function.update sched.processes sched.schedPid
      { pid := sched.schedPid, exitCode := 0, files := (schedProcessCloneFiles (some parent) sched).1,
        thread := some sched.schedTid, parent := some parent, pageDir }
    files := (schedProcessCloneFiles (some parent) sched).2 }

theorem schedLoad_eq (stackKernel pageDir : Nat) : schedLoad stackKernel pageDir sched =
    schedThreadQueue sched.schedTid (spawned sched.schedProcess stackKernel pageDir sched) := by
  simp [schedLoad, schedProcessCreate, schedThreadCreate, spawned, Sched.setProcess, Sched.setThread, schedLock,
    schedUnlock, schedProcessCloneFiles]

theorem schedProcessFork_eq {parent : Nat} (known : parent < sched.schedPid) (stackKernel pageDir : Nat) :
    (schedProcessFork parent stackKernel pageDir sched).map (·.2) =
      schedThreadQueue sched.schedTid (spawned parent stackKernel pageDir sched) := by
  simp [schedProcessFork, known, schedThreadCreate, spawned, Sched.setProcess, Sched.setThread, schedLock,
    schedUnlock, schedProcessCloneFiles]

theorem spawned_queued (parent stackKernel pageDir : Nat)
    (queued : Queued sched.schedList.links sched.schedList.prio sched.schedTid nodes) :
    ∃ links, schedThreadQueue sched.schedTid (spawned parent stackKernel pageDir sched) =
        some { spawned parent stackKernel pageDir sched with
          schedList := ⟨links, Function.update sched.schedList.prio sched.schedTid 0⟩
          queued := sched.schedTid :: sched.queued } ∧
      Queued links (Function.update sched.schedList.prio sched.schedTid 0) (sched.schedTid + 1)
        (stableInsert (Function.update sched.schedList.prio sched.schedTid 0) sched.schedTid nodes) := by
  have fresh : sched.schedTid ∉ nodes := fun member => Nat.lt_irrefl _ (queued.known _ member)
  obtain ⟨holds, alone, others⟩ := plistNodeInit_spec queued.holds fresh 0
  have kept : ∀ node ∈ nodes, Function.update sched.schedList.prio sched.schedTid 0 node = sched.schedList.prio node := by
    intro node member
    have apart : node ≠ sched.schedTid := fun same => fresh (same ▸ member)
    simp [apart]
  have ready : Queued (spawned parent stackKernel pageDir sched).schedList.links
      (spawned parent stackKernel pageDir sched).schedList.prio (spawned parent stackKernel pageDir sched).schedTid nodes := by
    refine ⟨holds.congr kept, fun node member => Nat.lt_succ_of_lt (queued.known node member), ?_⟩
    intro node bound outside
    by_cases same : node = sched.schedTid
    · exact same ▸ alone
    · exact others node same (queued.unlinked node (by simp only [spawned] at bound; omega) outside)
  exact schedThreadQueue_spec (spawned parent stackKernel pageDir sched) ready (Nat.lt_succ_self _) fresh

end YuzuOS.Proofs.SchedulerQueue
