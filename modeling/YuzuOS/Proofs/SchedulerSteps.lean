import YuzuOS.Proofs.SchedulerQueue

/-! One relation that says everything a scheduler step can do, and the
invariant of every run, with and without exits. -/

namespace YuzuOS.Proofs.SchedulerSteps
open YuzuOS.Library YuzuOS.Kernel YuzuOS.Proofs.PlistQueue YuzuOS.Proofs.SchedulerQueue

/-- The queue holds every thread that was ever queued, each thread but the boot
thread was, and a running thread is the current one and queued. -/
structure Valid (sched : Sched) (nodes : List Nat) : Prop where
  queued : Queued sched.schedList.links sched.schedList.prio sched.schedTid nodes
  passed : ∀ thread, thread ∈ nodes ↔ thread ∈ sched.queued
  created : ∀ thread, 0 < thread → thread < sched.schedTid → thread ∈ nodes
  current : sched.schedThread < sched.schedTid
  sole : ∀ thread, (sched.threads thread).state = .running → thread = sched.schedThread ∧ thread ∈ nodes

structure Settled (sched : Sched) (nodes : List Nat) : Prop where
  valid : Valid sched nodes
  unlocked : sched.schedLocks = 0
  awake : (sched.threads sched.schedThread).state ≠ .terminated

def ticked (sched : Sched) : Sched :=
  sched.setThread sched.schedThread
    { sched.threads sched.schedThread with time := (sched.threads sched.schedThread).time + 1 }

def preempted (links : Links (Link Nat)) (prio : Nat → Int) (sched : Sched) : Sched :=
  updated sched.schedThread .ready links { ticked sched with schedList := ⟨links, prio⟩ }

def closed (code : Int) (files : ProcessFiles) (released freed : List Nat) (sched : Sched) : Sched :=
  { sched with
    processes := Function.update sched.processes sched.schedProcess
      { sched.processes sched.schedProcess with exitCode := code, files }
    exited := sched.schedProcess :: sched.exited
    released
    freed }

variable {sched next : Sched} {nodes nodes' rest : List Nat} {thread : Nat} {action : SchedAction}

/-- Everything a step can do to a state whose queue is `nodes`. -/
inductive Moves (sched : Sched) (nodes : List Nat) : SchedAction → Sched → List Nat → Prop
  | served : (sched.threads sched.schedThread).state = .running → Moves sched nodes .schedule sched nodes
  | unserved : (sched.threads sched.schedThread).state ≠ .running → Moves sched nodes .tick sched nodes
  | counted : (sched.threads sched.schedThread).state = .running →
      (sched.threads sched.schedThread).time + 1 < schedTimeSlice → Moves sched nodes .tick (ticked sched) nodes
  | preempted {links final : Links (Link Nat)} {prio : Nat → Int} {thread : Nat} {rest : List Nat} :
      (sched.threads sched.schedThread).state = .running →
      schedTimeSlice ≤ (sched.threads sched.schedThread).time + 1 →
      nodes.erase sched.schedThread ++ [sched.schedThread] = thread :: rest →
      Queued links prio sched.schedTid (thread :: rest) →
      Queued final prio sched.schedTid (stableInsert prio thread rest) →
      Moves sched nodes .tick (dispatched thread final (preempted links prio sched)) (stableInsert prio thread rest)
  | scheduled {final : Links (Link Nat)} {thread : Nat} {rest : List Nat} :
      (sched.threads sched.schedThread).state ≠ .running → nodes = thread :: rest →
      Queued final sched.schedList.prio sched.schedTid (stableInsert sched.schedList.prio thread rest) →
      Moves sched nodes .schedule (dispatched thread final sched) (stableInsert sched.schedList.prio thread rest)
  | spawned {action : SchedAction} {parent stackKernel pageDir : Nat} {links : Links (Link Nat)} :
      action = .load stackKernel pageDir ∧ parent = sched.schedProcess ∨
        action = .fork parent stackKernel pageDir ∧ parent < sched.schedPid →
      Queued links (Function.update sched.schedList.prio sched.schedTid 0) (sched.schedTid + 1)
        (stableInsert (Function.update sched.schedList.prio sched.schedTid 0) sched.schedTid nodes) →
      Moves sched nodes action { spawned parent stackKernel pageDir sched with
          schedList := ⟨links, Function.update sched.schedList.prio sched.schedTid 0⟩
          queued := sched.schedTid :: sched.queued }
        (stableInsert (Function.update sched.schedList.prio sched.schedTid 0) sched.schedTid nodes)
  | exited {code : Int} {files : ProcessFiles} {released freed : List Nat} {links final : Links (Link Nat)}
      {thread : Nat} {rest : List Nat} :
      (sched.processes sched.schedProcess).pid ≠ 1 →
      (List.range fdMax).foldlM (schedExitFile sched.schedProcess)
          (schedLock (closed code (sched.processes sched.schedProcess).files sched.released sched.freed sched)) =
        some (schedLock (closed code files released freed sched)) →
      stableInsert sched.schedList.prio sched.schedThread (nodes.erase sched.schedThread) = thread :: rest →
      Queued links sched.schedList.prio sched.schedTid (thread :: rest) →
      Queued final sched.schedList.prio sched.schedTid (stableInsert sched.schedList.prio thread rest) →
      Moves sched nodes (.exit code)
        (dispatched thread final (updated sched.schedThread .terminated links (closed code files released freed sched)))
        (stableInsert sched.schedList.prio thread rest)
  | opened {flags : Nat} {found : Except Int (Option VfsFileOp)} :
      Moves sched nodes (.openFile flags found) (virtFsOpen flags found sched).2 nodes

theorem schedHandler_idle (idle : (sched.threads sched.schedThread).state ≠ .running) :
    schedHandler sched = some sched := by
  simp [schedHandler, idle]

theorem schedHandler_counted (running : (sched.threads sched.schedThread).state = .running)
    (short : (sched.threads sched.schedThread).time + 1 < schedTimeSlice) :
    schedHandler sched = some (ticked sched) := by
  have early : ¬ schedTimeSlice ≤ (sched.threads sched.schedThread).time + 1 := Nat.not_le.mpr short
  simp [schedHandler, running, early, ticked, schedLock, schedUnlock, Sched.setThread]

theorem ticked_valid (valid : Valid sched nodes) : Valid (ticked sched) nodes := by
  refine ⟨valid.queued, valid.passed, valid.created, valid.current, ?_⟩
  intro thread running
  apply valid.sole thread
  by_cases same : thread = sched.schedThread
  · simpa [ticked, Sched.setThread, same] using running
  · simpa [ticked, Sched.setThread, same] using running

/-- A thread of the queue that is put into a state other than running, at any
place in the queue. -/
theorem updated_valid {state : ThreadState} {links : Links (Link Nat)} {prio : Nat → Int} (valid : Valid sched nodes)
    (queued : Queued links prio sched.schedTid nodes')
    (order : ∀ node, node ∈ nodes' ↔ node = thread ∨ node ∈ nodes) (idle : state ≠ .running) :
    Valid (updated thread state links { sched with schedList := ⟨links, prio⟩ }) nodes' := by
  refine ⟨queued, ?_, ?_, valid.current, ?_⟩
  · intro node
    rw [order, valid.passed]
    simp [updated]
  · intro node positive bound
    exact (order node).mpr (.inr (valid.created node positive bound))
  · intro node running
    by_cases same : node = thread
    · rw [same] at running
      simp [updated, idle] at running
    · have old := valid.sole node (by simpa [updated, same] using running)
      exact ⟨old.1, (order node).mpr (.inr old.2)⟩

theorem dispatched_settled {links : Links (Link Nat)} (valid : Valid sched (thread :: rest))
    (unlocked : sched.schedLocks = 0) (idle : (sched.threads sched.schedThread).state ≠ .running)
    (queued : Queued links sched.schedList.prio sched.schedTid (stableInsert sched.schedList.prio thread rest)) :
    Settled (dispatched thread links sched) (stableInsert sched.schedList.prio thread rest) := by
  have order (node : Nat) : node ∈ stableInsert sched.schedList.prio thread rest ↔ node ∈ thread :: rest := by
    rw [mem_stableInsert, List.mem_cons]
  refine ⟨⟨queued, ?_, ?_, valid.queued.known thread List.mem_cons_self, ?_⟩, unlocked, ?_⟩
  · intro node
    rw [order, valid.passed]
    have passed := (valid.passed thread).mp List.mem_cons_self
    simp only [dispatched, List.mem_cons]
    refine ⟨.inr, fun member => ?_⟩
    rcases member with rfl | member
    · exact passed
    · exact member
  · intro node positive bound
    exact (order node).mpr (valid.created node positive bound)
  · intro node running
    by_cases same : node = thread
    · exact ⟨same, (order node).mpr (same ▸ List.mem_cons_self)⟩
    · have old := valid.sole node (by simpa [dispatched, same] using running)
      exact False.elim (idle (old.1 ▸ by simpa [dispatched, same] using running))
  · simp [dispatched]

theorem Valid.asleep (valid : Valid sched nodes) (idle : (sched.threads sched.schedThread).state ≠ .running)
    (thread : Nat) :
    (sched.threads thread).state ≠ .running := by
  intro running
  exact idle ((valid.sole thread running).1 ▸ running)

theorem mem_requeued (node : Nat) : node ∈ nodes.erase thread ++ [thread] ↔ node = thread ∨ node ∈ nodes := by
  by_cases same : node = thread
  · simp [same]
  · simp [same, List.mem_erase_of_ne same]

theorem mem_reinserted {prio : Nat → Int} (node : Nat) :
    node ∈ stableInsert prio thread (nodes.erase thread) ↔ node = thread ∨ node ∈ nodes := by
  rw [mem_stableInsert]
  by_cases same : node = thread
  · simp [same]
  · simp [same, List.mem_erase_of_ne same]

theorem preempted_valid {links : Links (Link Nat)} {prio : Nat → Int} (valid : Valid sched nodes)
    (shape : nodes.erase sched.schedThread ++ [sched.schedThread] = thread :: rest)
    (queued : Queued links prio sched.schedTid (thread :: rest)) :
    Valid (preempted links prio sched) (thread :: rest) ∧
      ((preempted links prio sched).threads sched.schedThread).state ≠ .running := by
  refine ⟨updated_valid (ticked_valid valid) queued ?_ (by simp), by simp [preempted, updated]⟩
  rw [← shape]
  exact mem_requeued

theorem exited_valid {code : Int} {files : ProcessFiles} {released freed : List Nat} {links : Links (Link Nat)}
    (valid : Valid sched nodes)
    (shape : stableInsert sched.schedList.prio sched.schedThread (nodes.erase sched.schedThread) = thread :: rest)
    (queued : Queued links sched.schedList.prio sched.schedTid (thread :: rest)) :
    Valid (updated sched.schedThread .terminated links (closed code files released freed sched)) (thread :: rest) ∧
      ((updated sched.schedThread .terminated links (closed code files released freed sched)).threads
        sched.schedThread).state ≠ .running := by
  have kept : Valid (closed code files released freed sched) nodes :=
    ⟨valid.queued, valid.passed, valid.created, valid.current, valid.sole⟩
  refine ⟨updated_valid kept queued ?_ (by simp), by simp [updated]⟩
  rw [← shape]
  exact mem_reinserted

theorem schedSchedule_moves (settled : Settled sched nodes) (stepped : schedSchedule sched = some next) :
    ∃ nodes', Moves sched nodes .schedule next nodes' := by
  by_cases running : (sched.threads sched.schedThread).state = .running
  · rw [schedSchedule_running running] at stepped
    cases stepped
    exact ⟨nodes, .served running⟩
  · cases shape : nodes with
    | nil =>
      rw [schedSchedule_empty (shape ▸ settled.valid.queued) running] at stepped
      cases stepped
    | cons thread rest =>
      obtain ⟨links, computed, queued⟩ :=
        schedSchedule_spec sched (shape ▸ settled.valid.queued) running (settled.valid.asleep running thread)
      rw [stepped] at computed
      cases computed
      exact ⟨_, .scheduled running rfl queued⟩

/-- The queue of a preempted thread's successor is the old one with the thread
at its end. -/
theorem schedHandler_preempts (settled : Settled sched nodes)
    (running : (sched.threads sched.schedThread).state = .running)
    (late : schedTimeSlice ≤ (sched.threads sched.schedThread).time + 1) :
    ∃ links prio, schedHandler sched = schedSchedule (preempted links prio sched) ∧
      Queued links prio sched.schedTid (nodes.erase sched.schedThread ++ [sched.schedThread]) := by
  have member := (settled.valid.sole _ running).2
  obtain ⟨first, rest, shape⟩ := List.exists_cons_of_ne_nil (List.ne_nil_of_mem member)
  have starts : sched.schedList.links.next .head = .nodeList first := (shape ▸ settled.valid.queued.holds).first
  have filled : plistIsHeadEmpty sched.schedList = false := by simp [plistIsHeadEmpty, dlistIsEmpty, starts]
  have waits : (schedThreadGetNext (schedLock (ticked sched))).isSome = true := by
    have same : (schedLock (ticked sched)).schedList = sched.schedList := rfl
    simp [schedThreadGetNext, same, filled, plistFirst, starts, Link.nodeEntry]
  obtain ⟨links, amount, last, computed, queued⟩ := schedPreempt_spec (schedLock (ticked sched)) settled.valid.queued
    member (by simpa [ticked, schedLock, Sched.setThread] using running)
  refine ⟨links, _, ?_, queued⟩
  have moves := congrArg (fun result => result.bind fun sched : Sched =>
    if (schedUnlock sched).schedLocks = 0 then schedSchedule (schedUnlock sched) else some (schedUnlock sched)) computed
  have free : (schedUnlock (updated sched.schedThread .ready links { schedLock (ticked sched) with schedList :=
      ⟨links, shifted nodes sched.schedThread amount last sched.schedList.prio⟩ })).schedLocks = 0 := by
    simpa [schedUnlock, updated, schedLock, ticked, Sched.setThread] using settled.unlocked
  rw [schedHandler, if_neg (by simp [running])]
  refine (if_pos ⟨late, waits⟩).trans (moves.trans ((if_pos free).trans ?_))
  rfl

theorem schedHandler_moves (settled : Settled sched nodes) (stepped : schedHandler sched = some next) :
    ∃ nodes', Moves sched nodes .tick next nodes' := by
  by_cases running : (sched.threads sched.schedThread).state = .running
  · by_cases late : schedTimeSlice ≤ (sched.threads sched.schedThread).time + 1
    · obtain ⟨links, prio, computed, queued⟩ := schedHandler_preempts settled running late
      obtain ⟨thread, rest, shape⟩ := List.exists_cons_of_ne_nil
        (by simp : nodes.erase sched.schedThread ++ [sched.schedThread] ≠ [])
      rw [shape] at queued
      obtain ⟨valid, idle⟩ := preempted_valid settled.valid shape queued
      obtain ⟨final, dispatches, placed⟩ := schedSchedule_spec _ valid.queued idle (valid.asleep idle thread)
      rw [← computed, stepped] at dispatches
      cases dispatches
      exact ⟨_, .preempted running late shape queued placed⟩
    · rw [schedHandler_counted running (Nat.not_le.mp late)] at stepped
      cases stepped
      exact ⟨nodes, .counted running (Nat.not_le.mp late)⟩
  · rw [schedHandler_idle running] at stepped
    cases stepped
    exact ⟨nodes, .unserved running⟩

theorem schedExitFiles_frame {process : Nat} {fds : List Nat}
    (stepped : fds.foldlM (schedExitFile process) sched = some next) :
    ∃ files released freed, next = { sched with
      processes := Function.update sched.processes process { sched.processes process with files }
      released, freed } := by
  induction fds generalizing sched with
  | nil =>
    cases stepped
    exact ⟨(next.processes process).files, next.released, next.freed, by simp⟩
  | cons fd fds ih =>
    rw [List.foldlM_cons] at stepped
    obtain ⟨middle, first, later⟩ := Option.bind_eq_some_iff.mp stepped
    obtain ⟨files, released, freed, rfl⟩ := ih later
    have one : ∃ files released freed, middle = { sched with
        processes := Function.update sched.processes process { sched.processes process with files }
        released, freed } := by
      unfold schedExitFile at first
      split at first
      next =>
        cases first
        exact ⟨(sched.processes process).files, sched.released, sched.freed, by simp⟩
      next file found =>
        split at first
        next =>
          obtain ⟨op, _, closes⟩ := Option.bind_eq_some_iff.mp first
          split at closes
          next =>
            cases closes
            exact ⟨_, _, _, rfl⟩
          next =>
            cases closes
            exact ⟨(sched.processes process).files, sched.released, sched.freed, by simp⟩
        next =>
          cases first
          exact ⟨(sched.processes process).files, sched.released, sched.freed, by simp⟩
    obtain ⟨_, _, _, rfl⟩ := one
    exact ⟨files, released, freed, by simp⟩

theorem schedExit_eq {code : Int} (other : (sched.processes sched.schedProcess).pid ≠ 1) : schedExit code sched =
    ((List.range fdMax).foldlM (schedExitFile sched.schedProcess)
        (schedLock (closed code (sched.processes sched.schedProcess).files sched.released sched.freed sched))).bind
      fun sched => (schedThreadUpdate sched.schedThread .terminated sched).bind
        fun sched => schedSchedule (schedUnlock sched) := by
  rw [schedExit]
  exact if_neg other

theorem schedExit_moves {code : Int} (settled : Settled sched nodes) (stepped : schedExit code sched = some next) :
    ∃ nodes', Moves sched nodes (.exit code) next nodes' := by
  by_cases init : (sched.processes sched.schedProcess).pid = 1
  · simp [schedExit, init] at stepped
  · rw [schedExit_eq init] at stepped
    obtain ⟨emptied, closing, stepped⟩ := Option.bind_eq_some_iff.mp stepped
    obtain ⟨files, released, freed, shape⟩ := schedExitFiles_frame closing
    have emptiedShape : emptied = schedLock (closed code files released freed sched) := by
      rw [shape]
      simp [closed, schedLock]
    rw [emptiedShape] at closing stepped
    obtain ⟨links, computed, queued⟩ := schedThreadUpdate_spec (schedLock (closed code files released freed sched))
      .terminated settled.valid.queued settled.valid.current (fun _ _ => rfl) settled.awake
    have member : sched.schedThread ∈ stableInsert sched.schedList.prio sched.schedThread (nodes.erase sched.schedThread) :=
      mem_stableInsert.mpr (.inl rfl)
    obtain ⟨thread, rest, starts⟩ := List.exists_cons_of_ne_nil (List.ne_nil_of_mem member)
    have left : Queued links sched.schedList.prio sched.schedTid (thread :: rest) := starts ▸ queued
    obtain ⟨ended, idle⟩ := exited_valid settled.valid starts left
    obtain ⟨final, dispatches, placed⟩ := schedSchedule_spec _ ended.queued idle (ended.asleep idle thread)
    have resumed := congrArg (fun result => result.bind fun sched => schedSchedule (schedUnlock sched)) computed
    have result := stepped.symm.trans (resumed.trans dispatches)
    cases result
    exact ⟨_, .exited init closing starts left placed⟩

theorem schedStep_moves (settled : Settled sched nodes) (stepped : schedStep sched action = some next) :
    ∃ nodes', Moves sched nodes action next nodes' := by
  cases action with
  | load stackKernel pageDir =>
    obtain ⟨links, computed, queued⟩ := spawned_queued sched.schedProcess stackKernel pageDir settled.valid.queued
    rw [schedStep, schedLoad_eq, computed] at stepped
    cases stepped
    exact ⟨_, .spawned (.inl ⟨rfl, rfl⟩) queued⟩
  | fork parent stackKernel pageDir =>
    by_cases known : parent < sched.schedPid
    · obtain ⟨links, computed, queued⟩ := spawned_queued parent stackKernel pageDir settled.valid.queued
      rw [schedStep, schedProcessFork_eq known, computed] at stepped
      cases stepped
      exact ⟨_, .spawned (.inr ⟨rfl, known⟩) queued⟩
    · simp [schedStep, schedProcessFork, known] at stepped
  | tick => exact schedHandler_moves settled stepped
  | schedule => exact schedSchedule_moves settled stepped
  | exit code => exact schedExit_moves settled stepped
  | openFile flags found =>
    cases stepped
    exact ⟨nodes, .opened⟩

theorem virtFsOpen_frame (flags : Nat) (found : Except Int (Option VfsFileOp)) (sched : Sched) :
    ∃ processes files fileCount opened freed, (virtFsOpen flags found sched).2 =
      { sched with processes, files, fileCount, opened, freed } ∧
      ∀ pid, (processes pid).pageDir = (sched.processes pid).pageDir ∧
        (processes pid).pid = (sched.processes pid).pid := by
  cases found with
  | error result => exact ⟨_, _, _, _, _, rfl, fun _ => ⟨rfl, rfl⟩⟩
  | ok op =>
    by_cases failed : (op.bind (·.openFile)).getD 0 < 0
    · simp only [virtFsOpen, failed, if_true]
      exact ⟨_, _, _, _, _, rfl, fun _ => ⟨rfl, rfl⟩⟩
    · simp only [virtFsOpen, failed, if_false]
      refine ⟨_, _, _, _, _, rfl, fun pid => ?_⟩
      by_cases same : pid = sched.schedProcess
      · simp [Sched.setFile, same]
      · simp [Sched.setFile, same]

theorem moves_settled (moves : Moves sched nodes action next nodes') (before : Settled sched nodes) :
    Settled next nodes' := by
  cases moves with
  | served => exact before
  | unserved => exact before
  | counted running _ =>
    refine ⟨ticked_valid before.valid, before.unlocked, ?_⟩
    simp [ticked, Sched.setThread, running]
  | preempted _ _ shape queued placed =>
    obtain ⟨valid, idle⟩ := preempted_valid before.valid shape queued
    exact dispatched_settled valid before.unlocked idle placed
  | scheduled idle shape queued =>
    exact dispatched_settled (shape ▸ before.valid) before.unlocked idle queued
  | @spawned _ parent stackKernel pageDir links _ queued =>
    refine ⟨⟨queued, ?_, ?_, Nat.lt_succ_of_lt before.valid.current, ?_⟩, before.unlocked, ?_⟩
    · intro node
      rw [mem_stableInsert, before.valid.passed, List.mem_cons]
    · intro node positive bound
      rw [mem_stableInsert]
      by_cases same : node = sched.schedTid
      · exact .inl same
      · exact .inr (before.valid.created node positive (by simp only [spawned] at bound; omega))
    · intro node running
      by_cases same : node = sched.schedTid
      · simp [spawned, same] at running
      · have old := before.valid.sole node (by simpa [spawned, same] using running)
        exact ⟨old.1, mem_stableInsert.mpr (.inr old.2)⟩
    · have apart : sched.schedThread ≠ sched.schedTid := before.valid.current.ne
      simpa [spawned, apart] using before.awake
  | exited _ _ shape queued placed =>
    obtain ⟨valid, idle⟩ := exited_valid before.valid shape queued
    exact dispatched_settled valid before.unlocked idle placed
  | opened =>
    obtain ⟨_, _, _, _, _, frame, _⟩ := virtFsOpen_frame _ _ sched
    rw [frame]
    exact ⟨⟨before.valid.queued, before.valid.passed, before.valid.created, before.valid.current, before.valid.sole⟩,
      before.unlocked, before.awake⟩

theorem schedStep_settled (settled : Settled sched nodes) (stepped : schedStep sched action = some next) :
    ∃ nodes', Moves sched nodes action next nodes' ∧ Settled next nodes' := by
  obtain ⟨nodes', moves⟩ := schedStep_moves settled stepped
  exact ⟨nodes', moves, moves_settled moves settled⟩

theorem schedStart_ready (stackKernel pageDir thread : Nat) :
    ((schedStart stackKernel pageDir).threads thread).state = .ready := by
  have threads : (schedStart stackKernel pageDir).threads = Function.update schedZero.threads 0
      { tid := 0, time := 0, stackKernel, state := .ready, process := 0 } := rfl
  rw [threads]
  by_cases boot : thread = 0
  · simp [boot]
  · simp [boot, schedZero]

theorem schedStart_settled (stackKernel pageDir : Nat) : Settled (schedStart stackKernel pageDir) [] := by
  have headed : Holds (plistHeadInit schedZero.schedList).links schedZero.schedList.prio [] :=
    Holds.init schedZero.schedList.prio schedZero.schedList.links
  obtain ⟨holds, alone, _⟩ := plistNodeInit_spec headed (List.not_mem_nil (a := 0)) 0
  have single : (schedStart stackKernel pageDir).schedTid = 1 := rfl
  refine ⟨⟨⟨holds.congr (by simp), by simp, ?_⟩, fun _ => Iff.rfl, ?_, Nat.zero_lt_one, ?_⟩, rfl, ?_⟩
  · intro node bound _
    have boot : node = 0 := by omega
    exact boot ▸ alone
  · intro thread positive bound
    omega
  · intro thread running
    rw [schedStart_ready] at running
    cases running
  · rw [schedStart_ready]
    simp

theorem run_settled {stackKernel pageDir : Nat} {actions : List SchedAction}
    (ran : run schedStep (schedStart stackKernel pageDir) actions = some sched) : ∃ nodes, Settled sched nodes := by
  refine run_always (fun sched => ∃ nodes, Settled sched nodes) ?_ ⟨[], schedStart_settled stackKernel pageDir⟩ ran
  intro before action after ⟨nodes, settled⟩ stepped
  obtain ⟨nodes', _, kept⟩ := schedStep_settled settled stepped
  exact ⟨nodes', kept⟩

end YuzuOS.Proofs.SchedulerSteps
