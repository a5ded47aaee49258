import YuzuOS.Proofs.SchedulerSteps

/-! Runs without exits: the queue holds every thread, one of them runs, and the
processor's stack and directory are that thread's. -/

namespace YuzuOS.Proofs.SchedulerService
open YuzuOS.Library YuzuOS.Kernel YuzuOS.Proofs.PlistQueue YuzuOS.Proofs.SchedulerQueue YuzuOS.Proofs.SchedulerSteps

def Running (sched : Sched) : Prop := (sched.threads sched.schedThread).state = .running

/-- The process, the stack and the directory in use are the current thread's. -/
structure Loaded (sched : Sched) : Prop where
  process : sched.schedProcess = (sched.threads sched.schedThread).process
  stack : sched.tssStack = (sched.threads sched.schedThread).stackKernel
  directory : sched.switchDir = (sched.processes sched.schedProcess).pageDir

structure Serving (sched : Sched) (nodes : List Nat) : Prop where
  boot : 0 ∉ nodes
  ready : ∀ thread ∈ nodes, thread ≠ sched.schedThread → (sched.threads thread).state = .ready
  owned : ∀ thread, thread < sched.schedTid → (sched.threads thread).process < sched.schedPid
  resting : ¬ Running sched → sched.schedThread ∉ nodes
  loaded : Running sched → Loaded sched

variable {sched next : Sched} {nodes nodes' rest : List Nat} {thread : Nat} {action : SchedAction}

private theorem dispatched_serving {links : Links (Link Nat)} {prio : Nat → Int} (boot : 0 ∉ thread :: rest)
    (ready : ∀ node ∈ thread :: rest, (sched.threads node).state = .ready)
    (owned : ∀ node, node < sched.schedTid → (sched.threads node).process < sched.schedPid)
    (same : sched.schedThread = thread → Loaded sched) :
    Serving (dispatched thread links sched) (stableInsert prio thread rest) ∧
      Running (dispatched thread links sched) := by
  have running : Running (dispatched thread links sched) := by simp [Running, dispatched]
  refine ⟨⟨?_, ?_, ?_, fun idle => False.elim (idle running), fun _ => ?_⟩, running⟩
  · rw [mem_stableInsert]
    simpa using boot
  · intro node member other
    have apart : node ≠ thread := other
    have inside : node ∈ thread :: rest := List.mem_cons.mpr (mem_stableInsert.mp member)
    simpa [dispatched, apart] using ready node inside
  · intro node bound
    by_cases chosen : node = thread
    · simpa [dispatched, chosen] using owned thread (chosen ▸ bound)
    · simpa [dispatched, chosen] using owned node bound
  · by_cases current : sched.schedThread = thread
    · obtain ⟨process, stack, directory⟩ := same current
      refine ⟨?_, ?_, ?_⟩
      · simpa [dispatched, current] using process
      · simpa [dispatched, current] using stack
      · simpa [dispatched, current] using directory
    · refine ⟨?_, ?_, ?_⟩ <;> simp [dispatched, current]

private theorem ticked_serving (serving : Serving sched nodes) : Serving (ticked sched) nodes := by
  have state (node : Nat) : ((ticked sched).threads node).state = (sched.threads node).state ∧
      ((ticked sched).threads node).process = (sched.threads node).process ∧
      ((ticked sched).threads node).stackKernel = (sched.threads node).stackKernel := by
    by_cases same : node = sched.schedThread
    · simp [ticked, Sched.setThread, same]
    · simp [ticked, Sched.setThread, same]
  refine ⟨serving.boot, ?_, ?_, ?_, ?_⟩
  · intro node member other
    exact (state node).1.trans (serving.ready node member other)
  · intro node bound
    exact (state node).2.1.symm ▸ serving.owned node bound
  · intro idle
    exact serving.resting fun running => idle ((state _).1.trans running)
  · intro running
    obtain ⟨process, stack, directory⟩ := serving.loaded ((state _).1.symm.trans running)
    exact ⟨process.trans (state _).2.1.symm, stack.trans (state _).2.2.symm, directory⟩

/-- The state in which a preempted thread's successor is chosen. -/
private theorem preempted_ready {links : Links (Link Nat)} {prio : Nat → Int} (serving : Serving sched nodes)
    (shape : nodes.erase sched.schedThread ++ [sched.schedThread] = thread :: rest) :
    ∀ node ∈ thread :: rest, ((preempted links prio sched).threads node).state = .ready := by
  intro node member
  rw [← shape, mem_requeued] at member
  by_cases same : node = sched.schedThread
  · simp [preempted, updated, same]
  · have inside : node ∈ nodes := member.resolve_left same
    simpa [preempted, updated, ticked, Sched.setThread, same] using serving.ready node inside same

theorem moves_serving (settled : Settled sched nodes) (serving : Serving sched nodes)
    (moves : Moves sched nodes action next nodes') (stays : ∀ code, action ≠ .exit code) :
    Serving next nodes' ∧ (Running sched ∨ action = .schedule → Running next) := by
  cases moves with
  | served running => exact ⟨serving, fun _ => running⟩
  | unserved idle =>
    refine ⟨serving, fun started => ?_⟩
    rcases started with running | same
    · exact running
    · cases same
  | counted running =>
    refine ⟨ticked_serving serving, fun _ => ?_⟩
    simpa [Running, ticked, Sched.setThread] using running
  | @preempted links final prio thread rest running late shape =>
    have member := (settled.valid.sole _ running).2
    have boot : 0 ∉ thread :: rest := by
      rw [← shape, mem_requeued]
      intro inside
      rcases inside with same | inside
      · exact serving.boot (same ▸ member)
      · exact serving.boot inside
    obtain ⟨process, stack, directory⟩ := serving.loaded running
    have owned (node : Nat) (bound : node < sched.schedTid) :
        ((preempted links prio sched).threads node).process < sched.schedPid := by
      by_cases same : node = sched.schedThread
      · simpa [preempted, updated, ticked, Sched.setThread, same] using serving.owned _ settled.valid.current
      · simpa [preempted, updated, ticked, Sched.setThread, same] using serving.owned node bound
    have loaded : Loaded (preempted links prio sched) := by
      refine ⟨?_, ?_, directory⟩
      · simpa [preempted, updated, ticked, Sched.setThread] using process
      · simpa [preempted, updated, ticked, Sched.setThread] using stack
    obtain ⟨kept, runs⟩ := dispatched_serving boot (preempted_ready serving shape) owned fun _ => loaded
    exact ⟨kept, fun _ => runs⟩
  | @scheduled final thread rest idle shape =>
    have resting := serving.resting idle
    have ready : ∀ node ∈ thread :: rest, (sched.threads node).state = .ready := by
      intro node member
      rw [← shape] at member
      exact serving.ready node member fun same => resting (same ▸ member)
    have other : sched.schedThread ≠ thread := by
      intro same
      apply resting
      rw [shape, same]
      exact List.mem_cons_self
    obtain ⟨kept, runs⟩ := dispatched_serving (shape ▸ serving.boot) ready serving.owned fun same => False.elim (other same)
    exact ⟨kept, fun _ => runs⟩
  | @spawned _ parent stackKernel pageDir links kind =>
    have current : sched.schedThread ≠ sched.schedTid := settled.valid.current.ne
    have same : Running { spawned parent stackKernel pageDir sched with
        schedList := ⟨links, Function.update sched.schedList.prio sched.schedTid 0⟩
        queued := sched.schedTid :: sched.queued } ↔ Running sched := by
      simp [Running, spawned, current]
    refine ⟨⟨?_, ?_, ?_, ?_, ?_⟩, ?_⟩
    · rw [mem_stableInsert]
      have positive : 0 < sched.schedTid := Nat.zero_lt_of_lt settled.valid.current
      intro inside
      rcases inside with same | inside
      · omega
      · exact serving.boot inside
    · intro node member other
      by_cases new : node = sched.schedTid
      · simp [spawned, new]
      · have inside := (mem_stableInsert.mp member).resolve_left new
        simpa [spawned, new] using serving.ready node inside other
    · intro node bound
      by_cases new : node = sched.schedTid
      · simp [spawned, new]
      · have old : node < sched.schedTid := lt_of_le_of_ne (Nat.le_of_lt_succ bound) new
        simpa [spawned, new] using Nat.lt_succ_of_lt (serving.owned node old)
    · intro idle inside
      rcases mem_stableInsert.mp inside with new | old
      · exact current new
      · exact serving.resting (fun running => idle (same.mpr running)) old
    · intro running
      obtain ⟨process, stack, directory⟩ := serving.loaded (same.mp running)
      have owner := serving.owned _ settled.valid.current
      rw [← process] at owner
      refine ⟨?_, ?_, ?_⟩
      · simpa [spawned, current] using process
      · simpa [spawned, current] using stack
      · simpa [spawned, owner.ne] using directory
    · intro started
      rcases started with running | schedules
      · exact same.mpr running
      · simp [schedules] at kind
  | exited => exact False.elim (stays _ rfl)
  | opened =>
    obtain ⟨processes, _, _, _, _, frame, directories⟩ := virtFsOpen_frame _ _ sched
    rw [frame]
    refine ⟨⟨serving.boot, serving.ready, serving.owned, serving.resting, fun running => ?_⟩, ?_⟩
    · obtain ⟨process, stack, directory⟩ := serving.loaded running
      exact ⟨process, stack, directory.trans (directories _).1.symm⟩
    · intro started
      rcases started with running | same
      · exact running
      · cases same

theorem schedStart_serving (stackKernel pageDir : Nat) : Serving (schedStart stackKernel pageDir) [] := by
  have single : (schedStart stackKernel pageDir).schedTid = 1 := rfl
  refine ⟨by simp, by simp, ?_, fun _ => by simp, fun running => ?_⟩
  · intro thread bound
    have boot : thread = 0 := by omega
    exact boot ▸ Nat.zero_lt_one
  · rw [Running, schedStart_ready] at running
    cases running

theorem run_serving {actions : List SchedAction} (settled : Settled sched nodes) (serving : Serving sched nodes)
    (stays : ∀ code, .exit code ∉ actions) (ran : run schedStep sched actions = some next) :
    ∃ nodes, Settled next nodes ∧ Serving next nodes ∧ (Running sched ∨ .schedule ∈ actions → Running next) := by
  induction actions generalizing sched nodes with
  | nil =>
    cases ran
    refine ⟨nodes, settled, serving, fun started => ?_⟩
    rcases started with running | member
    · exact running
    · cases member
  | cons action rest ih =>
    obtain ⟨middle, stepped, ran⟩ := run_cons.mp ran
    obtain ⟨nodes', moves, kept⟩ := schedStep_settled settled stepped
    have first : ∀ code, action ≠ .exit code := fun code same => stays code (same ▸ List.mem_cons_self)
    obtain ⟨served, starts⟩ := moves_serving settled serving moves first
    obtain ⟨final, last, lastServing, runs⟩ := ih kept served (fun code member => stays code (List.mem_cons_of_mem _ member)) ran
    refine ⟨final, last, lastServing, fun started => runs ?_⟩
    rcases started with running | member
    · exact .inl (starts (.inl running))
    · rcases List.mem_cons.mp member with same | member
      · exact .inl (starts (.inr same.symm))
      · exact .inr member

/-- After any loads, forks, ticks and schedules the list holds every thread that
was ever queued, sorted and once; from the first schedule on exactly the current
thread runs, on its own process, kernel stack and page directory. -/
theorem sched_serves_every_thread {stackKernel pageDir : Nat} {actions : List SchedAction} {final : Sched}
    (stays : ∀ code, .exit code ∉ actions)
    (ran : run schedStep (schedStart stackKernel pageDir) actions = some final) :
    final.schedLocks = 0 ∧
    (∃ nodes, Holds final.schedList.links final.schedList.prio nodes ∧
      (∀ thread, thread ∈ nodes ↔ thread ∈ final.queued) ∧
      ∀ thread, thread ∈ nodes ↔ 0 < thread ∧ thread < final.schedTid) ∧
    (.schedule ∈ actions →
      (∀ thread, (final.threads thread).state = .running ↔ thread = final.schedThread) ∧
      final.schedThread ∈ final.queued ∧
      (∀ thread ∈ final.queued, thread ≠ final.schedThread → (final.threads thread).state = .ready) ∧
      final.schedProcess = (final.threads final.schedThread).process ∧
      final.tssStack = (final.threads final.schedThread).stackKernel ∧
      final.switchDir = (final.processes final.schedProcess).pageDir) := by
  obtain ⟨nodes, settled, serving, runs⟩ :=
    run_serving (schedStart_settled stackKernel pageDir) (schedStart_serving stackKernel pageDir) stays ran
  have valid := settled.valid
  refine ⟨settled.unlocked, ⟨nodes, valid.queued.holds, valid.passed, ?_⟩, fun scheduled => ?_⟩
  · intro thread
    refine ⟨fun member => ⟨?_, valid.queued.known thread member⟩, fun bounds => valid.created thread bounds.1 bounds.2⟩
    exact Nat.pos_of_ne_zero fun boot => serving.boot (boot ▸ member)
  · have running := runs (.inr scheduled)
    obtain ⟨process, stack, directory⟩ := serving.loaded running
    refine ⟨fun thread => ⟨fun runs => (valid.sole thread runs).1, fun same => same ▸ running⟩,
      (valid.passed _).mp (valid.sole _ running).2, ?_, process, stack, directory⟩
    intro thread member other
    exact serving.ready thread ((valid.passed thread).mpr member) other

theorem sched_serves_every_thread_example : ∃ final,
    run schedStep (schedStart 0 0) ([.load 1 10, .schedule, .fork 1 2 20] ++ List.replicate 8 .tick) = some final ∧
    final.schedThread = 2 ∧ final.schedLocks = 0 ∧ final.tssStack = (final.threads 2).stackKernel := by
  have ends : (run schedStep (schedStart 0 0) ([.load 1 10, .schedule, .fork 1 2 20] ++ List.replicate 8 .tick)).map
      Sched.schedThread = some 2 := by decide +kernel
  obtain ⟨final, ran, second⟩ := Option.map_eq_some_iff.mp ends
  obtain ⟨unlocked, _, loaded⟩ := sched_serves_every_thread (by simp) ran
  obtain ⟨_, _, _, _, stack, _⟩ := loaded (by simp)
  exact ⟨final, ran, second, unlocked, second ▸ stack⟩

/-- What a call needs to return: a parent to fork, a thread to switch to. -/
def Admitted (sched : Sched) (nodes : List Nat) : SchedAction → Prop
  | .fork parent _ _ => parent < sched.schedPid
  | .schedule => Running sched ∨ nodes ≠ []
  | .exit _ => False
  | _ => True

/-- No admitted call follows a wild pointer or waits for ever. -/
theorem schedStep_returns (settled : Settled sched nodes) (admitted : Admitted sched nodes action) :
    ∃ next, schedStep sched action = some next := by
  cases action with
  | load stackKernel pageDir =>
    obtain ⟨links, computed, _⟩ := spawned_queued sched.schedProcess stackKernel pageDir settled.valid.queued
    exact ⟨_, by rw [schedStep, schedLoad_eq, computed]⟩
  | fork parent stackKernel pageDir =>
    obtain ⟨links, computed, _⟩ := spawned_queued parent stackKernel pageDir settled.valid.queued
    exact ⟨_, by rw [schedStep, schedProcessFork_eq admitted, computed]⟩
  | tick =>
    by_cases running : (sched.threads sched.schedThread).state = .running
    · by_cases late : schedTimeSlice ≤ (sched.threads sched.schedThread).time + 1
      · obtain ⟨links, prio, computed, queued⟩ := schedHandler_preempts settled running late
        obtain ⟨thread, rest, shape⟩ := List.exists_cons_of_ne_nil
          (by simp : nodes.erase sched.schedThread ++ [sched.schedThread] ≠ [])
        rw [shape] at queued
        obtain ⟨valid, idle⟩ := preempted_valid settled.valid shape queued
        obtain ⟨final, dispatches, _⟩ := schedSchedule_spec _ valid.queued idle (valid.asleep idle thread)
        exact ⟨_, computed.trans dispatches⟩
      · exact ⟨_, schedHandler_counted running (Nat.not_le.mp late)⟩
    · exact ⟨_, schedHandler_idle running⟩
  | schedule =>
    by_cases running : Running sched
    · exact ⟨_, schedSchedule_running running⟩
    · obtain ⟨thread, rest, shape⟩ := List.exists_cons_of_ne_nil (admitted.resolve_left running)
      obtain ⟨links, computed, _⟩ :=
        schedSchedule_spec sched (shape ▸ settled.valid.queued) running (settled.valid.asleep running thread)
      exact ⟨_, computed⟩
  | exit code => exact False.elim admitted
  | openFile flags found => exact ⟨_, rfl⟩

end YuzuOS.Proofs.SchedulerService
