import YuzuOS.Proofs.SchedulerSteps

/-! Whether a terminated thread can run again. `sched_thread_update` queues the
thread that `sched_exit` terminates, so this depends on the head of the queue. -/

namespace YuzuOS.Proofs.SchedulerExit
open YuzuOS.Library YuzuOS.Kernel YuzuOS.Proofs.PlistQueue YuzuOS.Proofs.SchedulerQueue YuzuOS.Proofs.SchedulerSteps

/-- The queued threads, and those of them that are not the current one. -/
def schedQueue (sched : Sched) : List Nat :=
  plistNodes sched.schedList.links sched.schedTid (sched.schedList.links.next .head)

def schedOthers (sched : Sched) : List Nat := (schedQueue sched).erase sched.schedThread

/-- Before a step that chooses a thread, the first one in question has not
terminated; at an exit it also has to come before the exiting thread. -/
def HeadAlive (sched : Sched) : SchedAction → Prop
  | .schedule => (sched.threads sched.schedThread).state ≠ .running →
      ∀ thread ∈ (schedQueue sched).head?, (sched.threads thread).state ≠ .terminated
  | .tick => (sched.threads sched.schedThread).state = .running →
      schedTimeSlice ≤ (sched.threads sched.schedThread).time + 1 →
      ∀ thread ∈ (schedOthers sched).head?, (sched.threads thread).state ≠ .terminated
  | .exit _ => (sched.processes sched.schedProcess).pid ≠ 1 → ∃ thread ∈ (schedOthers sched).head?,
      (sched.threads thread).state ≠ .terminated ∧ sched.schedList.prio thread ≤ sched.schedList.prio sched.schedThread
  | _ => True

instance (sched : Sched) (action : SchedAction) : Decidable (HeadAlive sched action) := by
  cases action <;> unfold HeadAlive <;> infer_instance

variable {sched next : Sched} {nodes nodes' : List Nat} {action : SchedAction}

theorem schedQueue_eq (settled : Settled sched nodes) : schedQueue sched = nodes := by
  have holds : Holds sched.schedList.links sched.schedList.prio ([] ++ nodes) := settled.valid.queued.holds
  rw [schedQueue, settled.valid.queued.holds.first]
  exact holds.walk settled.valid.queued.length_le

theorem schedTid_le (moves : Moves sched nodes action next nodes') : sched.schedTid ≤ next.schedTid := by
  cases moves with
  | spawned => exact Nat.le_succ _
  | opened =>
    obtain ⟨_, _, _, _, _, frame, _⟩ := virtFsOpen_frame _ _ sched
    rw [frame]
  | _ => exact le_refl _

private theorem dispatched_terminated {chosen thread : Nat} {links : Links (Link Nat)}
    (terminated : (sched.threads thread).state = .terminated) (apart : thread ≠ chosen) :
    ((dispatched chosen links sched).threads thread).state = .terminated := by
  simpa [dispatched, apart] using terminated

private theorem exit_head {chosen : Nat} {rest : List Nat} (settled : Settled sched nodes)
    (alive : ∃ thread ∈ (schedOthers sched).head?,
      (sched.threads thread).state ≠ .terminated ∧ sched.schedList.prio thread ≤ sched.schedList.prio sched.schedThread)
    (shape : stableInsert sched.schedList.prio sched.schedThread (nodes.erase sched.schedThread) = chosen :: rest) :
    (sched.threads chosen).state ≠ .terminated ∧ chosen ≠ sched.schedThread := by
  obtain ⟨first, heads, live, before⟩ := alive
  rw [schedOthers, schedQueue_eq settled, Option.mem_def, List.head?_eq_some_iff] at heads
  obtain ⟨others, heads⟩ := heads
  rw [heads] at shape
  have ahead : ¬ sched.schedList.prio sched.schedThread < sched.schedList.prio first := not_lt.mpr before
  simp only [stableInsert, List.orderedInsert_cons, ahead, if_false, List.cons.injEq] at shape
  have inside : first ∈ nodes.erase sched.schedThread := by rw [heads]; exact List.mem_cons_self
  rw [← shape.1]
  exact ⟨live, (settled.valid.queued.holds.nodup.mem_erase_iff.mp inside).1⟩

private theorem tick_head {chosen : Nat} {rest : List Nat} (settled : Settled sched nodes)
    (alive : ∀ thread ∈ (schedOthers sched).head?, (sched.threads thread).state ≠ .terminated)
    (shape : nodes.erase sched.schedThread ++ [sched.schedThread] = chosen :: rest) :
    (sched.threads chosen).state ≠ .terminated := by
  rw [schedOthers, schedQueue_eq settled] at alive
  cases others : nodes.erase sched.schedThread with
  | nil =>
    rw [others] at shape
    rw [← (List.cons.inj shape).1]
    exact settled.awake
  | cons first tail =>
    rw [others] at shape alive
    rw [← (List.cons.inj shape).1]
    exact alive first rfl

theorem moves_terminated {thread : Nat} (settled : Settled sched nodes) (moves : Moves sched nodes action next nodes')
    (alive : HeadAlive sched action) (known : thread < sched.schedTid)
    (terminated : (sched.threads thread).state = .terminated) : (next.threads thread).state = .terminated := by
  have asleep : thread ≠ sched.schedThread := fun same => settled.awake (same ▸ terminated)
  have differs {chosen : Nat} (live : (sched.threads chosen).state ≠ .terminated) : thread ≠ chosen :=
    fun same => live (same ▸ terminated)
  cases moves with
  | served => exact terminated
  | unserved => exact terminated
  | counted => simpa [ticked, Sched.setThread, asleep] using terminated
  | preempted running late shape =>
    apply dispatched_terminated
    · simpa [preempted, updated, ticked, Sched.setThread, asleep] using terminated
    · exact differs (tick_head settled (alive running late) shape)
  | scheduled idle shape =>
    apply dispatched_terminated terminated
    apply differs
    apply alive idle
    rw [schedQueue_eq settled, shape]
    rfl
  | spawned =>
    have old : thread ≠ sched.schedTid := known.ne
    simpa [spawned, old] using terminated
  | exited other _ shape =>
    apply dispatched_terminated
    · simpa [updated, closed, asleep] using terminated
    · exact differs (exit_head settled (alive other) shape).1
  | opened =>
    obtain ⟨_, _, _, _, _, frame, _⟩ := virtFsOpen_frame _ _ sched
    rw [frame]
    exact terminated

theorem exit_terminates {code : Int} (settled : Settled sched nodes)
    (moves : Moves sched nodes (.exit code) next nodes') (alive : HeadAlive sched (.exit code)) :
    (next.threads sched.schedThread).state = .terminated := by
  cases moves with
  | exited other _ shape =>
    apply dispatched_terminated
    · simp [updated]
    · exact (exit_head settled (alive other) shape).2.symm
  | spawned kind => simp at kind

theorem run_terminated {thread : Nat} {actions : List SchedAction} (settled : Settled sched nodes)
    (met : Meets schedStep HeadAlive sched actions) (ran : run schedStep sched actions = some next)
    (known : thread < sched.schedTid) (terminated : (sched.threads thread).state = .terminated) :
    (∃ nodes, Settled next nodes) ∧ (next.threads thread).state = .terminated := by
  have kept := run_invariant (fun sched => (∃ nodes, Settled sched nodes) ∧ thread < sched.schedTid ∧
    (sched.threads thread).state = .terminated) ?_ ⟨⟨nodes, settled⟩, known, terminated⟩ met ran
  · exact ⟨kept.1, kept.2.2⟩
  · intro before action after ⟨⟨nodes, settled⟩, known, terminated⟩ alive stepped
    obtain ⟨nodes', moves, kept⟩ := schedStep_settled settled stepped
    exact ⟨⟨nodes', kept⟩, known.trans_le (schedTid_le moves), moves_terminated settled moves alive known terminated⟩

/-- In a run whose heads are alive, the thread that is current at an exit stays
terminated and is never current again. -/
theorem exited_thread_never_runs {stackKernel pageDir : Nat} {before after : List SchedAction} {code : Int}
    {middle final : Sched}
    (met : Meets schedStep HeadAlive (schedStart stackKernel pageDir) (before ++ .exit code :: after))
    (reached : run schedStep (schedStart stackKernel pageDir) before = some middle)
    (ran : run schedStep (schedStart stackKernel pageDir) (before ++ .exit code :: after) = some final) :
    (final.threads middle.schedThread).state = .terminated ∧ final.schedThread ≠ middle.schedThread := by
  obtain ⟨nodes, settled⟩ := run_settled reached
  obtain ⟨_, met⟩ := meets_append met reached
  obtain ⟨start, same, ran⟩ := run_append.mp ran
  rw [reached] at same
  cases same
  obtain ⟨exited, stepped, ran⟩ := run_cons.mp ran
  obtain ⟨nodes', moves, kept⟩ := schedStep_settled settled stepped
  have known := settled.valid.current.trans_le (schedTid_le moves)
  obtain ⟨⟨_, settledFinal⟩, terminated⟩ :=
    run_terminated kept (met.2 exited stepped) ran known (exit_terminates settled moves met.1)
  refine ⟨terminated, fun same => ?_⟩
  rw [← same] at terminated
  exact settledFinal.awake terminated

theorem exited_thread_never_runs_example : ∃ middle final,
    run schedStep (schedStart 0 0) ([.load 1 1, .load 2 2, .load 3 3, .schedule] ++ List.replicate 8 .tick) =
      some middle ∧ middle.schedThread = 2 ∧
    run schedStep (schedStart 0 0) ([.load 1 1, .load 2 2, .load 3 3, .schedule] ++ List.replicate 8 .tick ++
      .exit 0 :: [.tick]) = some final ∧
    (final.threads middle.schedThread).state = .terminated ∧ final.schedThread ≠ middle.schedThread := by
  have started : (run schedStep (schedStart 0 0) ([.load 1 1, .load 2 2, .load 3 3, .schedule] ++
      List.replicate 8 .tick)).map Sched.schedThread = some 2 := by decide +kernel
  have ended : (run schedStep (schedStart 0 0) ([.load 1 1, .load 2 2, .load 3 3, .schedule] ++
      List.replicate 8 .tick ++ .exit 0 :: [.tick])).map Sched.schedThread = some 3 := by decide +kernel
  obtain ⟨middle, reached, second⟩ := Option.map_eq_some_iff.mp started
  obtain ⟨final, ran, _⟩ := Option.map_eq_some_iff.mp ended
  exact ⟨middle, final, reached, second, ran, exited_thread_never_runs (by decide +kernel) reached ran⟩

/-- Three programs: the second exits to the third, whose time slice ends. -/
theorem exited_thread_runs_again : ∃ exited final,
    run schedStep (schedStart 0 0) ([.load 1 1, .load 2 2, .load 3 3, .schedule] ++ List.replicate 8 .tick ++ [.exit 0]) =
      some exited ∧ (exited.threads 2).state = .terminated ∧
    run schedStep exited (List.replicate 8 .tick) = some final ∧
    final.schedThread = 2 ∧ (final.threads 2).state = .running := by
  have ends : ((run schedStep (schedStart 0 0) ([.load 1 1, .load 2 2, .load 3 3, .schedule] ++ List.replicate 8 .tick ++
      [.exit 0])).bind fun exited => (run schedStep exited (List.replicate 8 .tick)).map fun final =>
        ((exited.threads 2).state, final.schedThread, (final.threads 2).state)) = some (.terminated, 2, .running) := by
    decide +kernel
  obtain ⟨exited, reached, ends⟩ := Option.bind_eq_some_iff.mp ends
  obtain ⟨final, ran, same⟩ := Option.map_eq_some_iff.mp ends
  simp only [Prod.mk.injEq] at same
  exact ⟨exited, final, reached, same.1, ran, same.2⟩

end YuzuOS.Proofs.SchedulerExit
