import Mathlib.Data.List.Rotate
import YuzuOS.Proofs.SchedulerService

/-! Ticks alone rotate the queue: a running thread keeps the processor for its
time slice and then goes behind all the others. -/

namespace YuzuOS.Proofs.SchedulerFairness
open YuzuOS.Library YuzuOS.Kernel YuzuOS.Proofs.PlistQueue YuzuOS.Proofs.SchedulerQueue YuzuOS.Proofs.SchedulerSteps
open YuzuOS.Proofs.SchedulerService

variable {sched next : Sched} {nodes nodes' order : List Nat} {time : Nat} {action : SchedAction}

def currentTime (sched : Sched) : Nat := (sched.threads sched.schedThread).time

/-- The current thread runs for the `time`-th tick of its slice, and `order` is
the order in which the queued threads are served from here on. -/
structure Turn (sched : Sched) (order : List Nat) (time : Nat) : Prop where
  settled : ∃ nodes, Settled sched nodes ∧ order = sched.schedThread :: nodes.erase sched.schedThread
  running : Running sched
  counted : currentTime sched = time
  within : time < schedTimeSlice

theorem tick_turn (turn : Turn sched order time) : ∃ next, schedStep sched .tick = some next ∧
    if time + 1 < schedTimeSlice then Turn next order (time + 1) else Turn next (order.rotate 1) 0 := by
  obtain ⟨⟨nodes, settled, shape⟩, running, counted, within⟩ := turn
  have admitted : Admitted sched nodes .tick := trivial
  obtain ⟨next, stepped⟩ := schedStep_returns settled admitted
  obtain ⟨nodes', moves, kept⟩ := schedStep_settled settled stepped
  refine ⟨next, stepped, ?_⟩
  cases moves with
  | unserved idle => exact False.elim (idle running)
  | spawned kind => simp at kind
  | counted _ short =>
    have early : time + 1 < schedTimeSlice := counted ▸ short
    have count : currentTime (ticked sched) = time + 1 := by
      rw [← counted]
      simp [currentTime, ticked, Sched.setThread]
    rw [if_pos early]
    refine ⟨⟨nodes, kept, shape⟩, ?_, count, early⟩
    simpa [Running, ticked, Sched.setThread] using running
  | @preempted links final prio thread rest _ late queue queued =>
    have done : ¬ time + 1 < schedTimeSlice := by
      rw [← counted]
      exact Nat.not_lt.mpr late
    have fresh : thread ∉ rest := (List.nodup_cons.mp queued.holds.nodup).1
    have others := stableInsert_erase (List.pairwise_cons.mp queued.holds.sorted).2 fresh
    rw [if_neg done]
    refine ⟨⟨_, kept, ?_⟩, by simp [Running, dispatched], by simp [currentTime, dispatched], by decide⟩
    rw [shape, List.rotate_cons_succ, List.rotate_zero, queue]
    exact congrArg (thread :: ·) others.symm

theorem ticks_turn (turn : Turn sched order time) (ticks : Nat) :
    ∃ final, run schedStep sched (List.replicate ticks .tick) = some final ∧
      Turn final (order.rotate ((time + ticks) / schedTimeSlice)) ((time + ticks) % schedTimeSlice) := by
  induction ticks generalizing sched order time with
  | zero =>
    refine ⟨sched, rfl, ?_⟩
    rw [Nat.add_zero, Nat.div_eq_of_lt turn.within, Nat.mod_eq_of_lt turn.within, List.rotate_zero]
    exact turn
  | succ ticks ih =>
    have within := turn.within
    obtain ⟨next, stepped, after⟩ := tick_turn turn
    rw [List.replicate_succ]
    by_cases early : time + 1 < schedTimeSlice
    · rw [if_pos early] at after
      obtain ⟨final, ran, ended⟩ := ih after
      have sum : time + 1 + ticks = time + (ticks + 1) := by omega
      rw [sum] at ended
      exact ⟨final, run_cons.mpr ⟨next, stepped, ran⟩, ended⟩
    · rw [if_neg early] at after
      obtain ⟨final, ran, ended⟩ := ih after
      have slice : time + (ticks + 1) = ticks + schedTimeSlice := by omega
      have positive : 0 < schedTimeSlice := by decide
      rw [Nat.zero_add, List.rotate_rotate, Nat.add_comm 1, ← Nat.add_div_right ticks positive, ← Nat.add_mod_right,
        ← slice] at ended
      exact ⟨final, run_cons.mpr ⟨next, stepped, ran⟩, ended⟩

theorem moves_within (settled : Settled sched nodes) (moves : Moves sched nodes action next nodes')
    (within : currentTime sched < schedTimeSlice) : currentTime next < schedTimeSlice := by
  have reset (thread : Nat) (links : Links (Link Nat)) (before : Sched) :
      currentTime (dispatched thread links before) < schedTimeSlice := by
    simp [currentTime, dispatched, schedTimeSlice]
  cases moves with
  | served => exact within
  | unserved => exact within
  | counted _ short => simpa [currentTime, ticked, Sched.setThread] using short
  | preempted => exact reset _ _ _
  | scheduled => exact reset _ _ _
  | exited => exact reset _ _ _
  | spawned =>
    have apart : sched.schedThread ≠ sched.schedTid := settled.valid.current.ne
    simpa [currentTime, spawned, apart] using within
  | opened =>
    obtain ⟨_, _, _, _, _, frame, _⟩ := virtFsOpen_frame _ _ sched
    rw [frame]
    exact within

theorem run_within {stackKernel pageDir : Nat} {actions : List SchedAction}
    (ran : run schedStep (schedStart stackKernel pageDir) actions = some sched) :
    (∃ nodes, Settled sched nodes) ∧ currentTime sched < schedTimeSlice := by
  refine run_always (fun sched => (∃ nodes, Settled sched nodes) ∧ currentTime sched < schedTimeSlice) ?_
    ⟨⟨[], schedStart_settled stackKernel pageDir⟩, ?_⟩ ran
  · intro before action after ⟨⟨nodes, settled⟩, within⟩ stepped
    obtain ⟨nodes', moves, kept⟩ := schedStep_settled settled stepped
    exact ⟨⟨nodes', kept⟩, moves_within settled moves within⟩
  · have zero : currentTime (schedStart stackKernel pageDir) = 0 := rfl
    rw [zero]
    decide

theorem Holds.unique {ν : Type u} {links : Links (Link ν)} {prio : ν → Int} {first second : List ν}
    (holds : Holds links prio first) (again : Holds links prio second) : first = second := by
  have injective : Function.Injective (Link.nodeList : ν → Link ν) := fun _ _ same => Link.nodeList.inj same
  exact List.map_injective_iff.mpr injective (Ring.unique holds.ring again.ring)

def turnOf (order : List Nat) (turn : Nat) : Nat := (order.rotate turn).headD 0

theorem turnOf_eq {turn : Nat} (filled : 0 < order.length) :
    turnOf order turn = order.get ⟨turn % order.length, Nat.mod_lt _ filled⟩ := by
  have inside : 0 < (order.rotate turn).length := by rwa [List.length_rotate]
  have first := List.getElem_rotate order turn 0 inside
  rw [turnOf, List.headD_eq_head?_getD, List.head?_eq_getElem?, List.getElem?_eq_getElem inside, Option.getD_some, first]
  simp only [Nat.zero_add, List.get_eq_getElem]

theorem turnOf_next {turn : Nat} (nodup : order.Nodup) (several : 2 ≤ order.length) :
    turnOf order (turn + 1) ≠ turnOf order turn := by
  have filled : 0 < order.length := by omega
  rw [turnOf_eq filled, turnOf_eq filled]
  intro same
  have index := Fin.mk.inj (nodup.get_inj_iff.mp same)
  have before := Nat.mod_add_div turn order.length
  have after := Nat.mod_add_div (turn + 1) order.length
  rw [index] at after
  have apart : order.length * ((turn + 1) / order.length) = order.length * (turn / order.length) + 1 := by omega
  rcases Nat.lt_or_ge (turn / order.length) ((turn + 1) / order.length) with more | less
  · have whole := Nat.mul_le_mul_left order.length more
    rw [Nat.mul_succ] at whole
    omega
  · have fewer := Nat.mul_le_mul_left order.length less
    omega

theorem turns_perm (order : List Nat) (first : Nat) :
    ((List.range' first order.length).map (turnOf order)).Perm order := by
  have rotated : (List.range' first order.length).map (turnOf order) = order.rotate first := by
    apply List.ext_getElem
    · simp
    · intro i inside _
      have filled : 0 < order.length := by
        simp at inside
        omega
      simp [turnOf_eq filled, Nat.add_comm]
  rw [rotated]
  exact List.rotate_perm order first

/-- From any state that a run reaches with several queued threads and one of
them running, ticks alone make the threads take turns: each turn takes the ticks
of one time slice, the next turn is another thread's, and any `n` turns in a row
are those of the `n` queued threads. -/
theorem ticks_serve_in_turn {stackKernel pageDir : Nat} {actions : List SchedAction}
    (ran : run schedStep (schedStart stackKernel pageDir) actions = some sched)
    (queue : Holds sched.schedList.links sched.schedList.prio nodes) (several : 2 ≤ nodes.length)
    (running : Running sched) :
    ∃ turn : Nat → Nat, turn 0 = sched.schedThread ∧ (∀ i, turn (i + 1) ≠ turn i) ∧
      (∀ first, ((List.range' first nodes.length).map turn).Perm nodes) ∧
      ∀ ticks, ∃ final, run schedStep sched (List.replicate ticks .tick) = some final ∧ Running final ∧
        final.schedThread = turn ((currentTime sched + ticks) / schedTimeSlice) ∧
        currentTime final = (currentTime sched + ticks) % schedTimeSlice := by
  obtain ⟨⟨queued, settled⟩, within⟩ := run_within ran
  have same := Holds.unique queue settled.valid.queued.holds
  subst same
  have member := (settled.valid.sole _ running).2
  have perm : (sched.schedThread :: nodes.erase sched.schedThread).Perm nodes := (List.perm_cons_erase member).symm
  have nodup := perm.nodup_iff.mpr queue.nodup
  have length := perm.length_eq
  refine ⟨turnOf (sched.schedThread :: nodes.erase sched.schedThread), rfl, fun i => turnOf_next nodup (length ▸ several),
    fun first => ?_, fun ticks => ?_⟩
  · rw [← length]
    exact (turns_perm _ first).trans perm
  · obtain ⟨final, ticked, turn⟩ := ticks_turn ⟨⟨nodes, settled, rfl⟩, running, rfl, within⟩ ticks
    refine ⟨final, ticked, turn.running, ?_, turn.counted⟩
    obtain ⟨_, _, shape⟩ := turn.settled
    rw [turnOf, shape]
    rfl

/-- Three threads, one of them forked, in the second slice. -/
theorem ticks_serve_in_turn_example : ∃ sched nodes,
    run schedStep (schedStart 0 0) ([.load 1 10, .load 2 20, .schedule, .fork 1 3 30] ++ List.replicate 10 .tick) =
      some sched ∧
    Holds sched.schedList.links sched.schedList.prio nodes ∧
    ∃ turn : Nat → Nat, turn 0 = 2 ∧ (∀ i, turn (i + 1) ≠ turn i) ∧
      ∀ first, ((List.range' first nodes.length).map turn).Perm nodes := by
  have ends : (run schedStep (schedStart 0 0) ([.load 1 10, .load 2 20, .schedule, .fork 1 3 30] ++
      List.replicate 10 .tick)).map (fun sched => (sched.schedThread, sched.schedTid,
        (sched.threads sched.schedThread).state)) = some (2, 4, .running) := by decide +kernel
  obtain ⟨sched, ran, same⟩ := Option.map_eq_some_iff.mp ends
  simp only [Prod.mk.injEq] at same
  obtain ⟨second, count, running⟩ := same
  obtain ⟨⟨nodes, settled⟩, _⟩ := run_within ran
  have queue := settled.valid.queued.holds
  have queued : [1, 2] ⊆ nodes := by
    intro thread member
    have bounds : 0 < thread ∧ thread < sched.schedTid := by
      simp at member
      omega
    exact settled.valid.created thread bounds.1 bounds.2
  have several := (List.subperm_of_subset (by decide : [1, 2].Nodup) queued).length_le
  obtain ⟨turn, start, changes, fair, _⟩ := ticks_serve_in_turn ran queue several running
  exact ⟨sched, nodes, ran, queue, turn, start.trans second, changes, fair⟩

end YuzuOS.Proofs.SchedulerFairness
