import YuzuOS.Proofs.ControlSections

/-! `pic_eoi` stands behind the handlers on the stack that was interrupted, so
an interrupt is acknowledged when that stack goes on. -/

namespace YuzuOS.Proofs.ControlAcknowledge
open YuzuOS.Library YuzuOS.Kernel YuzuOS.Proofs.ControlSections Statement

variable {control changed next : Control} {statements rest : List Statement} {thread depth : Nat} {off : Bool}

/-- The acknowledgements that a stack makes before it comes to user mode. -/
def acknowledgements : List Statement → Nat
  | [] => 0
  | jumpUsermode :: _ => 0
  | returnUsermode :: _ => 0
  | eoi :: rest => acknowledgements rest + 1
  | _ :: rest => acknowledgements rest

def onto (control : Control) : List Statement → Nat
  | threadSwitch thread :: _ => thread
  | switch _ :: _ => control.schedThread
  | _ => control.stack

def Acknowledges (control : Control) : Prop :=
  control.inService.length ≤ acknowledgements (control.pending (onto control (control.pending control.stack)))

/-- The thread picked was at work when the interrupts in service came, or it was
switched out inside as many handlers. -/
def Resumes (control : Control) : ControlEvent → Prop
  | .pick thread => thread = control.schedThread ∨
      control.inService.length ≤ acknowledgements (control.pending thread)
  | _ => True

instance (control : Control) : ∀ event, Decidable (Resumes control event)
  | .pick _ => inferInstanceAs (Decidable (_ ∨ _))
  | .execute | .interrupt _ | .call _ => isTrue trivial

def Plain : List Statement → Prop
  | threadSwitch _ :: _ | switch _ :: _ => False
  | _ => True

theorem Balanced.plain (balanced : Balanced depth off statements) : Plain statements := by
  cases statements with
  | nil => trivial
  | cons statement rest =>
    cases statement with
    | threadSwitch | switch => exact balanced.elim
    | _ => trivial

theorem onto_plain (plain : Plain statements) : onto control statements = control.stack := by
  cases statements with
  | nil => rfl
  | cons statement rest =>
    cases statement with
    | threadSwitch | switch => exact plain.elim
    | _ => rfl

theorem acknowledges_goes (plain : Plain statements) (served : changed.inService.length ≤ acknowledgements statements) :
    Acknowledges (changed.proceed statements) := by
  have here : (changed.proceed statements).pending (changed.proceed statements).stack = statements := proceed_pending _ _
  rw [Acknowledges, here, onto_plain plain, here]
  exact served

theorem Acknowledges.served (acknowledges : Acknowledges control) (head : control.pending control.stack = statements)
    (plain : Plain statements) : control.inService.length ≤ acknowledgements statements := by
  rw [Acknowledges, head, onto_plain plain, head] at acknowledges
  exact acknowledges

theorem execute_acknowledges {statement : Statement} (same : control.stack = control.schedThread)
    (head : control.pending control.stack = statement :: rest)
    (balanced : Balanced control.schedLocks (!control.interrupts) (statement :: rest))
    (acknowledges : Acknowledges control) (stepped : control.execute statement rest = some next) :
    Acknowledges next := by
  have bound : control.inService.length ≤ acknowledgements (statement :: rest) :=
    acknowledges.served head (Balanced.plain balanced)
  cases statement with
  | threadSwitch thread => exact balanced.elim
  | switch previous => exact balanced.elim
  | eoi =>
    cases stepped
    have fewer : control.inService.tail.length ≤ acknowledgements rest := by
      rw [List.length_tail]
      exact Nat.sub_le_of_le_add bound
    exact acknowledges_goes (Balanced.plain balanced) fewer
  | jumpUsermode =>
    cases stepped
    exact acknowledges_goes trivial bound
  | returnUsermode =>
    cases stepped
    exact acknowledges_goes trivial bound
  | schedLock =>
    cases stepped
    exact acknowledges_goes (Balanced.plain balanced) bound
  | schedUnlock =>
    cases stepped
    exact acknowledges_goes (Balanced.plain balanced.2) bound
  | processCreate =>
    cases stepped
    exact acknowledges_goes trivial bound
  | threadCreate process =>
    cases stepped
    exact acknowledges_goes trivial bound
  | fork =>
    cases stepped
    exact acknowledges_goes trivial bound
  | threadQueue thread =>
    cases stepped
    exact acknowledges_goes (Balanced.plain balanced.2) bound
  | exit =>
    obtain ⟨states, queue, interrupts, result, _⟩ := schedThreadUpdate_frame control.schedThread .terminated control
    rw [Control.execute] at stepped
    split at stepped
    next panics => cases stepped
    next others =>
      rw [result] at stepped
      cases stepped
      exact acknowledges_goes trivial bound
  | schedule =>
    rw [Control.execute] at stepped
    split at stepped
    next running =>
      cases stepped
      exact acknowledges_goes (Balanced.plain balanced.2.1) bound
    next idle =>
      cases stepped
      exact acknowledges_goes trivial bound
  | scheduled =>
    cases stepped
    exact acknowledges_goes (Balanced.plain balanced.2) bound
  | popNext =>
    rw [Control.execute] at stepped
    split at stepped
    next empty =>
      cases stepped
      exact acknowledges_goes trivial bound
    next => cases stepped
  | popNextAgain =>
    rw [Control.execute] at stepped
    split at stepped
    next => cases stepped
    next empty =>
      split at stepped
      next running =>
        cases stepped
        let resumed := control.proceed (threadSwitch control.schedThread :: .schedUnlock :: rest)
        have here : resumed.pending control.stack = threadSwitch control.schedThread :: .schedUnlock :: rest :=
          proceed_pending _ _
        show control.inService.length ≤ acknowledgements (resumed.pending (onto resumed (resumed.pending control.stack)))
        rw [here]
        show control.inService.length ≤ acknowledgements (resumed.pending control.schedThread)
        rw [← same, here]
        exact bound
      next idle =>
        cases stepped
        exact acknowledges_goes trivial bound
  | halt =>
    cases stepped
    exact acknowledges_goes (Balanced.plain balanced.2) bound
  | handler =>
    rw [Control.execute] at stepped
    split at stepped
    next running =>
      cases stepped
      exact acknowledges_goes trivial bound
    next idle =>
      cases stepped
      exact acknowledges_goes (Balanced.plain balanced.2.1) bound
  | count =>
    rw [Control.execute] at stepped
    split at stepped
    next preempts =>
      let counted : Control :=
        { control with time := Function.update control.time control.schedThread (control.time control.schedThread + 1) }
      obtain ⟨states, queue, interrupts, result, _⟩ := schedThreadUpdate_frame control.schedThread .ready counted
      rw [result] at stepped
      cases stepped
      exact acknowledges_goes trivial bound
    next short =>
      cases stepped
      exact acknowledges_goes trivial bound
  | reschedule =>
    rw [Control.execute] at stepped
    split at stepped
    next zero =>
      cases stepped
      exact acknowledges_goes trivial bound
    next locked =>
      cases stepped
      exact acknowledges_goes (Balanced.plain balanced.1) bound
  | interruptReturn =>
    cases stepped
    exact acknowledges_goes (Balanced.plain balanced) bound
  | elf32Load =>
    cases stepped
    exact acknowledges_goes (Balanced.plain balanced.2) bound

theorem proceed_other (control : Control) (statements : List Statement) (other : thread ≠ control.stack) :
    (control.proceed statements).pending thread = control.pending thread := Function.update_of_ne other _ _

theorem switching_acknowledges (same : control.stack = control.schedThread)
    (head : control.pending control.stack = threadSwitch thread :: .schedUnlock :: rest)
    (acknowledges : Acknowledges control)
    (stepped : control.execute (threadSwitch thread) (.schedUnlock :: rest) = some next) : Acknowledges next := by
  have bound : control.inService.length ≤ acknowledgements (control.pending thread) := by
    rw [Acknowledges, head] at acknowledges
    exact acknowledges
  let chosen : Control := { control with schedThread := thread, time := Function.update control.time thread 0 }
  obtain ⟨states, queue, interrupts, result, _⟩ := schedThreadUpdate_frame thread .running chosen
  simp only [Control.execute] at stepped
  rw [result] at stepped
  split at stepped
  next current =>
    cases stepped
    rw [← current, ← same, head] at bound
    exact acknowledges_goes trivial bound
  next other =>
    cases stepped
    let switching : Control :=
      { chosen with state := states, queue, interrupts, schedProcess := control.process thread }
    show Acknowledges (switching.proceed (switch control.schedThread :: .schedUnlock :: rest))
    have here : (switching.proceed (switch control.schedThread :: .schedUnlock :: rest)).pending switching.stack =
        switch control.schedThread :: .schedUnlock :: rest := proceed_pending _ _
    have moved : thread ≠ control.stack := fun equal => other (equal.trans same).symm
    show control.inService.length ≤
      acknowledgements ((switching.proceed _).pending (onto _ ((switching.proceed _).pending switching.stack)))
    rw [here]
    show control.inService.length ≤ acknowledgements ((switching.proceed _).pending thread)
    rw [proceed_other switching _ moved]
    exact bound

theorem leaving_acknowledges (moved : control.stack ≠ control.schedThread)
    (head : control.pending control.stack = switch control.stack :: .schedUnlock :: rest)
    (waiting : Balanced 1 false (control.pending control.schedThread)) (acknowledges : Acknowledges control)
    (stepped : control.execute (switch control.stack) (.schedUnlock :: rest) = some next) : Acknowledges next := by
  have bound : control.inService.length ≤ acknowledgements (control.pending control.schedThread) := by
    rw [Acknowledges, head] at acknowledges
    exact acknowledges
  cases stepped
  have here : Function.update control.pending control.stack (.schedUnlock :: rest) control.schedThread =
      control.pending control.schedThread := Function.update_of_ne moved.symm _ _
  unfold Acknowledges
  dsimp only
  rw [here, onto_plain (Balanced.plain waiting), here]
  exact bound

theorem pick_acknowledges (sectioned : Sectioned control) (acknowledges : Acknowledges control)
    (resumes : Resumes control (.pick thread)) (stepped : controlStep control (.pick thread) = some next) :
    Acknowledges next := by
  have working := sectioned.working
  have picks {pop : Statement} {rest : List Statement} (head : control.pending control.stack = pop :: rest)
      (safe : pop = popNext ∨ pop = popNextAgain)
      (stepped : (if thread ∈ control.queue then some ({ control with queue := control.queue.erase thread }.proceed
        (threadSwitch thread :: .schedUnlock :: rest)) else none) = some next) : Acknowledges next := by
    split at stepped
    next member =>
      cases stepped
      have own : control.inService.length ≤ acknowledgements rest := by
        cases safe with
        | inl pops =>
          subst pops
          have bound := acknowledges.served head trivial
          exact bound
        | inr pops =>
          subst pops
          have bound := acknowledges.served head trivial
          exact bound
      have same : control.stack = control.schedThread := by
        rw [head] at working
        cases working with
        | balanced same _ => exact same
        | switching same => exact same
        | leaving => cases safe with
          | inl pops => cases pops
          | inr pops => cases pops
      let picked : Control := { control with queue := control.queue.erase thread }
      show Acknowledges (picked.proceed (threadSwitch thread :: .schedUnlock :: rest))
      have here : (picked.proceed (threadSwitch thread :: .schedUnlock :: rest)).pending picked.stack =
          threadSwitch thread :: .schedUnlock :: rest := proceed_pending _ _
      show control.inService.length ≤
        acknowledgements ((picked.proceed _).pending (onto _ ((picked.proceed _).pending picked.stack)))
      rw [here]
      show control.inService.length ≤ acknowledgements ((picked.proceed _).pending thread)
      by_cases stays : thread = control.stack
      · rw [stays] at here ⊢
        rw [show control.stack = picked.stack from rfl, here]
        exact own
      · rw [proceed_other picked _ stays]
        exact resumes.resolve_left fun equal => stays (equal.trans same.symm)
    next => cases stepped
  rw [controlStep] at stepped
  split at stepped
  next rest head => exact picks head (.inl rfl) stepped
  next rest head => exact picks head (.inr rfl) stepped
  next => cases stepped

theorem interrupt_acknowledges {irq : Nat} (sectioned : Sectioned control) (acknowledges : Acknowledges control)
    (stepped : controlStep control (.interrupt irq) = some next) : Acknowledges next := by
  rw [controlStep] at stepped
  split at stepped
  next enabled =>
    cases stepped
    have plain : Plain (control.pending control.stack) := by
      have working := sectioned.working
      generalize control.pending control.stack = statements at working ⊢
      cases working with
      | balanced _ balanced => exact Balanced.plain balanced
      | switching _ _ quiet =>
        rw [enabled.1] at quiet
        cases quiet
      | leaving _ _ quiet =>
        rw [enabled.1] at quiet
        cases quiet
    have served : control.inService.length ≤ acknowledgements (control.pending control.stack) := acknowledges.served rfl plain
    unfold Control.irqHandler
    split
    next => exact acknowledges_goes trivial (Nat.succ_le_succ served)
    next => exact acknowledges_goes trivial (Nat.succ_le_succ served)
  next => cases stepped

theorem call_acknowledges {call : KernelCall} (acknowledges : Acknowledges control)
    (stepped : controlStep control (.call call) = some next) : Acknowledges next := by
  rw [controlStep] at stepped
  split at stepped
  next outside =>
    have none : control.inService.length ≤ 0 := acknowledges.served outside trivial
    split at stepped
    next boot =>
      cases stepped
      refine acknowledges_goes ?_ (Nat.le_trans none (Nat.zero_le _))
      cases call with
      | load | fork | exit | schedule | other => trivial
    next user =>
      cases stepped
      refine acknowledges_goes ?_ (Nat.le_trans none (Nat.zero_le _))
      cases call with
      | load | fork | exit | schedule | other => trivial
  next => cases stepped

theorem controlStep_acknowledges {event : ControlEvent} (sectioned : Sectioned control)
    (acknowledges : Acknowledges control) (resumes : Resumes control event)
    (stepped : controlStep control event = some next) : Acknowledges next := by
  cases event with
  | pick thread => exact pick_acknowledges sectioned acknowledges resumes stepped
  | interrupt irq => exact interrupt_acknowledges sectioned acknowledges stepped
  | call call => exact call_acknowledges acknowledges stepped
  | execute =>
    rw [controlStep] at stepped
    cases head : control.pending control.stack with
    | nil =>
      rw [head] at stepped
      cases stepped
    | cons statement rest =>
      rw [head] at stepped
      have working := sectioned.working
      rw [head] at working
      cases working with
      | balanced same balanced => exact execute_acknowledges same head balanced acknowledges stepped
      | switching same => exact switching_acknowledges same head acknowledges stepped
      | leaving moved =>
        exact leaving_acknowledges moved head (sectioned.waiting _ sectioned.current moved.symm) acknowledges stepped

/-- Every interrupt is acknowledged in user mode, if inside a handler each switch
is to a stack that has the acknowledgements still to make. -/
theorem user_mode_acknowledged {events : List ControlEvent} (ran : run controlStep controlStart events = some control)
    (resumed : Meets controlStep Resumes controlStart events) (user : control.pending control.stack = []) :
    control.inService = [] := by
  have invariant : Sectioned control ∧ Acknowledges control := by
    refine run_invariant (fun control => Sectioned control ∧ Acknowledges control) ?_
      ⟨controlStart_sectioned, Nat.le_refl 0⟩ resumed ran
    rintro before event after ⟨sectioned, acknowledges⟩ resumes stepped
    exact ⟨controlStep_sectioned sectioned stepped, controlStep_acknowledges sectioned acknowledges resumes stepped⟩
  have none : control.inService.length ≤ 0 := invariant.2.served user trivial
  exact List.eq_nil_of_length_eq_zero (Nat.le_zero.mp none)

/-- `count` ticks in user mode that do not preempt the thread. -/
def ticks (count : Nat) : List ControlEvent :=
  (List.replicate count (.interrupt 0 :: List.replicate 6 .execute)).flatten

/-- A tick that comes to `sched_schedule`, which gives `thread`. -/
def preemption (thread : Nat) : List ControlEvent :=
  .interrupt 0 :: List.replicate 7 .execute ++ [.pick thread]

def load : List ControlEvent := .call .load :: List.replicate 3 .execute

/-- `sched_schedule` in `kernel_main`, up to user mode in the thread that it comes to. -/
def begin (thread : Nat) : List ControlEvent :=
  [.call .schedule, .execute, .execute, .pick thread] ++ List.replicate 5 .execute

/-- `sched_exit`, up to user mode in `thread`. -/
def exit (thread : Nat) : List ControlEvent :=
  .call .exit :: List.replicate 5 .execute ++ .pick thread :: List.replicate 5 .execute

/-- The second thread is preempted by itself and exits to the first one. No thread can be the first to come out of a
handler by a switch from another one. -/
theorem user_mode_acknowledged_example : ∃ control,
    run controlStep controlStart (load ++ load ++ begin 2 ++ ticks 7 ++ preemption 2 ++ List.replicate 5 .execute ++ exit 1) =
      some control ∧
      control.stack = 1 ∧ control.pending control.stack = [] ∧ control.inService = [] := by
  have ends : (run controlStep controlStart
      (load ++ load ++ begin 2 ++ ticks 7 ++ preemption 2 ++ List.replicate 5 .execute ++ exit 1)).map
      (fun control => (control.stack, control.pending control.stack)) = some (1, []) := by decide +kernel
  obtain ⟨control, ran, same⟩ := Option.map_eq_some_iff.mp ends
  obtain ⟨first, user⟩ := Prod.mk.inj same
  exact ⟨control, ran, first, user, user_mode_acknowledged ran (by decide +kernel) user⟩

/-- The eighth tick of the first thread gives way to the second one, which comes to
user mode by its entry and leaves the timer in service. -/
theorem fresh_thread_unacknowledged : ∃ control,
    run controlStep controlStart (load ++ load ++ begin 1 ++ ticks 7 ++ preemption 2 ++ List.replicate 5 .execute) =
      some control ∧
      control.stack = 2 ∧ control.pending control.stack = [] ∧ control.inService = [0] := by
  have ends : (run controlStep controlStart (load ++ load ++ begin 1 ++ ticks 7 ++ preemption 2 ++
      List.replicate 5 .execute)).map (fun control => (control.stack, control.pending control.stack, control.inService)) =
        some (2, [], [0]) := by decide +kernel
  obtain ⟨control, ran, same⟩ := Option.map_eq_some_iff.mp ends
  simp only [Prod.mk.injEq] at same
  exact ⟨control, ran, same⟩

end YuzuOS.Proofs.ControlAcknowledge
