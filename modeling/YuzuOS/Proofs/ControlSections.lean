import YuzuOS.Library.Run
import YuzuOS.Kernel.Control

/-! The lock counter and the statements that are left agree on every stack, in
the one at work and in those that wait in `sched_switch`. -/

namespace YuzuOS.Proofs.ControlSections
open YuzuOS.Library YuzuOS.Kernel Statement

variable {control changed next : Control} {statements rest : List Statement} {thread depth : Nat} {off : Bool}

/-- The statements run well from a depth of open sections, with interrupts off
or on. A switch stands only at the front of the stack at work. -/
def Balanced : Nat → Bool → List Statement → Prop
  | depth, _, [] => depth = 0
  | depth, _, .schedLock :: rest => Balanced (depth + 1) true rest
  | depth, off, .schedUnlock :: rest => 0 < depth ∧ Balanced (depth - 1) (off && decide (1 < depth)) rest
  | depth, _, processCreate :: rest => depth = 0 ∧ Balanced 0 false rest
  | depth, _, threadCreate _ :: rest => depth = 0 ∧ Balanced 0 false rest
  | depth, _, fork :: rest => depth = 1 ∧ Balanced 0 false rest
  | depth, off, threadQueue _ :: rest => depth = 0 ∧ Balanced 0 off rest
  | depth, off, exit :: rest => depth = 1 ∧ off = true ∧ Balanced 0 false rest
  | depth, off, schedule :: rest => depth = 0 ∧ Balanced 0 off rest ∧ Balanced 0 false rest
  | depth, off, scheduled :: rest => depth = 0 ∧ Balanced 0 off rest
  | depth, off, popNext :: rest => depth = 1 ∧ off = true ∧ Balanced 0 false rest
  | depth, off, popNextAgain :: rest => depth = 1 ∧ off = true ∧ Balanced 0 false rest
  | depth, off, halt :: rest => depth = 0 ∧ Balanced 0 off rest
  | _, _, threadSwitch _ :: _ => False
  | _, _, switch _ :: _ => False
  | depth, off, handler :: rest => off = true ∧ Balanced depth true rest ∧ Balanced depth (decide (0 < depth)) rest
  | depth, off, count :: rest => 0 < depth ∧ off = true ∧ Balanced (depth - 1) (decide (1 < depth)) rest
  | depth, off, reschedule :: rest => Balanced depth off rest ∧ (depth = 0 → Balanced 0 false rest)
  | depth, off, eoi :: rest => Balanced depth off rest
  | depth, _, interruptReturn :: rest => Balanced depth false rest
  | depth, off, .elf32Load :: rest => depth = 0 ∧ Balanced 0 off rest
  | depth, _, jumpUsermode :: _ => depth = 0
  | depth, _, returnUsermode :: _ => depth = 0

/-- The stack at work: in the middle of `sched_thread_switch`, or anywhere else. -/
inductive Working (control : Control) : List Statement → Prop
  | balanced {statements : List Statement} : control.stack = control.schedThread →
      Balanced control.schedLocks (!control.interrupts) statements → Working control statements
  | switching {thread : Nat} {rest : List Statement} : control.stack = control.schedThread → control.schedLocks = 1 →
      control.interrupts = false → thread < control.schedTid → Balanced 0 false rest →
      Working control (threadSwitch thread :: .schedUnlock :: rest)
  | leaving {rest : List Statement} : control.stack ≠ control.schedThread → control.schedLocks = 1 →
      control.interrupts = false → Balanced 0 false rest → Working control (switch control.stack :: .schedUnlock :: rest)

structure Sectioned (control : Control) : Prop where
  working : Working control (control.pending control.stack)
  waiting : ∀ thread < control.schedTid, thread ≠ control.stack → Balanced 1 false (control.pending thread)
  current : control.schedThread < control.schedTid
  onStack : control.stack < control.schedTid
  queued : ∀ thread ∈ control.queue, thread < control.schedTid
  named : ∀ stack thread, threadQueue thread ∈ control.pending stack → thread < control.schedTid
  sound : control.underflow = false

@[simp] theorem proceed_pending (control : Control) (statements : List Statement) :
    (control.proceed statements).pending control.stack = statements := Function.update_self _ _ _

theorem Sectioned.goes (sectioned : Sectioned control) (stack : changed.stack = control.stack)
    (current : changed.schedThread < changed.schedTid) (tid : changed.schedTid = control.schedTid)
    (pending : changed.pending = control.pending)
    (queued : ∀ thread ∈ changed.queue, thread ∈ control.queue ∨ thread < control.schedTid)
    (sound : changed.underflow = false)
    (named : ∀ thread, threadQueue thread ∈ statements → thread < control.schedTid)
    (working : Working (changed.proceed statements) statements) : Sectioned (changed.proceed statements) := by
  refine ⟨?_, fun thread bound other => ?_, current, ?_, fun thread member => ?_, fun stack thread member => ?_, sound⟩
  · have here : (changed.proceed statements).pending (changed.proceed statements).stack = statements := proceed_pending _ _
    rw [here]
    exact working
  · have kept : (changed.proceed statements).pending thread = control.pending thread := by
      rw [← pending]
      exact Function.update_of_ne other _ _
    rw [kept]
    exact sectioned.waiting thread (tid ▸ bound) (stack ▸ other)
  · have inside := sectioned.onStack
    rw [← stack, ← tid] at inside
    exact inside
  · have bound : thread < control.schedTid := (queued thread member).elim (sectioned.queued thread) id
    exact tid.symm ▸ bound
  · have bound : thread < control.schedTid := by
      by_cases here : stack = changed.stack
      · rw [here, proceed_pending] at member
        exact named thread member
      · have kept : (changed.proceed statements).pending stack = control.pending stack := by
          rw [← pending]
          exact Function.update_of_ne here _ _
        rw [kept] at member
        exact sectioned.named stack thread member
    exact tid.symm ▸ bound

theorem schedThreadUpdate_frame (thread : Nat) (state : ThreadState) (control : Control) :
    ∃ states queue interrupts, control.schedThreadUpdate thread state =
      { control with state := states, queue, interrupts } ∧
      (∀ other ∈ queue, other = thread ∨ other ∈ control.queue) ∧
      (interrupts = control.interrupts ∨ interrupts = decide (control.schedLocks = 0)) := by
  unfold Control.schedThreadUpdate
  split
  next same => exact ⟨control.state, control.queue, control.interrupts, rfl, fun _ member => .inr member, .inl rfl⟩
  next differs =>
    refine ⟨Function.update control.state thread state, thread :: control.queue.erase thread,
      decide (control.schedLocks = 0), ?_, fun other member => ?_, .inr rfl⟩
    · by_cases none : control.schedLocks = 0
      · simp [Control.schedUnlock, Control.schedLock, none]
      · simp [Control.schedUnlock, Control.schedLock, none]
    · cases List.mem_cons.mp member with
      | inl same => exact .inl same
      | inr old => exact .inr (List.mem_of_mem_erase old)

theorem schedThreadUpdate_locked (thread : Nat) (state : ThreadState) (locked : 0 < control.schedLocks)
    (quiet : control.interrupts = false) :
    ∃ states queue, control.schedThreadUpdate thread state = { control with state := states, queue } ∧
      ∀ other ∈ queue, other = thread ∨ other ∈ control.queue := by
  obtain ⟨states, queue, interrupts, result, members, flag⟩ := schedThreadUpdate_frame thread state control
  refine ⟨states, queue, ?_, members⟩
  have still : interrupts = control.interrupts := by
    rcases flag with same | zero
    · exact same
    · rw [zero, quiet, decide_eq_false (Nat.ne_of_gt locked)]
  rw [result, still]

theorem unlock_flag (control : Control) :
    (!control.schedUnlock.interrupts) = (!control.interrupts && decide (1 < control.schedLocks)) := by
  by_cases last : control.schedLocks - 1 = 0
  · have few : ¬ 1 < control.schedLocks := by omega
    simp [Control.schedUnlock, last, few]
  · have more : 1 < control.schedLocks := by omega
    simp [Control.schedUnlock, last, more]

theorem unlock_sound (sound : control.underflow = false) (positive : 0 < control.schedLocks) :
    control.schedUnlock.underflow = false := by
  have counted : (control.schedLocks == 0) = false := by simpa using Nat.ne_of_gt positive
  simp [Control.schedUnlock, sound, counted]

/-- A section of its own ends with interrupts on, unless it lies in another one. -/
theorem section_flag (control : Control) (quiet : control.interrupts = false) :
    (!control.schedUnlock.interrupts) = decide (0 < control.schedLocks - 1) := by
  by_cases last : control.schedLocks - 1 = 0
  · simp [Control.schedUnlock, last]
  · have more : 0 < control.schedLocks - 1 := Nat.pos_of_ne_zero last
    simp [Control.schedUnlock, last, more, quiet]

/-- A created stack waits with the lock of the thread that will switch to it. -/
theorem created_goes {process : Nat} {entry : List Statement} (sectioned : Sectioned control)
    (waits : Balanced 1 false entry) (silent : ∀ thread, threadQueue thread ∉ entry)
    (same : control.stack = control.schedThread)
    (named : ∀ thread, threadQueue thread ∈ statements → thread ≤ control.schedTid)
    (working : Balanced control.schedLocks (decide (0 < control.schedLocks)) statements) :
    Sectioned ((control.schedThreadCreate process entry).2.proceed statements) := by
  have fresh : control.stack ≠ control.schedTid := sectioned.onStack.ne
  have sound : (control.schedThreadCreate process entry).2.underflow = false := unlock_sound sectioned.sound (Nat.succ_pos _)
  have flag : (!(control.schedThreadCreate process entry).2.interrupts) = decide (0 < control.schedLocks) :=
    section_flag _ rfl
  have here : ((control.schedThreadCreate process entry).2.proceed statements).pending control.stack = statements :=
    proceed_pending (control.schedThreadCreate process entry).2 _
  have kept (thread : Nat) (other : thread ≠ control.stack) :
      ((control.schedThreadCreate process entry).2.proceed statements).pending thread =
        Function.update control.pending control.schedTid entry thread := Function.update_of_ne other _ _
  refine ⟨?_, fun thread bound other => ?_, Nat.lt_succ_of_lt sectioned.current, Nat.lt_succ_of_lt sectioned.onStack,
    fun thread member => Nat.lt_succ_of_lt (sectioned.queued thread member), fun stack thread member => ?_, sound⟩
  · have depth : ((control.schedThreadCreate process entry).2.proceed statements).schedLocks = control.schedLocks := rfl
    have quiet : ((control.schedThreadCreate process entry).2.proceed statements).interrupts =
      (control.schedThreadCreate process entry).2.interrupts := rfl
    have goes : Balanced ((control.schedThreadCreate process entry).2.proceed statements).schedLocks
        (!((control.schedThreadCreate process entry).2.proceed statements).interrupts) statements := by
      rw [depth, quiet, flag]
      exact working
    exact (congrArg (Working _) here).mpr (.balanced same goes)
  · rw [kept thread other]
    by_cases new : thread = control.schedTid
    · rw [new, Function.update_self]
      exact waits
    · rw [Function.update_of_ne new]
      exact sectioned.waiting thread (Nat.lt_of_le_of_ne (Nat.le_of_lt_succ bound) new) other
  · by_cases own : stack = control.stack
    · rw [own, here] at member
      exact Nat.lt_succ_of_le (named thread member)
    · rw [kept stack own] at member
      by_cases new : stack = control.schedTid
      · rw [new, Function.update_self] at member
        exact False.elim (silent thread member)
      · rw [Function.update_of_ne new] at member
        exact Nat.lt_succ_of_lt (sectioned.named stack thread member)

theorem Sectioned.withPid (sectioned : Sectioned control) (pid : Nat) : Sectioned { control with schedPid := pid } := by
  refine ⟨?_, sectioned.waiting, sectioned.current, sectioned.onStack, sectioned.queued, sectioned.named, sectioned.sound⟩
  have working := sectioned.working
  generalize control.pending control.stack = statements at working ⊢
  cases working with
  | balanced same balanced => exact .balanced same balanced
  | switching same locks quiet known balanced => exact .switching same locks quiet known balanced
  | leaving moved locks quiet balanced => exact .leaving moved locks quiet balanced

theorem execute_balanced {statement : Statement} (sectioned : Sectioned control)
    (same : control.stack = control.schedThread) (head : control.pending control.stack = statement :: rest)
    (balanced : Balanced control.schedLocks (!control.interrupts) (statement :: rest))
    (stepped : control.execute statement rest = some next) : Sectioned next := by
  have current := sectioned.current
  have old : ∀ thread ∈ control.queue, thread ∈ control.queue ∨ thread < control.schedTid := fun _ member => .inl member
  have named : ∀ thread, threadQueue thread ∈ rest → thread < control.schedTid := by
    intro thread member
    exact sectioned.named control.stack thread (head ▸ List.mem_cons_of_mem _ member)
  have plain {statements : List Statement} (goes : Balanced control.schedLocks (!control.interrupts) statements)
      (known : ∀ thread, threadQueue thread ∈ statements → thread < control.schedTid) :
      Sectioned (control.proceed statements) :=
    sectioned.goes rfl current rfl rfl old sectioned.sound known (.balanced same goes)
  cases statement with
  | threadSwitch thread => exact balanced.elim
  | switch previous => exact balanced.elim
  | schedLock =>
    cases stepped
    exact sectioned.goes rfl current rfl rfl old sectioned.sound named (.balanced same balanced)
  | schedUnlock =>
    cases stepped
    obtain ⟨positive, balanced⟩ := balanced
    refine sectioned.goes rfl current rfl rfl old (unlock_sound sectioned.sound positive) named (.balanced same ?_)
    rw [← unlock_flag] at balanced
    exact balanced
  | processCreate =>
    cases stepped
    obtain ⟨zero, balanced⟩ := balanced
    refine sectioned.goes rfl current rfl rfl old (unlock_sound sectioned.sound (Nat.succ_pos _))
      (fun thread member => named thread (by simpa using member)) (.balanced same ⟨zero, balanced⟩)
  | threadCreate process =>
    cases stepped
    refine created_goes sectioned ⟨Nat.one_pos, rfl, rfl⟩ (by simp [Control.schedThreadEntry]) same
      (fun thread member => ?_) ?_
    · rcases List.mem_cons.mp member with here | later
      · cases here
        exact Nat.le_refl _
      · exact (named thread later).le
    · rw [balanced.1]
      exact ⟨rfl, balanced.2⟩
  | fork =>
    cases stepped
    obtain ⟨depth, balanced⟩ := balanced
    refine created_goes (sectioned.withPid _) ⟨Nat.one_pos, rfl⟩ (by simp [Control.schedThreadUserEntry]) same
      (fun thread member => ?_) ?_
    · rcases List.mem_cons.mp (List.mem_of_ne_of_mem (by simp) member) with here | later
      · cases here
        exact Nat.le_refl _
      · exact (named thread later).le
    · show Balanced control.schedLocks _ _
      rw [depth]
      exact ⟨Nat.one_pos, rfl, balanced⟩
  | threadQueue thread =>
    cases stepped
    obtain ⟨zero, balanced⟩ := balanced
    have known := sectioned.named control.stack thread (head ▸ List.mem_cons_self)
    have after : Balanced control.schedLocks (!control.interrupts) rest := zero ▸ balanced
    refine sectioned.goes rfl current rfl rfl (fun other member => ?_) sectioned.sound named (.balanced same after)
    cases List.mem_cons.mp member with
    | inl here => exact .inr (here ▸ known)
    | inr older => exact .inl older
  | exit =>
    obtain ⟨depth, off, balanced⟩ := balanced
    have quiet : control.interrupts = false := by simpa using off
    obtain ⟨states, queue, result, members⟩ := schedThreadUpdate_locked control.schedThread .terminated
      (depth ▸ Nat.one_pos : 0 < control.schedLocks) quiet
    rw [Control.execute] at stepped
    split at stepped
    next panics => cases stepped
    next others =>
      rw [result] at stepped
      cases stepped
      refine sectioned.goes rfl current rfl rfl (fun other member => ?_) sectioned.sound
        (fun thread member => named thread (by simpa using member)) (.balanced same ?_)
      · cases members other member with
        | inl here => exact .inr (here ▸ current)
        | inr older => exact .inl older
      · show Balanced control.schedLocks (!control.interrupts) _
        rw [depth, quiet]
        exact ⟨Nat.one_pos, rfl, ⟨rfl, balanced⟩, rfl, balanced⟩
  | schedule =>
    obtain ⟨zero, balanced, later⟩ := balanced
    rw [Control.execute] at stepped
    split at stepped
    next running =>
      cases stepped
      exact plain (zero ▸ balanced) named
    next idle =>
      cases stepped
      refine plain ?_ (fun thread member => named thread (by simpa using member))
      rw [zero]
      exact ⟨rfl, rfl, later⟩
  | scheduled =>
    cases stepped
    obtain ⟨zero, balanced⟩ := balanced
    exact plain (zero ▸ balanced) named
  | popNext =>
    obtain ⟨depth, off, balanced⟩ := balanced
    rw [Control.execute] at stepped
    split at stepped
    next empty =>
      cases stepped
      refine plain ?_ (fun thread member => named thread (by simpa using member))
      rw [depth, off]
      exact ⟨Nat.one_pos, rfl, rfl, rfl, balanced⟩
    next => cases stepped
  | popNextAgain =>
    obtain ⟨depth, off, balanced⟩ := balanced
    have quiet : control.interrupts = false := by simpa using off
    rw [Control.execute] at stepped
    split at stepped
    next => cases stepped
    next empty =>
      split at stepped
      next running =>
        cases stepped
        exact sectioned.goes rfl current rfl rfl old sectioned.sound
          (fun thread member => named thread (by simpa using member)) (.switching same depth quiet current balanced)
      next idle =>
        cases stepped
        refine plain ?_ (fun thread member => named thread (by simpa using member))
        rw [depth, off]
        exact ⟨Nat.one_pos, rfl, rfl, rfl, balanced⟩
  | halt =>
    cases stepped
    obtain ⟨zero, balanced⟩ := balanced
    exact plain (zero ▸ balanced) named
  | handler =>
    obtain ⟨off, skipped, counted⟩ := balanced
    rw [Control.execute] at stepped
    split at stepped
    next running =>
      cases stepped
      refine plain ⟨Nat.succ_pos _, rfl, ?_⟩ (fun thread member => named thread (by simpa using member))
      simpa using counted
    next idle =>
      cases stepped
      exact plain (off ▸ skipped) named
  | count =>
    obtain ⟨positive, off, balanced⟩ := balanced
    have quiet : control.interrupts = false := by simpa using off
    rw [Control.execute] at stepped
    split at stepped
    next preempts =>
      let counted : Control :=
        { control with time := Function.update control.time control.schedThread (control.time control.schedThread + 1) }
      have locked : 0 < counted.schedLocks := positive
      obtain ⟨states, queue, result, members⟩ := schedThreadUpdate_locked control.schedThread .ready locked quiet
      rw [result] at stepped
      cases stepped
      refine sectioned.goes rfl current rfl rfl (fun other member => ?_) sectioned.sound
        (fun thread member => named thread (by simpa using member)) (.balanced same ?_)
      · cases members other member with
        | inl here => exact .inr (here ▸ current)
        | inr older => exact .inl older
      · show Balanced control.schedLocks (!control.interrupts) _
        rw [off]
        refine ⟨positive, balanced, fun zero => ?_⟩
        have last : ¬ 1 < control.schedLocks := by omega
        rw [zero, decide_eq_false last] at balanced
        exact balanced
    next short =>
      cases stepped
      refine sectioned.goes rfl current rfl rfl old sectioned.sound
        (fun thread member => named thread (by simpa using member)) (.balanced same ?_)
      show Balanced control.schedLocks (!control.interrupts) _
      rw [off]
      exact ⟨positive, balanced⟩
  | reschedule =>
    obtain ⟨balanced, free⟩ := balanced
    rw [Control.execute] at stepped
    split at stepped
    next zero =>
      cases stepped
      refine plain ?_ (fun thread member => named thread (by simpa using member))
      rw [zero] at balanced ⊢
      exact ⟨rfl, ⟨rfl, balanced⟩, rfl, free zero⟩
    next locked =>
      cases stepped
      exact plain balanced named
  | eoi =>
    cases stepped
    exact sectioned.goes rfl current rfl rfl old sectioned.sound named (.balanced same balanced)
  | interruptReturn =>
    cases stepped
    exact sectioned.goes rfl current rfl rfl old sectioned.sound named (.balanced same balanced)
  | elf32Load =>
    cases stepped
    obtain ⟨zero, balanced⟩ := balanced
    exact plain (zero ▸ balanced) named
  | jumpUsermode =>
    cases stepped
    exact sectioned.goes rfl current rfl rfl old sectioned.sound (by simp) (.balanced same balanced)
  | returnUsermode =>
    cases stepped
    exact sectioned.goes rfl current rfl rfl old sectioned.sound (by simp) (.balanced same balanced)

theorem execute_switching (sectioned : Sectioned control) (same : control.stack = control.schedThread)
    (locks : control.schedLocks = 1) (quiet : control.interrupts = false) (known : thread < control.schedTid)
    (balanced : Balanced 0 false rest)
    (head : control.pending control.stack = threadSwitch thread :: .schedUnlock :: rest)
    (stepped : control.execute (threadSwitch thread) (.schedUnlock :: rest) = some next) : Sectioned next := by
  have named : ∀ other, threadQueue other ∈ rest → other < control.schedTid := by
    intro other member
    refine sectioned.named control.stack other ?_
    rw [head]
    exact List.mem_cons_of_mem _ (List.mem_cons_of_mem _ member)
  let chosen : Control := { control with schedThread := thread, time := Function.update control.time thread 0 }
  have locked : 0 < chosen.schedLocks := locks ▸ Nat.one_pos
  obtain ⟨states, queue, result, members⟩ := schedThreadUpdate_locked thread .running locked quiet
  have queued : ∀ other ∈ queue, other ∈ control.queue ∨ other < control.schedTid := by
    intro other member
    cases members other member with
    | inl here => exact .inr (here ▸ known)
    | inr older => exact .inl older
  have after : Balanced control.schedLocks (!control.interrupts) (.schedUnlock :: rest) := by
    rw [locks, quiet]
    exact ⟨Nat.one_pos, balanced⟩
  simp only [Control.execute] at stepped
  rw [result] at stepped
  split at stepped
  next current =>
    cases stepped
    exact sectioned.goes rfl known rfl rfl queued sectioned.sound (fun other member => named other (by simpa using member))
      (.balanced (same.trans current) after)
  next other =>
    cases stepped
    rw [← same]
    exact sectioned.goes rfl known rfl rfl queued sectioned.sound (fun other member => named other (by simpa using member))
      (.leaving (same ▸ other) locks quiet balanced)

/-- The switch itself: the old stack waits in it and the new one goes on. -/
theorem execute_leaving (sectioned : Sectioned control) (moved : control.stack ≠ control.schedThread)
    (locks : control.schedLocks = 1) (balanced : Balanced 0 false rest)
    (head : control.pending control.stack = switch control.stack :: .schedUnlock :: rest)
    (stepped : control.execute (switch control.stack) (.schedUnlock :: rest) = some next) : Sectioned next := by
  cases stepped
  have waits : Balanced 1 false (.schedUnlock :: rest) := ⟨Nat.one_pos, balanced⟩
  refine ⟨?_, fun thread bound other => ?_, sectioned.current, sectioned.current, sectioned.queued,
    fun stack thread member => ?_, sectioned.sound⟩
  · have here : Function.update control.pending control.stack (.schedUnlock :: rest) control.schedThread =
        control.pending control.schedThread := Function.update_of_ne moved.symm _ _
    refine .balanced rfl ?_
    show Balanced control.schedLocks false (Function.update control.pending control.stack (.schedUnlock :: rest) control.schedThread)
    rw [here, locks]
    exact sectioned.waiting control.schedThread sectioned.current moved.symm
  · show Balanced 1 false (Function.update control.pending control.stack (.schedUnlock :: rest) thread)
    by_cases own : thread = control.stack
    · rw [own, Function.update_self]
      exact waits
    · rw [Function.update_of_ne own]
      exact sectioned.waiting thread bound own
  · change threadQueue thread ∈ Function.update control.pending control.stack (.schedUnlock :: rest) stack at member
    by_cases own : stack = control.stack
    · rw [own, Function.update_self] at member
      refine sectioned.named control.stack thread ?_
      rw [head]
      exact List.mem_cons_of_mem _ member
    · rw [Function.update_of_ne own] at member
      exact sectioned.named stack thread member

theorem execute_sectioned (sectioned : Sectioned control) (stepped : controlStep control .execute = some next) :
    Sectioned next := by
  rw [controlStep] at stepped
  cases head : control.pending control.stack with
  | nil =>
    rw [head] at stepped
    cases stepped
  | cons statement rest =>
    rw [head] at stepped
    have working := sectioned.working
    rw [head] at working
    cases working with
    | balanced same balanced => exact execute_balanced sectioned same head balanced stepped
    | switching same locks quiet known balanced =>
      exact execute_switching sectioned same locks quiet known balanced head stepped
    | leaving moved locks _ balanced => exact execute_leaving sectioned moved locks balanced head stepped

theorem pick_sectioned (sectioned : Sectioned control) (stepped : controlStep control (.pick thread) = some next) :
    Sectioned next := by
  have working := sectioned.working
  have picks {pop : Statement} {rest : List Statement} (head : control.pending control.stack = pop :: rest)
      (safe : pop = popNext ∨ pop = popNextAgain)
      (stepped : (if thread ∈ control.queue then some ({ control with queue := control.queue.erase thread }.proceed
        (threadSwitch thread :: .schedUnlock :: rest)) else none) = some next) : Sectioned next := by
    split at stepped
    next member =>
      cases stepped
      have named : ∀ other, threadQueue other ∈ rest → other < control.schedTid := by
        intro other later
        exact sectioned.named control.stack other (head ▸ List.mem_cons_of_mem _ later)
      have known := sectioned.queued thread member
      rw [head] at working
      obtain ⟨same, depth, off, balanced⟩ : control.stack = control.schedThread ∧ control.schedLocks = 1 ∧
          (!control.interrupts) = true ∧ Balanced 0 false rest := by
        cases working with
        | balanced same balanced =>
          cases safe with
          | inl pops => subst pops; exact ⟨same, balanced⟩
          | inr pops => subst pops; exact ⟨same, balanced⟩
        | switching => cases safe with
          | inl pops => cases pops
          | inr pops => cases pops
        | leaving => cases safe with
          | inl pops => cases pops
          | inr pops => cases pops
      have quiet : control.interrupts = false := by simpa using off
      exact sectioned.goes rfl sectioned.current rfl rfl (fun other inside => .inl (List.mem_of_mem_erase inside))
        sectioned.sound (fun other inside => named other (by simpa using inside))
        (.switching same depth quiet known balanced)
    next => cases stepped
  rw [controlStep] at stepped
  split at stepped
  next rest head => exact picks head (.inl rfl) stepped
  next rest head => exact picks head (.inr rfl) stepped
  next => cases stepped

/-- Interrupts come only while they are enabled, so never inside a switch. -/
theorem interrupt_sectioned {irq : Nat} (sectioned : Sectioned control)
    (stepped : controlStep control (.interrupt irq) = some next) : Sectioned next := by
  rw [controlStep] at stepped
  split at stepped
  next enabled =>
    cases stepped
    have working := sectioned.working
    have named := sectioned.named control.stack
    generalize control.pending control.stack = statements at working named ⊢
    cases working with
    | switching _ _ quiet => 
      rw [enabled.1] at quiet
      cases quiet
    | leaving _ _ quiet => 
      rw [enabled.1] at quiet
      cases quiet
    | balanced same balanced =>
      rw [enabled.1] at balanced
      have handled : Balanced control.schedLocks true (Control.irqHandler irq ++ statements) := by
        unfold Control.irqHandler
        split
        next => exact ⟨rfl, balanced, balanced⟩
        next => exact balanced
      refine sectioned.goes rfl sectioned.current rfl rfl (fun _ member => .inl member) sectioned.sound
        (fun thread member => named thread ?_) (.balanced same handled)
      unfold Control.irqHandler at member
      split at member
      next => simpa using member
      next => simpa using member
  next => cases stepped

theorem call_sectioned {call : KernelCall} (sectioned : Sectioned control)
    (stepped : controlStep control (.call call) = some next) : Sectioned next := by
  rw [controlStep] at stepped
  have working := sectioned.working
  split at stepped
  next outside =>
    rw [outside] at working
    cases working with
    | balanced same zero =>
      have zero : control.schedLocks = 0 := zero
      split at stepped
      next boot =>
        cases stepped
        refine sectioned.goes rfl sectioned.current rfl rfl (fun _ member => .inl member) sectioned.sound
          (fun thread member => ?_) (.balanced same ?_)
        · cases call <;> simp [KernelCall.body] at member
        · show Balanced control.schedLocks (!control.interrupts) _
          rw [zero]
          cases call with
          | load => exact ⟨rfl, rfl⟩
          | fork => exact ⟨rfl, rfl⟩
          | exit => exact ⟨rfl, rfl, rfl⟩
          | schedule => exact ⟨rfl, ⟨rfl, rfl⟩, rfl, rfl⟩
          | other => exact rfl
      next user =>
        cases stepped
        refine sectioned.goes rfl sectioned.current rfl rfl (fun _ member => .inl member) sectioned.sound
          (fun thread member => ?_) (.balanced same ?_)
        · cases call <;> simp [KernelCall.body] at member
        · show Balanced control.schedLocks true _
          rw [zero]
          cases call with
          | load => exact ⟨rfl, rfl⟩
          | fork => exact ⟨rfl, rfl⟩
          | exit => exact ⟨rfl, rfl, rfl⟩
          | schedule => exact ⟨rfl, ⟨rfl, rfl⟩, rfl, rfl⟩
          | other => exact rfl
  next => cases stepped

theorem controlStep_sectioned {event : ControlEvent} (sectioned : Sectioned control)
    (stepped : controlStep control event = some next) : Sectioned next := by
  cases event with
  | execute => exact execute_sectioned sectioned stepped
  | pick thread => exact pick_sectioned sectioned stepped
  | interrupt irq => exact interrupt_sectioned sectioned stepped
  | call call => exact call_sectioned sectioned stepped

theorem controlStart_sectioned : Sectioned controlStart := by
  refine ⟨.balanced rfl rfl, fun thread bound other => ?_, Nat.zero_lt_one, Nat.zero_lt_one, by simp [controlStart],
    by simp [controlStart], rfl⟩
  have boot : thread = 0 := Nat.lt_one_iff.mp bound
  exact False.elim (other boot)

theorem run_sectioned {events : List ControlEvent} (ran : run controlStep controlStart events = some control) :
    Sectioned control :=
  run_always Sectioned (fun _ _ _ sectioned stepped => controlStep_sectioned sectioned stepped) controlStart_sectioned ran

/-- The places outside every section: user mode and `kernel_main`, the return of
`sched_schedule`, its idle loop, and the entries once the lock is given back. -/
def Outside : List Statement → Prop
  | [] | scheduled :: _ | halt :: _ | threadQueue _ :: _ | .elf32Load :: _ | jumpUsermode :: _ | returnUsermode :: _ => True
  | _ => False

theorem Balanced.outside {statements : List Statement} (balanced : Balanced depth off statements)
    (outside : Outside statements) : depth = 0 := by
  cases statements with
  | nil => exact balanced
  | cons statement rest =>
    cases statement with
    | scheduled | halt | threadQueue | elf32Load => exact balanced.1
    | jumpUsermode | returnUsermode => exact balanced
    | _ => exact outside.elim

theorem Working.outside (working : Working control statements) (outside : Outside statements) :
    control.schedLocks = 0 := by
  cases working with
  | balanced _ balanced => exact balanced.outside outside
  | switching => exact outside.elim
  | leaving => exact outside.elim

theorem Working.switch {previous : Nat} (working : Working control (switch previous :: rest)) :
    control.schedLocks = 1 := by
  cases working with
  | balanced _ balanced => exact balanced.elim
  | leaving _ locks => exact locks

theorem Working.unlock (working : Working control (.schedUnlock :: rest)) : 0 < control.schedLocks := by
  cases working with
  | balanced _ balanced => exact balanced.1

/-- The counter is zero outside the sections and one at every switch, and it
is never given back below zero. -/
theorem locks_are_sectioned {events : List ControlEvent} (ran : run controlStep controlStart events = some control) :
    (Outside (control.pending control.stack) → control.schedLocks = 0) ∧
      (∀ previous rest, control.pending control.stack = switch previous :: rest → control.schedLocks = 1) ∧
      (∀ rest, control.pending control.stack = .schedUnlock :: rest → 0 < control.schedLocks) ∧
      control.underflow = false := by
  have sectioned := run_sectioned ran
  have working := sectioned.working
  refine ⟨working.outside, fun previous rest head => ?_, fun rest head => ?_, sectioned.sound⟩
  · rw [head] at working
    exact working.switch
  · rw [head] at working
    exact working.unlock

/-- The first thread comes to user mode, its entry having given back the lock of `kernel_main`. -/
theorem locks_are_sectioned_example : ∃ control,
    run controlStep controlStart ([.call .load, .execute, .execute, .execute, .call .schedule, .execute, .execute, .pick 1] ++
      List.replicate 5 .execute) = some control ∧
    control.stack = 1 ∧ control.pending 1 = [] ∧ control.schedLocks = 0 ∧ control.underflow = false := by
  have ends : (run controlStep controlStart ([.call .load, .execute, .execute, .execute, .call .schedule, .execute, .execute,
      .pick 1] ++ List.replicate 5 .execute)).map (fun control => (control.stack, control.pending 1)) = some (1, []) := by
    decide +kernel
  obtain ⟨control, ran, same⟩ := Option.map_eq_some_iff.mp ends
  simp only [Prod.mk.injEq] at same
  obtain ⟨stack, finished⟩ := same
  obtain ⟨outside, _, _, sound⟩ := locks_are_sectioned ran
  have zero : control.schedLocks = 0 := outside (by rw [stack, finished]; trivial)
  exact ⟨control, ran, stack, finished, zero, sound⟩

end YuzuOS.Proofs.ControlSections
