import Mathlib.Logic.Function.Basic
import YuzuOS.Kernel.Scheduler

/-! The scheduler statement by statement: locks, hardware interrupts and the
kernel stacks that wait in `sched_switch`. Statements that run with interrupts
disabled and change none of these are taken together, and the choice of the next
thread is free among the queued ones. -/

namespace YuzuOS.Kernel

/-- What a kernel stack still has to do. An entry is a call or the part of a
function between two places where it can be interrupted or switched out. -/
inductive Statement
  | schedLock
  | schedUnlock
  /-- `sched_process_create`, of `sched_load`. -/
  | processCreate
  /-- `sched_thread_create`, of `sched_load`. -/
  | threadCreate (process : Nat)
  /-- What `sched_process_fork` does under its lock. -/
  | fork
  | threadQueue (thread : Nat)
  /-- What `sched_exit` does under its lock. -/
  | exit
  /-- The call of `sched_schedule`, and its return. -/
  | schedule
  | scheduled
  /-- `sched_thread_pop_next`, before the idle loop and in it. -/
  | popNext
  | popNextAgain
  | halt
  | threadSwitch (thread : Nat)
  | switch (previous : Nat)
  /-- The call of `sched_handler`, its part under the lock, and what follows. -/
  | handler
  | count
  | reschedule
  | eoi
  | interruptReturn
  | elf32Load
  | jumpUsermode
  | returnUsermode
  deriving DecidableEq

open Statement

/-- `stack` is the thread on whose kernel stack the processor works and `pending`
what each stack has to do; a thread with nothing to do is in user mode, or in
`kernel_main`. `inService` is the PIC's register, the latest interrupt first. -/
structure Control where
  schedLocks : Nat
  schedPid : Nat
  schedTid : Nat
  schedThread : Nat
  schedProcess : Nat
  queue : List Nat
  state : Nat → ThreadState
  time : Nat → Nat
  process : Nat → Nat
  stack : Nat
  pending : Nat → List Statement
  interrupts : Bool
  inService : List Nat
  underflow : Bool

namespace Control

def schedLock (control : Control) : Control :=
  { control with schedLocks := control.schedLocks + 1, interrupts := false }

/-- `underflow` records a call with the counter at zero. -/
def schedUnlock (control : Control) : Control :=
  { control with
    schedLocks := control.schedLocks - 1
    interrupts := if control.schedLocks - 1 = 0 then true else control.interrupts
    underflow := control.underflow || control.schedLocks == 0 }

/-- The stack goes on with other statements. -/
def proceed (control : Control) (statements : List Statement) : Control :=
  { control with pending := Function.update control.pending control.stack statements }

def schedThreadUpdate (thread : Nat) (state : ThreadState) (control : Control) : Control :=
  if control.state thread = state then control
  else
    let control := control.schedLock
    { control with
      state := Function.update control.state thread state
      queue := thread :: control.queue.erase thread }.schedUnlock

/-- The new stack begins in `entry`. -/
def schedThreadCreate (process : Nat) (entry : List Statement) (control : Control) : Nat × Control :=
  let control := control.schedLock
  let tid := control.schedTid
  (tid, { control with
    schedTid := tid + 1
    state := Function.update control.state tid .ready
    time := Function.update control.time tid 0
    process := Function.update control.process tid process
    pending := Function.update control.pending tid entry }.schedUnlock)

def schedThreadEntry : List Statement := [.schedUnlock, elf32Load, jumpUsermode]

def schedThreadUserEntry : List Statement := [.schedUnlock, returnUsermode]

/-- In `sched_exit`, `pid` 1 panics. -/
def execute (control : Control) (statement : Statement) (rest : List Statement) : Option Control :=
  match statement with
  | .schedLock => some (control.schedLock.proceed rest)
  | .schedUnlock => some (control.schedUnlock.proceed rest)
  | processCreate =>
    let process := control.schedPid
    some ({ control.schedLock with schedPid := process + 1 }.schedUnlock.proceed (threadCreate process :: rest))
  | threadCreate process =>
    let (thread, control) := control.schedThreadCreate process schedThreadEntry
    some (control.proceed (threadQueue thread :: rest))
  | fork =>
    let process := control.schedPid
    let (thread, control) := { control with schedPid := process + 1 }.schedThreadCreate process schedThreadUserEntry
    some (control.proceed (.schedUnlock :: threadQueue thread :: rest))
  | threadQueue thread => some ({ control with queue := thread :: control.queue }.proceed rest)
  | exit =>
    if control.schedProcess = 1 then none
    else some ((control.schedThreadUpdate control.schedThread .terminated).proceed
      (.schedUnlock :: schedule :: scheduled :: rest))
  | schedule =>
    if control.state control.schedThread = .running then some (control.proceed rest)
    else some (control.proceed (.schedLock :: popNext :: rest))
  | popNext =>
    if control.queue = [] then some (control.proceed (.schedUnlock :: halt :: .schedLock :: popNextAgain :: rest))
    else none
  | popNextAgain =>
    if control.queue ≠ [] then none
    else if control.state control.schedThread = .running then
      some (control.proceed (threadSwitch control.schedThread :: .schedUnlock :: rest))
    else some (control.proceed (.schedUnlock :: halt :: .schedLock :: popNextAgain :: rest))
  | threadSwitch thread =>
    let previous := control.schedThread
    let control := { control with schedThread := thread, time := Function.update control.time thread 0 }
    let control := control.schedThreadUpdate thread .running
    if previous = thread then some (control.proceed rest)
    else some ({ control with schedProcess := control.process thread }.proceed (switch previous :: rest))
  | switch previous => some { control with
      pending := Function.update control.pending previous rest
      stack := control.schedThread
      interrupts := true }
  | handler =>
    if control.state control.schedThread = .running then some (control.proceed (.schedLock :: count :: rest))
    else some (control.proceed rest)
  | count =>
    let thread := control.schedThread
    let time := control.time thread + 1
    let control := { control with time := Function.update control.time thread time }
    if schedTimeSlice ≤ time ∧ control.queue ≠ [] then
      some ((control.schedThreadUpdate thread .ready).proceed (.schedUnlock :: reschedule :: rest))
    else some (control.proceed (.schedUnlock :: rest))
  | reschedule =>
    if control.schedLocks = 0 then some (control.proceed (schedule :: scheduled :: rest))
    else some (control.proceed rest)
  | eoi => some ({ control with inService := control.inService.tail }.proceed rest)
  | interruptReturn => some ({ control with interrupts := true }.proceed rest)
  | jumpUsermode => some ({ control with interrupts := true }.proceed [])
  | returnUsermode => some ({ control with interrupts := true }.proceed [])
  | scheduled => some (control.proceed rest)
  | halt => some (control.proceed rest)
  | elf32Load => some (control.proceed rest)

/-- `irq_common`: the handlers of the interrupt, of which only that of the timer
schedules, then `pic_eoi`. -/
def irqHandler (irq : Nat) : List Statement :=
  if irq = 0 then [handler, eoi, interruptReturn] else [eoi, interruptReturn]

end Control

inductive KernelCall
  | load
  | fork
  | exit
  | schedule
  | other
  deriving DecidableEq

def KernelCall.body : KernelCall → List Statement
  | load => [processCreate]
  | fork => [.schedLock, .fork]
  | exit => [.schedLock, .exit]
  | schedule => [.schedule, .scheduled]
  | other => []

inductive ControlEvent
  /-- The next statement of the stack. -/
  | execute
  /-- `sched_thread_pop_next` with the thread that it gives. -/
  | pick (thread : Nat)
  | interrupt (irq : Nat)
  /-- A system call, or a call that `kernel_main` makes. -/
  | call (call : KernelCall)

open Control in
def controlStep (control : Control) : ControlEvent → Option Control
  | .execute => match control.pending control.stack with
    | [] => none
    | statement :: rest => control.execute statement rest
  | .pick thread => match control.pending control.stack with
    | popNext :: rest | popNextAgain :: rest =>
      if thread ∈ control.queue then
        some ({ control with queue := control.queue.erase thread }.proceed (threadSwitch thread :: .schedUnlock :: rest))
      else none
    | _ => none
  | .interrupt irq =>
    if control.interrupts = true ∧ irq < 16 ∧ ∀ other ∈ control.inService, irq < other then
      some ({ control with interrupts := false, inService := irq :: control.inService }.proceed
        (irqHandler irq ++ control.pending control.stack))
    else none
  | .call call =>
    if control.pending control.stack = [] then
      if control.stack = 0 then some (control.proceed call.body)
      else some ({ control with interrupts := false }.proceed (call.body ++ [interruptReturn]))
    else none

/-- After `sched_init`, in `kernel_main`. -/
def controlStart : Control where
  schedLocks := 0
  schedPid := 1
  schedTid := 1
  schedThread := 0
  schedProcess := 0
  queue := []
  state := fun _ => .ready
  time := fun _ => 0
  process := fun _ => 0
  stack := 0
  pending := fun _ => []
  interrupts := true
  inService := []
  underflow := false

end YuzuOS.Kernel
