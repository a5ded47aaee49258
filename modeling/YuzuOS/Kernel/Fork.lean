import YuzuOS.Kernel.Dlist
import YuzuOS.Kernel.Scheduler
import YuzuOS.Kernel.Syscall

/-! What a process and its thread have beside the fields of the scheduler, and the
copies of it that `sched_process_fork` makes. Objects are numbered in the order of
their allocation, and processes and threads are addressed as in the scheduler. A
process takes too much of the kernel heap, and is never freed, for `sched_pid` to wrap. -/

namespace YuzuOS.Kernel
open YuzuOS.Library

/-- The list heads in objects of `process_mm` and of `process_vm`, and `NULL`. -/
inductive MmNode
  | null
  | head (mm : Nat)
  | vm (vm : Nat)
  deriving DecidableEq

/-- `struct process_vm` without its list; no `mm` is `NULL`. -/
structure VmFields where
  start : Nat
  stop : Nat
  flags : Nat
  file : Option Nat
  mm : Option Nat
  deriving DecidableEq

/-- `struct process_mm` without its list. -/
structure MmFields where
  brkStart : Nat
  brk : Nat
  brkEnd : Nat
  cache : Nat
  deriving DecidableEq

/-- `struct process_fs`. -/
structure FsFields where
  root : Option Nat
  mount : Option Nat
  deriving DecidableEq

/-- The other fields of `struct process`. -/
structure ProcessFields where
  name : List (BitVec 8)
  mm : Nat
  fs : Nat
  deriving DecidableEq

/-- The other fields of `struct thread`. -/
structure ThreadFields where
  stackUser : Nat
  registers : ItrRegisters
  deriving DecidableEq

structure ProcessState where
  sched : Sched
  links : Links MmNode
  vms : Nat → VmFields
  vmCount : Nat
  mms : Nat → MmFields
  mmCount : Nat
  fss : Nat → FsFields
  fsCount : Nat
  processes : Nat → ProcessFields
  threads : Nat → ThreadFields

/-- `calloc` of an area and the rest of one turn of the loop of `sched_process_clone_mm`. -/
def cloneVm (mm iter : Nat) (state : ProcessState) : ProcessState :=
  let source := state.vms iter
  { state with
    vms := Function.update state.vms state.vmCount
      { start := source.start, stop := source.stop, flags := source.flags, file := source.file, mm := some mm }
    vmCount := state.vmCount + 1
    links := dlistAddTail (.vm state.vmCount) (.head mm)
      ((state.links.setNext (.vm state.vmCount) .null).setPrev (.vm state.vmCount) .null) }

/-- The loop over the list of the parent. A head of another list is no area. -/
def cloneMmLoop (parent mm : Nat) : Nat → MmNode → ProcessState → Option ProcessState
  | 0, _, _ => none
  | _ + 1, .null, _ => none
  | _ + 1, .head other, state => if other = parent then some state else none
  | turns + 1, .vm iter, state =>
    let state := cloneVm mm iter state
    cloneMmLoop parent mm turns (state.links.next (.vm iter)) state

/-- The copy of the `process_mm` has the links of the parent's head until it is initialised. -/
def cloneMmHead (parent : Nat) (state : ProcessState) : ProcessState :=
  let mm := state.mmCount
  { state with
    mms := Function.update state.mms mm (state.mms parent)
    mmCount := mm + 1
    links := dlistHeadInit (.head mm) ((state.links.setNext (.head mm) (state.links.next (.head parent))).setPrev (.head mm)
      (state.links.prev (.head parent))) }

/-- A list does not have more areas than there are. -/
def schedProcessCloneMm (parent : Nat) (state : ProcessState) : Option (Nat × ProcessState) :=
  let source := (state.processes parent).mm
  let cloned := cloneMmHead source state
  (cloneMmLoop source state.mmCount (state.vmCount + 1) (cloned.links.next (.head source)) cloned).map fun cloned =>
    (state.mmCount, cloned)

def schedProcessCloneFs (parent : Nat) (state : ProcessState) : Nat × ProcessState :=
  (state.fsCount, { state with
    fss := Function.update state.fss state.fsCount (state.fss (state.processes parent).fs)
    fsCount := state.fsCount + 1 })

/-- `sched_process_fork` with all that it copies. A parent without a thread is a wild pointer. -/
def processFork (parent stackKernel pageDir : Nat) (state : ProcessState) : Option (Nat × ProcessState) := do
  let (mm, state) ← schedProcessCloneMm parent state
  let (fs, state) := schedProcessCloneFs parent state
  let parentThread ← (state.sched.processes parent).thread
  let pid := state.sched.schedPid
  let tid := state.sched.schedTid
  let (child, sched) ← schedProcessFork parent stackKernel pageDir state.sched
  let saved := state.threads parentThread
  some (child, { state with
    sched
    processes := Function.update state.processes pid { name := (state.processes parent).name, mm, fs }
    threads := Function.update state.threads tid { saved with registers := { saved.registers with eax := 0 } } })

end YuzuOS.Kernel
