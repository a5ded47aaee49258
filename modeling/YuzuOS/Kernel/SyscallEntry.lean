import YuzuOS.Kernel.Fork
import YuzuOS.Kernel.Interrupts

/-! System calls from the gate of vector 127 on, and how a thread that a fork made gets to its program. -/

namespace YuzuOS.Kernel.Interrupts

/-- `syscall_handler` as the handler of its vector, for the calls that return. -/
def syscallCall (handler : Syscall → List (BitVec 32) → SyscallState σ → Option (BitVec 32 × SyscallState σ)) :
    ItrCall Unit (SyscallState σ) := fun _ registers state =>
  match (syscallHandler handler registers state).bind SyscallRun.returned with
  | some (_, registers, state) => (registers, state)
  | none => (registers, state)

/-- The registers that `syscall_handler` saved are those of `sched_thread`. -/
def saveRegisters (registers : ItrRegisters) (state : ProcessState) : ProcessState :=
  let thread := state.sched.schedThread
  { state with threads := Function.update state.threads thread { state.threads thread with registers := registers } }

/-- `sched_process_get` is `sched_process`; the allocations of the child come from outside. -/
def syscallFork (stackKernel pageDir : Nat) (state : SyscallState ProcessState) :
    Option (BitVec 32 × SyscallState ProcessState) :=
  let kernel := saveRegisters state.threadRegisters state.kernel
  (processFork kernel.sched.schedProcess stackKernel pageDir kernel).map fun (pid, kernel) =>
    (BitVec.ofNat 32 pid, { state with kernel := kernel })

open Processor in
/-- On the kernel stack of the thread, with its argument already read. -/
def schedReturnUsermode (registers : ItrRegisters) (cpu : Processor) : Option Processor :=
  let cpu := { cpu with
    eflags := cpu.eflags &&& ~~~0x200, ds := 0x23, es := 0x23, fs := 0x23, gs := 0x23 }
  let cpu := push registers.eip (push registers.cs (push registers.eflags (push registers.useresp
    (push registers.ss cpu))))
  iret { cpu with
    edi := registers.edi, esi := registers.esi, ebp := registers.ebp, ebx := registers.ebx, edx := registers.edx
    ecx := registers.ecx, eax := registers.eax }

/-- Where the first switch to a thread of a fork returns to. Its `sched_unlock` is that of the step that comes here. -/
def schedThreadUserEntry (thread : Nat) (state : ProcessState) (cpu : Processor) : Option (ProcessState × Processor) :=
  let state := { state with sched := { state.sched with tssStack := (state.sched.threads thread).stackKernel } }
  (schedReturnUsermode (state.threads thread).registers cpu).map fun cpu => (state, cpu)

/-- A call that works on the process that makes it and on files: it leaves the threads to the scheduler, and the saved
registers of the others. `brk` is one only while it stays below the kernel, which it does not check. -/
structure OwnCall where
  effect : ProcessState → ProcessState
  sched : ∀ state, ∃ processes files fileCount tssStack opened released freed, (effect state).sched =
    { state.sched with processes, files, fileCount, tssStack, opened, released, freed }
  threads : ∀ state thread, thread ≠ state.sched.schedThread → (effect state).threads thread = state.threads thread

/-- What comes from the programs and from the clock. -/
inductive ProcessAction
  | tick
  | fork (registers : ItrRegisters) (stackKernel pageDir : Nat)
  | exit (registers : ItrRegisters) (code : Int)
  | own (registers : ItrRegisters) (call : OwnCall)

def processStep (state : ProcessState) : ProcessAction → Option ProcessState
  | .tick => (schedHandler state.sched).map fun sched => { state with sched := sched }
  | .fork registers stackKernel pageDir =>
    (syscallFork stackKernel pageDir ⟨state, registers⟩).map fun answer => answer.2.kernel
  | .exit registers code =>
    let state := saveRegisters registers state
    (schedExit code state.sched).map fun sched => { state with sched := sched }
  | .own registers call => some (call.effect (saveRegisters registers state))

end YuzuOS.Kernel.Interrupts
