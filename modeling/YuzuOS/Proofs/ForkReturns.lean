import YuzuOS.Kernel.SyscallEntry
import YuzuOS.Proofs.Descriptors
import YuzuOS.Proofs.ForkCopies
import YuzuOS.Proofs.InterruptEntry
import YuzuOS.Proofs.SchedulerExit
import YuzuOS.Proofs.SyscallTable

/-! A fork returns twice: to the program that calls it, and, whenever the thread of the child is first switched to, to a
copy of that program. -/

namespace YuzuOS.Proofs.ForkReturns
open YuzuOS.Library YuzuOS.Kernel YuzuOS.Kernel.Interrupts YuzuOS.Proofs.SchedulerSteps YuzuOS.Proofs.SchedulerExit
  YuzuOS.Proofs.ForkCopies YuzuOS.Proofs.InterruptEntry YuzuOS.Proofs.SyscallTable

variable {state next final : ProcessState} {parent thread created child stackKernel pageDir : Nat}
  {areas nodes : List Nat} {registers saved : ItrRegisters}

section Frames

theorem cloneMmLoop_frame {source mm turns : Nat} {node : MmNode}
    (looped : cloneMmLoop source mm turns node state = some next) :
    next.sched = state.sched ∧ next.threads = state.threads := by
  induction turns generalizing node state with
  | zero => cases looped
  | succ turns ih =>
    cases node with
    | null => cases looped
    | head other =>
      rw [cloneMmLoop] at looped
      split at looped
      next =>
        cases looped
        exact ⟨rfl, rfl⟩
      next => cases looped
    | vm iter =>
      have later : cloneMmLoop source mm turns ((cloneVm mm iter state).links.next (.vm iter)) (cloneVm mm iter state) =
          some next := looped
      obtain ⟨sched, threads⟩ := ih later
      exact ⟨sched, threads⟩

/-- A fork makes one thread, with the registers of its parent's thread but for `eax`, and does with the scheduler what
its step does. -/
theorem processFork_frame (forked : processFork parent stackKernel pageDir state = some (child, next)) :
    ∃ thread, (state.sched.processes parent).thread = some thread ∧
      schedProcessFork parent stackKernel pageDir state.sched = some (child, next.sched) ∧
      next.threads = Function.update state.threads state.sched.schedTid
        { state.threads thread with registers := { (state.threads thread).registers with eax := 0 } } := by
  simp only [processFork, schedProcessCloneFs, Option.bind_eq_bind, Option.bind_eq_some_iff] at forked
  obtain ⟨⟨mm, cloned⟩, cloning, thread, owned, ⟨pid, sched⟩, spawning, same⟩ := forked
  obtain ⟨middle, looped, again⟩ := Option.map_eq_some_iff.mp cloning
  cases again
  cases same
  obtain ⟨scheduled, threads⟩ := cloneMmLoop_frame looped
  have before : (cloneMmHead (state.processes parent).mm state).sched = state.sched ∧
      (cloneMmHead (state.processes parent).mm state).threads = state.threads := ⟨rfl, rfl⟩
  rw [before.1] at scheduled
  rw [before.2] at threads
  dsimp only at owned spawning
  rw [scheduled] at owned spawning
  refine ⟨thread, owned, spawning, ?_⟩
  rw [← threads, ← scheduled]

/-- The thread that a fork makes, and its place in the scheduler. -/
theorem forked_created (forkable : Forkable state parent thread areas nodes) (stackKernel pageDir : Nat) :
    ∃ next, processFork parent stackKernel pageDir state = some (state.sched.schedPid, next) ∧
      (next.sched.processes state.sched.schedPid).thread = some state.sched.schedTid ∧
      next.sched.schedTid = state.sched.schedTid + 1 ∧ next.sched.schedThread = state.sched.schedThread ∧
      (next.threads state.sched.schedTid).registers = { (state.threads thread).registers with eax := 0 } := by
  obtain ⟨cloned, copies, cloning, clones, -, -⟩ := cloneMm_spec forkable
  obtain ⟨links, spawning⟩ := schedProcessFork_spawned forkable stackKernel pageDir
  have scheduled : cloned.sched = state.sched := by
    rw [clones.only]
    rfl
  have returned : ∃ next, processFork parent stackKernel pageDir state = some (state.sched.schedPid, next) := by
    simp only [processFork, cloning, schedProcessCloneFs, scheduled, forkable.owned, spawning, Option.bind_eq_bind,
      Option.bind_some]
    exact ⟨_, rfl⟩
  obtain ⟨next, forked⟩ := returned
  obtain ⟨own, owned, again, threads⟩ := processFork_frame forked
  rw [forkable.owned] at owned
  cases owned
  rw [spawning] at again
  have sched := (Prod.mk.inj (Option.some.inj again)).2
  refine ⟨next, forked, ?_, ?_, ?_, ?_⟩
  · simp [← sched, SchedulerQueue.spawned]
  · simp [← sched, SchedulerQueue.spawned]
  · simp [← sched, SchedulerQueue.spawned]
  · rw [threads, Function.update_self]

end Frames

section Calls

open Descriptors

variable {read : VfsFile → Memory → Nat → Nat → Nat → Option (Int × Memory × VfsFile)}

/-- Calls with descriptors leave the threads and their queue. -/
theorem descriptorStep_frame {before after : DescriptorState} {call : DescriptorCall}
    (stepped : descriptorStep read before call = some after) :
    ∃ processes files fileCount opened freed, after.sched =
      { before.sched with processes, files, fileCount, opened, freed } := by
  cases call with
  | openFile flags found =>
    cases stepped
    dsimp only [virtFsOpen]
    split
    next => exact ⟨_, _, _, _, _, rfl⟩
    next =>
      split
      next => exact ⟨_, _, _, _, _, rfl⟩
      next => exact ⟨_, _, _, _, _, rfl⟩
  | fstat fd =>
    cases stepped
    exact ⟨_, _, _, _, _, rfl⟩
  | fread fd buffer count =>
    obtain ⟨answer, -, rfl⟩ := Option.map_eq_some_iff.mp stepped
    dsimp only
    split
    next => exact ⟨_, _, _, _, _, rfl⟩
    next => exact ⟨_, _, _, _, _, rfl⟩

def fileCall (read : VfsFile → Memory → Nat → Nat → Nat → Option (Int × Memory × VfsFile))
    (memory : Memory) (call : DescriptorCall) : OwnCall where
  effect state := { state with
    sched := ((descriptorStep read ⟨state.sched, memory⟩ call).map DescriptorState.sched).getD state.sched }
  sched state := by
    cases stepped : descriptorStep read ⟨state.sched, memory⟩ call with
    | none => exact ⟨_, _, _, _, _, _, _, rfl⟩
    | some after =>
      obtain ⟨processes, files, fileCount, opened, freed, frame⟩ := descriptorStep_frame stepped
      exact ⟨processes, files, fileCount, _, opened, _, freed, frame⟩
  threads _ _ _ := rfl

end Calls

section Waiting

structure Waits (created : Nat) (registers : ItrRegisters) (state : ProcessState) : Prop where
  settled : ∃ nodes, Settled state.sched nodes
  known : created < state.sched.schedTid
  saved : (state.threads created).registers = registers

theorem Waits.scheduled (waits : Waits created registers state) {sched : Sched} (action : SchedAction)
    (stepped : schedStep state.sched action = some sched) :
    (∃ nodes, Settled sched nodes) ∧ created < sched.schedTid := by
  obtain ⟨nodes, settled⟩ := waits.settled
  obtain ⟨nodes', moves, kept⟩ := schedStep_settled settled stepped
  exact ⟨⟨nodes', kept⟩, waits.known.trans_le (schedTid_le moves)⟩

theorem Waits.saveRegisters (waits : Waits created registers state) (saved : ItrRegisters)
    (other : state.sched.schedThread ≠ created) :
    Waits created registers (saveRegisters saved state) := by
  refine ⟨waits.settled, waits.known, ?_⟩
  simp only [Interrupts.saveRegisters, Function.update_of_ne other.symm]
  exact waits.saved

theorem processStep_waits {action : ProcessAction} (waits : Waits created registers state)
    (other : state.sched.schedThread ≠ created) (stepped : processStep state action = some next) :
    Waits created registers next := by
  cases action with
  | tick =>
    obtain ⟨sched, ticked, rfl⟩ := Option.map_eq_some_iff.mp stepped
    obtain ⟨settled, known⟩ := waits.scheduled .tick ticked
    exact ⟨settled, known, waits.saved⟩
  | fork saved stackKernel pageDir =>
    have waits := waits.saveRegisters saved other
    simp only [processStep, syscallFork, Option.map_map] at stepped
    obtain ⟨⟨child, forked⟩, forks, rfl⟩ := Option.map_eq_some_iff.mp stepped
    obtain ⟨thread, -, spawning, threads⟩ := processFork_frame forks
    have step := congrArg (Option.map Prod.snd) spawning
    obtain ⟨settled, known⟩ := waits.scheduled (.fork _ stackKernel pageDir) step
    refine ⟨settled, known, ?_⟩
    simp only [Function.comp_apply, threads, Function.update_of_ne waits.known.ne]
    exact waits.saved
  | exit saved code =>
    have waits := waits.saveRegisters saved other
    obtain ⟨sched, exited, rfl⟩ := Option.map_eq_some_iff.mp stepped
    obtain ⟨settled, known⟩ := waits.scheduled (.exit code) exited
    exact ⟨settled, known, waits.saved⟩
  | own saved call =>
    have waits := waits.saveRegisters saved other
    cases stepped
    obtain ⟨processes, files, fileCount, tssStack, opened, released, freed, frame⟩ :=
      call.sched (Interrupts.saveRegisters saved state)
    have kept := call.threads (Interrupts.saveRegisters saved state) created other.symm
    obtain ⟨nodes, valid, unlocked, awake⟩ := waits.settled
    refine ⟨⟨nodes, ?_⟩, ?_, ?_⟩
    · rw [frame]
      exact ⟨⟨valid.queued, valid.passed, valid.created, valid.current, valid.sole⟩, unlocked, awake⟩
    · rw [frame]
      exact waits.known
    · rw [kept]
      exact waits.saved

end Waiting

section Returns

variable {layout : EntryLayout} {entry : EntryCode → BitVec 32}
  {machine : InterruptMachine Unit (SyscallState ProcessState)}
  {handler : Syscall → List (BitVec 32) → SyscallState ProcessState → Option (BitVec 32 × SyscallState ProcessState)}

def resumed (cpu : Processor) (eax : BitVec 32) (stack : List (BitVec 32)) : Processor :=
  { cpu with ds := 0x23, es := 0x23, fs := 0x23, gs := 0x23, eax := eax, stack := stack }

/-- The way back of a new thread is that of a program that was interrupted. -/
theorem schedReturnUsermode_seen (inner cpu : Processor) (number : Nat) (error eax : BitVec 32)
    (user : inner.ring ≠ 0) :
    schedReturnUsermode { seen layout inner number error with eax := eax } cpu =
      some (resumed inner eax cpu.stack) := by
  have low : ¬inner.cs.setWidth 2 = 0#2 := user
  simp [schedReturnUsermode, Processor.iret, Processor.push, Processor.ring, seen, resumed, low]

/-- A system call that returns, from its gate to the program again. -/
theorem program_syscall {syscall : Syscall} {result : BitVec 32} {after : SyscallState ProcessState}
    (placed : Placed layout entry) (gates : machine.idt = idtInit entry fun _ => ⟨0, 0, 0, 0, 0⟩)
    (set : machine.isr 127 = some ()) (user : machine.cpu.ring ≠ 0)
    (asked : machine.cpu.eax = BitVec.ofNat 32 syscall.number)
    (answer : handler syscall (seen layout machine.cpu 127 0).arguments
      { machine.kernel with threadRegisters := seen layout machine.cpu 127 0 } = some (result, after)) :
    interruptStep layout (syscallCall handler) machine (.program 127) =
      some { machine with cpu := { machine.cpu with eax := result }, kernel := after } := by
  obtain ⟨gate, given⟩ := throughGate_isr (syscallCall handler) none placed gates lastGate_syscall
  have matched : (EntryCode.isr 127).errorPushed = (none : Option (BitVec 32)).isSome := rfl
  have small : 127 < 256 := by decide
  have named : Names (seen layout machine.cpu 127 0) syscall := asked
  have called : syscallCall handler () (seen layout machine.cpu 127 0) machine.kernel =
      ({ seen layout machine.cpu 127 0 with eax := result }, after) := by
    rw [syscallCall, handler_named handler named]
    simp only [Option.bind_some, answer, Option.map_some]
  rw [interruptStep, interruptProgram_gate user gates, given, enter_registers matched,
    isrHandler, EntryCode.number, Option.getD_none, seen_number _ small, set]
  have left := enter_leave layout machine.cpu gate matched result
  simp only [Option.map_some, Option.bind_some, called]
  exact congrArg (Option.map _) left

/-- A program that calls `fork` goes on with the number of the child. The thread of the child, whatever the clock and
the other programs do until it is first switched to, begins where that program was, with 0. -/
theorem fork_returns_twice (placed : Placed layout entry)
    (gates : machine.idt = idtInit entry fun _ => ⟨0, 0, 0, 0, 0⟩) (set : machine.isr 127 = some ())
    (user : machine.cpu.ring ≠ 0) (asked : machine.cpu.eax = BitVec.ofNat 32 Syscall.fork.number)
    (forks : ∀ arguments state, handler .fork arguments state = syscallFork stackKernel pageDir state)
    (settled : Settled machine.kernel.kernel.sched nodes)
    (forkable : Forkable machine.kernel.kernel machine.kernel.kernel.sched.schedProcess
      machine.kernel.kernel.sched.schedThread areas nodes) :
    ∃ next created, interruptStep layout (syscallCall handler) machine (.program 127) = some next ∧
      next.cpu = { machine.cpu with eax := BitVec.ofNat 32 machine.kernel.kernel.sched.schedPid } ∧
      (next.kernel.kernel.sched.processes machine.kernel.kernel.sched.schedPid).thread = some created ∧
      next.kernel.kernel.sched.schedThread ≠ created ∧
      ∀ actions final cpu,
        Meets processStep (fun state _ => state.sched.schedThread ≠ created) next.kernel.kernel actions →
        run processStep next.kernel.kernel actions = some final →
        ∃ after, schedThreadUserEntry created final cpu = some (after, resumed machine.cpu 0 cpu.stack) := by
  have kept : Forkable (saveRegisters (seen layout machine.cpu 127 0) machine.kernel.kernel)
      machine.kernel.kernel.sched.schedProcess machine.kernel.kernel.sched.schedThread areas nodes := by
    obtain ⟨known, owned, older, numbered, queued, list, allocated, space, root⟩ := forkable
    exact ⟨known, owned, older, numbered, queued, list, allocated, space, root⟩
  obtain ⟨forked, ran, owned, later, current, saved⟩ := forked_created kept stackKernel pageDir
  have answer : handler .fork (seen layout machine.cpu 127 0).arguments
      { machine.kernel with threadRegisters := seen layout machine.cpu 127 0 } =
      some (BitVec.ofNat 32 machine.kernel.kernel.sched.schedPid, ⟨forked, seen layout machine.cpu 127 0⟩) := by
    rw [forks, syscallFork]
    exact congrArg (Option.map _) ran
  have stepped := program_syscall placed gates set user asked answer
  obtain ⟨own, -, spawning, -⟩ := processFork_frame ran
  have moved : schedStep machine.kernel.kernel.sched
      (.fork machine.kernel.kernel.sched.schedProcess stackKernel pageDir) = some forked.sched :=
    congrArg (Option.map Prod.snd) spawning
  obtain ⟨nodes', -, settled'⟩ := schedStep_settled settled moved
  have waits : Waits machine.kernel.kernel.sched.schedTid { seen layout machine.cpu 127 0 with eax := 0 } forked := by
    refine ⟨⟨nodes', settled'⟩, ?_, ?_⟩
    · rw [later]
      exact Nat.lt_succ_self _
    · refine saved.trans ?_
      simp [saveRegisters]
  have apart : forked.sched.schedThread ≠ machine.kernel.kernel.sched.schedTid := by
    rw [current]
    exact settled.valid.current.ne
  refine ⟨_, machine.kernel.kernel.sched.schedTid, stepped, rfl, owned, apart, ?_⟩
  intro actions final cpu met finished
  have ended := run_invariant (Waits _ _) (fun _ _ _ waits other stepped => processStep_waits waits other stepped)
    waits met finished
  rw [schedThreadUserEntry]
  dsimp only
  rw [ended.saved, schedReturnUsermode_seen _ _ _ _ _ user]
  exact ⟨_, rfl⟩

/-- A program of the first process that calls `fork`. -/
def someFork : InterruptMachine Unit (SyscallState ProcessState) where
  cpu := { someProgram with eax := 2 }
  pics := somePics
  idt := idtInit someEntry fun _ => ⟨0, 0, 0, 0, 0⟩
  isr := fun _ => some ()
  irq := fun _ => none
  kernel := ⟨parentState, statRegisters⟩

def someOpen : OwnCall := fileCall (fun _ _ _ _ _ => none) (fun _ => 0) (.openFile 0 (.ok none))

/-- Calls that answer 0, but for `fork`. -/
def someCalls : Syscall → List (BitVec 32) → SyscallState ProcessState → Option (BitVec 32 × SyscallState ProcessState)
  | .fork, _, state => syscallFork 0x5000 0x6000 state
  | _, _, state => some (0, state)

theorem someCalls_fork (arguments : List (BitVec 32)) (state : SyscallState ProcessState) :
    someCalls .fork arguments state = syscallFork 0x5000 0x6000 state := rfl

/-- Before the child runs, its parent opens a file. -/
theorem fork_returns_twice_example :
    ∃ next created after, interruptStep someLayout (syscallCall someCalls) someFork (.program 127) = some next ∧
      next.cpu = { someProgram with eax := 1 } ∧
      (processStep next.kernel.kernel (.own statRegisters someOpen)).bind (fun state =>
        schedThreadUserEntry created state someProgram) = some (after, { someProgram with eax := 0 }) := by
  obtain ⟨valid, unlocked, awake⟩ := schedStart_settled 0x1000 0x2000
  have settled : Settled parentState.sched [] :=
    ⟨⟨valid.queued, valid.passed, valid.created, valid.current, valid.sole⟩, unlocked, awake⟩
  have gates : someFork.idt = idtInit someEntry fun _ => ⟨0, 0, 0, 0, 0⟩ := rfl
  have user : someFork.cpu.ring ≠ 0 := by decide
  obtain ⟨next, created, stepped, cpu, -, apart, returns⟩ :=
    fork_returns_twice some_placed gates rfl user rfl someCalls_fork settled parentState_forkable
  obtain ⟨after, entered⟩ := returns [.own statRegisters someOpen]
    (someOpen.effect (saveRegisters statRegisters next.kernel.kernel)) someProgram ⟨apart, fun _ _ => trivial⟩ rfl
  exact ⟨next, created, after, stepped, cpu, entered⟩

end Returns

end YuzuOS.Proofs.ForkReturns
