import YuzuOS.Library.Memory

/-! Kernel threads under `sched_switch`: one processor and one memory, in which every thread has its stack. A thread is
addressed by its `struct thread`, and a stack pointer is a number, since no stack wraps. -/

namespace YuzuOS.Kernel.Switch
open YuzuOS.Library

def schedStackSize : Nat := 0x2000
def schedPageFault : Nat := 0xFFFFFFFF

/-- `struct trap_frame`, 13 words. -/
def trapFrameSize : Nat := 52
def frameEip : Nat := 32
def frameReturnAddr : Nat := 36
def frameParam1 : Nat := 40
def frameParam2 : Nat := 44

/-- The fields of `struct thread` that the switch works with. -/
def threadEsp (thread : Nat) : Nat := thread + 8
def threadStackKernel (thread : Nat) : Nat := thread + 12

structure Registers where
  edi : BitVec 32
  esi : BitVec 32
  ebp : BitVec 32
  ebx : BitVec 32
  edx : BitVec 32
  ecx : BitVec 32
  eax : BitVec 32
  eip : BitVec 32
  esp : Nat
  deriving DecidableEq

/-- What the code of a thread works on. -/
structure Context where
  registers : Registers
  memory : Memory

namespace Context

def push (word : Nat) (context : Context) : Context :=
  let esp := context.registers.esp - 4
  ⟨{ context.registers with esp := esp }, context.memory.store32 esp word⟩

def pusha (context : Context) : Context :=
  let registers := context.registers
  let context := push registers.ebx.toNat (push registers.edx.toNat (push registers.ecx.toNat
    (push registers.eax.toNat context)))
  push registers.edi.toNat (push registers.esi.toNat (push registers.ebp.toNat (push registers.esp context)))

def word (context : Context) (address : Nat) : BitVec 32 := BitVec.ofNat 32 (context.memory.load32 address)

def popa (context : Context) : Context :=
  let esp := context.registers.esp
  { context with registers := { context.registers with
      edi := context.word esp, esi := context.word (esp + 4), ebp := context.word (esp + 8)
      ebx := context.word (esp + 16), edx := context.word (esp + 20), ecx := context.word (esp + 24)
      eax := context.word (esp + 28), esp := esp + 32 } }

def ret (context : Context) : Context :=
  let esp := context.registers.esp
  { context with registers := { context.registers with eip := context.word esp, esp := esp + 4 } }

end Context

/-- The stack and the frame of `sched_thread_create`, and the two fields; `calloc` gave `thread` and `stack`. -/
def schedThreadCreate (thread stack : Nat) (memory : Memory) : Memory :=
  let memory := memory.fill stack schedStackSize 0
  let memory := memory.store32 (threadStackKernel thread) (stack + schedStackSize)
  let memory := memory.store32 (threadEsp thread) (memory.load32 (threadStackKernel thread) - trapFrameSize)
  let frame := memory.load32 (threadEsp thread)
  (memory.fill frame trapFrameSize 0).store32 (frame + frameReturnAddr) schedPageFault

/-- What `sched_load` writes into the frame; `entry` is the address of `sched_thread_entry`. -/
def schedLoadFrame (thread path : Nat) (entry : BitVec 32) (memory : Memory) : Memory :=
  let frame := memory.load32 (threadEsp thread)
  ((memory.store32 (frame + frameParam2) thread).store32 (frame + frameParam1) path).store32 (frame + frameEip)
    entry.toNat

/-- What `sched_process_fork` writes into the frame; `entry` is the address of `sched_thread_user_entry`. -/
def schedForkFrame (thread : Nat) (entry : BitVec 32) (memory : Memory) : Memory :=
  let frame := memory.load32 (threadEsp thread)
  (memory.store32 (frame + frameParam1) thread).store32 (frame + frameEip) entry.toNat

/-- A thread and the stretch that it has its stack in. -/
structure KernelThread where
  place : Nat
  stack : Nat
  size : Nat
  deriving DecidableEq

def KernelThread.top (thread : KernelThread) : Nat := thread.stack + thread.size

structure SwitchMachine where
  context : Context
  interrupts : Bool
  cr3 : Nat
  schedThread : Nat
  threads : List KernelThread

namespace SwitchMachine

/-- From the call on, with the three arguments above the return address. -/
def schedSwitch (machine : SwitchMachine) : SwitchMachine :=
  let context := machine.context.pusha
  let memory := context.memory.store32 (context.memory.load32 (context.registers.esp + 9 * 4)) context.registers.esp
  let espNew := memory.load32 (context.registers.esp + 10 * 4)
  let physical := memory.load32 (context.registers.esp + 11 * 4)
  let context : Context := ⟨{ context.registers with esp := espNew }, memory⟩
  { machine with context := context.popa.ret, cr3 := physical, interrupts := true }

open Context in
/-- `returnAddress` is where the call of `sched_switch` comes back to. -/
def schedThreadSwitch (thread physical : Nat) (returnAddress : BitVec 32) (machine : SwitchMachine) : SwitchMachine :=
  if machine.schedThread = thread then machine
  else
    let esp := machine.context.memory.load32 (threadEsp thread)
    let context := push returnAddress.toNat (push (threadEsp machine.schedThread) (push esp
      (push physical machine.context)))
    schedSwitch { machine with context := context, schedThread := thread }

/-- A thread is made, with its frame. -/
def create (thread stack : Nat) (frame : Memory → Memory) (machine : SwitchMachine) : SwitchMachine :=
  { machine with
    context := { machine.context with memory := frame (schedThreadCreate thread stack machine.context.memory) }
    threads := ⟨thread, stack, schedStackSize⟩ :: machine.threads }

end SwitchMachine

inductive SwitchAction
  | load (thread stack path : Nat) (entry : BitVec 32)
  | fork (thread stack : Nat) (entry : BitVec 32)
  | switch (thread physical : Nat) (returnAddress : BitVec 32)
  /-- An instruction of the current thread, with whatever it leaves in the registers and one store. -/
  | compute (registers : Registers) (interrupts : Bool) (address : Nat) (bytes : List (BitVec 8))

open SwitchMachine in
/-- A thread that was not made is a wild pointer. -/
def switchStep (machine : SwitchMachine) : SwitchAction → Option SwitchMachine
  | .load thread stack path entry => some (create thread stack (schedLoadFrame thread path entry) machine)
  | .fork thread stack entry => some (create thread stack (schedForkFrame thread entry) machine)
  | .switch thread physical returnAddress =>
    if machine.threads.any fun known => known.place == thread then
      some (schedThreadSwitch thread physical returnAddress machine)
    else none
  | .compute registers interrupts address bytes => some { machine with
      context := ⟨registers, machine.context.memory.write address bytes.length fun i => bytes.getD i 0⟩
      interrupts := interrupts }

end YuzuOS.Kernel.Switch
