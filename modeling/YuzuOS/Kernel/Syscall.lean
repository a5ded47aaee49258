import Mathlib.Logic.Function.Basic

/-! System calls. A handler is what the kernel does for a call: it gives a result
and the next state, or does not return. -/

namespace YuzuOS.Kernel

inductive Syscall
  | exit
  | fork
  | read
  | openFile
  | execve
  | brk
  | fstat
  | log
  deriving DecidableEq, Repr

/-- The numbers of `ukernel/syscall.h`; 106, the number of `stat`, has no handler. -/
def Syscall.number : Syscall → Nat
  | exit => 1
  | fork => 2
  | read => 3
  | openFile => 5
  | execve => 11
  | brk => 45
  | fstat => 108
  | log => 447

/-- The table ends with its last entry. -/
def syscallsLength : Nat := 448

/-- The entries of the table; the others are `NULL`. -/
def syscalls : Nat → Option Syscall
  | 1 => some .exit
  | 2 => some .fork
  | 3 => some .read
  | 5 => some .openFile
  | 11 => some .execve
  | 45 => some .brk
  | 108 => some .fstat
  | 447 => some .log
  | _ => none

structure ItrRegisters where
  gs : BitVec 32
  fs : BitVec 32
  es : BitVec 32
  ds : BitVec 32
  edi : BitVec 32
  esi : BitVec 32
  ebp : BitVec 32
  esp : BitVec 32
  ebx : BitVec 32
  edx : BitVec 32
  ecx : BitVec 32
  eax : BitVec 32
  intNo : BitVec 32
  errCode : BitVec 32
  eip : BitVec 32
  cs : BitVec 32
  eflags : BitVec 32
  useresp : BitVec 32
  ss : BitVec 32
  deriving DecidableEq

def ItrRegisters.arguments (registers : ItrRegisters) : List (BitVec 32) :=
  [registers.ebx, registers.ecx, registers.edx, registers.esi, registers.edi]

def itrStop : Nat := 0
def itrContinue : Nat := 1

/-- The state of the kernel, with the registers that `sched_thread_get` points to. -/
structure SyscallState (σ : Type u) where
  kernel : σ
  threadRegisters : ItrRegisters

/-- The handlers that were called, and what comes back from `syscall_handler`, if it
returns. -/
structure SyscallRun (σ : Type u) where
  called : List (Syscall × List (BitVec 32))
  returned : Option (Nat × ItrRegisters × SyscallState σ)

/-- A read outside the table is undefined. -/
def syscallHandler (handler : Syscall → List (BitVec 32) → SyscallState σ → Option (BitVec 32 × SyscallState σ))
    (registers : ItrRegisters) (state : SyscallState σ) : Option (SyscallRun σ) :=
  let index := registers.eax.toInt
  if 0 ≤ index ∧ index < syscallsLength then
    match syscalls index.toNat with
    | none => some ⟨[], some (itrStop, registers, state)⟩
    | some syscall =>
      some ⟨[(syscall, registers.arguments)],
        (handler syscall registers.arguments { state with threadRegisters := registers }).map fun (result, state) =>
          (itrContinue, { registers with eax := result }, state)⟩
  else none

/-- `SYSCALL_RETURN` of the C library: the result of a wrapper and `errno`. -/
def syscallReturn (result errno : Int) : Int × Int := if result < 0 then (-1, -result) else (result, errno)

theorem syscalls_number (syscall : Syscall) : syscalls syscall.number = some syscall := by
  cases syscall <;> rfl

/-- The entries are those of the numbers. -/
theorem syscalls_some {index : Nat} {syscall : Syscall} : syscalls index = some syscall ↔ index = syscall.number := by
  constructor
  · intro entry
    unfold syscalls at entry
    split at entry <;> cases entry <;> rfl
  · rintro rfl
    exact syscalls_number syscall

theorem number_inside (syscall : Syscall) : syscall.number < syscallsLength := by
  cases syscall <;> decide

end YuzuOS.Kernel
