import YuzuOS.Kernel.Malloc
import YuzuOS.Kernel.UserProcess

/-! The heap of a user program. Its blocks are laid out as those of the kernel
heap, and `brk` gets the memory for them. Logging is left out. -/

namespace YuzuOS.Libc
open YuzuOS.Library YuzuOS.Kernel

/-- The result goes to the program, and `errno` is left out. -/
def brk (addr : Nat) (process : UserProcess) : Option (Int × UserProcess) :=
  (process.syscallBrk addr).map fun (result, process) => (if result < 0 then -1 else result, process)

def sbrk (increment : Nat) (process : UserProcess) : Option (Nat × UserProcess) :=
  (brk 0 process).bind fun (result, process) =>
    let currentBrk := toUInt result
    (brk ((currentBrk + increment) % 2 ^ 32) process).map fun (_, process) => (currentBrk, process)

structure Malloc where
  process : UserProcess
  blocks : Nat
  current : Nat
  remaining : Nat

/-- A program faults on pages that are not present and on those of the kernel. -/
def Accessible (process : UserProcess) (address len : Nat) : Prop :=
  process.Present address len ∧ address + len ≤ kernelVirtAddr

instance (process : UserProcess) (address len : Nat) : Decidable (Accessible process address len) := by
  unfold Accessible; infer_instance

/-- A change of memory in one stretch. -/
def access (address len : Nat) (change : Memory → Memory) (heap : Malloc) : Option Malloc :=
  if Accessible heap.process address len then some { heap with process.memory := change heap.process.memory } else none

/-- The part of `malloc_get` that moves `malloc_current` on. -/
def mallocGrow (targetSize : Nat) (heap : Malloc) : Option (Nat × Malloc) :=
  let started := if heap.current = 0 then
      (sbrk 0 heap.process).map fun (current, process) => { heap with process, current }
    else some heap
  started.bind fun heap =>
    let base := heap.current
    let served := if targetSize ≤ heap.remaining then some { heap with remaining := heap.remaining - targetSize }
      else (sbrk targetSize heap.process).bind fun (_, process) =>
        (sbrk 0 process).map fun (stop, process) =>
          { heap with process, remaining := (stop + 2 ^ 32 - (heap.current + targetSize) % 2 ^ 32) % 2 ^ 32 }
    served.map fun heap => (base, { heap with current := (heap.current + targetSize) % 2 ^ 32 })

def mallocGet (last size : Nat) (heap : Malloc) : Option (Nat × Malloc) :=
  (mallocGrow ((size + mallocHeader) % 2 ^ 32) heap).bind fun (block, heap) =>
    let linked := if last ≠ 0 then access last mallocHeader (fun memory => setBlockNext memory last block) heap else some heap
    linked.bind fun heap =>
      (access block mallocHeader (fun memory =>
        setBlockFree (setBlockNext (setBlockSize memory block size) block 0) block false) heap).map fun heap => (block, heap)

/-- The loop of `malloc`: the last block passed and the block found, or zero. -/
def mallocFind (process : UserProcess) (size : Nat) : Nat → Nat → Nat → Option (Nat × Nat)
  | 0, _, _ => none
  | turns + 1, last, current =>
    if current = 0 then some (last, current)
    else if ¬Accessible process current mallocHeader then none
    else if blockFree process.memory current ∧ size ≤ blockSize process.memory current then some (last, current)
    else mallocFind process size turns current (blockNext process.memory current)

/-- The header that stays behind in a block that is split. -/
def splitPlace (block size : Nat) (memory : Memory) : Nat :=
  if size + mallocHeader < blockSize memory block then block + mallocHeader + size else block

def mallocServe (size : Nat) (heap : Malloc) : Option (Nat × Malloc) :=
  if heap.blocks ≠ 0 then
    (mallocFind heap.process size mallocTurns heap.blocks heap.blocks).bind fun (last, block) =>
      if block ≠ 0 then
        (access (splitPlace block size heap.process.memory) mallocHeader (mallocReuse block size) heap).map fun heap =>
          (block, heap)
      else mallocGet last size heap
  else (mallocGet 0 size heap).map fun (block, heap) => (block, { heap with blocks := block })

def malloc (size : Nat) (heap : Malloc) : Option (Nat × Malloc) :=
  if size ≤ 0 then some (0, heap)
  else (mallocServe (alignUp size 4) heap).map fun (block, heap) =>
    (if block ≠ 0 then (block + mallocHeader) % 2 ^ 32 else 0, heap)

def calloc (nitems size : Nat) (heap : Malloc) : Option (Nat × Malloc) :=
  let targetSize := nitems * size % 2 ^ 32
  (malloc targetSize heap).bind fun (block, heap) =>
    if block = 0 then some (0, heap)
    else (access block targetSize (fun memory => memory.fill block targetSize 0) heap).map fun heap => (block, heap)

def free (ptr : Nat) (heap : Malloc) : Option Malloc :=
  let block := (ptr + 2 ^ 32 - mallocHeader) % 2 ^ 32
  access block mallocHeader (fun memory => setBlockFree memory block true) heap

end YuzuOS.Libc
