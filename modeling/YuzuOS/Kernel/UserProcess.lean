import YuzuOS.Library.Memory
import YuzuOS.Kernel.Mmap
import YuzuOS.Kernel.VirtualFs

/-! The address space of a process. Frames are fresh when they are mapped, and a
page then holds what the next frame holds; `none` is a page fault, which panics,
or a call that does not return. -/

namespace YuzuOS.Kernel
open YuzuOS.Library

def kernelVirtAddr : Nat := 0xC0000000

/-- The pages of the page directory that are present and the bytes behind them;
`taken` frames have been allocated so far. -/
structure UserProcess where
  mm : ProcessMm
  brkStart : Nat
  memory : Memory
  mapped : Nat → Bool
  frames : Nat → Nat → BitVec 8
  taken : Nat

namespace UserProcess

/-- `phys_mm_block_alloc` and `virt_mm_map_addr`, for the addresses of a program. Frames do not run out, and the next one
is no other page's. -/
def mapAddr (virtual : Nat) (process : UserProcess) : UserProcess :=
  { process with
    memory := process.memory.write (virtual / physMmBlock * physMmBlock) physMmBlock (process.frames process.taken)
    mapped := Function.update process.mapped (virtual / physMmBlock) true
    taken := process.taken + 1 }

/-- The loop over the pages of an area. -/
def mapPages : Nat → Nat → Nat → UserProcess → Option UserProcess
  | 0, _, _, _ => none
  | turns + 1, stop, virtual, process =>
    if virtual < stop then mapPages turns stop ((virtual + physMmBlock) % 2 ^ 32) (process.mapAddr virtual)
    else some process

/-- An address space does not have more pages. -/
def pageTurns : Nat := 2 ^ 20 + 1

/-- All the bytes of a range lie in pages that are present. -/
def Present (process : UserProcess) (address len : Nat) : Prop :=
  address + len ≤ 2 ^ 32 ∧ ∀ i < len, process.mapped ((address + i) / physMmBlock) = true

instance (process : UserProcess) (address len : Nat) : Decidable (process.Present address len) := by
  unfold Present; infer_instance

/-- `mmap_map` with no file, and the pages that it maps. -/
def mmapMap (addr len : Nat) (process : UserProcess) : Option (Nat × UserProcess) :=
  (Kernel.mmapMap addr len process.mm).bind fun (result, vm, mm) =>
    (mapPages pageTurns (mm.vms vm).stop (mm.vms vm).start { process with mm }).map fun process => (result, process)

/-- `mmap_brk`, and the pages that it maps behind the old end of the area. -/
def mmapBrk (addr len : Nat) (process : UserProcess) : Option (Int × UserProcess) :=
  (Kernel.mmapBrk addr len process.mm).bind fun (result, found, mm) =>
    match found with
    | none => some (result, { process with mm })
    | some vm =>
      (mapPages pageTurns (mm.vms vm).stop (process.mm.vms vm).stop { process with mm }).map fun process =>
        (result, process)

def syscallBrk (addr : Nat) (process : UserProcess) : Option (Int × UserProcess) :=
  if addr = 0 then some (toInt process.mm.brk, process)
  else if addr < process.brkStart then some (-eInval, process)
  else mmapBrk process.brkStart (addr - process.brkStart) process

/-- How the kernel makes room for arguments before a program starts. -/
def schedProcessSbrk (increment : Nat) (process : UserProcess) : Option (Nat × UserProcess) :=
  (syscallBrk ((process.mm.brk + increment) % 2 ^ 32) process).map fun (_, next) => (process.mm.brk, next)

end UserProcess

end YuzuOS.Kernel
