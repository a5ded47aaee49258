import YuzuOS.Kernel.Virtual

/-! The first page directory. Until it is installed, the boot directory shows the first four megabytes of memory at the
kernel's address, in one large page; an access behind them is a page fault, `none`. -/

namespace YuzuOS.Kernel

def physMmAddrSet (addr : Nat) (mm : PhysMm) : PhysMm :=
  let frame := addr / physMmBlock
  if bitmapTest mm.bitmap frame then mm
  else { mm with bitmap := bitmapSet mm.bitmap frame, used := (mm.used + 1) % 2 ^ 32 }

/-- The allocator, and the words of the physical frames. -/
structure BootMemory where
  mm : PhysMm
  words : Nat → Nat → BitVec 32

namespace BootMemory

/-- The frame behind `PHYS_TO_VIRT` of an address. -/
def frame (physical : Nat) : Option Nat := if physical < 2 ^ 22 then some (physical / physMmBlock) else none

def setWord (frame index : Nat) (word : BitVec 32) (memory : BootMemory) : BootMemory :=
  { memory with words := Function.update memory.words frame (Function.update (memory.words frame) index word) }

def clearFrame (frame : Nat) (memory : BootMemory) : BootMemory :=
  { memory with words := Function.update memory.words frame fun _ => 0 }

/-- `PAGE_TBL_PRESENT | PAGE_TBL_WRITABLE`, and the same for a directory. -/
def pageKernelFlags : BitVec 32 := 3

def virtMmMapLoop (tbl : Nat) : Nat → Nat → Nat → BootMemory → BootMemory
  | 0, _, _, memory => memory
  | turns + 1, iPhys, iVirt, memory =>
    let word := virtMmFrameSet (virtMmFlagSet (memory.words tbl (pageTblIndex iVirt)) pageKernelFlags)
      (BitVec.ofNat 32 iPhys)
    let memory := memory.setWord tbl (pageTblIndex iVirt) word
    virtMmMapLoop tbl turns ((iPhys + physMmBlock) % 2 ^ 32) ((iVirt + physMmBlock) % 2 ^ 32)
      { memory with mm := physMmAddrSet iPhys memory.mm }

/-- `dir` is the frame of the directory. -/
def virtMmMap (dir physical virtual : Nat) (memory : BootMemory) : Option BootMemory :=
  let (physTbl, mm) := physMmBlockAlloc memory.mm
  (frame physTbl).map fun tbl =>
    let memory := virtMmMapLoop tbl 1024 physical virtual ({ memory with mm := mm }.clearFrame tbl)
    let entry := memory.words dir (pageDirIndex virtual)
    memory.setWord dir (pageDirIndex virtual)
      (virtMmFrameSet (virtMmFlagSet entry pageKernelFlags) (BitVec.ofNat 32 physTbl))

/-- The paging that `page_enable` turns on. -/
def virtMmInit (memory : BootMemory) : Option (PhysMm × Paging) :=
  let (physDir, mm) := physMmBlockAlloc memory.mm
  (frame physDir).bind fun dir =>
    (virtMmMap dir 0 0xC0000000 ({ memory with mm := mm }.clearFrame dir)).map fun memory =>
      let memory := memory.setWord dir 1023 (BitVec.ofNat 32 physDir &&& 0xFFFFF000 ||| pageKernelFlags)
      (memory.mm, ⟨memory.words, dir⟩)

end BootMemory

end YuzuOS.Kernel
