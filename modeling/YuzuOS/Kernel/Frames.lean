import YuzuOS.Kernel.Malloc
import YuzuOS.Kernel.MmapPages
import YuzuOS.Kernel.VirtualFs

/-! The functions that map pages to frames of the physical allocator, with what it answers.
The directory of the process is the active one. `none` is a page fault or a call that does
not return. Every access walks the tables: no translation is kept from before a store. -/

namespace YuzuOS.Kernel

namespace Paging

/-- A byte of the frame behind an address. -/
def storeByte (virtual : Nat) (byte : BitVec 8) (paging : Paging) : Option Paging :=
  (paging.translate virtual).map fun frame =>
    let index := virtual / 4 % 1024
    let shift := 8 * (virtual % 4)
    paging.setWord frame index
      (paging.words frame index &&& ~~~((0xFF : BitVec 32) <<< shift) ||| byte.setWidth 32 <<< shift)

def memset (byte : BitVec 8) : Nat → Nat → Paging → Option Paging
  | 0, _, paging => some paging
  | count + 1, virtual, paging => (paging.storeByte virtual byte).bind (memset byte count ((virtual + 1) % 2 ^ 32))

end Paging

namespace MappedSpace

/-- `virt_mm_map_addr`, which makes a missing table of the next block. -/
def mapAddr (physical : BitVec 32) (virtual : Nat) (flags : BitVec 32) (space : MappedSpace) : Option MappedSpace :=
  let tables := if pageIsEnabled (space.paging.entry (pageDirIndex virtual)) then 0 else 1
  (virtMmMapAddr (space.blocks space.taken) physical virtual flags space.paging).map fun paging =>
    { space with paging, taken := space.taken + tables }

/-- The loop over the pages of a block that `phys_mm_block_n_alloc` gives, and where it ends. -/
def mapFrames (stop : Nat) (flags : BitVec 32) : Nat → BitVec 32 → Nat → MappedSpace → Option (Nat × MappedSpace)
  | 0, _, _, _ => none
  | turns + 1, physical, virtual, space =>
    if virtual < stop then
      (space.mapAddr physical virtual flags).bind
        (mapFrames stop flags turns (physical + 4096) ((virtual + physMmBlock) % 2 ^ 32))
    else some (virtual, space)

/-- The block that the allocator answers. -/
def takeBlock (space : MappedSpace) : BitVec 32 × MappedSpace :=
  (space.blocks space.taken, { space with taken := space.taken + 1 })

/-- `mmap_brk` with no file. -/
def mmapBrk (addr len : Nat) (space : MappedSpace) : Option (Int × MappedSpace) :=
  (Kernel.mmapBrk addr len space.mm).bind fun (result, served, mm) => match served with
    | none => some (result, { space with mm })
    | some vm =>
      if (space.mm.vms vm).stop < (mm.vms vm).stop then
        let (physical, space) := space.takeBlock
        (mapFrames (mm.vms vm).stop pageTblFlags (2 ^ 20 + 1) physical (space.mm.vms vm).stop { space with mm }).map
          fun (_, space) => (result, space)
      else some (result, { space with mm })

/-- `mm->brk_start` is an argument. -/
def syscallBrk (brkStart addr : Nat) (space : MappedSpace) : Option (Int × MappedSpace) :=
  if addr = 0 then some (toInt space.mm.brk, space)
  else if addr < brkStart then some (-eInval, space)
  else space.mmapBrk brkStart (addr - brkStart)

end MappedSpace

/-- `PAGE_TBL_PRESENT | PAGE_TBL_WRITABLE`. -/
def pageTblKernelFlags : BitVec 32 := 3

/-- With `malloc_current` and `malloc_remaining`. -/
structure FrameSpace extends MappedSpace where
  current : Nat
  remaining : Nat

namespace FrameSpace

/-- `malloc_sbrk` in front of `memset`. -/
def mallocGrow (increment : Nat) (space : FrameSpace) : Option FrameSpace :=
  let current := (space.current + increment) % 2 ^ 32
  if increment ≤ space.remaining then some { space with current, remaining := space.remaining - increment }
  else
    let (physical, mapped) := space.takeBlock
    (mapped.mapFrames current pageTblKernelFlags (2 ^ 20 + 1) physical (divCeil space.current physMmBlock * physMmBlock % 2 ^ 32)).map
      fun (virtual, mapped) => { toMappedSpace := mapped, current, remaining := (virtual + 2 ^ 32 - current) % 2 ^ 32 }

def mallocSbrk (increment : Nat) (space : FrameSpace) : Option (Nat × FrameSpace) :=
  if increment = 0 then some (space.current, space)
  else (space.mallocGrow increment).bind fun grown =>
    (grown.paging.memset 0 increment space.current).map fun paging => (space.current, { grown with paging })

end FrameSpace

inductive FrameCall
  | sbrk (increment : Nat)
  | mapAddr (physical : BitVec 32) (virtual : Nat) (flags : BitVec 32)
  | map (addr len : Nat)
  | brk (addr len : Nat)

/-- A call with what it returns, if it returns something. -/
def frameCall (space : FrameSpace) : FrameCall → Option (Option Int × FrameSpace)
  | .sbrk increment => (space.mallocSbrk increment).map fun (base, space) => (some (base : Int), space)
  | .mapAddr physical virtual flags =>
    (space.mapAddr physical virtual flags).map fun mapped => (none, { space with toMappedSpace := mapped })
  | .map addr len => (space.mmapMap addr len).map fun (result, mapped) => (some (result : Int), { space with toMappedSpace := mapped })
  | .brk addr len => (space.mmapBrk addr len).map fun (result, mapped) => (some result, { space with toMappedSpace := mapped })

def frameStep (space : FrameSpace) (call : FrameCall) : Option FrameSpace := (frameCall space call).map Prod.snd

end YuzuOS.Kernel
