import YuzuOS.Kernel.Mmap
import YuzuOS.Kernel.Virtual

/-! `mmap_map` with the page tables that it writes. `none` is a page fault or a call
that does not return. -/

namespace YuzuOS.Kernel

/-- `PAGE_TBL_PRESENT | PAGE_TBL_WRITABLE | PAGE_TBL_USER`. -/
def pageTblFlags : BitVec 32 := 7

/-- The areas of a process, its directory, and the blocks that `phys_mm_block_alloc` gives,
of which the first `taken` have been given. -/
structure MappedSpace where
  mm : ProcessMm
  paging : Paging
  blocks : Nat → BitVec 32
  taken : Nat

namespace MappedSpace

/-- One turn of the loop over the pages of an area. A table is made of a second block. -/
def mapBlock (virtual : Nat) (space : MappedSpace) : Option MappedSpace :=
  let physical := space.blocks space.taken
  let tables := if pageIsEnabled (space.paging.entry (pageDirIndex virtual)) then 0 else 1
  (virtMmMapAddr (space.blocks (space.taken + 1)) physical virtual pageTblFlags space.paging).map fun paging =>
    { space with paging, taken := space.taken + 1 + tables }

def mapBlocks (stop : Nat) : Nat → Nat → MappedSpace → Option MappedSpace
  | 0, _, _ => none
  | turns + 1, virtual, space =>
    if virtual < stop then (space.mapBlock virtual).bind (mapBlocks stop turns ((virtual + physMmBlock) % 2 ^ 32))
    else some space

/-- `mmap_map` with no file. An address space does not have more pages. -/
def mmapMap (addr len : Nat) (space : MappedSpace) : Option (Nat × MappedSpace) :=
  (Kernel.mmapMap addr len space.mm).bind fun (result, vm, mm) =>
    (mapBlocks (mm.vms vm).stop (2 ^ 20 + 1) (mm.vms vm).start { space with mm }).map fun space => (result, space)

end MappedSpace

end YuzuOS.Kernel
