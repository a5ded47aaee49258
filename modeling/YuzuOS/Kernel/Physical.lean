import YuzuOS.Kernel.Bitmap

/-! The allocator of physical frames. A block is the address of a frame, and
`NULL` is zero. -/

namespace YuzuOS.Kernel

def physMmBlock : Nat := 4096

structure PhysMm where
  bitmap : Bitmap
  used : Nat
  max : Nat

def divCeil (x y : Nat) : Nat := x / y + if x % y > 0 then 1 else 0

/-- `phys_mm_bitmap_max` as `phys_mm_init` sets it. -/
def physMmBitmapMax (memLower memUpper : Nat) : Nat := divCeil ((memLower + memUpper * 1024) % 2 ^ 32) physMmBlock

/-- The loop of `phys_mm_block_n_alloc`. -/
def physMmSetBits (bit len : Nat) (mm : PhysMm) : PhysMm :=
  (List.range len).foldl (fun mm i =>
    { mm with bitmap := bitmapSet mm.bitmap ((bit + i) % 2 ^ 32), used := (mm.used + 1) % 2 ^ 32 }) mm

def physMmBlockNAlloc (len : Nat) (mm : PhysMm) : Nat × PhysMm :=
  if (mm.max + 2 ^ 32 - mm.used) % 2 ^ 32 < len then (0, mm)
  else
    let bit := bitmapGetNFirst mm.bitmap mm.max len
    if bit ≤ 0 then (0, mm) else (physMmBlock * bit % 2 ^ 32, physMmSetBits bit len mm)

def physMmBlockAlloc (mm : PhysMm) : Nat × PhysMm :=
  if mm.max ≤ mm.used then (0, mm)
  else
    let bit := bitmapGetFirst mm.bitmap mm.max
    if bit ≤ 0 then (0, mm)
    else (physMmBlock * bit % 2 ^ 32,
      { mm with bitmap := bitmapSet mm.bitmap bit, used := (mm.used + 1) % 2 ^ 32 })

def physMmBlockFree (block : Nat) (mm : PhysMm) : PhysMm :=
  if block = 0 then mm
  else { mm with
    bitmap := bitmapUnset mm.bitmap (block / physMmBlock)
    used := (mm.used + 2 ^ 32 - 1) % 2 ^ 32 }

/-- `struct multiboot_mmap_entry`, whose `size` only leads to the next entry. -/
structure MultibootMmapEntry where
  addr : BitVec 64
  len : BitVec 64
  type : BitVec 32
  deriving DecidableEq

def multibootMemoryAvailable : BitVec 32 := 1

/-- The loop of `phys_mm_region_set`. -/
def physMmUnsetBits (bit len : Nat) (mm : PhysMm) : PhysMm :=
  (List.range len).foldl (fun mm i => { mm with
    bitmap := bitmapUnset mm.bitmap ((bit + i) % 2 ^ 32), used := (mm.used + 2 ^ 32 - 1) % 2 ^ 32 }) mm

def physMmRegionSet (base len : Nat) (mm : PhysMm) : PhysMm :=
  let mm := physMmUnsetBits (base / physMmBlock) (divCeil len physMmBlock) mm
  { mm with bitmap := bitmapSet mm.bitmap 0 }

/-- The loop is that of `phys_mm_block_n_alloc`. -/
def physMmRegionUnset (base len : Nat) (mm : PhysMm) : PhysMm :=
  physMmSetBits (base / physMmBlock) (divCeil len physMmBlock) mm

/-- The bytes of the bitmap, of `PHYS_MM_BLOCK_P_BYTE` blocks each. -/
def physMmBitmapSize (max : Nat) : Nat := divCeil max 8

/-- The loop of `phys_mm_init` through the memory map. -/
def physMmRegions (mmap : List MultibootMmapEntry) (mm : PhysMm) : PhysMm := mmap.foldl (fun mm entry =>
  if entry.type = multibootMemoryAvailable then
    physMmRegionSet (entry.addr.toNat % 2 ^ 32) (entry.len.toNat % 2 ^ 32) mm
  else mm) mm

/-- `memory` is what stands behind the kernel image. -/
def physMmInit (memory : Bitmap) (kernelSize memLower memUpper : Nat) (mmap : List MultibootMmapEntry) : PhysMm :=
  let max := physMmBitmapMax memLower memUpper
  let bitmapSize := physMmBitmapSize max
  let mm := physMmRegions mmap ⟨bitmapZero memory bitmapSize, max, max⟩
  physMmRegionUnset 0x100000 ((kernelSize + bitmapSize) % 2 ^ 32) (physMmRegionUnset 0 0x100000 mm)

end YuzuOS.Kernel
