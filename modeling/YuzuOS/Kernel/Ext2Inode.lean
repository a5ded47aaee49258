import YuzuOS.Kernel.Ext2

/-! Group descriptors and inodes of an ext2 file system. -/

namespace YuzuOS.Kernel
open YuzuOS.Library

/-- The fields of `struct ext2_sb` that inodes are found with. -/
structure Ext2Sb where
  sInodesCount : Nat
  sBlocksCount : Nat
  sFirstDataBlock : Nat
  sLogBlockSize : Nat
  sInodesPerGroup : Nat
  sInodeSize : Nat

def ext2StartingIno : Nat := 1

/-- `sizeof(struct ext2_group_desc)` -/
def ext2GroupDescSize : Nat := 32

/-- `sizeof(struct ext2_inode)` -/
def ext2InodeStructSize : Nat := 128

namespace Ext2Sb

def blockSize (sb : Ext2Sb) : Nat := ext2BlockSize sb.sLogBlockSize

def groupsPBlock (sb : Ext2Sb) : Nat := sb.blockSize / ext2GroupDescSize

def inodesPBlock (sb : Ext2Sb) : Nat := sb.blockSize / sb.sInodeSize

def getGroupFromInode (sb : Ext2Sb) (ino : Nat) : Nat := (ino - ext2StartingIno) / sb.sInodesPerGroup

def getRelativeInodeInGroup (sb : Ext2Sb) (ino : Nat) : Nat := (ino - ext2StartingIno) % sb.sInodesPerGroup

/-- The super block as `ext2_fs_mount` sets it up. -/
def mounted (sb : Ext2Sb) (device : Memory) : VfsSb := ⟨device, sb.blockSize⟩

end Ext2Sb

def ext2FsGroupDescGet (sb : VfsSb) (ext2Sb : Ext2Sb) (group : Nat) : Memory :=
  let block := (ext2Sb.sFirstDataBlock + 1 + group / ext2Sb.groupsPBlock) % 2 ^ 32
  let buffer := ext2FsBreadBlock sb block
  let offset := group % ext2Sb.groupsPBlock * ext2GroupDescSize
  fun i => buffer (offset + i)

def bgInodeTable (description : Memory) : Nat := description.load32 8

/-- A pointer into the buffer of a block. -/
structure BlockPointer where
  block : Nat
  offset : Nat

/-- What the pointer points to. -/
def BlockPointer.bytes (pointer : BlockPointer) (sb : VfsSb) : Memory :=
  fun i => ext2FsBreadBlock sb pointer.block (pointer.offset + i)

def ext2FsInodeGet (sb : VfsSb) (ext2Sb : Ext2Sb) (ino : Nat) : BlockPointer :=
  let group := ext2Sb.getGroupFromInode ino % 2 ^ 32
  let gdp := ext2FsGroupDescGet sb ext2Sb group
  let block := (bgInodeTable gdp + ext2Sb.getRelativeInodeInGroup ino / ext2Sb.inodesPBlock) % 2 ^ 32
  let offset := ext2Sb.getRelativeInodeInGroup ino % ext2Sb.inodesPBlock * ext2InodeStructSize % 2 ^ 32
  ⟨block, offset⟩

end YuzuOS.Kernel
