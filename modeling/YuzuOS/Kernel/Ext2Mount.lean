import YuzuOS.Kernel.Ext2Inode
import YuzuOS.Kernel.Ext2Operations

/-! Mounting a device with an ext2 file system, and reading files as a whole. An inode is its number. -/

namespace YuzuOS.Kernel
open YuzuOS.Library

def ext2SuperMagic : Nat := 0xEF53
def ext2RootIno : Nat := 2
def oRdwr : Nat := 2

/-- The fields of `struct ext2_sb` that are used. -/
def ext2SbAt (buffer : Memory) : Ext2Sb where
  sInodesCount := buffer.load32 0
  sBlocksCount := buffer.load32 4
  sFirstDataBlock := buffer.load32 20
  sLogBlockSize := buffer.load32 24
  sInodesPerGroup := buffer.load32 40
  sInodeSize := buffer.load16 88

/-- The superblock that `ext2_fs_mount` keeps. Another magic number is a panic. -/
def ext2FsMount (device : Memory) : Option Ext2Sb :=
  let buffer := ext2FsBreadBlock ⟨device, ext2MinBlockSize⟩ 1
  if buffer.load16 56 = ext2SuperMagic then some (ext2SbAt buffer) else none

/-- The fields of `struct ext2_inode` that files and directories are read with. -/
def ext2InodeAt (bytes : Memory) : Ext2Inode where
  iSize := bytes.load32 4
  iBlocks := bytes.load32 28
  iBlock := fun i => bytes.load32 (40 + 4 * i)
  sizeFits := Memory.load32_lt

/-- `i_mode` -/
def iModeAt (bytes : Memory) : Nat := bytes.load16 0

def inodeBytes (device : Memory) (sb : Ext2Sb) (ino : Nat) : Memory :=
  (ext2FsInodeGet (sb.mounted device) sb ino).bytes (sb.mounted device)

/-- The file system behind the inodes. A lookup that does not end is taken for one that finds nothing. -/
def ext2FsTree (device : Memory) (sb : Ext2Sb) (small : sb.sLogBlockSize ≤ 6) : Ext2Tree Nat where
  device := device
  logBlockSize := sb.sLogBlockSize
  small := small
  iMode := fun ino => iModeAt (inodeBytes device sb ino)
  info := fun ino => ext2InodeAt (inodeBytes device sb ino)
  lookup := fun ino name =>
    (ext2FsLookup (sb.mounted device) (ext2InodeAt (inodeBytes device sb ino)) name).bind Prod.fst

variable {ι : Type}

/-- `st_size` as `virt_fs_getattr` fills it in. -/
def fileSize (tree : Ext2Tree ι) (fd : Int) (state : FileState ι) : Nat :=
  match (fileAt fd state).bind state.inode with
  | none => 0
  | some inode => (tree.info inode).iSize

/-- `virt_fs_read` with the buffer that `calloc` gives; `none` as the result stands for `NULL`, which `calloc` gives for
no bytes. -/
def virtFsRead (tree : Ext2Tree ι) (turns : Nat) (fs : ProcessFs) (path : CString) (buffer : Nat)
    (state : FileState ι) : Option (Option Nat × FileState ι) :=
  (virtFsOpenPath tree fs ⟨path, oRdwr, 0⟩ state).bind fun (fd, state) =>
    if fd < 0 then some (none, state)
    else (fileStat tree fd state).bind fun result =>
      if result < 0 then some (none, state)
      else
        let size := fileSize tree fd state
        if size = 0 then some (none, state)
        else
          let state := { state with memory := state.memory.fill buffer size 0 }
          (fileRead tree turns fd buffer size state).map fun (result, state) =>
            (if result < 0 then none else some buffer, state)

end YuzuOS.Kernel
