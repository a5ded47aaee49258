import YuzuOS.Kernel.Ext2
import YuzuOS.Kernel.PathFind

/-! The operations that the inodes of an ext2 file system provide, and calls on a path
and on its descriptor that go through them. A call through `NULL` is undefined. -/

namespace YuzuOS.Kernel
open YuzuOS.Library

/-- An ext2 file system: its blocks, what its inodes hold, and what `ext2_fs_lookup` finds in each directory. -/
structure Ext2Tree (ι : Type) where
  device : Memory
  logBlockSize : Nat
  small : logBlockSize ≤ 6
  iMode : ι → Nat
  info : ι → Ext2Inode
  lookup : ι → List (BitVec 8) → Option ι

def Ext2Tree.sb {ι : Type} (tree : Ext2Tree ι) : VfsSb := ⟨tree.device, ext2BlockSize tree.logBlockSize⟩

inductive InodeKind
  | regular
  | directory
  | special
  deriving DecidableEq

def sIfmt : Nat := 0o170000
def sIfreg : Nat := 0o100000
def sIfdir : Nat := 0o040000

def inodeKind (mode : Nat) : InodeKind :=
  if mode &&& sIfmt = sIfreg then .regular else if mode &&& sIfmt = sIfdir then .directory else .special

/-- A table of file operations; `read` has the bound of its loop as its first argument. -/
structure VfsFileTable extends VfsFileOp where
  read : Option (Nat → VfsFile → Memory → Nat → Nat → Nat → Option (Int × Memory × VfsFile))

/-- The tables of an inode. `op` with `getattr` is set for every kind, `fop` may be `NULL`. -/
structure InodeTables (ι : Type) where
  op : VfsInodeOp ι
  getattr : Option Int
  fop : Option VfsFileTable

variable {ι : Type}

/-- The tables that `ext2_fs_inode_read` chooses. -/
def ext2FsInodeRead (tree : Ext2Tree ι) (inode : ι) : InodeTables ι :=
  match inodeKind (tree.iMode inode) with
  | .regular =>
    { op := ⟨none, none⟩
      getattr := none
      fop := some ⟨⟨none, false⟩, some fun turns => ext2FsRead turns tree.sb (tree.info inode)⟩ }
  | .directory =>
    { op := ⟨some (tree.lookup inode), none⟩
      getattr := none
      fop := some ⟨⟨none, false⟩, none⟩ }
  | .special => { op := ⟨none, none⟩, getattr := none, fop := none }

def ext2Ops (tree : Ext2Tree ι) (inode : ι) : VfsInodeOp ι := (ext2FsInodeRead tree inode).op

/-- The system with the dentry of each open file. -/
structure FileState (ι : Type) where
  cache : Dcache ι
  sched : Sched
  memory : Memory
  dentry : Nat → Nat

structure OpenCall where
  path : CString
  flags : Nat
  mode : Nat

/-- `virt_fs_open` on an ext2 file system. -/
def virtFsOpenPath (tree : Ext2Tree ι) (fs : ProcessFs) (call : OpenCall) (state : FileState ι) :
    Option (Int × FileState ι) :=
  (virtFsPathFind (ext2Ops tree) fs call.path call.flags call.mode state.cache).bind fun (result, nameidata, cache) =>
    if result < 0 then some (result, { state with cache })
    else (cache.dentries nameidata.dentry).inode.map fun inode =>
      let (fd, sched) := virtFsOpen call.flags (.ok ((ext2FsInodeRead tree inode).fop.map VfsFileTable.toVfsFileOp)) state.sched
      (fd, { state with
        cache
        sched
        dentry := Function.update state.dentry state.sched.fileCount nameidata.dentry })

/-- The number of the file that a descriptor stands for. -/
def fileAt (fd : Int) (state : FileState ι) : Option Nat :=
  if fd < 0 then none else (state.sched.processes state.sched.schedProcess).files.fd fd

def FileState.inode (state : FileState ι) (file : Nat) : Option ι := (state.cache.dentries (state.dentry file)).inode

inductive FileCall
  | fstat
  | fread (buffer : Nat) (count : BitVec 32)

/-- `virt_fs_fstat`: without `getattr` it fills in the attributes itself. -/
def fileStat (tree : Ext2Tree ι) (fd : Int) (state : FileState ι) : Option Int :=
  match fileAt fd state with
  | none => some (-eBadf)
  | some file => (state.inode file).map fun inode => (ext2FsInodeRead tree inode).getattr.getD 0

/-- The operation `read` of a file, which the table or the file may not have. -/
def fileOpRead (tree : Ext2Tree ι) (turns : Nat) (inode : Option ι) :
    VfsFile → Memory → Nat → Nat → Nat → Option (Int × Memory × VfsFile) :=
  match inode.bind fun inode => (ext2FsInodeRead tree inode).fop.bind (·.read) with
  | none => fun _ _ _ _ _ => none
  | some read => read turns

/-- `virt_fs_fread` with the operation of the file. -/
def fileRead (tree : Ext2Tree ι) (turns : Nat) (fd : Int) (buffer count : Nat) (state : FileState ι) :
    Option (Int × FileState ι) :=
  let entry := fileAt fd state
  (virtFsFread (fileOpRead tree turns (entry.bind state.inode)) fd (entry.map state.sched.files) state.memory buffer count).map
    fun (result, memory, file) =>
      (result, match entry, file with
        | some entry, some file => { state with sched := state.sched.setFile entry file, memory }
        | _, _ => { state with memory })

def fileStep (tree : Ext2Tree ι) (turns : Nat) (fd : Int) (state : FileState ι) : FileCall → Option (Int × FileState ι)
  | .fstat => (fileStat tree fd state).map fun result => (result, state)
  | .fread buffer count => fileRead tree turns fd buffer count.toNat state

end YuzuOS.Kernel
