import YuzuOS.Library.Memory
import YuzuOS.Kernel.Scheduler

/-! Opening files through the descriptor table of the current process, and
reading from them. -/

namespace YuzuOS.Kernel
open YuzuOS.Library

def intMax : Nat := 2147483647
def eNoent : Int := 2
def eBadf : Int := 9
def eInval : Int := 22
def oAccmode : Nat := 3
def fmodeRead : Nat := 0x1
def fmodeWrite : Nat := 0x2
def fmodeCanRead : Nat := 0x20000
def fmodeCanWrite : Nat := 0x40000
def fmodeNonotify : Nat := 0x4000000

def openFmode (flag : Nat) : Nat := ((flag + 1) &&& oAccmode) ||| (flag &&& fmodeNonotify)

def virtFsFileAlloc : VfsFile :=
  { flags := 0, maxCount := intMax, mode := 0, pos := 0, count := 1, op := none }

/-- The search stops at descriptor 256, half of the table. -/
def virtFsFdFind (files : ProcessFiles) (limit : Nat) : Int :=
  match (List.range' limit (256 - limit)).find? fun i : Nat => files.fd i = none with
  | some i => i
  | none => -eInval

/-- The new file as `virt_fs_open` fills it in. -/
def virtFsFileSet (flags : Nat) (op : Option VfsFileOp) : VfsFile :=
  let mode := openFmode flags
  let mode := if mode &&& fmodeRead ≠ 0 then mode ||| fmodeCanRead else mode
  let mode := if mode &&& fmodeWrite ≠ 0 then mode ||| fmodeCanWrite else mode
  { virtFsFileAlloc with flags, mode, op }

/-- `found` is the outcome of `virt_fs_path_find`: its error, or the file
operations of the inode. A descriptor of `-EINVAL` is used as an index. -/
def virtFsOpen (flags : Nat) (found : Except Int (Option VfsFileOp)) (sched : Sched) : Int × Sched :=
  let fd := virtFsFdFind (sched.processes sched.schedProcess).files 0
  match found with
  | .error result => (result, sched)
  | .ok op =>
    let file := sched.fileCount
    let sched := { sched with fileCount := file + 1 }.setFile file (virtFsFileSet flags op)
    let result := (op.bind (·.openFile)).getD 0
    if result < 0 then (result, { sched with freed := file :: sched.freed })
    else (fd, { sched with opened := file :: sched.opened }.setFd sched.schedProcess fd (some file))

/-- `entry` is the cell of the descriptor in the table of the current process and
`read` the operation of the file: from a count and a position to what it returns. -/
def virtFsFread (read : VfsFile → Memory → Nat → Nat → Nat → Option (Int × Memory × VfsFile)) (fd : Int)
    (entry : Option VfsFile) (memory : Memory) (buffer count : Nat) : Option (Int × Memory × Option VfsFile) :=
  if fd < 0 then some (-eBadf, memory, entry)
  else match entry with
    | none => some (-eBadf, memory, entry)
    | some file =>
      if file.mode &&& fmodeCanRead ≠ 0 then
        (read file memory buffer count file.pos).map fun (result, memory, file) => (result, memory, some file)
      else some (-eInval, memory, entry)

/-- How `virt_fs_fstat` and `virt_fs_fread` begin: the slots of the current
process' table that they read, and the file found there. -/
def virtFsFdGet (fd : Int) (sched : Sched) : List Int × Option VfsFile :=
  if fd < 0 then ([], none)
  else ([fd], ((sched.processes sched.schedProcess).files.fd fd).map sched.files)

/-- `getattr` is what `virt_fs_getattr` returns for a file. -/
def virtFsFstat (getattr : VfsFile → Int) (fd : Int) (sched : Sched) : List Int × Int :=
  let (slots, entry) := virtFsFdGet fd sched
  (slots, match entry with
    | none => -eBadf
    | some file => getattr file)

/-- `virt_fs_fread` with the slots that it reads. -/
def virtFsFreadSlots (read : VfsFile → Memory → Nat → Nat → Nat → Option (Int × Memory × VfsFile)) (fd : Int)
    (memory : Memory) (buffer count : Nat) (sched : Sched) : List Int × Option (Int × Memory × Option VfsFile) :=
  let (slots, entry) := virtFsFdGet fd sched
  (slots, virtFsFread read fd entry memory buffer count)

end YuzuOS.Kernel
