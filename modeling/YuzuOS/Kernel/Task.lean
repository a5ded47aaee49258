import YuzuOS.Kernel.Plist

/-! Threads, processes and open files. Threads and processes are never freed, so
a thread is addressed by its `tid` and a process by its `pid`; an open file is
addressed by the number of its allocation. -/

namespace YuzuOS.Kernel

inductive ThreadState
  | ready
  | running
  | terminated
  deriving DecidableEq, Repr

structure Thread where
  tid : Nat
  time : Nat
  stackKernel : Nat
  state : ThreadState
  process : Nat

/-- `fd` is indexed by any integer: the cells outside `0 … FD_MAX - 1` are what
lies around the table in memory. -/
structure ProcessFiles where
  fd : Int → Option Nat

structure Process where
  pid : Nat
  exitCode : Int
  files : ProcessFiles
  thread : Option Nat
  parent : Option Nat
  pageDir : Nat

/-- The operations of a file system that opening and closing a file call. -/
structure VfsFileOp where
  openFile : Option Int
  hasRelease : Bool
  deriving DecidableEq, Repr

structure VfsFile where
  flags : Nat
  maxCount : Nat
  mode : Nat
  pos : Nat
  count : Nat
  op : Option VfsFileOp

/-- The scheduler's static variables with the objects they reach, the stack of
the task state segment and the directory of the last `sched_switch`. The lists
record calls: `queued` those of `sched_thread_queue`, `exited` the processes of
`sched_exit`, `opened`, `released` and `freed` what happened to each file. -/
structure Sched where
  schedLocks : Nat
  schedPid : Nat
  schedTid : Nat
  schedList : Plist Nat
  schedThread : Nat
  schedProcess : Nat
  threads : Nat → Thread
  processes : Nat → Process
  files : Nat → VfsFile
  fileCount : Nat
  tssStack : Nat
  switchDir : Nat
  queued : List Nat
  exited : List Nat
  opened : List Nat
  released : List Nat
  freed : List Nat

namespace Sched

def setThread (sched : Sched) (tid : Nat) (thread : Thread) : Sched :=
  { sched with threads := Function.update sched.threads tid thread }

def setProcess (sched : Sched) (pid : Nat) (process : Process) : Sched :=
  { sched with processes := Function.update sched.processes pid process }

def setFile (sched : Sched) (file : Nat) (content : VfsFile) : Sched :=
  { sched with files := Function.update sched.files file content }

def setFd (sched : Sched) (pid : Nat) (fd : Int) (file : Option Nat) : Sched :=
  let process := sched.processes pid
  sched.setProcess pid { process with files := ⟨Function.update process.files.fd fd file⟩ }

end Sched
end YuzuOS.Kernel
