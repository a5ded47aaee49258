import YuzuOS.Kernel.VirtualFs

/-! The calls that move threads and files, as steps from one return to the
next. A step acts for the thread that is current when it starts. -/

namespace YuzuOS.Kernel

inductive SchedAction
  | load (stackKernel pageDir : Nat)
  | fork (parent stackKernel pageDir : Nat)
  | tick
  | schedule
  | exit (code : Int)
  | openFile (flags : Nat) (found : Except Int (Option VfsFileOp))

def schedStep (sched : Sched) : SchedAction → Option Sched
  | .load stackKernel pageDir => schedLoad stackKernel pageDir sched
  | .fork parent stackKernel pageDir => (schedProcessFork parent stackKernel pageDir sched).map (·.2)
  | .tick => schedHandler sched
  | .schedule => schedSchedule sched
  | .exit code => schedExit code sched
  | .openFile flags found => some (virtFsOpen flags found sched).2

/-- Static memory before `sched_init`: zero, and no object allocated. -/
def schedZero : Sched where
  schedLocks := 0
  schedPid := 0
  schedTid := 0
  schedList := ⟨⟨fun _ => .head, fun _ => .head⟩, fun _ => 0⟩
  schedThread := 0
  schedProcess := 0
  threads := fun _ => ⟨0, 0, 0, .ready, 0⟩
  processes := fun _ => ⟨0, 0, ⟨fun _ => none⟩, none, none, 0⟩
  files := fun _ => ⟨0, 0, 0, 0, 0, none⟩
  fileCount := 0
  tssStack := 0
  switchDir := 0
  queued := []
  exited := []
  opened := []
  released := []
  freed := []

def schedStart (stackKernel pageDir : Nat) : Sched := schedInit stackKernel pageDir schedZero

end YuzuOS.Kernel
