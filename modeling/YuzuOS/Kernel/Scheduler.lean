import YuzuOS.Kernel.Task

/-! The scheduler. `none` is a call that does not return: a wild pointer, the
panic of `sched_exit`, or the idle loop of `sched_schedule` on an empty list. -/

namespace YuzuOS.Kernel

def schedTimeSlice : Nat := 8
@[irreducible] def fdMax : Nat := 512

def schedLock (sched : Sched) : Sched := { sched with schedLocks := sched.schedLocks + 1 }

def schedUnlock (sched : Sched) : Sched := { sched with schedLocks := sched.schedLocks - 1 }

def schedThreadGetNext (sched : Sched) : Option Nat :=
  if plistIsHeadEmpty sched.schedList then none else plistFirst sched.schedList

/-- No list operation follows more links than there are threads. -/
def schedThreadQueue (thread : Nat) (sched : Sched) : Option Sched := do
  let list ← plistAdd sched.schedTid thread sched.schedList
  some { sched with schedList := list, queued := thread :: sched.queued }

def schedThreadUnqueue (thread : Nat) (sched : Sched) : Option Sched := do
  let list ← plistRemove thread sched.schedList
  some { sched with schedList := list }

/-- The inner option is the `NULL` of an empty list. -/
def schedThreadPopNext (sched : Sched) : Option (Option Nat × Sched) :=
  if plistIsHeadEmpty sched.schedList then some (none, sched)
  else do
    let thread ← plistFirst sched.schedList
    let sched ← schedThreadUnqueue thread sched
    some (some thread, sched)

def schedThreadUpdate (thread : Nat) (state : ThreadState) (sched : Sched) : Option Sched :=
  if (sched.threads thread).state = state then some sched
  else do
    let sched ← schedThreadUnqueue thread (schedLock sched)
    let sched ← schedThreadQueue thread (sched.setThread thread { sched.threads thread with state := state })
    some (schedUnlock sched)

/-- The addresses of the new kernel stack and, below, of the new page directory
are what the allocator returned. -/
def schedThreadCreate (process stackKernel : Nat) (sched : Sched) : Nat × Sched :=
  let sched := schedLock sched
  let tid := sched.schedTid
  let sched := sched.setProcess process { sched.processes process with thread := some tid }
  let sched := sched.setThread tid { tid, time := 0, stackKernel, state := .ready, process }
  (tid, schedUnlock { sched with schedTid := tid + 1, schedList := plistNodeInit tid 0 sched.schedList })

/-- The new table, and the open files with their counts raised. -/
def schedProcessCloneFiles (parent : Option Nat) (sched : Sched) : ProcessFiles × (Nat → VfsFile) :=
  match parent with
  | none => (⟨fun _ => none⟩, sched.files)
  | some parent =>
    let table := (sched.processes parent).files
    (⟨fun fd => if 0 ≤ fd ∧ fd < fdMax then table.fd fd else none⟩,
      (List.range fdMax).foldl (fun files (i : Nat) => match table.fd i with
        | some file => Function.update files file { files file with count := (files file).count + 1 }
        | none => files) sched.files)

def schedProcessCreate (parent : Option Nat) (pageDir : Nat) (sched : Sched) : Nat × Sched :=
  let sched := schedLock sched
  let pid := sched.schedPid
  let (table, files) := schedProcessCloneFiles parent sched
  let process := { pid, exitCode := 0, files := table, thread := none, parent, pageDir }
  (pid, schedUnlock ({ sched with schedPid := pid + 1, files }.setProcess pid process))

def schedLoad (stackKernel pageDir : Nat) (sched : Sched) : Option Sched :=
  let (process, sched) := schedProcessCreate (some sched.schedProcess) pageDir sched
  let (thread, sched) := schedThreadCreate process stackKernel sched
  schedThreadQueue thread sched

/-- A parent that is no process is a wild pointer. -/
def schedProcessFork (parent stackKernel pageDir : Nat) (sched : Sched) : Option (Nat × Sched) :=
  if parent < sched.schedPid then do
    let sched := schedLock sched
    let pid := sched.schedPid
    let (table, files) := schedProcessCloneFiles (some parent) sched
    let process := { pid, exitCode := 0, files := table, thread := none, parent := some parent, pageDir }
    let (thread, sched) := schedThreadCreate pid stackKernel ({ sched with schedPid := pid + 1, files }.setProcess pid process)
    let sched ← schedThreadQueue thread (schedUnlock sched)
    some (pid, sched)
  else none

/-- `sched_switch` goes on in the new thread, at the end of the `sched_schedule`
that switched it out or in its entry function. -/
def schedThreadSwitch (thread : Nat) (sched : Sched) : Option Sched :=
  if sched.schedThread = thread then
    schedThreadUpdate thread .running (sched.setThread thread { sched.threads thread with time := 0 })
  else do
    let sched := { sched with schedThread := thread }
    let sched ← schedThreadUpdate thread .running (sched.setThread thread { sched.threads thread with time := 0 })
    let process := (sched.threads thread).process
    some { sched with
      schedProcess := process
      switchDir := (sched.processes process).pageDir
      tssStack := (sched.threads thread).stackKernel }

/-- Where the switch arrives, the lock taken here is given back: by this
function, by `sched_thread_entry` or by `sched_thread_user_entry`. -/
def schedSchedule (sched : Sched) : Option Sched :=
  if (sched.threads sched.schedThread).state = .running then some sched
  else do
    let (thread, sched) ← schedThreadPopNext (schedLock sched)
    let sched ← schedThreadSwitch (← thread) sched
    some (schedUnlock sched)

/-- The `plist_foreach_entry` of `sched_handler`, from the link `pos` on. -/
def schedShiftPrio (prio : Int) : Nat → Link Nat → Plist Nat → Option (Plist Nat)
  | 0, _, _ => none
  | _ + 1, .head, list => some list
  | fuel + 1, pos, list => do
    let iter ← pos.nodeEntry
    schedShiftPrio prio fuel (list.links.next pos) { list with prio := Function.update list.prio iter (list.prio iter - prio) }

/-- The part of `sched_handler` that takes the processor from the thread. -/
def schedPreempt (sched : Sched) : Option Sched := do
  let first ← plistFirst sched.schedList
  let last ← plistLast sched.schedList
  let list ← schedShiftPrio (sched.schedList.prio first) (sched.schedTid + 1) (sched.schedList.links.next .head) sched.schedList
  let list := { list with prio := Function.update list.prio sched.schedThread (list.prio last + 1) }
  schedThreadUpdate sched.schedThread .ready { sched with schedList := list }

def schedHandler (sched : Sched) : Option Sched :=
  let thread := sched.threads sched.schedThread
  if thread.state ≠ .running then some sched
  else
    let sched := (schedLock sched).setThread sched.schedThread { thread with time := thread.time + 1 }
    if thread.time + 1 ≥ schedTimeSlice ∧ (schedThreadGetNext sched).isSome then do
      let sched := schedUnlock (← schedPreempt sched)
      if sched.schedLocks = 0 then schedSchedule sched else some sched
    else some (schedUnlock sched)

/-- One turn of the loop over `process->files->fd`. Without operations the read
of `release` faults. -/
def schedExitFile (process : Nat) (sched : Sched) (i : Nat) : Option Sched :=
  match (sched.processes process).files.fd i with
  | none => some sched
  | some file =>
    if (sched.files file).count = 1 then do
      let op ← (sched.files file).op
      if op.hasRelease then
        some ({ sched with released := file :: sched.released, freed := file :: sched.freed }.setFd process i none)
      else some sched
    else some sched

def schedExit (code : Int) (sched : Sched) : Option Sched :=
  let process := sched.schedProcess
  if (sched.processes process).pid = 1 then none
  else do
    let sched := (schedLock sched).setProcess process { sched.processes process with exitCode := code }
    let sched ← (List.range fdMax).foldlM (schedExitFile process) { sched with exited := process :: sched.exited }
    let sched ← schedThreadUpdate sched.schedThread .terminated sched
    schedSchedule (schedUnlock sched)

/-- Whatever the static variables held before, `sched_init` sets them. -/
def schedInit (stackKernel pageDir : Nat) (sched : Sched) : Sched :=
  let sched := { sched with schedLocks := 0, schedPid := 0, schedTid := 0, schedList := plistHeadInit sched.schedList }
  let (process, sched) := schedProcessCreate none pageDir sched
  let (thread, sched) := schedThreadCreate process stackKernel { sched with schedProcess := process }
  { sched with schedThread := thread }

end YuzuOS.Kernel
