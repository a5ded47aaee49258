import YuzuOS.Library.Counting
import YuzuOS.Proofs.SchedulerSteps
import Mathlib.Algebra.BigOperators.Group.Finset.Basic
import Mathlib.Algebra.Order.BigOperators.Group.Finset

/-! The counts of open files against the descriptor tables. `sched_exit` never
lowers a count, and frees a file only if it alone refers to it and the file
system has a release operation. -/

namespace YuzuOS.Proofs.SchedulerFiles
open YuzuOS.Library YuzuOS.Kernel YuzuOS.Proofs.SchedulerQueue YuzuOS.Proofs.SchedulerSteps

def fileSlots (table : ProcessFiles) (file : Nat) : Nat :=
  (List.range fdMax).countP fun i : Nat => table.fd i = some file

def openSlots (sched : Sched) (file : Nat) : Nat :=
  ∑ pid ∈ Finset.range sched.schedPid, if pid ∈ sched.exited then 0 else fileSlots (sched.processes pid).files file

def hasRelease (file : VfsFile) : Bool := (file.op.map (·.hasRelease)).getD false

/-- An opened file is in use with an exact count, or was closed once. -/
def Accounted (sched : Sched) (file : Nat) : Prop :=
  if openSlots sched file = 0 then
    sched.freed.count file = 1 ∧ sched.released.count file = if hasRelease (sched.files file) then 1 else 0
  else (sched.files file).count = openSlots sched file ∧ sched.freed.count file = 0 ∧ sched.released.count file = 0

structure Tracked (sched : Sched) : Prop where
  accounted : ∀ file ∈ sched.opened, Accounted sched file
  known : ∀ file ∈ sched.opened, file < sched.fileCount
  logged : ∀ file, sched.fileCount ≤ file → file ∉ sched.freed ∧ file ∉ sched.released
  unused : ∀ file, sched.fileCount ≤ file → ∀ pid, fileSlots (sched.processes pid).files file = 0
  emptied : ∀ pid ∈ sched.exited, pid < sched.schedPid ∧ ∀ file, fileSlots (sched.processes pid).files file = 0
  current : sched.schedProcess < sched.schedPid
  owned : ∀ thread, thread < sched.schedTid → (sched.threads thread).process < sched.schedPid

variable {sched next : Sched} {nodes nodes' : List Nat} {action : SchedAction} {table : ProcessFiles} {file pid : Nat}

theorem fileSlots_le (active : pid < sched.schedPid) (alive : pid ∉ sched.exited) :
    fileSlots (sched.processes pid).files file ≤ openSlots sched file := by
  have single := Finset.single_le_sum
    (f := fun pid => if pid ∈ sched.exited then 0 else fileSlots (sched.processes pid).files file)
    (fun _ _ => Nat.zero_le _) (Finset.mem_range.mpr active)
  simp only [if_neg alive] at single
  exact single

/-- A process that exited holds no file, so it never matters which one forks. -/
theorem Tracked.slots_le (tracked : Tracked sched) (active : pid < sched.schedPid) :
    fileSlots (sched.processes pid).files file ≤ openSlots sched file := by
  by_cases gone : pid ∈ sched.exited
  · rw [(tracked.emptied pid gone).2 file]
    exact Nat.zero_le _
  · exact fileSlots_le active gone

theorem cloned_count (fds : List Nat) (files : Nat → VfsFile) :
    (fds.foldl (fun files (i : Nat) => match table.fd i with
      | some file => Function.update files file { files file with count := (files file).count + 1 }
      | none => files) files) file =
    { files file with count := (files file).count + fds.countP fun i : Nat => table.fd i = some file } := by
  induction fds generalizing files with
  | nil => rfl
  | cons i fds ih =>
    rw [List.foldl_cons, ih, List.countP_cons]
    cases found : table.fd i with
    | none => simp
    | some other =>
      by_cases same : file = other
      · simp [same, Nat.add_comm, Nat.add_assoc]
      · simp [same, Ne.symm same]

theorem fileSlots_clone (parent : Nat) : fileSlots (schedProcessCloneFiles (some parent) sched).1 file =
    fileSlots (sched.processes parent).files file := by
  apply List.countP_congr
  intro i member
  have bound : (i : Int) < fdMax := by exact_mod_cast List.mem_range.mp member
  simp [schedProcessCloneFiles, bound]

theorem openSlots_spawned {parent stackKernel pageDir : Nat} (tracked : Tracked sched) :
    openSlots (spawned parent stackKernel pageDir sched) file =
      openSlots sched file + fileSlots (sched.processes parent).files file := by
  have alive : sched.schedPid ∉ sched.exited := fun gone => Nat.lt_irrefl _ (tracked.emptied _ gone).1
  have new : (if sched.schedPid ∈ sched.exited then 0 else
      fileSlots ((spawned parent stackKernel pageDir sched).processes sched.schedPid).files file) =
      fileSlots (sched.processes parent).files file := by
    rw [if_neg alive]
    simpa [spawned] using fileSlots_clone parent
  have old : ∀ pid ∈ Finset.range sched.schedPid, (if pid ∈ sched.exited then 0 else
      fileSlots ((spawned parent stackKernel pageDir sched).processes pid).files file) =
      if pid ∈ sched.exited then 0 else fileSlots (sched.processes pid).files file := by
    intro pid member
    have apart : pid ≠ sched.schedPid := (Finset.mem_range.mp member).ne
    simp [spawned, apart]
  calc openSlots (spawned parent stackKernel pageDir sched) file
      = ∑ pid ∈ Finset.range (sched.schedPid + 1), (if pid ∈ sched.exited then 0 else
          fileSlots ((spawned parent stackKernel pageDir sched).processes pid).files file) := rfl
    _ = openSlots sched file + fileSlots (sched.processes parent).files file := by
      rw [Finset.sum_range_succ, new, Finset.sum_congr rfl old]
      rfl

theorem spawned_tracked {parent stackKernel pageDir : Nat} (tracked : Tracked sched) (known : parent < sched.schedPid) :
    Tracked (spawned parent stackKernel pageDir sched) := by
  have counted (file : Nat) : (spawned parent stackKernel pageDir sched).files file = { sched.files file with
      count := (sched.files file).count + fileSlots (sched.processes parent).files file } := by
    simp only [spawned, schedProcessCloneFiles, fileSlots]
    exact cloned_count (List.range fdMax) sched.files
  refine ⟨?_, tracked.known, tracked.logged, ?_, ?_, Nat.lt_succ_of_lt tracked.current, ?_⟩
  · intro file opened
    have before := tracked.accounted file opened
    have bound : fileSlots (sched.processes parent).files file ≤ openSlots sched file := tracked.slots_le known
    unfold Accounted at before ⊢
    rw [openSlots_spawned tracked, counted]
    by_cases idle : openSlots sched file = 0
    · rw [if_pos idle] at before
      rw [if_pos (by omega)]
      exact before
    · rw [if_neg idle] at before
      rw [if_neg (by omega)]
      exact ⟨by simp only [before.1], before.2⟩
  · intro file unallocated pid
    by_cases new : pid = sched.schedPid
    · rw [new]
      have cloned : fileSlots ((spawned parent stackKernel pageDir sched).processes sched.schedPid).files file =
          fileSlots (sched.processes parent).files file := by simpa [spawned] using fileSlots_clone parent
      rw [cloned]
      exact tracked.unused file unallocated parent
    · simpa [spawned, new] using tracked.unused file unallocated pid
  · intro pid gone
    obtain ⟨active, empty⟩ := tracked.emptied pid gone
    have old : pid ≠ sched.schedPid := active.ne
    exact ⟨Nat.lt_succ_of_lt active, fun file => by simpa [spawned, old] using empty file⟩
  · intro thread bound
    by_cases new : thread = sched.schedTid
    · simp [spawned, new]
    · have old : thread < sched.schedTid := lt_of_le_of_ne (Nat.le_of_lt_succ bound) new
      simpa [spawned, new] using Nat.lt_succ_of_lt (tracked.owned thread old)

theorem dispatched_tracked {thread : Nat} {links : Links (Link Nat)} (tracked : Tracked sched)
    (known : thread < sched.schedTid) : Tracked (dispatched thread links sched) := by
  refine ⟨tracked.accounted, tracked.known, tracked.logged, tracked.unused, tracked.emptied, ?_, ?_⟩
  · by_cases same : sched.schedThread = thread
    · simpa [dispatched, same] using tracked.current
    · simpa [dispatched, same] using tracked.owned thread known
  · intro node bound
    by_cases same : node = thread
    · simpa [dispatched, same] using tracked.owned thread known
    · simpa [dispatched, same] using tracked.owned node bound

/-- The list of threads has no part in the counts. -/
theorem Tracked.relist (tracked : Tracked sched) (list : Plist Nat) (queued : List Nat) :
    Tracked { sched with schedList := list, queued } :=
  ⟨tracked.accounted, tracked.known, tracked.logged, tracked.unused, tracked.emptied, tracked.current, tracked.owned⟩

theorem updated_tracked {thread : Nat} {state : ThreadState} {links : Links (Link Nat)} (tracked : Tracked sched)
    (known : thread < sched.schedTid) : Tracked (updated thread state links sched) := by
  refine ⟨tracked.accounted, tracked.known, tracked.logged, tracked.unused, tracked.emptied, tracked.current, ?_⟩
  intro node bound
  by_cases same : node = thread
  · simpa [updated, same] using tracked.owned thread known
  · simpa [updated, same] using tracked.owned node bound

theorem ticked_tracked (tracked : Tracked sched) (known : sched.schedThread < sched.schedTid) :
    Tracked (ticked sched) := by
  refine ⟨tracked.accounted, tracked.known, tracked.logged, tracked.unused, tracked.emptied, tracked.current, ?_⟩
  intro node bound
  by_cases same : node = sched.schedThread
  · simpa [ticked, Sched.setThread, same] using tracked.owned _ known
  · simpa [ticked, Sched.setThread, same] using tracked.owned node bound

def opensFile : Except Int (Option VfsFileOp) → Bool
  | .ok op => 0 ≤ (op.bind (·.openFile)).getD 0
  | .error _ => false

/-- An opened file finds a descriptor in a living process, and an exiting
process is the only owner of each of its files, which the file system releases. -/
def SoleOwner (sched : Sched) : SchedAction → Prop
  | .openFile _ found => opensFile found = true → sched.schedProcess ∉ sched.exited ∧
      ∃ i < 256, (sched.processes sched.schedProcess).files.fd (i : Nat) = none
  | .exit _ => (sched.processes sched.schedProcess).pid ≠ 1 →
      ∀ i < fdMax, ((sched.processes sched.schedProcess).files.fd (i : Nat)).all
        (fun file => (sched.files file).count = 1 ∧ hasRelease (sched.files file)) = true
  | _ => True

instance (sched : Sched) : (action : SchedAction) → Decidable (SoleOwner sched action)
  | .load _ _ | .fork _ _ _ | .tick | .schedule => inferInstanceAs (Decidable True)
  | .exit _ | .openFile _ _ => by
    unfold SoleOwner
    infer_instance

/-- Installing a file in a free descriptor adds one slot for it and none for others. -/
theorem fileSlots_install {i : Nat} (file new : Nat) (bound : i < fdMax) (free : table.fd i = none) :
    fileSlots ⟨Function.update table.fd i (some new)⟩ file = fileSlots table file + if file = new then 1 else 0 := by
  by_cases same : file = new
  · rw [if_pos same]
    apply countP_insert List.nodup_range (List.mem_range.mpr bound)
    · simp [same]
    · simp [free]
    · intro j other
      have apart : (j : Int) ≠ i := by exact_mod_cast other
      simp [apart]
  · rw [if_neg same]
    apply List.countP_congr
    intro j _
    by_cases here : j = i
    · simp [here, free, Ne.symm same]
    · have apart : (j : Int) ≠ i := by exact_mod_cast here
      simp [apart]

theorem virtFsFdFind_free {files : ProcessFiles} (free : ∃ i < 256, files.fd (i : Nat) = none) :
    ∃ i < 256, files.fd (i : Nat) = none ∧ virtFsFdFind files 0 = (i : Nat) := by
  unfold virtFsFdFind
  obtain ⟨i, bound, empty⟩ := free
  cases found : (List.range' 0 (256 - 0)).find? fun i : Nat => files.fd i = none with
  | none =>
    have full := List.find?_eq_none.mp found i (List.mem_range'_1.mpr ⟨Nat.zero_le i, by omega⟩)
    simp [empty] at full
  | some first =>
    have within := (List.mem_range'_1.mp (List.mem_of_find?_eq_some found)).2
    have here := List.find?_some found
    exact ⟨first, by omega, by simpa using here, rfl⟩

theorem openSlots_update {processes : Nat → Process} {more : Nat} (active : pid < sched.schedPid)
    (alive : pid ∉ sched.exited) (others : ∀ other, other ≠ pid → processes other = sched.processes other)
    (grown : fileSlots (processes pid).files file = fileSlots (sched.processes pid).files file + more) :
    openSlots { sched with processes } file = openSlots sched file + more := by
  have member := Finset.mem_range.mpr active
  have same : ∀ other ∈ (Finset.range sched.schedPid).erase pid,
      (if other ∈ sched.exited then 0 else fileSlots (processes other).files file) =
      if other ∈ sched.exited then 0 else fileSlots (sched.processes other).files file := by
    intro other inside
    rw [others other (Finset.mem_erase.mp inside).1]
  unfold openSlots
  rw [← Finset.add_sum_erase _ _ member, ← Finset.add_sum_erase _ _ member, Finset.sum_congr rfl same,
    if_neg alive, if_neg alive, grown]
  omega

def installed (content : VfsFile) (i : Nat) (sched : Sched) : Sched :=
  { sched with
    fileCount := sched.fileCount + 1
    files := Function.update sched.files sched.fileCount content
    processes := Function.update sched.processes sched.schedProcess { sched.processes sched.schedProcess with
      files := ⟨Function.update (sched.processes sched.schedProcess).files.fd i (some sched.fileCount)⟩ }
    opened := sched.fileCount :: sched.opened }

def refused (content : VfsFile) (sched : Sched) : Sched :=
  { sched with
    fileCount := sched.fileCount + 1
    files := Function.update sched.files sched.fileCount content
    freed := sched.fileCount :: sched.freed }

theorem virtFsOpen_cases {flags : Nat} {found : Except Int (Option VfsFileOp)}
    (owner : SoleOwner sched (.openFile flags found)) :
    (virtFsOpen flags found sched).2 = sched ∨
    (∃ content, (virtFsOpen flags found sched).2 = refused content sched) ∨
    ∃ content i, content.count = 1 ∧ i < fdMax ∧ sched.schedProcess ∉ sched.exited ∧
      (sched.processes sched.schedProcess).files.fd (i : Nat) = none ∧
      (virtFsOpen flags found sched).2 = installed content i sched := by
  cases found with
  | error result => exact .inl rfl
  | ok op =>
    by_cases failed : (op.bind (·.openFile)).getD 0 < 0
    · refine .inr (.inl ⟨virtFsFileSet flags op, ?_⟩)
      simp only [virtFsOpen, failed, if_true]
      rfl
    · obtain ⟨alive, free⟩ := owner (by simpa [opensFile] using not_lt.mp failed)
      obtain ⟨i, bound, empty, descriptor⟩ := virtFsFdFind_free free
      have inside : i < fdMax := by
        unfold fdMax
        omega
      refine .inr (.inr ⟨virtFsFileSet flags op, i, rfl, inside, alive, empty, ?_⟩)
      simp only [virtFsOpen, failed, if_false, descriptor]
      rfl

theorem refused_tracked {content : VfsFile} (tracked : Tracked sched) : Tracked (refused content sched) := by
  refine ⟨?_, fun file opened => Nat.lt_succ_of_lt (tracked.known file opened), ?_, ?_, tracked.emptied,
    tracked.current, tracked.owned⟩
  · intro file opened
    have old : file ≠ sched.fileCount := (tracked.known file opened).ne
    have same : (refused content sched).files file = sched.files file := by simp [refused, old]
    have freed : (refused content sched).freed.count file = sched.freed.count file := by simp [refused, Ne.symm old]
    unfold Accounted
    rw [same, freed]
    exact tracked.accounted file opened
  · intro file unallocated
    have later : sched.fileCount < file := unallocated
    obtain ⟨freed, released⟩ := tracked.logged file later.le
    exact ⟨by simp [refused, later.ne', freed], released⟩
  · intro file unallocated
    exact tracked.unused file (Nat.le_of_succ_le unallocated)

theorem installed_tracked {content : VfsFile} {i : Nat} (tracked : Tracked sched) (single : content.count = 1)
    (bound : i < fdMax) (alive : sched.schedProcess ∉ sched.exited)
    (free : (sched.processes sched.schedProcess).files.fd i = none) : Tracked (installed content i sched) := by
  have slots (file : Nat) : openSlots (installed content i sched) file =
      openSlots sched file + if file = sched.fileCount then 1 else 0 := by
    have grown : fileSlots ((installed content i sched).processes sched.schedProcess).files file =
        fileSlots (sched.processes sched.schedProcess).files file + if file = sched.fileCount then 1 else 0 := by
      simpa [installed] using fileSlots_install _ _ bound free
    exact openSlots_update tracked.current alive (fun other apart => by simp [installed, apart]) grown
  refine ⟨?_, ?_, ?_, ?_, ?_, tracked.current, tracked.owned⟩
  · intro file opened
    unfold Accounted
    rw [slots]
    by_cases new : file = sched.fileCount
    · have unused : openSlots sched file = 0 := by
        apply Finset.sum_eq_zero
        intro pid _
        rw [tracked.unused file new.ge pid]
        simp
      obtain ⟨freed, released⟩ := tracked.logged file new.ge
      rw [if_pos new, unused, if_neg (by omega)]
      refine ⟨?_, List.count_eq_zero.mpr freed, List.count_eq_zero.mpr released⟩
      simp [installed, new, single]
    · have before := tracked.accounted file (by simpa [installed, new] using opened)
      have same : (installed content i sched).files file = sched.files file := by simp [installed, new]
      rw [if_neg new, Nat.add_zero, same]
      exact before
  · intro file opened
    rcases List.mem_cons.mp opened with rfl | opened
    · exact Nat.lt_succ_self _
    · exact Nat.lt_succ_of_lt (tracked.known file opened)
  · intro file unallocated
    exact tracked.logged file (Nat.le_of_succ_le unallocated)
  · intro file unallocated pid
    have later : file ≠ sched.fileCount := (Nat.lt_of_succ_le unallocated).ne'
    by_cases same : pid = sched.schedProcess
    · have grown := fileSlots_install file sched.fileCount bound free
      rw [if_neg later, tracked.unused file (Nat.le_of_succ_le unallocated)] at grown
      simpa [installed, same] using grown
    · simpa [installed, same] using tracked.unused file (Nat.le_of_succ_le unallocated) pid
  · intro pid gone
    have other : pid ≠ sched.schedProcess := fun same => alive (same ▸ gone)
    simpa [installed, other] using tracked.emptied pid gone

def emptied (fds : List Nat) (table : ProcessFiles) : ProcessFiles :=
  ⟨fun fd => if fd ∈ fds.map Nat.cast then none else table.fd fd⟩

def held (fds : List Nat) (table : ProcessFiles) : List Nat := fds.filterMap fun i : Nat => table.fd i

/-- Closing descriptors whose files have one owner and a release operation. -/
theorem schedExitFiles_closes {process : Nat} {fds : List Nat} (nodup : fds.Nodup)
    (sole : ∀ i ∈ fds, ((sched.processes process).files.fd (i : Nat)).all
      (fun file => (sched.files file).count = 1 ∧ hasRelease (sched.files file)) = true) :
    fds.foldlM (schedExitFile process) sched = some { sched with
      processes := Function.update sched.processes process
        { sched.processes process with files := emptied fds (sched.processes process).files }
      released := (held fds (sched.processes process).files).reverse ++ sched.released
      freed := (held fds (sched.processes process).files).reverse ++ sched.freed } := by
  induction fds generalizing sched with
  | nil => simp [emptied, held]
  | cons i fds ih =>
    obtain ⟨absent, nodup⟩ := List.nodup_cons.mp nodup
    have here := sole i List.mem_cons_self
    cases found : (sched.processes process).files.fd (i : Nat) with
    | none =>
      have step : schedExitFile process sched i = some sched := by simp [schedExitFile, found]
      have table : emptied (i :: fds) (sched.processes process).files = emptied fds (sched.processes process).files := by
        unfold emptied
        congr 1
        funext fd
        by_cases same : fd = i
        · simp [same, found]
        · simp [same]
      rw [List.foldlM_cons, step, table]
      simpa [held, found] using ih nodup fun j member => sole j (List.mem_cons_of_mem _ member)
    | some file =>
      rw [found] at here
      simp only [Option.all_some, decide_eq_true_eq] at here
      obtain ⟨op, same, releases⟩ : ∃ op, (sched.files file).op = some op ∧ op.hasRelease = true := by
        cases shape : (sched.files file).op with
        | none => simp [hasRelease, shape] at here
        | some op => exact ⟨op, rfl, by simpa [hasRelease, shape] using here.2⟩
      have step : schedExitFile process sched i =
          some ({ sched with released := file :: sched.released, freed := file :: sched.freed }.setFd process i none) := by
        simp [schedExitFile, found, here.1, same, releases]
      have left : ∀ j ∈ fds, ((({ sched with released := file :: sched.released, freed := file :: sched.freed }.setFd
          process i none).processes process).files.fd (j : Nat)).all
          (fun file => (sched.files file).count = 1 ∧ hasRelease (sched.files file)) = true := by
        intro j member
        have apart : (j : Int) ≠ i := by
          have other : j ≠ i := fun equal => absent (equal ▸ member)
          exact_mod_cast other
        simpa [Sched.setFd, Sched.setProcess, apart] using sole j (List.mem_cons_of_mem _ member)
      have table : emptied fds ⟨Function.update (sched.processes process).files.fd i none⟩ =
          emptied (i :: fds) (sched.processes process).files := by
        unfold emptied
        congr 1
        funext fd
        by_cases same : fd = i
        · simp [same]
        · simp [same]
      have files : held fds ⟨Function.update (sched.processes process).files.fd i none⟩ =
          held fds (sched.processes process).files := by
        apply List.filterMap_congr
        intro j member
        have apart : (j : Int) ≠ i := by
          have other : j ≠ i := fun equal => absent (equal ▸ member)
          exact_mod_cast other
        simp [apart]
      rw [List.foldlM_cons, step]
      refine (ih nodup left).trans ?_
      simp only [Sched.setFd, Sched.setProcess, Function.update_self, Function.update_idem, table, files]
      simp [held, found]

theorem held_count : (held (List.range fdMax) table).count file = fileSlots table file := by
  rw [held, List.count_filterMap, fileSlots]
  apply List.countP_congr
  intro i _
  simp

theorem emptied_slots : fileSlots (emptied (List.range fdMax) table) file = 0 := by
  apply List.countP_eq_zero.mpr
  intro i member
  have inside : (i : Int) ∈ (List.range fdMax).map Nat.cast := List.mem_map.mpr ⟨i, member, rfl⟩
  simp only [emptied, if_pos inside]
  simp

/-- The state in which `sched_exit` terminates the thread of a sole owner. -/
def released (code : Int) (sched : Sched) : Sched :=
  let table := (sched.processes sched.schedProcess).files
  closed code (emptied (List.range fdMax) table) ((held (List.range fdMax) table).reverse ++ sched.released)
    ((held (List.range fdMax) table).reverse ++ sched.freed) sched

theorem openSlots_released (code : Int) (file : Nat) (tracked : Tracked sched) : openSlots (released code sched) file +
    fileSlots (sched.processes sched.schedProcess).files file = openSlots sched file := by
  have member := Finset.mem_range.mpr tracked.current
  have same : ∀ pid ∈ (Finset.range sched.schedPid).erase sched.schedProcess,
      (if pid ∈ (released code sched).exited then 0 else fileSlots ((released code sched).processes pid).files file) =
      if pid ∈ sched.exited then 0 else fileSlots (sched.processes pid).files file := by
    intro pid inside
    have apart := (Finset.mem_erase.mp inside).1
    simp [released, closed, apart]
  have own : (if sched.schedProcess ∈ sched.exited then 0 else
      fileSlots (sched.processes sched.schedProcess).files file) =
      fileSlots (sched.processes sched.schedProcess).files file := by
    by_cases gone : sched.schedProcess ∈ sched.exited
    · rw [if_pos gone, (tracked.emptied _ gone).2]
    · rw [if_neg gone]
  have left : sched.schedProcess ∈ (released code sched).exited := List.mem_cons_self
  have before := Finset.add_sum_erase (Finset.range sched.schedPid)
    (fun pid => if pid ∈ sched.exited then 0 else fileSlots (sched.processes pid).files file) member
  have after := Finset.add_sum_erase (Finset.range sched.schedPid)
    (fun pid => if pid ∈ (released code sched).exited then 0 else fileSlots ((released code sched).processes pid).files file)
    member
  rw [Finset.sum_congr rfl same] at after
  simp only [own, if_pos left] at before after
  have whole : openSlots (released code sched) file = ∑ pid ∈ Finset.range sched.schedPid,
      if pid ∈ (released code sched).exited then 0 else fileSlots ((released code sched).processes pid).files file := rfl
  have total : openSlots sched file = ∑ pid ∈ Finset.range sched.schedPid,
      if pid ∈ sched.exited then 0 else fileSlots (sched.processes pid).files file := rfl
  omega

theorem released_tracked {code : Int} (tracked : Tracked sched)
    (sole : ∀ i < fdMax, ((sched.processes sched.schedProcess).files.fd (i : Nat)).all
      (fun file => (sched.files file).count = 1 ∧ hasRelease (sched.files file)) = true) :
    Tracked (released code sched) := by
  have freed (file : Nat) : (released code sched).freed.count file =
      fileSlots (sched.processes sched.schedProcess).files file + sched.freed.count file := by
    simp [released, closed, held_count]
  have done (file : Nat) : (released code sched).released.count file =
      fileSlots (sched.processes sched.schedProcess).files file + sched.released.count file := by
    simp [released, closed, held_count]
  refine ⟨?_, tracked.known, ?_, ?_, ?_, tracked.current, tracked.owned⟩
  · intro file opened
    have slots := openSlots_released code file tracked
    have before := tracked.accounted file opened
    have same : (released code sched).files = sched.files := rfl
    unfold Accounted at before ⊢
    rw [freed, done, same]
    by_cases unheld : fileSlots (sched.processes sched.schedProcess).files file = 0
    · rw [unheld, Nat.add_zero] at slots
      rw [unheld, Nat.zero_add, Nat.zero_add, slots]
      exact before
    · obtain ⟨i, member, holds⟩ := List.countP_pos_iff.mp (Nat.pos_of_ne_zero unheld)
      have owner := sole i (List.mem_range.mp member)
      rw [of_decide_eq_true holds] at owner
      simp only [Option.all_some, decide_eq_true_eq] at owner
      rw [if_neg (by omega)] at before
      rw [if_pos (by omega), owner.2]
      simp only [if_true]
      omega
  · intro file unallocated
    have clean := tracked.logged file unallocated
    have slots := tracked.unused file unallocated sched.schedProcess
    refine ⟨List.count_eq_zero.mp ?_, List.count_eq_zero.mp ?_⟩
    · rw [freed, slots, List.count_eq_zero.mpr clean.1]
    · rw [done, slots, List.count_eq_zero.mpr clean.2]
  · intro file unallocated pid
    by_cases own : pid = sched.schedProcess
    · simpa [released, closed, own] using emptied_slots
    · simpa [released, closed, own] using tracked.unused file unallocated pid
  · intro pid gone
    by_cases own : pid = sched.schedProcess
    · rw [own]
      exact ⟨tracked.current, fun file => by simpa [released, closed] using emptied_slots⟩
    · have earlier : pid ∈ sched.exited := by simpa [released, closed, own] using gone
      exact ⟨(tracked.emptied pid earlier).1, fun file => by
        simpa [released, closed, own] using (tracked.emptied pid earlier).2 file⟩

private theorem schedLock_injective {other : Sched} (same : schedLock sched = schedLock other) : sched = other := by
  cases sched
  cases other
  simpa [schedLock] using same

/-- What a sole owner's exit closes is its whole table. -/
theorem closed_eq_released {code : Int} {files : ProcessFiles} {closedFiles freed : List Nat}
    (sole : ∀ i < fdMax, ((sched.processes sched.schedProcess).files.fd (i : Nat)).all
      (fun file => (sched.files file).count = 1 ∧ hasRelease (sched.files file)) = true)
    (closing : (List.range fdMax).foldlM (schedExitFile sched.schedProcess)
        (schedLock (closed code (sched.processes sched.schedProcess).files sched.released sched.freed sched)) =
      some (schedLock (closed code files closedFiles freed sched))) :
    closed code files closedFiles freed sched = released code sched := by
  apply schedLock_injective
  apply Option.some.inj
  rw [← closing, schedExitFiles_closes List.nodup_range]
  · simp [released, closed, schedLock]
  · intro i member
    simp only [closed, schedLock, Function.update_self]
    exact sole i (List.mem_range.mp member)

theorem moves_tracked (settled : Settled sched nodes) (tracked : Tracked sched)
    (moves : Moves sched nodes action next nodes') (owner : SoleOwner sched action) : Tracked next := by
  have current := settled.valid.current
  cases moves with
  | served => exact tracked
  | unserved => exact tracked
  | counted => exact ticked_tracked tracked current
  | @preempted links _ prio _ _ _ _ _ queued =>
    have listed := (ticked_tracked tracked current).relist ⟨links, prio⟩ sched.queued
    exact dispatched_tracked (updated_tracked listed current) (queued.known _ List.mem_cons_self)
  | scheduled _ shape =>
    exact dispatched_tracked tracked (settled.valid.queued.known _ (shape ▸ List.mem_cons_self))
  | @spawned _ parent _ _ _ kind =>
    have known : parent < sched.schedPid := by
      rcases kind with ⟨_, same⟩ | ⟨_, known⟩
      · exact same ▸ tracked.current
      · exact known
    exact (spawned_tracked tracked known).relist _ _
  | exited other closing _ queued =>
    rw [closed_eq_released (owner other) closing]
    exact dispatched_tracked (updated_tracked (released_tracked tracked (owner other)) current)
      (queued.known _ List.mem_cons_self)
  | opened =>
    rcases virtFsOpen_cases owner with same | ⟨content, same⟩ | ⟨content, i, single, bound, alive, free, same⟩
    · rw [same]
      exact tracked
    · rw [same]
      exact refused_tracked tracked
    · rw [same]
      exact installed_tracked tracked single bound alive free

theorem schedStart_tracked (stackKernel pageDir : Nat) : Tracked (schedStart stackKernel pageDir) := by
  have single : (schedStart stackKernel pageDir).schedTid = 1 := rfl
  have empty (pid : Nat) : ((schedStart stackKernel pageDir).processes pid).files.fd = fun _ => none := by
    by_cases boot : pid = 0
    · rw [boot]
      rfl
    · simp [schedStart, schedInit, schedProcessCreate, schedProcessCloneFiles, schedThreadCreate, schedZero, schedLock,
        schedUnlock, Sched.setProcess, Sched.setThread, boot]
  refine ⟨?_, ?_, ?_, ?_, ?_, Nat.zero_lt_one, ?_⟩
  · intro file opened
    cases opened
  · intro file opened
    cases opened
  · intro file _
    exact ⟨List.not_mem_nil, List.not_mem_nil⟩
  · intro file _ pid
    apply List.countP_eq_zero.mpr
    simp [empty]
  · intro pid gone
    cases gone
  · intro thread bound
    have boot : thread = 0 := by omega
    rw [boot]
    exact Nat.zero_lt_one

/-- In a run whose opens find a descriptor and whose exiting processes alone own
their files, every open file's count is the number of its descriptors, and a
file whose last descriptor is gone was released and freed once. -/
theorem open_files_accounted {stackKernel pageDir : Nat} {actions : List SchedAction} {final : Sched}
    (met : Meets schedStep SoleOwner (schedStart stackKernel pageDir) actions)
    (ran : run schedStep (schedStart stackKernel pageDir) actions = some final) :
    ∀ file ∈ final.opened,
      (0 < openSlots final file → (final.files file).count = openSlots final file ∧
        file ∉ final.released ∧ file ∉ final.freed) ∧
      (openSlots final file = 0 → final.freed.count file = 1 ∧
        final.released.count file = if hasRelease (final.files file) then 1 else 0) := by
  have kept := run_invariant (fun sched => (∃ nodes, Settled sched nodes) ∧ Tracked sched) ?_
    ⟨⟨[], schedStart_settled stackKernel pageDir⟩, schedStart_tracked stackKernel pageDir⟩ met ran
  · intro file opened
    have accounted := kept.2.accounted file opened
    unfold Accounted at accounted
    refine ⟨fun used => ?_, fun unused => ?_⟩
    · rw [if_neg (by omega)] at accounted
      exact ⟨accounted.1, List.count_eq_zero.mp accounted.2.2, List.count_eq_zero.mp accounted.2.1⟩
    · rwa [if_pos unused] at accounted
  · intro before action after ⟨⟨nodes, settled⟩, tracked⟩ owner stepped
    obtain ⟨nodes', moves, kept⟩ := schedStep_settled settled stepped
    exact ⟨⟨nodes', kept⟩, moves_tracked settled tracked moves owner⟩

theorem open_files_accounted_example : ∃ final,
    run schedStep (schedStart 0 0) ([.load 1 1, .load 2 2, .load 3 3, .schedule] ++ List.replicate 8 .tick ++
      [.openFile 0 (.ok (some ⟨none, true⟩)), .exit 0]) = some final ∧
    final.opened = [0] ∧ openSlots final 0 = 0 ∧ final.freed.count 0 = 1 := by
  have ends : (run schedStep (schedStart 0 0) ([.load 1 1, .load 2 2, .load 3 3, .schedule] ++ List.replicate 8 .tick ++
      [.openFile 0 (.ok (some ⟨none, true⟩)), .exit 0])).map (fun final => (final.opened, openSlots final 0)) =
      some ([0], 0) := by decide +kernel
  obtain ⟨final, ran, same⟩ := Option.map_eq_some_iff.mp ends
  simp only [Prod.mk.injEq] at same
  have opened : 0 ∈ final.opened := by simp [same.1]
  exact ⟨final, ran, same.1, same.2, ((open_files_accounted (by decide +kernel) ran 0 opened).2 same.2).1⟩

/-- A parent opens a file and forks twice; one child exits. The file keeps two
descriptors and the count of three. -/
theorem exit_keeps_shared_count : ∃ final,
    run schedStep (schedStart 0 0) ([.load 1 1, .schedule, .openFile 0 (.ok (some ⟨none, false⟩)), .fork 1 2 2, .fork 1 3 3] ++
      List.replicate 8 .tick ++ [.exit 0]) = some final ∧
    final.opened = [0] ∧ final.exited = [2] ∧ openSlots final 0 = 2 ∧ (final.files 0).count = 3 := by
  have ends : (run schedStep (schedStart 0 0) ([.load 1 1, .schedule, .openFile 0 (.ok (some ⟨none, false⟩)), .fork 1 2 2,
      .fork 1 3 3] ++ List.replicate 8 .tick ++ [.exit 0])).map
      (fun final => (final.opened, final.exited, openSlots final 0, (final.files 0).count)) = some ([0], [2], 2, 3) := by
    decide +kernel
  obtain ⟨final, ran, same⟩ := Option.map_eq_some_iff.mp ends
  simp only [Prod.mk.injEq] at same
  exact ⟨final, ran, same⟩

end YuzuOS.Proofs.SchedulerFiles
