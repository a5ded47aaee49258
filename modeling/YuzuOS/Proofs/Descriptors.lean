import YuzuOS.Proofs.SchedulerFiles

/-! Calls with descriptors from user space, in runs. The descriptors that reach
the table unchecked are those from `FD_MAX` on, and the error of a search that
ends halfway through the table. -/

namespace YuzuOS.Proofs.Descriptors
open YuzuOS.Library YuzuOS.Kernel YuzuOS.Proofs.SchedulerFiles

/-- `found` is what looking up the path has given: an error, or the operations of the file. -/
inductive DescriptorCall
  | openFile (flags : Nat) (found : Except { result : Int // result < 0 } (Option VfsFileOp))
  | fstat (fd : Int)
  | fread (fd : Int) (buffer count : Nat)

def outcome (found : Except { result : Int // result < 0 } (Option VfsFileOp)) : Except Int (Option VfsFileOp) :=
  found.mapError (·.val)

def table (sched : Sched) : Int → Option Nat := (sched.processes sched.schedProcess).files.fd

structure DescriptorState where
  sched : Sched
  memory : Memory

section Run
variable (getattr : VfsFile → Int) (read : VfsFile → Memory → Nat → Nat → Nat → Option (Int × Memory × VfsFile))

/-- A read leaves its file where it was found. -/
def descriptorStep (state : DescriptorState) : DescriptorCall → Option DescriptorState
  | .openFile flags found => some { state with sched := (virtFsOpen flags (outcome found) state.sched).2 }
  | .fstat _ => some state
  | .fread fd buffer count =>
    (virtFsFreadSlots read fd state.memory buffer count state.sched).2.map fun (_, memory, file) =>
      match table state.sched fd, file with
      | some entry, some file => { sched := state.sched.setFile entry file, memory }
      | _, _ => { state with memory }

def Occupied (sched : Sched) (fd : Int) : Prop := 0 ≤ fd ∧ fd < fdMax ∧ table sched fd ≠ none

def InTable (slots : List Int) : Prop := ∀ slot ∈ slots, 0 ≤ slot ∧ slot < fdMax

/-- An error and the table as it was, or a slot that was empty and has the new file. -/
def OpenContract (flags : Nat) (found : Except { result : Int // result < 0 } (Option VfsFileOp)) (sched : Sched) :
    Prop :=
  let ran := virtFsOpen flags (outcome found) sched
  (ran.1 < 0 ∧ table ran.2 = table sched ∨
    0 ≤ ran.1 ∧ ran.1 < fdMax ∧ table sched ran.1 = none ∧
      table ran.2 = Function.update (table sched) ran.1 (some sched.fileCount) ∧
      ∃ op, found = .ok op ∧ ran.2.files sched.fileCount = virtFsFileSet flags op) ∧
    ((∀ fd : Int, 0 ≤ fd → fd < fdMax → table sched fd ≠ none) → ran.1 < 0)

def Contract (state : DescriptorState) : DescriptorCall → Prop
  | .openFile flags found => OpenContract flags found state.sched
  | .fstat fd => InTable (virtFsFstat getattr fd state.sched).1 ∧
      (¬Occupied state.sched fd → (virtFsFstat getattr fd state.sched).2 = -eBadf)
  | .fread fd buffer count =>
    InTable (virtFsFreadSlots read fd state.memory buffer count state.sched).1 ∧
      (¬Occupied state.sched fd →
        (virtFsFreadSlots read fd state.memory buffer count state.sched).2.map (·.1) = some (-eBadf))

/-- Opening gives up, or there is an empty slot in the lower half of the table; a descriptor is not beyond the table. -/
def Checked (state : DescriptorState) : DescriptorCall → Prop
  | .openFile _ found => ¬ opensFile (outcome found) ∨ ∃ i < 256, table state.sched (i : Nat) = none
  | .fstat fd | .fread fd _ _ => fd < fdMax

def Allocated (sched : Sched) : Prop := ∀ fd file, table sched fd = some file → file < sched.fileCount

variable {state final : DescriptorState} {sched : Sched} {flags : Nat} {fd : Int}
  {found : Except { result : Int // result < 0 } (Option VfsFileOp)} {calls : List DescriptorCall}
  {call : DescriptorCall}

theorem open_refused (flags : Nat) (sched : Sched) (refused : ¬ opensFile (outcome found)) :
    (virtFsOpen flags (outcome found) sched).1 < 0 ∧ table (virtFsOpen flags (outcome found) sched).2 = table sched ∧
      sched.fileCount ≤ (virtFsOpen flags (outcome found) sched).2.fileCount := by
  cases found with
  | error result => exact ⟨result.property, rfl, le_rfl⟩
  | ok op =>
    have failed : (op.bind (·.openFile)).getD 0 < 0 := by simpa [outcome, Except.mapError, opensFile] using refused
    simp only [outcome, Except.mapError, virtFsOpen, failed, if_true]
    exact ⟨trivial, rfl, Nat.le_succ _⟩

/-- The descriptor is the outcome of the search, whatever that is. -/
theorem open_installs (flags : Nat) (sched : Sched) (opens : opensFile (outcome found)) :
    (virtFsOpen flags (outcome found) sched).1 = virtFsFdFind (sched.processes sched.schedProcess).files 0 ∧
      table (virtFsOpen flags (outcome found) sched).2 = Function.update (table sched)
        (virtFsFdFind (sched.processes sched.schedProcess).files 0) (some sched.fileCount) ∧
      (virtFsOpen flags (outcome found) sched).2.fileCount = sched.fileCount + 1 ∧
      ∃ op, found = .ok op ∧ (virtFsOpen flags (outcome found) sched).2.files sched.fileCount =
        virtFsFileSet flags op := by
  cases found with
  | error result => cases opens
  | ok op =>
    have fine : ¬ (op.bind (·.openFile)).getD 0 < 0 := by simpa [outcome, Except.mapError, opensFile] using opens
    simp only [outcome, Except.mapError, virtFsOpen, fine, if_false]
    refine ⟨trivial, ?_, rfl, op, rfl, ?_⟩
    · simp [table, Sched.setFd, Sched.setFile, Sched.setProcess]
    · simp [Sched.setFd, Sched.setFile, Sched.setProcess]

theorem virtFsFdFind_full {files : ProcessFiles} (full : ¬ ∃ i < 256, files.fd (i : Nat) = none) :
    virtFsFdFind files 0 = -eInval := by
  unfold virtFsFdFind
  cases found : (List.range' 0 (256 - 0)).find? fun i : Nat => files.fd i = none with
  | none => rfl
  | some first =>
    have within := (List.mem_range'_1.mp (List.mem_of_find?_eq_some found)).2
    exact absurd ⟨first, by omega, by simpa using List.find?_some found⟩ full

theorem open_contract_iff (allocated : Allocated sched) : OpenContract flags found sched ↔
    ¬ opensFile (outcome found) ∨ ∃ i < 256, table sched (i : Nat) = none := by
  by_cases opens : opensFile (outcome found) = true
  · obtain ⟨result, installed, _, new⟩ := open_installs flags sched opens
    constructor
    · intro contract
      refine .inr (by_contra fun full => ?_)
      rw [virtFsFdFind_full full] at result installed
      rcases contract.1 with ⟨_, same⟩ | ⟨positive, _⟩
      · have stored := congrFun (installed.symm.trans same) (-eInval)
        rw [Function.update_self] at stored
        exact Nat.lt_irrefl _ (allocated _ _ stored.symm)
      · rw [result, eInval] at positive
        omega
    · rintro (refused | free)
      · exact absurd opens refused
      · obtain ⟨i, bound, empty, descriptor⟩ := virtFsFdFind_free free
        rw [descriptor] at result installed
        have inside : (i : Int) < fdMax := by
          unfold fdMax
          omega
        refine ⟨.inr ?_, fun full => absurd empty (full i (by omega) inside)⟩
        rw [result]
        exact ⟨by omega, inside, empty, installed, new⟩
  · obtain ⟨negative, same, _⟩ := open_refused flags sched opens
    exact iff_of_true ⟨.inl ⟨negative, same⟩, fun _ => negative⟩ (.inl opens)

theorem fdGet_contract_iff (answer : Option VfsFile → Prop) (none : answer none) :
    InTable (virtFsFdGet fd sched).1 ∧ (¬Occupied sched fd → answer (virtFsFdGet fd sched).2) ↔ fd < fdMax := by
  by_cases negative : fd < 0
  · have small : fd < fdMax := by omega
    simp [virtFsFdGet, negative, InTable, none, small]
  · rw [virtFsFdGet, if_neg negative]
    constructor
    · intro contract
      exact (contract.1 fd List.mem_cons_self).2
    · intro small
      refine ⟨fun slot member => List.mem_singleton.mp member ▸ ⟨not_lt.mp negative, small⟩, fun free => ?_⟩
      have empty : table sched fd = Option.none := by
        by_contra occupied
        exact free ⟨not_lt.mp negative, small, occupied⟩
      have nothing : ((sched.processes sched.schedProcess).files.fd fd).map sched.files = Option.none :=
        congrArg (Option.map sched.files) empty
      rw [nothing]
      exact none

theorem contract_iff (allocated : Allocated state.sched) : Contract getattr read state call ↔ Checked state call := by
  cases call with
  | openFile flags found => exact open_contract_iff allocated
  | fstat fd =>
    have answer : (virtFsFstat getattr fd state.sched).2 = (virtFsFdGet fd state.sched).2.elim (-eBadf) getattr := by
      unfold virtFsFstat
      obtain ⟨slots, entry⟩ := virtFsFdGet fd state.sched
      cases entry <;> rfl
    simp only [Contract, answer]
    exact fdGet_contract_iff (fun entry => entry.elim (-eBadf) getattr = -eBadf) rfl
  | fread fd buffer count =>
    apply fdGet_contract_iff (fun entry => (virtFsFread read fd entry state.memory buffer count).map (·.1) = some (-eBadf))
    unfold virtFsFread
    split <;> rfl

theorem descriptorStep_allocated (allocated : Allocated state.sched)
    (stepped : descriptorStep read state call = some final) :
    Allocated final.sched := by
  cases call with
  | openFile flags found =>
    cases stepped
    by_cases opens : opensFile (outcome found) = true
    · obtain ⟨_, installed, more, _⟩ := open_installs flags state.sched opens
      intro fd file holds
      simp only at holds
      rw [installed, Function.update_apply] at holds
      simp only [more]
      split at holds
      · cases holds
        exact Nat.lt_succ_self _
      · exact (allocated fd file holds).trans (Nat.lt_succ_self _)
    · obtain ⟨_, same, more⟩ := open_refused flags state.sched opens
      exact fun fd file holds => (allocated fd file (same ▸ holds)).trans_le more
  | fstat fd =>
    cases stepped
    exact allocated
  | fread fd buffer count =>
    obtain ⟨⟨result, memory, file⟩, _, content⟩ := Option.map_eq_some_iff.mp stepped
    cases content
    simp only
    split <;> exact allocated

/-- In any run, all calls do what they should just when each is checked by its arguments
and the table that it finds. -/
theorem descriptors_checked_iff (allocated : Allocated state.sched) :
    Meets (descriptorStep read) (Contract getattr read) state calls ↔
      Meets (descriptorStep read) Checked state calls := by
  induction calls generalizing state with
  | nil => exact Iff.rfl
  | cons call calls ih =>
    constructor
    · intro met
      exact ⟨(contract_iff getattr read allocated).mp met.1, fun next stepped =>
        (ih (descriptorStep_allocated read allocated stepped)).mp (met.2 next stepped)⟩
    · intro met
      exact ⟨(contract_iff getattr read allocated).mpr met.1, fun next stepped =>
        (ih (descriptorStep_allocated read allocated stepped)).mpr (met.2 next stepped)⟩

end Run

def unopened : DescriptorState := { sched := schedZero, memory := fun _ => 0 }

/-- A process whose first descriptors refer to one file, up to the middle of the table. -/
def halfOpened : DescriptorState :=
  { unopened with sched := { schedZero with
      fileCount := 1
      processes := fun _ => { schedZero.processes 0 with files := ⟨fun fd => if 0 ≤ fd ∧ fd < 256 then some 0 else none⟩ } } }

theorem unopened_allocated : Allocated unopened.sched := fun _ _ holds => nomatch holds

theorem halfOpened_allocated : Allocated halfOpened.sched := by
  intro fd file holds
  simp only [table, halfOpened] at holds
  split at holds
  · cases holds
    exact Nat.one_pos
  · cases holds

theorem descriptors_checked_iff_example : Meets (descriptorStep fun _ _ _ _ _ => none)
    (Contract (fun _ => 0) fun _ _ _ _ _ => none) unopened [.openFile 0 (.ok none), .fstat 0, .fstat (-1)] := by
  apply (descriptors_checked_iff (fun _ => 0) (fun _ _ _ _ _ => none) unopened_allocated).mpr
  have small : ((0 : Nat) : Int) < fdMax := by
    unfold fdMax
    decide
  exact ⟨.inr ⟨0, by decide, rfl⟩, fun _ _ => ⟨small, fun _ _ => ⟨(by decide : (-1 : Int) < 0).trans small, fun _ _ => trivial⟩⟩⟩

/-- A descriptor behind the table is read, and the table is full for `virt_fs_open` when half of it is. -/
theorem table_is_left : ¬Contract (fun _ => 0) (fun _ _ _ _ _ => none) unopened (.fstat 512) ∧
    ¬Contract (fun _ => 0) (fun _ _ _ _ _ => none) halfOpened (.openFile 0 (.ok none)) := by
  constructor
  · rw [contract_iff _ _ unopened_allocated, Checked]
    unfold fdMax
    decide
  · rw [contract_iff _ _ halfOpened_allocated, Checked]
    rintro (refused | ⟨i, bound, empty⟩)
    · exact refused rfl
    · simp only [table, halfOpened] at empty
      split at empty
      · cases empty
      · omega

end YuzuOS.Proofs.Descriptors
