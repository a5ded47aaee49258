import YuzuOS.Kernel.Ext2Operations
import YuzuOS.Proofs.Descriptors
import YuzuOS.Proofs.Ext2Files
import YuzuOS.Proofs.PathWalks

/-! Opening a path of an ext2 file system and using its descriptor. No kind of inode
provides `create`, and only regular files provide `read`; the calls go through both
without a test. -/

namespace YuzuOS.Proofs.Ext2Operations
open YuzuOS.Library YuzuOS.Kernel PathCache PathWalks Ext2Reading Ext2Files
open Descriptors hiding outcome

variable {ι : Type} {tree : Ext2Tree ι} {fs : ProcessFs} {state next : FileState ι} {fd : Int} {inode dir : ι}
  {flags pos file : Nat} {calls : List FileCall}

/-- A descriptor, a byte count or an error. -/
def IsAnswer (result : Int) : Prop := 0 ≤ result ∨ result ∈ [-eNoent, -eExist, -eBadf, -eInval]

/-- Every call returns an answer, the next ones in the state that it leaves. -/
def Serves (tree : Ext2Tree ι) (fd : Int) : FileState ι → List FileCall → Prop
  | _, [] => True
  | state, call :: calls => ∃ turns result next, fileStep tree turns fd state call = some (result, next) ∧ IsAnswer result ∧
      Serves tree fd next calls

/-- The path is opened, and calls on what was returned follow. -/
def Session (tree : Ext2Tree ι) (fs : ProcessFs) (call : OpenCall) (calls : List FileCall) (state : FileState ι) :
    Prop :=
  ∃ fd next, virtFsOpenPath tree fs call state = some (fd, next) ∧ IsAnswer fd ∧ Serves tree fd next calls

/-- Reads of a regular file below the top of the address space, with counts that a `ssize_t` holds. -/
def ReadsFit (tree : Ext2Tree ι) (inode : ι) : Nat → List FileCall → Prop
  | _, [] => True
  | pos, .fstat :: calls => ReadsFit tree inode pos calls
  | pos, .fread _ count :: calls =>
    let stop := min (pos + count.toNat) (tree.info inode).iSize
    inodeKind (tree.iMode inode) = .regular ∧ pos + count.toNat < 2 ^ 32 ∧ stop + tree.sb.blocksize ≤ 2 ^ 32 ∧
      stop - pos < 2 ^ 31 ∧ ReadsFit tree inode stop calls

def Readable (flags : Nat) : Prop := (virtFsFileSet flags none).mode &&& fmodeCanRead ≠ 0

instance (flags : Nat) : Decidable (Readable flags) := inferInstanceAs (Decidable (_ ≠ _))

/-- The walk comes to no `create`, and reads come to regular files only. -/
def Harmless (tree : Ext2Tree ι) (dir : ι) (call : OpenCall) (calls : List FileCall) (state : FileState ι) : Prop :=
  Reaches (ext2Ops tree) call.flags dir (components call.path.bytes) ∧
    ∀ inode, opened (ext2Ops tree) call.flags dir (components call.path.bytes) = some inode →
      (∃ i < 256, table state.sched (i : Nat) = none) → Readable call.flags → ReadsFit tree inode 0 calls

theorem ext2Ops_create (tree : Ext2Tree ι) (inode : ι) : (ext2Ops tree inode).create = none := by
  unfold ext2Ops ext2FsInodeRead
  cases inodeKind (tree.iMode inode) <;> rfl

theorem ext2_getattr (tree : Ext2Tree ι) (inode : ι) : (ext2FsInodeRead tree inode).getattr = none := by
  unfold ext2FsInodeRead
  cases inodeKind (tree.iMode inode) <;> rfl

theorem ext2_openFile (tree : Ext2Tree ι) (inode : ι) :
    ((ext2FsInodeRead tree inode).fop.map VfsFileTable.toVfsFileOp).bind (·.openFile) = none := by
  unfold ext2FsInodeRead
  cases inodeKind (tree.iMode inode) <;> rfl

theorem tree_geometry (tree : Ext2Tree ι) : Geometry tree.sb (256 * 2 ^ tree.logBlockSize) := by
  obtain ⟨words, least, most, divides, _⟩ := Ext2Volume.blockSize_facts tree.small
  exact ⟨words, least, most, divides⟩

/-- Calls on an error are refused. -/
theorem serves_negative (negative : fd < 0) (state : FileState ι) (calls : List FileCall) :
    Serves tree fd state calls := by
  induction calls generalizing state with
  | nil => trivial
  | cons call calls ih =>
    have nothing : fileAt fd state = none := if_pos negative
    cases call with
    | fstat => exact ⟨0, -eBadf, state, by simp [fileStep, fileStat, nothing], .inr (by decide), ih state⟩
    | fread buffer count =>
      refine ⟨0, -eBadf, { state with memory := state.memory }, ?_, .inr (by decide), ih _⟩
      simp [fileStep, fileRead, nothing, virtFsFread, negative]

/-- The descriptor stands for a file of its own at a position. -/
structure Holds (state : FileState ι) (fd : Int) (file : Nat) (inode : ι) (flags pos : Nat) : Prop where
  valid : ¬fd < 0
  slot : table state.sched fd = some file
  inode : state.inode file = some inode
  mode : (state.sched.files file).mode = (virtFsFileSet flags none).mode
  place : (state.sched.files file).pos = pos

theorem Holds.entry (holds : Holds state fd file inode flags pos) : fileAt fd state = some file := by
  rw [fileAt, if_neg holds.valid]
  exact holds.slot

theorem Holds.read (holds : Holds state fd file inode flags pos) {content : VfsFile} {stop : Nat} (memory : Memory)
    (mode : content.mode = (state.sched.files file).mode) (place : content.pos = stop) :
    Holds { state with sched := state.sched.setFile file content, memory } fd file inode flags stop where
  valid := holds.valid
  slot := holds.slot
  inode := holds.inode
  mode := by
    rw [← holds.mode, ← mode]
    exact congrArg VfsFile.mode (Function.update_self _ _ _)
  place := (congrArg VfsFile.pos (Function.update_self _ _ _)).trans place

variable (tree) in
theorem fileRead_refused (holds : Holds state fd file inode flags pos) (closed : ¬Readable flags)
    (turns buffer count : Nat) :
    fileRead tree turns fd buffer count state =
      some (-eInval, { state with sched := state.sched.setFile file (state.sched.files file) }) := by
  have mode : ¬((state.sched.files file).mode &&& fmodeCanRead ≠ 0) := by
    rw [holds.mode]
    exact closed
  simp only [fileRead, holds.entry, Option.map_some, virtFsFread, holds.valid, if_false, mode]

variable (tree) in
theorem fileRead_calls (holds : Holds state fd file inode flags pos) (readable : Readable flags)
    (turns buffer count : Nat) :
    fileRead tree turns fd buffer count state =
      (fileOpRead tree turns (some inode) (state.sched.files file) state.memory buffer count pos).map
        fun (result, memory, content) => (result, { state with sched := state.sched.setFile file content, memory }) := by
  have mode : (state.sched.files file).mode &&& fmodeCanRead ≠ 0 := by
    rw [holds.mode]
    exact readable
  simp only [fileRead, holds.entry, Option.map_some, Option.bind_some, holds.inode, virtFsFread, holds.valid, if_false, mode,
    if_true, holds.place, ne_eq, not_false_eq_true]
  cases fileOpRead tree turns (some inode) (state.sched.files file) state.memory buffer count pos <;> rfl

theorem fileOpRead_regular (regular : inodeKind (tree.iMode inode) = .regular) (turns : Nat) :
    fileOpRead tree turns (some inode) = ext2FsRead turns tree.sb (tree.info inode) := by
  simp [fileOpRead, ext2FsInodeRead, regular]

theorem fileOpRead_other (other : inodeKind (tree.iMode inode) ≠ .regular) (turns : Nat) :
    fileOpRead tree turns (some inode) = fun _ _ _ _ _ => none := by
  unfold fileOpRead ext2FsInodeRead
  cases kind : inodeKind (tree.iMode inode) with
  | regular => exact absurd kind other
  | directory => simp [kind]
  | special => simp [kind]

/-- A read of a regular file returns an answer exactly when it fits, and leaves the position behind it. -/
theorem regular_read (holds : Holds state fd file inode flags pos) (readable : Readable flags)
    (regular : inodeKind (tree.iMode inode) = .regular) (inside : pos ≤ (tree.info inode).iSize) (buffer : Nat)
    (count : BitVec 32) {rest : Prop}
    (later : ∀ next, Holds next fd file inode flags (min (pos + count.toNat) (tree.info inode).iSize) →
      (Serves tree fd next calls ↔ rest)) :
    (∃ turns result next, fileRead tree turns fd buffer count.toNat state = some (result, next) ∧ IsAnswer result ∧
      Serves tree fd next calls) ↔
      pos + count.toNat < 2 ^ 32 ∧ min (pos + count.toNat) (tree.info inode).iSize + tree.sb.blocksize ≤ 2 ^ 32 ∧
        min (pos + count.toNat) (tree.info inode).iSize - pos < 2 ^ 31 ∧ rest := by
  have geometry := tree_geometry tree
  have least := geometry.least
  have words := geometry.words
  have calls_read := fun turns => fileRead_calls tree holds readable turns buffer count.toNat
  simp only [fileOpRead_regular regular] at calls_read
  have stop : pos + (min (pos + count.toNat) (tree.info inode).iSize - pos) = min (pos + count.toNat) (tree.info inode).iSize := by
    omega
  constructor
  · rintro ⟨turns, result, next, ran, answer, serves⟩
    rw [calls_read] at ran
    obtain ⟨outcome, read, same⟩ := Option.map_eq_some_iff.mp ran
    obtain ⟨small, fits⟩ := ext2FsRead_ends geometry inside count.isLt read
    obtain ⟨more, spec⟩ := ext2FsRead_spec geometry (state.sched.files file) state.memory buffer inside small fits
    have unique := ext2FsRead_unique read spec
    subst unique
    cases same
    refine ⟨small, fits, ?_, (later _ (holds.read _ ?_ ?_)).mp serves⟩
    · by_contra large
      simp only [readResult, large, if_false] at answer
      simp only [IsAnswer, List.mem_cons, List.not_mem_nil, or_false, eNoent, eExist, eBadf, eInval] at answer
      omega
    · rfl
    · exact stop
  · rintro ⟨small, fits, short, rest⟩
    obtain ⟨turns, spec⟩ := ext2FsRead_spec geometry (state.sched.files file) state.memory buffer inside small fits
    have ran := calls_read turns
    rw [spec, Option.map_some] at ran
    refine ⟨turns, _, _, ran, ?_, (later _ (holds.read _ ?_ ?_)).mpr rest⟩
    · rw [readResult, if_pos short]
      exact .inl (Int.natCast_nonneg _)
    · rfl
    · exact stop

/-- Calls on an open file are answered exactly when its reads fit. -/
theorem serves_iff (holds : Holds state fd file inode flags pos) (inside : pos ≤ (tree.info inode).iSize) :
    Serves tree fd state calls ↔ (Readable flags → ReadsFit tree inode pos calls) := by
  induction calls generalizing state pos with
  | nil => exact ⟨fun _ _ => trivial, fun _ => trivial⟩
  | cons call calls ih =>
    cases call with
    | fstat =>
      have step : ∀ turns, fileStep tree turns fd state .fstat = some (0, state) := by
        intro turns
        simp [fileStep, fileStat, holds.entry, holds.inode, ext2_getattr]
      constructor
      · rintro ⟨turns, result, next, ran, -, serves⟩
        rw [step] at ran
        cases ran
        exact (ih holds inside).mp serves
      · intro fit
        exact ⟨0, 0, state, step 0, .inl le_rfl, (ih holds inside).mpr fit⟩
    | fread buffer count =>
      by_cases readable : Readable flags
      · rw [forall_prop_of_true readable, ReadsFit]
        by_cases regular : inodeKind (tree.iMode inode) = .regular
        · rw [and_iff_right regular]
          refine regular_read holds readable regular inside buffer count fun next held => ?_
          rw [ih held (Nat.min_le_right _ _), forall_prop_of_true readable]
        · constructor
          · rintro ⟨turns, result, next, ran, -, -⟩
            have undefined := fileRead_calls tree holds readable turns buffer count.toNat
            rw [fileOpRead_other regular] at undefined
            rw [fileStep, undefined] at ran
            cases ran
          · exact fun fit => absurd fit.1 regular
      · have refused := fileRead_refused tree holds readable 0 buffer count.toNat
        have held : Holds { state with sched := state.sched.setFile file (state.sched.files file) } fd file inode flags pos :=
          holds.read state.memory rfl holds.place
        constructor
        · exact fun _ wanted => absurd wanted readable
        · intro _
          exact ⟨0, _, _, refused, .inr (by decide), (ih held inside).mpr fun wanted => absurd wanted readable⟩

variable (tree) in
theorem open_holds (call : OpenCall) (state : FileState ι) {cache : Dcache ι} {dentry : Nat}
    (found : (cache.dentries dentry).inode = some inode) :
    ∃ fd sched, virtFsOpen call.flags (.ok ((ext2FsInodeRead tree inode).fop.map VfsFileTable.toVfsFileOp)) state.sched =
      (fd, sched) ∧ IsAnswer fd ∧ (fd < 0 ↔ ¬∃ i < 256, table state.sched (i : Nat) = none) ∧
      (¬fd < 0 → Holds { state with cache, sched, dentry := Function.update state.dentry state.sched.fileCount dentry } fd
        state.sched.fileCount inode call.flags 0) := by
  have opens : SchedulerFiles.opensFile
      (Descriptors.outcome (.ok ((ext2FsInodeRead tree inode).fop.map VfsFileTable.toVfsFileOp))) = true := by
    have untested : (((ext2FsInodeRead tree inode).fop.map VfsFileTable.toVfsFileOp).bind (·.openFile)).getD 0 = 0 := by
      rw [ext2_openFile]
      rfl
    simp only [Descriptors.outcome, Except.mapError, SchedulerFiles.opensFile, untested, le_refl, decide_true]
  obtain ⟨result, installed, -, op, -, content⟩ := open_installs call.flags state.sched opens
  have same : Descriptors.outcome (.ok ((ext2FsInodeRead tree inode).fop.map VfsFileTable.toVfsFileOp)) =
      .ok ((ext2FsInodeRead tree inode).fop.map VfsFileTable.toVfsFileOp) := rfl
  rw [same] at result installed content
  generalize virtFsOpen call.flags (.ok ((ext2FsInodeRead tree inode).fop.map VfsFileTable.toVfsFileOp)) state.sched = ran
    at result installed content ⊢
  obtain ⟨fd, sched⟩ := ran
  simp only at result installed content
  have search : (∃ i < 256, table state.sched (i : Nat) = none) ∧ 0 ≤ fd ∨
      (¬∃ i < 256, table state.sched (i : Nat) = none) ∧ fd = -eInval := by
    by_cases free : ∃ i < 256, table state.sched (i : Nat) = none
    · obtain ⟨i, -, -, descriptor⟩ := SchedulerFiles.virtFsFdFind_free free
      exact .inl ⟨free, by rw [result, descriptor]; exact Int.natCast_nonneg _⟩
    · exact .inr ⟨free, by rw [result, virtFsFdFind_full free]⟩
  refine ⟨fd, sched, rfl, ?_, ?_, fun valid => ⟨valid, ?_, ?_, ?_, ?_⟩⟩
  · rcases search with ⟨-, positive⟩ | ⟨-, refused⟩
    · exact .inl positive
    · exact .inr (by rw [refused]; decide)
  · rcases search with ⟨free, positive⟩ | ⟨full, refused⟩
    · exact iff_of_false (not_lt.mpr positive) (not_not_intro free)
    · exact iff_of_true (by rw [refused]; decide) full
  · rw [installed, ← result, Function.update_self]
  · exact (congrArg (fun dentry => (cache.dentries dentry).inode) (Function.update_self _ _ _)).trans found
  · exact (congrArg VfsFile.mode content).trans rfl
  · exact (congrArg VfsFile.pos content).trans rfl

/-- A path is opened and used without a call through `NULL` exactly when this is harmless. -/
theorem session_iff {children : Nat → List Nat} (call : OpenCall) (calls : List FileCall)
    (cached : Cached (ext2Ops tree) state.cache children) (known : startDentry fs call.path.bytes < state.cache.count)
    (start : (state.cache.dentries (startDentry fs call.path.bytes)).inode = some dir) :
    Session tree fs call calls state ↔ Harmless tree dir call calls state := by
  have ends : Ends (ext2Ops tree) state.cache call.flags dir (components call.path.bytes)
      (virtFsPathFind (ext2Ops tree) fs call.path call.flags call.mode state.cache) :=
    find_ends (ext2Ops_create tree) cached known start
  unfold Session Harmless virtFsOpenPath
  rcases ends with ⟨unsafe_, undefined⟩ | ⟨reaches, result, nameidata, next, _, ran, _, _, found⟩
  · rw [undefined]
    constructor
    · rintro ⟨_, _, ran, _⟩
      cases ran
    · exact fun harmless => absurd harmless.1 unsafe_
  · rw [ran, Option.bind_some]
    cases at_end : opened (ext2Ops tree) call.flags dir (components call.path.bytes) with
    | none =>
      rw [at_end] at found
      have negative : result < 0 := by
        rcases found with rfl | rfl
        · decide
        · decide
      have answer : IsAnswer result := by
        rcases found with rfl | rfl
        · exact .inr (by decide)
        · exact .inr (by decide)
      simp only [negative, if_true]
      exact iff_of_true ⟨_, _, rfl, answer, serves_negative negative _ _⟩ ⟨reaches, fun inode ends => by cases ends⟩
    | some inode =>
      rw [at_end] at found
      obtain ⟨rfl, last⟩ := found
      obtain ⟨fd, sched, opened_file, answer, refused, holds⟩ := open_holds tree call state last
      simp only [lt_irrefl, if_false, last, Option.map_some, opened_file]
      constructor
      · rintro ⟨_, _, ran, -, serves⟩
        cases ran
        refine ⟨reaches, fun other ends free => ?_⟩
        cases ends
        exact (serves_iff (holds fun negative => refused.mp negative free) (Nat.zero_le _)).mp serves
      · rintro ⟨-, harmless⟩
        refine ⟨_, _, rfl, answer, ?_⟩
        by_cases negative : fd < 0
        · exact serves_negative negative _ _
        · have free := not_not.mp fun full => negative (refused.mpr full)
          exact (serves_iff (holds negative) (Nat.zero_le _)).mpr (harmless inode rfl free)

def openStep (tree : Ext2Tree ι) (fs : ProcessFs) (state : FileState ι) (call : OpenCall) : Option (FileState ι) :=
  (virtFsOpenPath tree fs call state).map (·.2)

structure Rooted (tree : Ext2Tree ι) (root : ι) (state : FileState ι) : Prop where
  cached : ∃ children, Cached (ext2Ops tree) state.cache children
  first : 0 < state.cache.count
  root : (state.cache.dentries 0).inode = some root

def rootFs : ProcessFs := ⟨0, 0, 0⟩

theorem rootFs_start (path : List (BitVec 8)) : startDentry rootFs path = 0 := ite_self _

theorem openStep_rooted {root : ι} {call : OpenCall} (rooted : Rooted tree root state)
    (stepped : openStep tree rootFs state call = some next) : Rooted tree root next := by
  obtain ⟨⟨children, cached⟩, first, start⟩ := rooted
  have ends : Ends (ext2Ops tree) state.cache call.flags root (components call.path.bytes)
      (virtFsPathFind (ext2Ops tree) rootFs call.path call.flags call.mode state.cache) :=
    find_ends (ext2Ops_create tree) cached (by rw [rootFs_start]; exact first) (by rw [rootFs_start]; exact start)
  unfold openStep virtFsOpenPath at stepped
  rcases ends with ⟨-, undefined⟩ | ⟨-, result, nameidata, cache, after, ran, kept, grows, -⟩
  · rw [undefined] at stepped
    cases stepped
  · have moved : next.cache = cache := by
      rw [ran, Option.bind_some] at stepped
      simp only at stepped
      split at stepped
      next =>
        cases stepped
        rfl
      next =>
        cases found : (cache.dentries nameidata.dentry).inode with
        | none =>
          rw [found] at stepped
          cases stepped
        | some inode =>
          rw [found] at stepped
          cases stepped
          rfl
    rw [← moved] at kept grows
    exact ⟨⟨after, kept⟩, Nat.lt_of_lt_of_le first grows.count, by rw [grows.kept 0 first]; exact start⟩

/-- The system after `virt_fs_mount_root`, whatever else it holds. -/
def mounted (root : ι) (links : Links DentryField) (dentries : Nat → VfsDentry ι) (sched : Sched) (memory : Memory)
    (dentry : Nat → Nat) : FileState ι :=
  ⟨(virtFsMountRoot root links dentries).2, sched, memory, dentry⟩

/-- After any opens, opening a path and using its descriptor comes to no missing operation
exactly when the call creates nothing and the reads are reads of a regular file that fit. -/
theorem ext2_session_iff {root : ι} {links : Links DentryField} {dentries : Nat → VfsDentry ι} {sched : Sched}
    {memory : Memory} {dentry : Nat → Nat} {earlier : List OpenCall}
    (reached : run (openStep tree rootFs) (mounted root links dentries sched memory dentry) earlier = some state)
    (call : OpenCall) (calls : List FileCall) :
    Session tree rootFs call calls state ↔ Harmless tree root call calls state := by
  have initial : Rooted tree root (mounted root links dentries sched memory dentry) := by
    exact ⟨⟨_, mountRoot_cached root links dentries⟩, Nat.one_pos, rfl⟩
  obtain ⟨⟨children, cached⟩, first, start⟩ :=
    run_always (Rooted tree root) (fun before call after kept stepped => openStep_rooted kept stepped) initial reached
  exact session_iff call calls cached (by rw [rootFs_start]; exact first) (by rw [rootFs_start]; exact start)

/-- The root directory (2) with the file `a` (11), which is empty. -/
def exampleTree : Ext2Tree Nat where
  device := fun _ => 0
  logBlockSize := 0
  small := exampleVolume.small
  iMode inode := if inode = 2 then 0o040755 else 0o100644
  info _ := ⟨0, 0, fun _ => 0, by decide⟩
  lookup dir name := if dir = 2 ∧ name = [97] then some 11 else none

def exampleState : FileState Nat := mounted 2 ⟨id, id⟩ (fun _ => ⟨[], none, none⟩) schedZero (fun _ => 0) fun _ => 0

def exampleOpen : OpenCall := ⟨⟨[47, 97], by decide⟩, 0, 0⟩

/-- `/a/b` with `O_CREAT` -/
def creatingOpen : OpenCall := ⟨⟨[47, 97, 47, 98], by decide⟩, oCreat, 0⟩

/-- The root directory -/
def directoryOpen : OpenCall := ⟨⟨[47], by decide⟩, 0, 0⟩

theorem ext2_session_iff_example : Session exampleTree rootFs exampleOpen [.fstat, .fread 0 5] exampleState := by
  have names : components exampleOpen.path.bytes = [[97]] := by decide
  have found : (ext2Ops exampleTree 2).lookup.bind (· [97]) = some 11 := by decide
  refine (ext2_session_iff (run_nil _) exampleOpen [.fstat, .fread 0 5]).mpr ⟨?_, fun inode ends _ _ => ?_⟩
  · rw [names, Reaches, found]
    exact ⟨by decide, trivial⟩
  · rw [names, opened, if_neg (by decide), resolve_cons, found] at ends
    cases ends
    exact ⟨by decide, by decide, by decide, by decide, trivial⟩

/-- A directory is read, and a file is created below one that is no directory. -/
theorem missing_operations_called : ¬Session exampleTree rootFs directoryOpen [.fread 0 1] exampleState ∧
    ¬Session exampleTree rootFs creatingOpen [] exampleState := by
  have cached : Cached (ext2Ops exampleTree) exampleState.cache fun _ => [] := mountRoot_cached 2 _ _
  constructor
  · rw [session_iff directoryOpen _ cached (by decide) rfl]
    intro harmless
    have names : components directoryOpen.path.bytes = [] := by decide
    have fit := harmless.2 2 (by rw [names]; rfl) ⟨0, by decide, rfl⟩ (by decide)
    exact absurd fit.1 (by decide)
  · rw [session_iff creatingOpen _ cached (by decide) rfl]
    intro harmless
    have names : components creatingOpen.path.bytes = [[97], [98]] := by decide
    have found : (ext2Ops exampleTree 2).lookup.bind (· [97]) = some 11 := by decide
    have missing : (ext2Ops exampleTree 11).lookup.bind (· [98]) = none := by decide
    have reaches := harmless.1
    rw [names, Reaches, found] at reaches
    have last : Reaches (ext2Ops exampleTree) creatingOpen.flags 11 [[98]] := reaches.2
    rw [Reaches, missing] at last
    exact last.2 ⟨rfl, by decide⟩

end YuzuOS.Proofs.Ext2Operations
