import YuzuOS.Kernel.Ext2Mount
import YuzuOS.Proofs.Ext2Lookup
import YuzuOS.Proofs.Ext2Operations
import YuzuOS.Proofs.InodeTable

/-! Whole files from a device, from the bytes of the superblock to the buffer of the caller. A tree of nodes under
the numbers of their inodes says what the device holds. -/

namespace YuzuOS.Proofs.Ext2Image
open YuzuOS.Library YuzuOS.Kernel Ext2Reading Ext2Files Ext2Lookup Ext2Operations InodeTable PathCache PathWalks
open Descriptors (table)

inductive Node
  | file (bytes : List (BitVec 8))
  | directory (entries : List (List (BitVec 8) × Nat))

def find (nodes : Nat → Option Node) : Nat → List (List (BitVec 8)) → Option Nat
  | ino, [] => some ino
  | ino, name :: names => match nodes ino with
    | some (.directory entries) => (entries.lookup name).bind fun ino => find nodes ino names
    | _ => none

structure FileStored (volume : Ext2Volume) (inode : Ext2Inode) (bytes : List (BitVec 8)) : Prop where
  size : inode.iSize = bytes.length
  small : bytes.length < 2 ^ 31
  holeFree : volume.HoleFree inode
  content : ∀ i < bytes.length, volume.content inode i = bytes.getD i 0

/-- Each of the entries is a record in use that the search meets first. -/
def DirectoryStored (volume : Ext2Volume) (inode : Ext2Inode) (entries : List (List (BitVec 8) × Nat)) : Prop :=
  ∃ directory : Directory volume inode, ∀ name ino, entries.lookup name = some ino →
    directory.Decided name ∧ ∀ other, directory.Live name other ↔ other = ino

variable {device : Memory} {sb : Ext2Sb} {nodes : Nat → Option Node} {ino target : Nat} {bytes : List (BitVec 8)}
  {name : List (BitVec 8)} {names : List (List (BitVec 8))}

def volumeOf (device : Memory) (sb : Ext2Sb) (small : sb.sLogBlockSize ≤ 6) (valid : Valid device sb) : Ext2Volume :=
  ⟨device, sb.sLogBlockSize, sb.sBlocksCount, small, valid.addressable⟩

/-- The record of the inode in the table of its group. -/
def recordAt (device : Memory) (sb : Ext2Sb) (ino : Nat) : Memory :=
  let table := inodeTable device sb (sb.getGroupFromInode ino) * sb.blockSize
  fun i => device (table + sb.sInodeSize * sb.getRelativeInodeInGroup ino + i)

/-- The device holds the nodes, with inodes of the size of the structure. -/
structure Image (device : Memory) (sb : Ext2Sb) (nodes : Nat → Option Node) : Prop where
  mounts : ext2FsMount device = some sb
  small : sb.sLogBlockSize ≤ 6
  valid : Valid device sb
  sized : sb.sInodeSize = ext2InodeStructSize
  numbered : ∀ ino node, nodes ino = some node → Numbered sb ino
  files : ∀ ino bytes, nodes ino = some (.file bytes) → inodeKind (iModeAt (recordAt device sb ino)) = .regular ∧
    FileStored (volumeOf device sb small valid) (ext2InodeAt (recordAt device sb ino)) bytes
  directories : ∀ ino entries, nodes ino = some (.directory entries) →
    inodeKind (iModeAt (recordAt device sb ino)) = .directory ∧
    DirectoryStored (volumeOf device sb small valid) (ext2InodeAt (recordAt device sb ino)) entries

/-! ### Inodes and names -/

theorem inodeBytes_record (valid : Valid device sb) (sized : sb.sInodeSize = ext2InodeStructSize)
    (numbered : Numbered sb ino) :
    inodeBytes device sb ino = recordAt device sb ino := by
  funext i
  have position : place (sb.mounted device) (ext2FsInodeGet (sb.mounted device) sb ino) =
      inodeTable device sb
        (sb.getGroupFromInode ino) * sb.blockSize + sb.sInodeSize * sb.getRelativeInodeInGroup ino := by
    rw [inodeGet_place valid numbered, record_split valid ino, Nat.add_mul, sized, Nat.add_assoc]
    congr 2
    exact Nat.mul_comm _ _
  rw [inodeBytes, bread_place, position, recordAt]

theorem lookup_decided {volume : Ext2Volume} {inode : Ext2Inode} {directory : Directory volume inode}
    (decided : directory.Decided name) : directory.Answers name (ext2FsLookup volume.sb inode name) := by
  rw [ext2FsLookup, lookupLoop_iff]
  rcases decided with ⟨k, ino, below, few, used, hit, live, before⟩ | ⟨few, absent, all⟩
  · exact .inl ⟨k, ino, Nat.zero_le k, by omega, few, used, hit, live, fun i _ less => before i less⟩
  · exact .inr ⟨absent, fun i _ below => ⟨by omega, all i (by omega)⟩⟩

theorem Image.lookup (image : Image device sb nodes) {entries : List (List (BitVec 8) × Nat)}
    (held : nodes ino = some (.directory entries)) (listed : entries.lookup name = some target) :
    (ext2Ops (ext2FsTree device sb image.small) ino).lookup.bind (· name) = some target := by
  obtain ⟨kind, directory, entry⟩ := image.directories ino entries held
  have record := inodeBytes_record image.valid image.sized (image.numbered ino _ held)
  have mode : inodeKind ((ext2FsTree device sb image.small).iMode ino) = .directory := by
    rw [← kind, ← record]
    rfl
  obtain ⟨decided, live⟩ := entry name target listed
  obtain ⟨found, indices, answer, correct, absent, -⟩ := lookup_decided decided
  have op : (ext2Ops (ext2FsTree device sb image.small) ino).lookup.bind (· name) =
      (ext2FsTree device sb image.small).lookup ino name := by
    simp only [ext2Ops, ext2FsInodeRead, mode]
    rfl
  have right : found = some target := by
    cases found with
    | none => exact absurd ((live target).mpr rfl) (absent.mp rfl target)
    | some other => rw [(live other).mp (correct other rfl)]
  have asked : (ext2FsTree device sb image.small).lookup ino name =
      (ext2FsLookup (volumeOf device sb image.small image.valid).sb
        (ext2InodeAt (recordAt device sb ino)) name).bind Prod.fst := by
    rw [← record]
    rfl
  rw [op, asked, answer, right]
  rfl

theorem Image.resolves (image : Image device sb nodes) (found : find nodes ino names = some target)
    (short : ∀ name ∈ names, name.length < nameMax) :
    resolve (ext2Ops (ext2FsTree device sb image.small)) ino names = some target ∧
      Reaches (ext2Ops (ext2FsTree device sb image.small)) oRdwr ino names := by
  induction names generalizing ino with
  | nil =>
    cases found
    exact ⟨rfl, trivial⟩
  | cons name names ih =>
    rw [find] at found
    split at found
    next entries held =>
      obtain ⟨next, listed, later⟩ := Option.bind_eq_some_iff.mp found
      have looked := image.lookup held listed
      obtain ⟨resolved, reaches⟩ := ih later fun other member => short other (List.mem_cons_of_mem _ member)
      refine ⟨?_, (reaches_turn (short name List.mem_cons_self) looked).mpr reaches⟩
      rw [resolve_cons, looked, Option.bind_some, resolved]
    next => cases found

/-! ### Files -/

variable {tree : Ext2Tree Nat} {state next : FileState Nat} {path : CString} {buffer turns : Nat}

theorem write_fill {memory : Memory} {len : Nat} {contents : Nat → BitVec 8} :
    (memory.fill buffer len 0).write buffer len contents = memory.write buffer len contents := by
  funext place
  unfold Memory.fill Memory.write
  split <;> rfl

/-- A new file is read from its first byte on. -/
theorem FileStored.read {volume : Ext2Volume} {inode : Ext2Inode} (stored : FileStored volume inode bytes)
    (file : VfsFile) (memory : Memory) (buffer : Nat) :
    ∃ turns, ext2FsRead turns volume.sb inode file memory buffer bytes.length 0 =
      some ((bytes.length : Int), memory.write buffer bytes.length fun i => bytes.getD i 0,
        { file with pos := bytes.length }) := by
  have small := stored.small
  have most := volume.geometry.most
  have words := volume.geometry.words
  have size := stored.size
  obtain ⟨turns, ran⟩ := ext2FsRead_spec volume.geometry file memory buffer (Nat.zero_le inode.iSize)
    (show 0 + bytes.length < 2 ^ 32 by omega) (by omega)
  have start : resumeAt volume.width 0 = 0 := by simp [resumeAt, resume]
  have written : memory.write buffer bytes.length (fileByte (ext2FsBreadBlock volume.sb) volume.width inode.iBlock) =
      memory.write buffer bytes.length fun i => bytes.getD i 0 := by
    refine Memory.write_congr fun i bound => ?_
    rw [fileByte_content stored.holeFree (by rw [size]; exact bound), stored.content i bound]
  refine ⟨turns, ran.trans ?_⟩
  simp only [readResult, start, Nat.zero_add, Nat.sub_zero, size, Nat.min_self, if_pos small]
  rw [← written]

theorem read_delivers {root : Nat} (rooted : Rooted tree root state) (nonempty : bytes ≠ [])
    (free : ∃ i < 256, table state.sched (i : Nat) = none)
    (reaches : Reaches (ext2Ops tree) oRdwr root (components path.bytes))
    (resolved : resolve (ext2Ops tree) root (components path.bytes) = some ino)
    (regular : inodeKind (tree.iMode ino) = .regular)
    {volume : Ext2Volume} (same : volume.sb = tree.sb) (stored : FileStored volume (tree.info ino) bytes) :
    ∃ turns final, virtFsRead tree turns rootFs path buffer state = some (some buffer, final) ∧
      final.memory = state.memory.write buffer bytes.length fun i => bytes.getD i 0 := by
  obtain ⟨⟨children, cached⟩, first, start⟩ := rooted
  have ends : Ends (ext2Ops tree) state.cache oRdwr root (components path.bytes)
      (virtFsPathFind (ext2Ops tree) rootFs path oRdwr 0 state.cache) :=
    find_ends (ext2Ops_create tree) cached (by rw [rootFs_start]; exact first) (by rw [rootFs_start]; exact start)
  have target : opened (ext2Ops tree) oRdwr root (components path.bytes) = some ino := by
    have plain : ¬Exclusive oRdwr := by decide
    rw [opened, if_neg fun both => plain both.2, resolved]
  rcases ends with ⟨unsafe_, -⟩ | ⟨-, result, nameidata, cache, after, ran, -, -, found⟩
  · exact absurd reaches unsafe_
  · rw [target] at found
    obtain ⟨rfl, last⟩ := found
    obtain ⟨fd, sched, installed, -, refused, holds⟩ := open_holds tree ⟨path, oRdwr, 0⟩ state last
    have valid : ¬fd < 0 := fun negative => refused.mp negative free
    have held := holds valid
    generalize same_state : FileState.mk cache sched state.memory
      (Function.update state.dentry state.sched.fileCount nameidata.dentry) = opened at held
    have opens : virtFsOpenPath tree rootFs ⟨path, oRdwr, 0⟩ state = some (fd, opened) := by
      unfold virtFsOpenPath
      rw [ran, Option.bind_some]
      simp only [lt_irrefl, if_false, last, Option.map_some, installed, same_state]
    have memory : opened.memory = state.memory := by rw [← same_state]
    have stats : fileStat tree fd opened = some 0 := by simp [fileStat, held.entry, held.inode, ext2_getattr]
    have size : fileSize tree fd opened = bytes.length := by
      simp only [fileSize, held.entry, Option.bind_some, held.inode, stored.size]
    have cleared :
      Holds { opened with memory := opened.memory.fill buffer bytes.length 0 } fd state.sched.fileCount ino oRdwr 0 :=
      ⟨held.valid, held.slot, held.inode, held.mode, held.place⟩
    obtain ⟨turns, read⟩ := stored.read (opened.sched.files state.sched.fileCount)
      (opened.memory.fill buffer bytes.length 0) buffer
    have delivered := fileRead_calls tree cleared (by decide) turns buffer bytes.length
    rw [fileOpRead_regular regular, ← same, read, write_fill, Option.map_some] at delivered
    have positive : ¬(bytes.length : Int) < 0 := not_lt.mpr (Int.natCast_nonneg _)
    have some_bytes : bytes.length ≠ 0 := List.length_pos_iff.mpr nonempty |>.ne'
    obtain ⟨final, reads, keeps⟩ : ∃ final, fileRead tree turns fd buffer bytes.length
        { opened with memory := opened.memory.fill buffer bytes.length 0 } = some ((bytes.length : Int), final) ∧
        final.memory = opened.memory.write buffer bytes.length fun i => bytes.getD i 0 := ⟨_, delivered, rfl⟩
    refine ⟨turns, final, ?_, by rw [keeps, memory]⟩
    unfold virtFsRead
    rw [opens, Option.bind_some]
    simp only [valid, if_false, stats, Option.bind_some, lt_irrefl, size, some_bytes, reads, Option.map_some, positive]

/-! ### Runs -/

def readStep (tree : Ext2Tree Nat) (turns : Nat) (state : FileState Nat) (call : CString × Nat) :
    Option (FileState Nat) :=
  (virtFsRead tree turns rootFs call.1 call.2 state).map Prod.snd

theorem fileRead_cache {fd result : Int} {count : Nat}
    (ran : fileRead tree turns fd buffer count state = some (result, next)) :
    next.cache = state.cache := by
  obtain ⟨⟨answer, memory, file⟩, -, same⟩ := Option.map_eq_some_iff.mp ran
  simp only [Prod.mk.injEq] at same
  rw [← same.2]
  split <;> rfl

theorem readStep_cache {call : CString × Nat} (stepped : readStep tree turns state call = some next) :
    ∃ opened, openStep tree rootFs state ⟨call.1, oRdwr, 0⟩ = some opened ∧ next.cache = opened.cache := by
  obtain ⟨⟨answer, last⟩, ran, rfl⟩ := Option.map_eq_some_iff.mp stepped
  obtain ⟨⟨fd, opened⟩, opens, rest⟩ := Option.bind_eq_some_iff.mp ran
  refine ⟨opened, by rw [openStep, opens]; rfl, ?_⟩
  simp only at rest
  split at rest
  next =>
    cases rest
    rfl
  next =>
    obtain ⟨result, -, rest⟩ := Option.bind_eq_some_iff.mp rest
    split at rest
    next =>
      cases rest
      rfl
    next =>
      split at rest
      next =>
        cases rest
        rfl
      next =>
        obtain ⟨⟨count, final⟩, read, same⟩ := Option.map_eq_some_iff.mp rest
        simp only [Prod.mk.injEq] at same
        have kept := fileRead_cache read
        rw [← same.2]
        exact kept

theorem readStep_rooted {root : Nat} {call : CString × Nat} (rooted : Rooted tree root state)
    (stepped : readStep tree turns state call = some next) : Rooted tree root next := by
  obtain ⟨opened, opens, same⟩ := readStep_cache stepped
  obtain ⟨cached, first, start⟩ := openStep_rooted rooted opens
  rw [← same] at cached first start
  exact ⟨cached, first, start⟩

/-- After any calls, every file of a device that is not empty comes to the caller as a whole, as long as a descriptor
is free. -/
theorem image_reads {links : Links DentryField} {dentries : Nat → VfsDentry Nat} {sched : Sched} {memory : Memory}
    {dentry : Nat → Nat} {earlier : List (CString × Nat)} (image : Image device sb nodes)
    (reached : run (readStep (ext2FsTree device sb image.small) turns)
      (mounted ext2RootIno links dentries sched memory dentry) earlier = some state)
    (free : ∃ i < 256, table state.sched (i : Nat) = none)
    (found : find nodes ext2RootIno (components path.bytes) = some ino) (held : nodes ino = some (.file bytes))
    (nonempty : bytes ≠ []) (short : ∀ name ∈ components path.bytes, name.length < nameMax) (buffer : Nat) :
    ∃ turns final, virtFsRead (ext2FsTree device sb image.small) turns rootFs path buffer state =
      some (some buffer, final) ∧
      final.memory = state.memory.write buffer bytes.length fun i => bytes.getD i 0 := by
  have start :
    Rooted (ext2FsTree device sb image.small) ext2RootIno (mounted ext2RootIno links dentries sched memory dentry) :=
    ⟨⟨_, mountRoot_cached ext2RootIno links dentries⟩, Nat.one_pos, rfl⟩
  have rooted := run_always (Rooted (ext2FsTree device sb image.small) ext2RootIno)
    (fun before call after kept stepped => readStep_rooted kept stepped) start reached
  obtain ⟨resolved, reaches⟩ := image.resolves found short
  obtain ⟨kind, stored⟩ := image.files ino bytes held
  have record := inodeBytes_record image.valid image.sized (image.numbered ino _ held)
  rw [← record] at kind stored
  exact read_delivers rooted nonempty free reaches resolved kind rfl stored

/-! ### A device -/

/-- Sixteen blocks of 1024 bytes: the superblock, a group descriptor, a table of eight inodes, the root with a file
`f`, and the two bytes of the file. -/
def someBytes : List (Nat × BitVec 8) :=
  [(1024, 8), (1028, 16), (1044, 1), (1064, 8), (1080, 0x53), (1081, 0xEF), (1112, 128), (2056, 4),
    (4224, 0xED), (4225, 0x41), (4229, 4), (4252, 2), (4264, 5),
    (4352, 0xA4), (4353, 0x81), (4356, 2), (4380, 2), (4392, 6),
    (5120, 3), (5125, 4), (5126, 1), (5128, 102), (6144, 104), (6145, 105)]

def someDevice : Memory := fun place => (someBytes.lookup place).getD 0

def someSb : Ext2Sb := ⟨8, 16, 1, 0, 8, 128⟩

def someNodes (ino : Nat) : Option Node :=
  if ino = 2 then some (.directory [([102], 3)]) else if ino = 3 then some (.file [104, 105]) else none

theorem some_valid : Valid someDevice someSb := by
  have first (group : Nat) (inside : group * someSb.sInodesPerGroup < someSb.sInodesCount) : group = 0 := by
    have eight : group * 8 < 8 := inside
    omega
  refine ⟨by decide, by decide, ⟨7, by decide⟩, by decide, by decide, by decide, by decide, fun group inside => ?_,
    fun group inside => ?_, fun group other inside within differ => ?_⟩
  · rw [first group inside]
    decide
  · rw [first group inside]
    decide
  · exact absurd ((first group inside).trans (first other within).symm) differ

def someVolume : Ext2Volume := volumeOf someDevice someSb (by decide) some_valid

def fileEntry : DirEntry := ⟨0, 3, 1024, [102]⟩

theorem fileEntry_stored : Stored (someVolume.block 5) fileEntry where
  ino := by decide
  recLen := by decide
  nameLen := by decide
  bytes := by decide
  text := by decide
  room := by decide
  small := by decide

def someRoot : Ext2Inode := ext2InodeAt (recordAt someDevice someSb 2)

theorem someRoot_path :
    BlockTree.Path someVolume.block someVolume.width (fun block => 0 < block ∧ block < someVolume.blocksCount)
      (fileTree someVolume.width 0).1 (someRoot.iBlock (fileTree someVolume.width 0).2.1)
      (fileTree someVolume.width 0).2.2 := by
  decide

theorem someRoot_direct : ∀ n < 12, 1 ≤ n → someRoot.iBlock n = 0 := by decide

theorem someRoot_indirect : someRoot.iBlock 12 = 0 ∧ someRoot.iBlock 13 = 0 ∧ someRoot.iBlock 14 = 0 := by
  decide

theorem someRoot_holeFree (n : Nat) (inside : n < 1) :
    BlockTree.Path someVolume.block someVolume.width (fun block => 0 < block ∧ block < someVolume.blocksCount)
      (fileTree someVolume.width n).1 (someRoot.iBlock (fileTree someVolume.width n).2.1)
      (fileTree someVolume.width n).2.2 := by
  rw [Nat.lt_one_iff.mp inside]
  exact someRoot_path

theorem someRoot_tiles : Tiles DirEntry.offset DirEntry.recLen 0 [fileEntry] someVolume.sb.blocksize :=
  ⟨rfl, (by decide : fileEntry.offset + fileEntry.recLen = someVolume.sb.blocksize)⟩

theorem someRoot_stored (n : Nat) (inside : n < 1) : ∀ entry ∈ [fileEntry],
    Stored (someVolume.block (fileLeaf someVolume.block someVolume.width someRoot.iBlock n)) entry := by
  intro entry member
  rw [Nat.lt_one_iff.mp inside, List.mem_singleton.mp member]
  exact fileEntry_stored

theorem someRoot_short {n : Nat} (many : 12 < 1) : BlockTree.pointer someVolume.block (someRoot.iBlock 12) n = 0 :=
  absurd many (by decide)

def someDirectory : Directory someVolume someRoot where
  blocks := 1
  entries := fun _ => [fileEntry]
  holeFree := someRoot_holeFree
  tiles := fun _ _ => someRoot_tiles
  stored := someRoot_stored
  direct := someRoot_direct
  single := fun _ => someRoot_indirect.1
  pointers := fun _ _ many _ => someRoot_short many
  double := fun _ => someRoot_indirect.2.1
  triple := fun _ => someRoot_indirect.2.2

theorem someSb_mounts : ext2FsMount someDevice = some someSb := by
  have magic : (ext2FsBreadBlock ⟨someDevice, ext2MinBlockSize⟩ 1).load16 56 = ext2SuperMagic := by decide
  have inodes : (ext2FsBreadBlock ⟨someDevice, ext2MinBlockSize⟩ 1).load32 0 = 8 := by decide
  have blocks : (ext2FsBreadBlock ⟨someDevice, ext2MinBlockSize⟩ 1).load32 4 = 16 := by decide
  have first : (ext2FsBreadBlock ⟨someDevice, ext2MinBlockSize⟩ 1).load32 20 = 1 := by decide
  have bits : (ext2FsBreadBlock ⟨someDevice, ext2MinBlockSize⟩ 1).load32 24 = 0 := by decide
  have group : (ext2FsBreadBlock ⟨someDevice, ext2MinBlockSize⟩ 1).load32 40 = 8 := by decide
  have size : (ext2FsBreadBlock ⟨someDevice, ext2MinBlockSize⟩ 1).load16 88 = 128 := by decide
  simp only [ext2FsMount, magic, if_true, ext2SbAt, inodes, blocks, first, bits, group, size]
  rfl

theorem someDirectory_stored :
    DirectoryStored someVolume (ext2InodeAt (recordAt someDevice someSb 2)) [([102], 3)] := by
  have live : ∀ name other, someDirectory.Live name other ↔ name = [102] ∧ other = 3 := by
    intro name other
    constructor
    · rintro ⟨-, n, -, entry, member, rfl, rfl⟩
      cases List.mem_singleton.mp member
      exact ⟨rfl, rfl⟩
    · rintro ⟨rfl, rfl⟩
      exact ⟨by decide, 0, by decide, fileEntry, List.mem_singleton.mpr rfl, rfl, rfl⟩
  refine ⟨someDirectory, fun name ino listed => ?_⟩
  rw [List.lookup_cons] at listed
  split at listed
  next same =>
    cases listed
    have name_eq : name = [102] := by simpa using same
    subst name_eq
    refine ⟨.inl ⟨0, 3, by decide, by decide, by decide, by decide, ?_, ?_⟩, fun other => ?_⟩
    · exact (live [102] 3).mpr ⟨rfl, rfl⟩
    · intro i less
      omega
    · exact (live [102] other).trans (and_iff_right rfl)
  next => cases listed

theorem someFile_stored : FileStored someVolume (ext2InodeAt (recordAt someDevice someSb 3)) [104, 105] where
  size := by decide
  small := by decide
  holeFree := by
    intro n inside
    have first : n = 0 := by
      have size : (ext2InodeAt (recordAt someDevice someSb 3)).iSize = 2 := by decide
      have blocks : someVolume.sb.blocksize = 1024 := by decide
      rw [size, blocks] at inside
      omega
    subst first
    decide
  content := by decide

theorem some_image : Image someDevice someSb someNodes where
  mounts := someSb_mounts
  small := by decide
  valid := some_valid
  sized := rfl
  numbered := by
    intro ino node held
    unfold someNodes at held
    unfold Numbered
    split at held
    next root =>
      rw [root]
      decide
    next =>
      split at held
      next file =>
        rw [file]
        decide
      next => cases held
  files := by
    intro ino bytes held
    unfold someNodes at held
    split at held
    next => cases held
    next =>
      split at held
      next file =>
        cases held
        rw [file]
        exact ⟨by decide, someFile_stored⟩
      next => cases held
  directories := by
    intro ino entries held
    unfold someNodes at held
    split at held
    next root =>
      cases held
      rw [root]
      exact ⟨by decide, someDirectory_stored⟩
    next =>
      split at held
      next => cases held
      next => cases held

def someState : FileState Nat :=
  mounted ext2RootIno ⟨id, id⟩ (fun _ => ⟨[], none, none⟩) schedZero (fun _ => 0) fun _ => 0

def somePath : CString := ⟨[47, 102], by decide⟩

theorem image_reads_example : ∃ turns final,
    virtFsRead (ext2FsTree someDevice someSb some_image.small) turns rootFs somePath 4096 someState =
      some (some 4096, final) ∧
    final.memory = someState.memory.write 4096 2 fun i => [104, 105].getD i 0 := by
  have names : components somePath.bytes = [[102]] := by decide
  have found : find someNodes ext2RootIno (components somePath.bytes) = some 3 := by
    rw [names]
    rfl
  have short : ∀ name ∈ components somePath.bytes, name.length < nameMax := by
    rw [names]
    decide
  have reached : run (readStep (ext2FsTree someDevice someSb some_image.small) 0) someState [] = some someState := rfl
  exact image_reads some_image reached ⟨0, by decide, rfl⟩ found rfl (List.cons_ne_nil _ _) short 4096

end YuzuOS.Proofs.Ext2Image
