import Mathlib.Data.List.TakeWhile
import YuzuOS.Library.Chain
import YuzuOS.Proofs.Ext2Files

/-! Names in ext2 directories. The search passes its error code on as an inode
number, and it takes an entry of `i_block` for every sector of the directory. -/

namespace YuzuOS.Proofs.Ext2Lookup
open YuzuOS.Library YuzuOS.Library.BlockTree YuzuOS.Kernel YuzuOS.Proofs.Ext2Reading YuzuOS.Proofs.Ext2Files

structure DirEntry where
  offset : Nat
  ino : Nat
  recLen : Nat
  name : List (BitVec 8)

/-- The record lies in the buffer. The search returns its number as an `int`, which has room for it. -/
structure Stored (buffer : Memory) (entry : DirEntry) : Prop where
  ino : entryIno buffer entry.offset = entry.ino
  recLen : entryRecLen buffer entry.offset = entry.recLen
  nameLen : entryNameLen buffer entry.offset = entry.name.length
  bytes : ((List.range entry.name.length).map fun i => buffer (entry.offset + 8 + i)) = entry.name
  text : ∀ byte ∈ entry.name, byte ≠ 0
  room : 8 + entry.name.length ≤ entry.recLen
  small : entry.ino < 2 ^ 31

/-- A well-formed directory: its blocks are there, records tile each of them, and
the pointers behind the last block are zero. -/
structure Directory (volume : Ext2Volume) (inode : Ext2Inode) where
  blocks : Nat
  entries : Nat → List DirEntry
  holeFree : ∀ n < blocks, Path volume.block volume.width (fun block => 0 < block ∧ block < volume.blocksCount)
    (fileTree volume.width n).1 (inode.iBlock (fileTree volume.width n).2.1) (fileTree volume.width n).2.2
  tiles : ∀ n < blocks, Tiles DirEntry.offset DirEntry.recLen 0 (entries n) volume.sb.blocksize
  stored : ∀ n < blocks, ∀ entry ∈ entries n,
    Stored (volume.block (fileLeaf volume.block volume.width inode.iBlock n)) entry
  direct : ∀ n < 12, blocks ≤ n → inode.iBlock n = 0
  single : blocks ≤ 12 → inode.iBlock 12 = 0
  pointers : ∀ n < volume.width, 12 < blocks → blocks ≤ 12 + n → pointer volume.block (inode.iBlock 12) n = 0
  double : blocks ≤ 12 + volume.width → inode.iBlock 13 = 0
  triple : blocks ≤ 12 + volume.width + volume.width ^ 2 → inode.iBlock 14 = 0

variable {volume : Ext2Volume} {inode : Ext2Inode} {directory : Directory volume inode} {name : List (BitVec 8)}
  {buffer : Memory} {size offset turns i : Nat} {entry : DirEntry} {entries : List DirEntry}

namespace Directory

def Live (directory : Directory volume inode) (name : List (BitVec 8)) (ino : Nat) : Prop :=
  ino ≠ 0 ∧ ∃ n < directory.blocks, ∃ entry ∈ directory.entries n, entry.name = name ∧ entry.ino = ino

/-- The records that the search of an entry of `i_block` passes: those of one
block, or those of all blocks behind the single indirect block. -/
def searched (directory : Directory volume inode) (i : Nat) : List DirEntry :=
  if i < 12 then directory.entries i
  else (List.range' 12 (min directory.blocks (12 + volume.width) - 12)).flatMap directory.entries

/-- The number of the first record with the name that the search passes, in use
or deleted. Zero pointers behind the last block lead to block 0, read as records. -/
def hit (directory : Directory volume inode) (name : List (BitVec 8)) (i : Nat) : Option Nat :=
  match (directory.searched i).find? fun entry => entry.name = name with
  | some entry => some entry.ino
  | none =>
    if 12 ≤ i ∧ directory.blocks < 12 + volume.width then
      (ext2FsInoFind volume.sb 0 name).bind fun value => if 0 ≤ value then some value.toNat else none
    else none

/-- The search of the entry has no effect. -/
def Skips (directory : Directory volume inode) (name : List (BitVec 8)) (i : Nat) : Prop :=
  inode.iBlock i ≠ 0 → directory.hit name i = some 0

/-- A record in use is met first, or deleted records of the name are all there is. -/
def Decided (directory : Directory volume inode) (name : List (BitVec 8)) : Prop :=
  (∃ k ino, k < inode.iBlocks ∧ k < 15 ∧ inode.iBlock k ≠ 0 ∧ directory.hit name k = some ino ∧
    directory.Live name ino ∧ ∀ i < k, directory.Skips name i) ∨
  (inode.iBlocks ≤ 15 ∧ (∀ ino, ¬directory.Live name ino) ∧ ∀ i < inode.iBlocks, directory.Skips name i)

/-- What a caller of the lookup relies on. -/
def Answers (directory : Directory volume inode) (name : List (BitVec 8)) (outcome : Option (Option Nat × List Nat)) :
    Prop :=
  ∃ found indices, outcome = some (found, indices) ∧ (∀ ino, found = some ino → directory.Live name ino) ∧
    (found = none ↔ ∀ ino, ¬directory.Live name ino) ∧ ∀ index ∈ indices, index ≤ 14

end Directory

theorem Stored.nameTmp (stored : Stored buffer entry) : entryNameTmp buffer entry.offset = entry.name := by
  rw [entryNameTmp, stored.nameLen, stored.bytes]
  exact List.takeWhile_eq_self_iff.mpr (by simpa using stored.text)

/-- The search of a block gives its first record with the name. -/
theorem inoFindLoop_entries (tiles : Tiles DirEntry.offset DirEntry.recLen offset entries size)
    (stored : ∀ entry ∈ entries, Stored buffer entry) (enough : size < turns + offset) :
    ext2FsInoFindLoop buffer size name turns offset =
      some (((entries.find? fun entry => entry.name = name).map fun entry => (entry.ino : Int)).getD (-eNoent)) := by
  induction entries generalizing turns offset with
  | nil =>
    obtain ⟨turns, rfl⟩ := Nat.exists_eq_succ_of_ne_zero (show turns ≠ 0 by have same : offset = size := tiles; omega)
    have same : offset = size := tiles
    rw [ext2FsInoFindLoop, if_neg (by omega)]
    rfl
  | cons entry rest ih =>
    have le := Tiles.le tiles
    obtain ⟨rfl, later⟩ := tiles_cons.mp tiles
    have record := stored entry List.mem_cons_self
    have room := record.room
    have within := Tiles.le later
    obtain ⟨turns, rfl⟩ := Nat.exists_eq_succ_of_ne_zero (show turns ≠ 0 by omega)
    rw [ext2FsInoFindLoop, if_pos (by omega), record.nameTmp, record.ino, record.recLen]
    split
    next same =>
      have number : toInt entry.ino = entry.ino := if_pos record.small
      simp [same, number]
    next different =>
      rw [ih later (fun other member => stored other (List.mem_cons_of_mem _ member)) (by omega)]
      simp [different]

def findResult (entries : List DirEntry) (name : List (BitVec 8)) : Int :=
  ((entries.find? fun entry => entry.name = name).map fun entry => (entry.ino : Int)).getD (-eNoent)

theorem findResult_append (first second : List DirEntry) :
    findResult (first ++ second) name =
      if 0 ≤ findResult first name then findResult first name else findResult second name := by
  unfold findResult
  rw [List.find?_append]
  cases first.find? fun entry => entry.name = name with
  | none => simp [eNoent]
  | some entry => simp

theorem inoFind_block (directory : Directory volume inode) {n : Nat} (inside : n < directory.blocks)
    (name : List (BitVec 8)) :
    ext2FsInoFind volume.sb (fileLeaf volume.block volume.width inode.iBlock n) name =
      some (findResult (directory.entries n) name) := by
  obtain ⟨_, _, below⟩ := (directory.holeFree n inside).leaf_congr fun block stored => (volume.breadBlock_eq stored.2).symm
  rw [ext2FsInoFind, fileLeaf, volume.breadBlock_eq below]
  exact inoFindLoop_entries (directory.tiles n inside) (directory.stored n inside) (by omega)

/-- The loop over pointers keeps the first number that is found. -/
theorem bread_fold (find : Nat → Option Int) (parts : Nat → List DirEntry) (count : Nat)
    (finds : ∀ i < count, find i = some (findResult (parts i) name)) :
    (List.range count).foldl (fun result i => result.bind fun value => if 0 ≤ value then some value else find i)
      (some (-eNoent)) = some (findResult ((List.range count).flatMap parts) name) := by
  induction count with
  | zero => rfl
  | succ count ih =>
    rw [List.range_succ, List.foldl_append, ih fun i bound => finds i (by omega), List.flatMap_append, findResult_append]
    simp only [List.foldl_cons, List.foldl_nil, Option.bind_some, List.flatMap_singleton]
    split
    next => rfl
    next => exact finds count (Nat.lt_succ_self _)

theorem bread_fold_none (find : Nat → Option Int) (rest : List Nat) :
    rest.foldl (fun result i => result.bind fun value => if 0 ≤ value then some value else find i) none = none := by
  induction rest with
  | nil => rfl
  | cons i rest ih => exact ih

/-- Behind the last pointer each turn searches block 0 again. -/
theorem bread_fold_same (find : Nat → Option Int) (boot : Option Int) (value : Int) (rest : List Nat)
    (same : ∀ i ∈ rest, find i = boot) :
    rest.foldl (fun result i => result.bind fun value => if 0 ≤ value then some value else find i) (some value) =
      if 0 ≤ value ∨ rest = [] then some value else boot := by
  induction rest generalizing value with
  | nil => simp
  | cons i rest ih =>
    have later := ih value fun j member => same j (List.mem_cons_of_mem _ member)
    rw [List.foldl_cons, Option.bind_some, same i List.mem_cons_self]
    split
    next found =>
      rw [later, if_pos (.inl found), if_pos (.inl found)]
    next missing =>
      rw [if_neg (by simp [missing])]
      cases boot with
      | none => exact bread_fold_none find rest
      | some again =>
        rw [ih again fun j member => same j (List.mem_cons_of_mem _ member)]
        split <;> rfl

/-- The blocks behind the single indirect block, as the code reads their pointers. -/
theorem single_pointer (directory : Directory volume inode) {j : Nat} (inside : j < volume.width)
    (many : 12 < directory.blocks) :
    (ext2FsBreadBlock volume.sb (inode.iBlock 12)).load32 (4 * j) =
      if 12 + j < directory.blocks then fileLeaf volume.block volume.width inode.iBlock (12 + j) else 0 := by
  have tree (j : Nat) (inside : j < volume.width) : fileTree volume.width (12 + j) = (1, 12, j) := by
    have index : 12 + j - 12 = j := by omega
    rw [fileTree, if_neg (by omega), if_pos (by omega), index]
  have path := directory.holeFree (12 + 0) (by omega)
  rw [tree 0 (by omega)] at path
  rw [volume.breadBlock_eq path.1.2]
  split
  next stored =>
    rw [fileLeaf, tree j inside, leaf, leaf, Nat.pow_zero, Nat.div_one, pointer]
  next behind => exact directory.pointers j inside many (by omega)

theorem single_find (directory : Directory volume inode) (many : 12 < directory.blocks) (name : List (BitVec 8)) :
    ext2FsBreadRec volume.sb name 1 (inode.iBlock 12) =
      if 0 ≤ findResult (directory.searched 12) name ∨ 12 + volume.width ≤ directory.blocks then
        some (findResult (directory.searched 12) name)
      else ext2FsInoFind volume.sb 0 name := by
  have words := volume.geometry.words
  have entries : volume.sb.blocksize / 4 = volume.width := by omega
  generalize few : min directory.blocks (12 + volume.width) - 12 = stored
  have split : List.range volume.width = List.range stored ++ List.range' stored (volume.width - stored) := by
    have joined : List.range' 0 stored ++ List.range' (0 + stored) (volume.width - stored) =
      List.range' 0 (stored + (volume.width - stored)) := List.range'_append_1
    have whole : stored + (volume.width - stored) = volume.width := by omega
    rw [Nat.zero_add, whole] at joined
    rw [List.range_eq_range', List.range_eq_range', joined]
  have searched : directory.searched 12 = (List.range stored).flatMap fun i => directory.entries (12 + i) := by
    have range : List.range' 12 stored = (List.range stored).map (12 + ·) := List.range'_eq_map_range
    rw [Directory.searched, if_neg (by decide), few, range, List.flatMap_map]
  have data : ∀ i < stored, ext2FsBreadRec volume.sb name 0 ((ext2FsBreadBlock volume.sb (inode.iBlock 12)).load32 (4 * i)) =
      some (findResult (directory.entries (12 + i)) name) := by
    intro i bound
    rw [single_pointer directory (by omega) many, if_pos (by omega)]
    exact inoFind_block directory (by omega) name
  have rest : ∀ i ∈ List.range' stored (volume.width - stored),
      ext2FsBreadRec volume.sb name 0 ((ext2FsBreadBlock volume.sb (inode.iBlock 12)).load32 (4 * i)) =
        ext2FsInoFind volume.sb 0 name := by
    intro i member
    obtain ⟨above, below⟩ := List.mem_range'_1.mp member
    rw [single_pointer directory (by omega) many, if_neg (by omega)]
    rfl
  have empty : List.range' stored (volume.width - stored) = [] ↔ 12 + volume.width ≤ directory.blocks := by
    rw [List.range'_eq_nil_iff]
    omega
  rw [ext2FsBreadRec, entries, split, List.foldl_append, bread_fold _ _ stored data, bread_fold_same _ _ _ _ rest, ← searched]
  simp only [empty]

theorem inoFindLoop_range {value : Int} (found : ext2FsInoFindLoop buffer size name turns offset = some value) :
    -2 ^ 31 ≤ value ∧ value < 2 ^ 31 := by
  induction turns generalizing offset with
  | zero => cases found
  | succ turns ih =>
    rw [ext2FsInoFindLoop] at found
    split at found
    next =>
      split at found
      next =>
        cases found
        have bound : entryIno buffer offset < 2 ^ 32 := Memory.load32_lt
        unfold toInt
        split <;> omega
      next => exact ih found
    next =>
      cases found
      unfold eNoent
      omega

/-- A search that misses ends in an error, which is no inode number, or not at all. -/
def Misses (result : Option Int) : Prop := ∀ value, result = some value → 2 ^ 31 ≤ toUInt value

theorem misses_of_neg {value : Int} (lower : -2 ^ 31 ≤ value) (below : value < 0) : Misses (some value) := by
  intro same equal
  cases equal
  unfold toUInt
  omega

/-- The search of an entry gives what is hit, or misses. -/
def Gives (result : Option Int) : Option Nat → Prop
  | some ino => result = some (ino : Int) ∧ ino < 2 ^ 31
  | none => Misses result

theorem findResult_gives (name : List (BitVec 8)) (small : ∀ entry ∈ entries, entry.ino < 2 ^ 31) :
    Gives (some (findResult entries name)) ((entries.find? fun entry => entry.name = name).map DirEntry.ino) := by
  unfold findResult
  cases found : entries.find? fun entry => entry.name = name with
  | none => exact misses_of_neg (by decide) (by decide)
  | some entry => exact ⟨rfl, small entry (List.mem_of_find?_eq_some found)⟩

theorem boot_gives (volume : Ext2Volume) (name : List (BitVec 8)) : Gives (ext2FsInoFind volume.sb 0 name)
    ((ext2FsInoFind volume.sb 0 name).bind fun value => if 0 ≤ value then some value.toNat else none) := by
  cases found : ext2FsInoFind volume.sb 0 name with
  | none => exact fun _ same => nomatch same
  | some value =>
    obtain ⟨lower, upper⟩ := inoFindLoop_range found
    rw [Option.bind_some]
    split
    next number => exact ⟨congrArg some (Int.toNat_of_nonneg number).symm, by omega⟩
    next error => exact misses_of_neg lower (by omega)

theorem lookupFind_gives (directory : Directory volume inode) (name : List (BitVec 8)) (inside : i < 15)
    (used : inode.iBlock i ≠ 0) :
    Gives (ext2FsLookupFind volume.sb inode name i).1 (directory.hit name i) ∧
      ∀ index ∈ (ext2FsLookupFind volume.sb inode name i).2, index ≤ 14 := by
  unfold ext2FsLookupFind Directory.hit ext2InoUpperLevel0 ext2InoUpperLevel1
  rcases Nat.lt_or_ge i 12 with low | high
  · have stored : i < directory.blocks := by
      by_contra behind
      exact used (directory.direct i low (Nat.not_lt.mp behind))
    have block : fileLeaf volume.block volume.width inode.iBlock i = inode.iBlock i := by
      rw [fileLeaf, fileTree, if_pos low, leaf]
    have found := inoFind_block directory stored name
    have searched : directory.searched i = directory.entries i := if_pos low
    have gives := findResult_gives name fun entry member => (directory.stored i stored entry member).small
    rw [block] at found
    rw [if_pos low, searched, ext2FsBreadRec, found]
    refine ⟨?_, by simpa using Nat.le_of_lt_succ inside⟩
    cases hit : (directory.entries i).find? fun entry => entry.name = name with
    | none =>
      rw [hit] at gives
      simpa [Nat.not_le.mpr low] using gives
    | some entry =>
      rw [hit] at gives
      exact gives
  · have many : 12 < directory.blocks := by
      by_contra few
      have single := directory.single (by omega)
      have double := directory.double (by omega)
      have triple := directory.triple (by omega)
      have which : i = 12 ∨ i = 13 ∨ i = 14 := by omega
      rcases which with rfl | rfl | rfl
      · exact used single
      · exact used double
      · exact used triple
    have searched : directory.searched i = directory.searched 12 := by
      rw [Directory.searched, Directory.searched, if_neg (Nat.not_lt.mpr high), if_neg (by decide)]
    have small : ∀ entry ∈ directory.searched 12, entry.ino < 2 ^ 31 := by
      intro entry member
      rw [Directory.searched, if_neg (by decide)] at member
      obtain ⟨n, range, member⟩ := List.mem_flatMap.mp member
      have bound := List.mem_range'_1.mp range
      exact (directory.stored n (by omega) entry member).small
    have gives := findResult_gives name small
    rw [if_neg (Nat.not_lt.mpr high), if_pos (by omega), single_find directory many name, searched]
    refine ⟨?_, by simp⟩
    cases hit : (directory.searched 12).find? fun entry => entry.name = name with
    | some entry =>
      rw [hit] at gives
      have number : 0 ≤ findResult (directory.searched 12) name := by
        unfold findResult
        rw [hit]
        exact Int.natCast_nonneg _
      rw [if_pos (.inl number)]
      exact gives
    | none =>
      rw [hit] at gives
      have error : findResult (directory.searched 12) name = -eNoent := by
        unfold findResult
        rw [hit]
        rfl
      have negative : ¬0 ≤ findResult (directory.searched 12) name := by
        rw [error]
        decide
      rcases Nat.lt_or_ge directory.blocks (12 + volume.width) with partly | full
      · rw [if_neg (by omega)]
        simp only [high, partly, and_self, if_true]
        exact boot_gives volume name
      · rw [if_pos (.inr full)]
        simpa [Nat.not_lt.mpr full] using gives

/-- The condition for the entries of `i_block` that are still to be searched. -/
def DecidedFrom (directory : Directory volume inode) (name : List (BitVec 8)) (i left : Nat) : Prop :=
  (∃ k ino, i ≤ k ∧ k < i + left ∧ k < 15 ∧ inode.iBlock k ≠ 0 ∧ directory.hit name k = some ino ∧
    directory.Live name ino ∧ ∀ j, i ≤ j → j < k → directory.Skips name j) ∨
  ((∀ ino, ¬directory.Live name ino) ∧ ∀ j, i ≤ j → j < i + left → j < 15 ∧ directory.Skips name j)

theorem decidedFrom_skip {left : Nat} (inside : i < 15) (skips : directory.Skips name i) :
    DecidedFrom directory name i (left + 1) ↔ DecidedFrom directory name (i + 1) left := by
  have later {k : Nat} (above : i ≤ k) (other : k ≠ i) : i + 1 ≤ k := by omega
  refine or_congr ⟨fun ⟨k, ino, above, below, small, used, hit, live, before⟩ => ?_,
    fun ⟨k, ino, above, below, small, used, hit, live, before⟩ => ?_⟩ ?_
  · have other : k ≠ i := by
      intro same
      subst same
      rw [skips used] at hit
      cases hit
      exact live.1 rfl
    exact ⟨k, ino, later above other, by omega, small, used, hit, live, fun j low high => before j (by omega) high⟩
  · refine ⟨k, ino, by omega, by omega, small, used, hit, live, fun j low high => ?_⟩
    rcases eq_or_ne j i with rfl | other
    · exact skips
    · exact before j (later low other) high
  · refine and_congr_right fun _ => ⟨fun all j low high => all j (by omega) (by omega), fun all j low high => ?_⟩
    rcases eq_or_ne j i with rfl | other
    · exact ⟨inside, skips⟩
    · exact all j (later low other) (by omega)

/-- An entry that does not skip decides the lookup. -/
theorem decidedFrom_stop {left : Nat} (inside : i < 15) (used : inode.iBlock i ≠ 0)
    (stops : directory.hit name i ≠ some 0) :
    DecidedFrom directory name i (left + 1) ↔ ∃ ino, directory.hit name i = some ino ∧ directory.Live name ino := by
  refine ⟨fun decided => ?_, fun ⟨ino, hit, live⟩ => .inl ⟨i, ino, Nat.le_refl _, by omega, inside, used, hit, live, ?_⟩⟩
  · rcases decided with ⟨k, ino, above, below, small, _, hit, live, before⟩ | ⟨_, all⟩
    · rcases eq_or_ne k i with rfl | other
      · exact ⟨ino, hit, live⟩
      · exact absurd (before i (Nat.le_refl _) (by omega) used) stops
    · exact absurd ((all i (Nat.le_refl _) (by omega)).2 used) stops
  · intro j low high
    omega

theorem decidedFrom_outside {left : Nat} (outside : 15 ≤ i) : ¬DecidedFrom directory name i (left + 1) := by
  intro decided
  rcases decided with ⟨k, _, above, _, small, _⟩ | ⟨_, all⟩
  · omega
  · have small := (all i (Nat.le_refl _) (by omega)).1
    omega

theorem live_lt {ino : Nat} (live : directory.Live name ino) : ino < 2 ^ 31 := by
  obtain ⟨_, n, inside, entry, member, _, rfl⟩ := live
  exact (directory.stored n inside entry member).small

theorem answers_map {outcome : Option (Option Nat × List Nat)} {read : List Nat} :
    directory.Answers name (outcome.map fun (found, indices) => (found, read ++ indices)) ↔
      (∀ index ∈ read, index ≤ 14) ∧ directory.Answers name outcome := by
  cases outcome with
  | none =>
    refine iff_of_false (fun answers => ?_) fun answers => ?_
    · obtain ⟨_, _, same, _⟩ := answers
      cases same
    · obtain ⟨_, _, _, same, _⟩ := answers
      cases same
  | some outcome =>
    obtain ⟨found, indices⟩ := outcome
    refine ⟨fun ⟨_, _, same, live, absent, small⟩ => ?_, fun ⟨first, _, _, same, live, absent, small⟩ => ?_⟩
    · cases same
      exact ⟨fun index member => small index (List.mem_append_left _ member), found, indices, rfl, live, absent,
        fun index member => small index (List.mem_append_right _ member)⟩
    · cases same
      refine ⟨found, read ++ indices, rfl, live, absent, fun index member => ?_⟩
      rcases List.mem_append.mp member with old | new
      · exact first index old
      · exact small index new

theorem answers_some {ino : Nat} {read : List Nat} (small : ∀ index ∈ read, index ≤ 14) :
    directory.Answers name (some (some ino, read)) ↔ directory.Live name ino := by
  refine ⟨fun ⟨_, _, same, live, _, _⟩ => ?_, fun live => ⟨some ino, read, rfl, fun other same => ?_, ?_, small⟩⟩
  · cases same
    exact live ino rfl
  · cases same
    exact live
  · exact iff_of_false (Option.some_ne_none _) fun none => none ino live

def lookupRest (volume : Ext2Volume) (inode : Ext2Inode) (name : List (BitVec 8)) (left i : Nat) (read : List Nat) :
    Option (Option Nat × List Nat) :=
  (ext2FsLookupLoop volume.sb inode name left (i + 1)).map fun (found, indices) => (found, read ++ indices)

theorem lookupLoop_unused {left : Nat} (unused : inode.iBlock i = 0) :
    ext2FsLookupLoop volume.sb inode name (left + 1) i = lookupRest volume inode name left i [i] := by
  rw [ext2FsLookupLoop, if_pos unused]
  rfl

theorem lookupLoop_used {left : Nat} {result : Option Int} {read : List Nat} (used : inode.iBlock i ≠ 0)
    (search : ext2FsLookupFind volume.sb inode name i = (result, read)) :
    ext2FsLookupLoop volume.sb inode name (left + 1) i = result.bind fun value =>
      if toUInt value > 0 then some (some (toUInt value), i :: read) else lookupRest volume inode name left i (i :: read) := by
  rw [ext2FsLookupLoop, if_neg used, search]
  rfl

theorem lookupLoop_inside {left : Nat} (directory : Directory volume inode) (name : List (BitVec 8)) (inside : i < 15)
    (ih : directory.Answers name (ext2FsLookupLoop volume.sb inode name left (i + 1)) ↔ DecidedFrom directory name (i + 1) left) :
    directory.Answers name (ext2FsLookupLoop volume.sb inode name (left + 1) i) ↔
      DecidedFrom directory name i (left + 1) := by
  have goes {read : List Nat} (near : ∀ index ∈ read, index ≤ 14) (skips : directory.Skips name i) :
      directory.Answers name (lookupRest volume inode name left i read) ↔ DecidedFrom directory name i (left + 1) := by
    rw [decidedFrom_skip inside skips, ← ih]
    exact answers_map.trans (and_iff_right near)
  rcases eq_or_ne (inode.iBlock i) 0 with unused | used
  · rw [lookupLoop_unused unused]
    exact goes (by simpa using Nat.le_of_lt_succ inside) fun used => absurd unused used
  · obtain ⟨gives, small⟩ := lookupFind_gives directory name inside used
    cases search : ext2FsLookupFind volume.sb inode name i with
    | mk result read =>
      rw [search] at gives small
      rw [lookupLoop_used used search]
      have near : ∀ index ∈ i :: read, index ≤ 14 := List.forall_mem_cons.mpr ⟨Nat.le_of_lt_succ inside, small⟩
      cases hit : directory.hit name i with
      | none =>
        rw [decidedFrom_stop inside used (by simp [hit]), hit]
        refine iff_of_false (fun answers => ?_) (by simp)
        rw [hit] at gives
        cases result with
        | none =>
          obtain ⟨_, _, same, _⟩ := answers
          cases same
        | some value =>
          have large : 2 ^ 31 ≤ toUInt value := gives value rfl
          rw [Option.bind_some, if_pos (by omega), answers_some near] at answers
          have bound := live_lt answers
          omega
      | some ino =>
        rw [hit] at gives
        obtain ⟨found, bound⟩ := gives
        have number : toUInt (ino : Int) = ino := by
          unfold toUInt
          omega
        simp only at found
        rw [found, Option.bind_some, number]
        rcases Nat.eq_zero_or_pos ino with rfl | positive
        · exact goes near fun _ => hit
        · rw [decidedFrom_stop inside used (by simp [hit]; omega), hit, if_pos positive, answers_some near]
          simp

theorem lookupLoop_outside {left : Nat} (directory : Directory volume inode) (name : List (BitVec 8))
    (outside : 15 ≤ i) :
    ¬directory.Answers name (ext2FsLookupLoop volume.sb inode name (left + 1) i) := by
  intro answers
  have goes (read : List Nat) : ¬directory.Answers name (lookupRest volume inode name left i (i :: read)) := by
    intro answers
    have near := (answers_map.mp answers).1 i List.mem_cons_self
    omega
  rcases eq_or_ne (inode.iBlock i) 0 with unused | used
  · rw [lookupLoop_unused unused] at answers
    exact goes [] answers
  · cases search : ext2FsLookupFind volume.sb inode name i with
    | mk result read =>
      rw [lookupLoop_used used search] at answers
      cases result with
      | none =>
        obtain ⟨_, _, same, _⟩ := answers
        cases same
      | some value =>
        rw [Option.bind_some] at answers
        split at answers
        next =>
          obtain ⟨_, _, same, _, _, small⟩ := answers
          cases same
          have near := small i List.mem_cons_self
          omega
        next => exact goes read answers

/-- What the loop answers, from any entry on. -/
theorem lookupLoop_iff (directory : Directory volume inode) (name : List (BitVec 8)) (left i : Nat) :
    directory.Answers name (ext2FsLookupLoop volume.sb inode name left i) ↔ DecidedFrom directory name i left := by
  induction left generalizing i with
  | zero =>
    refine ⟨fun ⟨_, _, same, _, absent, _⟩ => ?_, fun decided => ?_⟩
    · cases same
      exact .inr ⟨absent.mp rfl, fun j low high => by omega⟩
    · rcases decided with ⟨k, _, above, below, _⟩ | ⟨absent, _⟩
      · omega
      · exact ⟨none, [], rfl, (fun _ same => nomatch same), iff_of_true rfl absent, by simp⟩
  | succ left ih =>
    rcases Nat.lt_or_ge i 15 with inside | outside
    · exact lookupLoop_inside directory name inside (ih (i + 1))
    · exact iff_of_false (lookupLoop_outside directory name outside) (decidedFrom_outside outside)

/-- The lookup answers rightly exactly when a record in use is met before the
search of an entry misses, or deleted records of an absent name hide the error. -/
theorem lookup_answers_iff {volume : Ext2Volume} {inode : Ext2Inode} (directory : Directory volume inode)
    (name : List (BitVec 8)) : directory.Answers name (ext2FsLookup volume.sb inode name) ↔ directory.Decided name := by
  rw [ext2FsLookup, lookupLoop_iff]
  refine or_congr ⟨fun ⟨k, ino, _, below, small, used, hit, live, before⟩ => ?_,
    fun ⟨k, ino, below, small, used, hit, live, before⟩ => ?_⟩ ⟨fun ⟨absent, all⟩ => ?_, fun ⟨few, absent, all⟩ => ?_⟩
  · exact ⟨k, ino, by omega, small, used, hit, live, fun i less => before i (Nat.zero_le i) less⟩
  · exact ⟨k, ino, Nat.zero_le k, by omega, small, used, hit, live, fun i _ less => before i less⟩
  · refine ⟨?_, absent, fun i below => (all i (Nat.zero_le i) (by omega)).2⟩
    by_contra many
    have inside := (all 15 (Nat.zero_le 15) (by omega)).1
    omega
  · exact ⟨absent, fun i _ below => ⟨by omega, all i (by omega)⟩⟩

/-- Fourteen blocks with two records each. In the twelve direct blocks the second one, `"x"`, is deleted; in the two
behind block 22 it has the number 5. -/
def manyVolume : Ext2Volume where
  device := fun place =>
    let block := place / 1024
    match place % 1024 with
    | 0 => if block = 22 then 23 else if block < 22 then 2 else 6
    | 4 => if block = 22 then 24 else 12
    | 6 => if block = 22 then 0 else 1
    | 8 => if block = 22 then 0 else if block < 22 then 46 else 121
    | 12 => if block ≤ 22 then 0 else 5
    | 16 => if block = 22 then 0 else 0xF4
    | 17 => if block = 22 then 0 else 3
    | 18 => if block = 22 then 0 else 1
    | 20 => if block = 22 then 0 else 120
    | _ => 0
  logBlockSize := 0
  blocksCount := 25
  small := exampleVolume.small
  addressable := by decide

def manyInode : Ext2Inode where
  iSize := 14336
  iBlocks := 30
  iBlock := fun entry => if entry < 12 then 10 + entry else if entry = 12 then 22 else 0
  sizeFits := exampleInode.sizeFits

def manyEntries (n : Nat) : List DirEntry :=
  if n < 12 then [⟨0, 2, 12, [46]⟩, ⟨12, 0, 1012, [120]⟩] else [⟨0, 6, 12, [121]⟩, ⟨12, 5, 1012, [120]⟩]

theorem manyEntries_stored (n : Nat) (inside : n < 14) (entry : DirEntry) (member : entry ∈ manyEntries n) :
    Stored (manyVolume.block (fileLeaf manyVolume.block manyVolume.width manyInode.iBlock n)) entry := by
  have numbers : ∀ n < 14, ∀ entry ∈ manyEntries n,
      let buffer := manyVolume.block (fileLeaf manyVolume.block manyVolume.width manyInode.iBlock n)
      (entryIno buffer entry.offset = entry.ino ∧ entryRecLen buffer entry.offset = entry.recLen ∧
        entryNameLen buffer entry.offset = entry.name.length) ∧
      ((List.range entry.name.length).map fun i => buffer (entry.offset + 8 + i)) = entry.name ∧
      (∀ byte ∈ entry.name, byte ≠ 0) ∧ 8 + entry.name.length ≤ entry.recLen ∧ entry.ino < 2 ^ 31 := by
    decide +kernel
  obtain ⟨⟨ino, recLen, nameLen⟩, bytes, text, room, small⟩ := numbers n inside entry member
  exact ⟨ino, recLen, nameLen, bytes, text, room, small⟩

theorem manyInode_holeFree : ∀ n < 14, Path manyVolume.block manyVolume.width
    (fun block => 0 < block ∧ block < manyVolume.blocksCount) (fileTree manyVolume.width n).1
    (manyInode.iBlock (fileTree manyVolume.width n).2.1) (fileTree manyVolume.width n).2.2 := by decide +kernel

theorem manyInode_pointers : ∀ n < manyVolume.width, 14 ≤ 12 + n →
    pointer manyVolume.block (manyInode.iBlock 12) n = 0 := by decide +kernel

def manyDirectory : Directory manyVolume manyInode where
  blocks := 14
  entries := manyEntries
  holeFree := manyInode_holeFree
  tiles := fun n _ => by
    unfold manyEntries
    split
    · exact ⟨rfl, rfl, rfl⟩
    · exact ⟨rfl, rfl, rfl⟩
  stored := manyEntries_stored
  direct := fun n low behind => absurd low (by omega)
  single := fun few => absurd few (by decide)
  pointers := fun n low _ behind => manyInode_pointers n low behind
  double := fun _ => rfl
  triple := fun _ => rfl

/-- The search passes the deleted records of the direct blocks. -/
theorem lookup_answers_iff_example : manyDirectory.Answers [120] (ext2FsLookup manyVolume.sb manyInode [120]) := by
  have skips : ∀ i < 12, manyDirectory.hit [120] i = some 0 := by decide +kernel
  refine (lookup_answers_iff manyDirectory [120]).mpr (.inl ⟨12, 5, by decide, by decide, by decide, by decide +kernel, ?_,
    fun i less _ => skips i less⟩)
  exact ⟨by decide, 12, show 12 < 14 by decide, ⟨12, 5, 1012, [120]⟩, List.mem_cons_of_mem _ List.mem_cons_self, rfl, rfl⟩

def rootVolume : Ext2Volume where
  device := fun place =>
    if place = 10240 ∨ place = 10247 then 2 else if place = 10245 then 4 else if place = 10246 then 1
    else if place = 10248 then 46 else 0
  logBlockSize := 0
  blocksCount := 20
  small := exampleVolume.small
  addressable := by decide

def rootInode : Ext2Inode where
  iSize := 1024
  iBlocks := 2
  iBlock := fun entry => if entry = 0 then 10 else 0
  sizeFits := by decide

def rootEntry : DirEntry := ⟨0, 2, 1024, [46]⟩

theorem rootEntry_stored : Stored (rootVolume.block 10) rootEntry where
  ino := by decide +kernel
  recLen := by decide +kernel
  nameLen := by decide +kernel
  bytes := by decide +kernel
  text := by decide
  room := by decide
  small := by decide

def rootDirectory : Directory rootVolume rootInode where
  blocks := 1
  entries := fun _ => [rootEntry]
  holeFree := by
    intro n inside
    have first : n = 0 := by omega
    subst first
    decide
  tiles := fun _ _ => ⟨rfl, (by decide : rootEntry.offset + rootEntry.recLen = rootVolume.sb.blocksize)⟩
  stored := by
    intro n inside entry member
    have first : n = 0 := by omega
    subst first
    cases List.mem_singleton.mp member
    exact rootEntry_stored
  direct := fun n _ behind => if_neg (by omega)
  single := fun _ => rfl
  pointers := fun _ _ many => absurd many (by decide)
  double := fun _ => rfl
  triple := fun _ => rfl

/-- No record has the name, and the error code comes back as an inode number. -/
theorem absent_name_found : (∀ ino, ¬rootDirectory.Live [120] ino) ∧
    ext2FsLookup rootVolume.sb rootInode [120] = some (some 4294967294, [0, 0]) := by
  refine ⟨fun ino live => ?_, by decide +kernel⟩
  obtain ⟨_, n, _, entry, member, same, _⟩ := live
  cases List.mem_singleton.mp member
  exact absurd same (by decide)

end YuzuOS.Proofs.Ext2Lookup
