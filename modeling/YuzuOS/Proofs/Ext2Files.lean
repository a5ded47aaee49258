import Mathlib.Tactic.IntervalCases
import YuzuOS.Library.Run
import YuzuOS.Proofs.Ext2Reading

/-! What a reader of an ext2 file sees: a read from the start delivers the file,
and a read that goes on in the middle of a tree starts that tree again. -/

namespace YuzuOS.Proofs.Ext2Files
open YuzuOS.Library YuzuOS.Library.BlockTree YuzuOS.Kernel YuzuOS.Proofs.Ext2Reading

/-- A volume whose blocks lie on a device with 32-bit sector numbers. -/
structure Ext2Volume where
  device : Memory
  logBlockSize : Nat
  blocksCount : Nat
  small : logBlockSize ≤ 6
  addressable : blocksCount * (ext2BlockSize logBlockSize / vfsBytesPSector) ≤ 2 ^ 32

namespace Ext2Volume

def sb (volume : Ext2Volume) : VfsSb := ⟨volume.device, ext2BlockSize volume.logBlockSize⟩

def width (volume : Ext2Volume) : Nat := 256 * 2 ^ volume.logBlockSize

def block (volume : Ext2Volume) (block : Nat) : Memory :=
  fun i => volume.device (block * ext2BlockSize volume.logBlockSize + i)

/-- Each block of the file, and each block of pointers on the way to it, is a block of the volume. -/
def HoleFree (volume : Ext2Volume) (inode : Ext2Inode) : Prop :=
  ∀ n, volume.sb.blocksize * n < inode.iSize → Path volume.block volume.width
    (fun block => 0 < block ∧ block < volume.blocksCount) (fileTree volume.width n).1
    (inode.iBlock (fileTree volume.width n).2.1) (fileTree volume.width n).2.2

def content (volume : Ext2Volume) (inode : Ext2Inode) : Nat → BitVec 8 :=
  fileByte volume.block volume.width inode.iBlock

theorem blockSize_facts {bits : Nat} (small : bits ≤ 6) :
    ext2BlockSize bits = 4 * (256 * 2 ^ bits) ∧ 256 ≤ 256 * 2 ^ bits ∧ 256 * 2 ^ bits ≤ 16384 ∧
      ext2BlockSize bits ∣ 2 ^ 32 ∧ 0 < ext2BlockSize bits / vfsBytesPSector ∧
      ext2BlockSize bits / vfsBytesPSector * vfsBytesPSector = ext2BlockSize bits := by
  interval_cases bits <;> decide

variable (volume : Ext2Volume)

theorem geometry : Geometry volume.sb volume.width := by
  obtain ⟨words, least, most, divides, _⟩ := blockSize_facts volume.small
  exact ⟨words, least, most, divides⟩

theorem breadBlock_eq {block : Nat} (inside : block < volume.blocksCount) :
    ext2FsBreadBlock volume.sb block = volume.block block := by
  obtain ⟨_, _, _, _, positive, sectors⟩ := blockSize_facts volume.small
  have sector : block * (ext2BlockSize volume.logBlockSize / vfsBytesPSector) % 2 ^ 32 =
      block * (ext2BlockSize volume.logBlockSize / vfsBytesPSector) :=
    Nat.mod_eq_of_lt ((Nat.mul_lt_mul_of_pos_right inside positive).trans_le volume.addressable)
  funext i
  unfold ext2FsBreadBlock virtFsBread Ext2Volume.block Ext2Volume.sb
  simp only [sector]
  rw [Nat.mul_assoc, sectors]

end Ext2Volume

variable {volume : Ext2Volume} {inode : Ext2Inode}

theorem fileByte_content (holeFree : volume.HoleFree inode) {place : Nat} (inside : place < inode.iSize) :
    fileByte (ext2FsBreadBlock volume.sb) volume.width inode.iBlock place = volume.content inode place := by
  have words := volume.geometry.words
  have started : volume.sb.blocksize * (place / (4 * volume.width)) < inode.iSize := by
    rw [words]
    exact (Nat.mul_div_le place _).trans_lt inside
  obtain ⟨same, _, below⟩ := (holeFree _ started).leaf_congr fun block stored => (volume.breadBlock_eq stored.2).symm
  rw [Ext2Volume.content, fileByte, fileByte, fileLeaf, same, volume.breadBlock_eq below]
  rfl

/-- A read from the start of a file delivers its first bytes and nothing else. -/
theorem fresh_read_delivers_file (volume : Ext2Volume) (inode : Ext2Inode) (file : VfsFile) (memory : Memory)
    (buffer count : Nat) (holeFree : volume.HoleFree inode) (small : inode.iSize < 2 ^ 31) (sized : count < 2 ^ 32) :
    ∃ turns, ext2FsRead turns volume.sb inode file memory buffer count 0 =
      some (((min count inode.iSize : Nat) : Int), memory.write buffer (min count inode.iSize) (volume.content inode),
        { file with pos := min count inode.iSize }) := by
  have geometry := volume.geometry
  have words := geometry.words
  have most := geometry.most
  obtain ⟨turns, ran⟩ := ext2FsRead_spec geometry file memory buffer (Nat.zero_le inode.iSize)
    (show 0 + count < 2 ^ 32 by omega) (by omega)
  have start : resumeAt volume.width 0 = 0 := by simp [resumeAt, resume]
  have written : memory.write buffer (min count inode.iSize)
      (fileByte (ext2FsBreadBlock volume.sb) volume.width inode.iBlock) =
      memory.write buffer (min count inode.iSize) (volume.content inode) :=
    Memory.write_congr fun i bound => fileByte_content holeFree (by omega)
  refine ⟨turns, ran.trans ?_⟩
  simp only [readResult, start, Nat.zero_add, Nat.sub_zero, if_pos (show min count inode.iSize < 2 ^ 31 by omega)]
  rw [← written]

/-- Data blocks are full of their own number; block 30 points to the blocks from 40 on. -/
def exampleVolume : Ext2Volume where
  device := fun place => BitVec.ofNat 8
    (if place / 1024 = 30 then if place % 4 = 0 then 40 + place % 1024 / 4 else 0 else place / 1024)
  logBlockSize := 0
  blocksCount := 100
  small := by decide
  addressable := by decide

/-- A file of 14 blocks, the last two behind the pointers of block 30. -/
def exampleInode : Ext2Inode where
  iSize := 14336
  iBlocks := 30
  iBlock := fun entry => if entry < 12 then 10 + entry else if entry = 12 then 30 else 0
  sizeFits := by decide

theorem fresh_read_delivers_file_example : ∃ turns final,
    ext2FsRead turns exampleVolume.sb exampleInode virtFsFileAlloc (fun _ => 0) 0 20000 0 =
      some (14336, final, { virtFsFileAlloc with pos := 14336 }) ∧ final 13400 = 41 ∧ final 14336 = 0 := by
  have each : ∀ n < 14, Path exampleVolume.block exampleVolume.width
      (fun block => 0 < block ∧ block < exampleVolume.blocksCount) (fileTree exampleVolume.width n).1
      (exampleInode.iBlock (fileTree exampleVolume.width n).2.1) (fileTree exampleVolume.width n).2.2 := by decide +kernel
  have holeFree : exampleVolume.HoleFree exampleInode := by
    intro n inside
    have started : 1024 * n < 14336 := inside
    exact each n (by omega)
  obtain ⟨turns, ran⟩ := fresh_read_delivers_file exampleVolume exampleInode virtFsFileAlloc (fun _ => 0) 0 20000 holeFree
    (by decide) (by decide)
  refine ⟨turns, Memory.write (fun _ => 0) 0 14336 (exampleVolume.content exampleInode), ran, ?_, ?_⟩
  · rw [Memory.write_inside (by decide) (by decide)]
    decide +kernel
  · exact Memory.write_outside (.inr (by decide))

/-- A descriptor of a file that may be read, with the memory of its reader. -/
structure Reader where
  memory : Memory
  file : VfsFile

def freadStep (turns : Nat) (sb : VfsSb) (inode : Ext2Inode) (fd : Nat) (reader : Reader) (call : Nat × Nat) :
    Option Reader :=
  if call.2 < 2 ^ 32 then
    (virtFsFread (ext2FsRead turns sb inode) fd (some reader.file) reader.memory call.1 call.2).bind
      fun (_, memory, entry) => entry.map fun file => ⟨memory, file⟩
  else none

def Freads (sb : VfsSb) (inode : Ext2Inode) (fd : Nat) (reader : Reader) (call : Nat × Nat) (next : Reader) : Prop :=
  ∃ turns, freadStep turns sb inode fd reader call = some next

/-- Two reads leave the same bytes and the same position as one. -/
def CutsFreely (sb : VfsSb) (inode : Ext2Inode) (fd : Nat) (reader : Reader) (buffer first second : Nat) : Prop :=
  ∃ once twice whole, Freads sb inode fd reader (buffer, first) once ∧
    Freads sb inode fd once (buffer + (once.file.pos - reader.file.pos), second) twice ∧
    Freads sb inode fd reader (buffer, first + second) whole ∧ twice.file.pos = whole.file.pos ∧
    ∀ i < whole.file.pos - reader.file.pos, twice.memory (buffer + i) = whole.memory (buffer + i)

/-- The reads end, and the second one takes the bytes that the first one would have reached. -/
def ResumesInPlace (sb : VfsSb) (width : Nat) (inode : Ext2Inode) (ppos first second : Nat) : Prop :=
  ppos + first + second < 2 ^ 32 ∧ min (ppos + first + second) inode.iSize + sb.blocksize ≤ 2 ^ 32 ∧
    ∀ i, min (ppos + first) inode.iSize + i < min (ppos + first + second) inode.iSize →
      fileByte (ext2FsBreadBlock sb) width inode.iBlock (resumeAt width (min (ppos + first) inode.iSize) + i) =
        fileByte (ext2FsBreadBlock sb) width inode.iBlock
          (resumeAt width ppos + (min (ppos + first) inode.iSize - ppos + i))

def Reader.after (sb : VfsSb) (width : Nat) (inode : Ext2Inode) (reader : Reader) (buffer count : Nat) : Reader :=
  let n := min (reader.file.pos + count) inode.iSize - reader.file.pos
  ⟨reader.memory.write buffer n fun i => fileByte (ext2FsBreadBlock sb) width inode.iBlock
      (resumeAt width reader.file.pos + i), { reader.file with pos := reader.file.pos + n }⟩

/-- Positions that reads reach, in a file that may be read. -/
structure Readable (inode : Ext2Inode) (reader : Reader) : Prop where
  mode : reader.file.mode &&& fmodeCanRead ≠ 0
  inside : reader.file.pos ≤ inode.iSize

variable {sb : VfsSb} {width turns more ppos count buffer fd first second : Nat} {reader next : Reader}
  {state final other : Ext2Read}

theorem readLoop_unique (ran : ext2FsReadLoop sb inode ppos count turns state = some final)
    (again : ext2FsReadLoop sb inode ppos count more state = some other) : final = other := by
  induction turns generalizing more state with
  | zero => cases ran
  | succ turns ih =>
    cases more with
    | zero => cases again
    | succ more =>
      rw [ext2FsReadLoop] at ran again
      split at ran
      next under =>
        rw [if_pos under] at again
        exact ih ran again
      next beyond =>
        rw [if_neg beyond] at again
        exact Option.some.inj (ran.symm.trans again)

theorem ext2FsRead_unique {file : VfsFile} {memory : Memory} {result again : Int × Memory × VfsFile}
    (ran : ext2FsRead turns sb inode file memory buffer count ppos = some result)
    (more : ext2FsRead more sb inode file memory buffer count ppos = some again) : result = again := by
  obtain ⟨_, first, rfl⟩ := Option.map_eq_some_iff.mp ran
  obtain ⟨_, second, rfl⟩ := Option.map_eq_some_iff.mp more
  rw [readLoop_unique first second]

/-- A read beyond the top of the address space does not return. -/
theorem ext2FsRead_ends (geometry : Geometry sb width) {file : VfsFile} {memory : Memory}
    {result : Int × Memory × VfsFile} (inside : ppos ≤ inode.iSize) (sized : count < 2 ^ 32)
    (ran : ext2FsRead turns sb inode file memory buffer count ppos = some result) :
    ppos + count < 2 ^ 32 ∧ min (ppos + count) inode.iSize + sb.blocksize ≤ 2 ^ 32 := by
  have fits := inode.sizeFits
  have words := geometry.words
  have least := geometry.least
  have aligned : sb.blocksize ∣ ppos / sb.blocksize * sb.blocksize % 2 ^ 32 :=
    (Nat.dvd_mod_iff geometry.divides).mpr (Nat.dvd_mul_left _ _)
  have ended : ppos + ext2FsReadCount inode count ppos + sb.blocksize ≤ 2 ^ 32 := by
    by_contra beyond
    have below : ppos / sb.blocksize * sb.blocksize % 2 ^ 32 < 2 ^ 32 := Nat.mod_lt _ (by decide)
    obtain ⟨_, looped, _⟩ := Option.map_eq_some_iff.mp ran
    rw [readLoop_endless geometry.divides (Nat.lt_of_not_le beyond) aligned below] at looped
    cases looped
  have small : ppos + count < 2 ^ 32 := by
    by_contra large
    have wrapped : (ppos + count) % 2 ^ 32 = ppos + count - 2 ^ 32 := by omega
    unfold ext2FsReadCount at ended
    rw [wrapped] at ended
    omega
  rw [readCount_spec inside small] at ended
  exact ⟨small, by omega⟩

/-- A read ends, writes no byte beside the part of the file that was asked for, returns
the length of that part and leaves the position behind it. -/
def ReadsPart (sb : VfsSb) (inode : Ext2Inode) (file : VfsFile) (memory : Memory) (buffer count ppos : Nat) : Prop :=
  ∃ turns final, ext2FsRead turns sb inode file memory buffer count ppos =
      some (((min count (inode.iSize - ppos) : Nat) : Int), final, { file with pos := ppos + min count (inode.iSize - ppos) }) ∧
    ∀ place, place < buffer ∨ buffer + min count (inode.iSize - ppos) ≤ place → final place = memory place

/-- A read from a position within a file answers its part exactly when the sum with the count
does not wrap, a block behind the last byte still fits in the address space, and the
length is no negative `ssize_t`. -/
theorem ext2_fs_read_iff (geometry : Geometry sb width) (inode : Ext2Inode) (file : VfsFile) (memory : Memory)
    (buffer : Nat) (count : BitVec 32) (inside : ppos ≤ inode.iSize) :
    ReadsPart sb inode file memory buffer count.toNat ppos ↔
      ppos + count.toNat < 2 ^ 32 ∧ min (ppos + count.toNat) inode.iSize + sb.blocksize ≤ 2 ^ 32 ∧
        min count.toNat (inode.iSize - ppos) < 2 ^ 31 := by
  have part : min (ppos + count.toNat) inode.iSize - ppos = min count.toNat (inode.iSize - ppos) := by omega
  have spec (small : ppos + count.toNat < 2 ^ 32) (fits : min (ppos + count.toNat) inode.iSize + sb.blocksize ≤ 2 ^ 32) :=
    part ▸ ext2FsRead_spec geometry file memory buffer inside small fits
  constructor
  · rintro ⟨turns, final, ran, _⟩
    obtain ⟨small, fits⟩ := ext2FsRead_ends geometry inside count.isLt ran
    obtain ⟨more, result⟩ := spec small fits
    have answers := congrArg Prod.fst (ext2FsRead_unique ran result)
    refine ⟨small, fits, ?_⟩
    by_contra large
    simp only [readResult, if_neg large] at answers
    omega
  · rintro ⟨small, fits, short⟩
    obtain ⟨turns, result⟩ := spec small fits
    simp only [readResult, if_pos short] at result
    exact ⟨turns, _, result, fun place outside => Memory.write_outside outside⟩

theorem ext2_fs_read_iff_example : ReadsPart exampleVolume.sb exampleInode virtFsFileAlloc (fun _ => 0) 0 20000 10000 :=
  (ext2_fs_read_iff exampleVolume.geometry exampleInode virtFsFileAlloc (fun _ => 0) 0 20000#32 (by decide)).mpr
    ⟨by decide, by decide, by decide⟩

/-- One byte into the file, the sum with the largest count is zero as a `size_t`. The
count becomes that number again, and the read never ends. -/
theorem largest_count_never_ends (turns : Nat) (file : VfsFile) (memory : Memory) (buffer : Nat) :
    ext2FsRead turns exampleVolume.sb exampleInode file memory buffer 0xFFFFFFFF 1 = none := by
  have beyond : 2 ^ 32 < 1 + ext2FsReadCount exampleInode 0xFFFFFFFF 1 + exampleVolume.sb.blocksize := by decide
  have start : 1 / exampleVolume.sb.blocksize * exampleVolume.sb.blocksize % 2 ^ 32 = 0 := by decide
  have below : 0 < 2 ^ 32 := by decide
  rw [ext2FsRead]
  simp only [Option.map_eq_none_iff, start]
  exact readLoop_endless exampleVolume.geometry.divides beyond (Nat.dvd_zero _) below

theorem ext2_fs_read_misses : exampleInode.iSize = 14336 ∧
    ¬ReadsPart exampleVolume.sb exampleInode virtFsFileAlloc (fun _ => 0) 0 0xFFFFFFFF 1 := by
  refine ⟨rfl, fun ⟨turns, final, ran, _⟩ => ?_⟩
  cases (largest_count_never_ends turns virtFsFileAlloc (fun _ => 0) 0).symm.trans ran

/-- Exactly the reads below the top of the address space return. -/
theorem freads_iff (geometry : Geometry sb width) (readable : Readable inode reader) (sized : count < 2 ^ 32) :
    Freads sb inode fd reader (buffer, count) next ↔
      reader.file.pos + count < 2 ^ 32 ∧ min (reader.file.pos + count) inode.iSize + sb.blocksize ≤ 2 ^ 32 ∧
        next = reader.after sb width inode buffer count := by
  have called (turns : Nat) : freadStep turns sb inode fd reader (buffer, count) =
      (ext2FsRead turns sb inode reader.file reader.memory buffer count reader.file.pos).map
        fun result => ⟨result.2.1, result.2.2⟩ := by
    have valid : ¬(fd : Int) < 0 := by omega
    rw [freadStep, if_pos sized, virtFsFread, if_neg valid]
    simp only [if_pos readable.mode]
    cases ext2FsRead turns sb inode reader.file reader.memory buffer count reader.file.pos <;> rfl
  constructor
  · intro reads
    obtain ⟨turns, ran⟩ := reads
    rw [called] at ran
    obtain ⟨result, ran, same⟩ := Option.map_eq_some_iff.mp ran
    obtain ⟨small, fits⟩ := ext2FsRead_ends geometry readable.inside sized ran
    obtain ⟨more, spec⟩ := ext2FsRead_spec geometry reader.file reader.memory buffer readable.inside small fits
    cases ext2FsRead_unique ran spec
    exact ⟨small, fits, same.symm⟩
  · intro reads
    obtain ⟨small, fits, same⟩ := reads
    obtain ⟨turns, spec⟩ := ext2FsRead_spec geometry reader.file reader.memory buffer readable.inside small fits
    refine ⟨turns, ?_⟩
    rw [called, spec, same]
    rfl

theorem after_pos (inside : reader.file.pos ≤ inode.iSize) :
    (reader.after sb width inode buffer count).file.pos = min (reader.file.pos + count) inode.iSize := by
  unfold Reader.after
  simp only
  omega

theorem after_readable (readable : Readable inode reader) :
    Readable inode (reader.after sb width inode buffer count) := by
  refine ⟨readable.mode, ?_⟩
  rw [after_pos readable.inside]
  omega

theorem after_byte {i : Nat} (below : reader.file.pos + i < min (reader.file.pos + count) inode.iSize) :
    (reader.after sb width inode buffer count).memory (buffer + i) =
      fileByte (ext2FsBreadBlock sb) width inode.iBlock (resumeAt width reader.file.pos + i) := by
  unfold Reader.after
  simp only
  rw [Memory.write_inside (by omega) (by omega), Nat.add_sub_cancel_left]

theorem after_before {place : Nat} (before : place < buffer) :
    (reader.after sb width inode buffer count).memory place = reader.memory place := by
  unfold Reader.after
  simp only
  rw [Memory.write_outside (.inl before)]

/-- Descriptors whose position reads have reached stay within the file. -/
theorem run_readable (geometry : Geometry sb width) {start : Reader} {calls : List (Nat × Nat)}
    (readable : Readable inode start) (reached : run (freadStep turns sb inode fd) start calls = some reader) :
    Readable inode reader := by
  refine run_always (Readable inode) (fun before call after kept stepped => ?_) readable reached
  have sized : call.2 < 2 ^ 32 := by
    unfold freadStep at stepped
    split at stepped
    next sized => exact sized
    next => cases stepped
  rw [((freads_iff geometry kept sized).mp ⟨turns, stepped⟩).2.2]
  exact after_readable kept

/-- Two calls against one, from any position within the file. -/
theorem cutsFreely_iff (geometry : Geometry sb width) (readable : Readable inode reader)
    (sized : first + second < 2 ^ 32) :
    CutsFreely sb inode fd reader buffer first second ↔ ResumesInPlace sb width inode reader.file.pos first second := by
  have inside := readable.inside
  have once : Readable inode (reader.after sb width inode buffer first) := after_readable readable
  have cut : (reader.after sb width inode buffer first).file.pos = min (reader.file.pos + first) inode.iSize :=
    after_pos inside
  have stop : (reader.after sb width inode buffer (first + second)).file.pos =
      min (reader.file.pos + first + second) inode.iSize := by rw [after_pos inside, Nat.add_assoc]
  refine ⟨fun ⟨_, _, _, one, two, all, _, same⟩ => ?_, fun ⟨small, fits, same⟩ => ?_⟩
  · obtain ⟨_, _, rfl⟩ := (freads_iff geometry readable (by omega)).mp one
    obtain ⟨_, _, rfl⟩ := (freads_iff geometry once (by omega)).mp two
    obtain ⟨small, fits, rfl⟩ := (freads_iff geometry readable sized).mp all
    rw [← Nat.add_assoc] at small fits
    refine ⟨small, fits, fun i below => ?_⟩
    have both := same (min (reader.file.pos + first) inode.iSize - reader.file.pos + i) (by rw [stop]; omega)
    rw [after_byte (by omega), cut, ← Nat.add_assoc, after_byte (by rw [cut]; omega), cut] at both
    exact both
  · refine ⟨_, _, _, (freads_iff geometry readable (by omega)).mpr ⟨by omega, by omega, rfl⟩,
      (freads_iff geometry once (by omega)).mpr ⟨by rw [cut]; omega, by rw [cut]; omega, rfl⟩,
      (freads_iff geometry readable sized).mpr ⟨by omega, by omega, rfl⟩, ?_, fun i below => ?_⟩
    · rw [after_pos once.inside, cut, stop]
      omega
    · rw [stop] at below
      rw [after_byte (by omega), cut]
      rcases Nat.lt_or_ge (reader.file.pos + i) (min (reader.file.pos + first) inode.iSize) with early | late
      · rw [after_before (by omega), after_byte early]
      · obtain ⟨j, rfl⟩ := Nat.exists_eq_add_of_le (show min (reader.file.pos + first) inode.iSize - reader.file.pos ≤ i by omega)
        rw [← Nat.add_assoc, after_byte (by rw [cut]; omega), cut]
        exact same j (by omega)

/-- Reading in two calls is reading in one exactly when the second call takes the
bytes that the first one would have reached. -/
theorem reads_cut_freely_iff {volume : Ext2Volume} {inode : Ext2Inode} {fd turns first second buffer : Nat}
    {memory : Memory} {file : VfsFile} {earlier : List (Nat × Nat)} {reader : Reader} (fresh : file.pos = 0)
    (mode : file.mode &&& fmodeCanRead ≠ 0)
    (reached : run (freadStep turns volume.sb inode fd) ⟨memory, file⟩ earlier = some reader)
    (sized : first + second < 2 ^ 32) :
    CutsFreely volume.sb inode fd reader buffer first second ↔
      ResumesInPlace volume.sb volume.width inode reader.file.pos first second :=
  cutsFreely_iff volume.geometry (run_readable volume.geometry ⟨mode, by simp [fresh]⟩ reached) sized

def exampleReader : Reader := ⟨fun _ => 0, virtFsFileSet 0 none⟩

theorem resumeAt_direct {width ppos : Nat} (direct : ppos / (4 * width) < 12) : resumeAt width ppos = ppos := by
  rw [resumeAt, resume, if_pos direct, Nat.div_add_mod]

theorem reads_cut_freely_iff_example : ∃ turns reader,
    run (freadStep turns exampleVolume.sb exampleInode 0) exampleReader [(0, 1000)] = some reader ∧
      CutsFreely exampleVolume.sb exampleInode 0 reader 1000 10000 1200 := by
  have readable : Readable exampleInode exampleReader := ⟨by decide, by decide⟩
  have reads : Freads exampleVolume.sb exampleInode 0 exampleReader (0, 1000)
      (exampleReader.after exampleVolume.sb exampleVolume.width exampleInode 0 1000) :=
    (freads_iff exampleVolume.geometry readable (by decide)).mpr ⟨by decide, by decide, rfl⟩
  obtain ⟨turns, stepped⟩ := reads
  have reached := run_cons.mpr ⟨_, stepped, run_nil _⟩
  refine ⟨turns, _, reached, (reads_cut_freely_iff rfl (by decide) reached (by decide)).mpr ⟨by decide, by decide, fun i _ => ?_⟩⟩
  have pos : (exampleReader.after exampleVolume.sb exampleVolume.width exampleInode 0 1000).file.pos = 1000 := by decide
  have cut : min (1000 + 10000) exampleInode.iSize = 11000 := by decide
  rw [pos, cut, resumeAt_direct (by decide), resumeAt_direct (by decide)]
  congr 1
  omega

/-- Thirteen blocks and then one: the second call delivers block 12 again. -/
theorem second_read_starts_tree_again : ¬CutsFreely exampleVolume.sb exampleInode 0 exampleReader 0 13312 1024 := by
  intro cuts
  have readable : Readable exampleInode exampleReader := ⟨by decide, by decide⟩
  obtain ⟨_, _, same⟩ := (cutsFreely_iff exampleVolume.geometry readable (by decide)).mp cuts
  have differ : fileByte (ext2FsBreadBlock exampleVolume.sb) exampleVolume.width exampleInode.iBlock
        (resumeAt exampleVolume.width (min (exampleReader.file.pos + 13312) exampleInode.iSize) + 0) ≠
      fileByte (ext2FsBreadBlock exampleVolume.sb) exampleVolume.width exampleInode.iBlock
        (resumeAt exampleVolume.width exampleReader.file.pos +
          (min (exampleReader.file.pos + 13312) exampleInode.iSize - exampleReader.file.pos + 0)) := by decide +kernel
  exact differ (same 0 (by decide))

end YuzuOS.Proofs.Ext2Files
