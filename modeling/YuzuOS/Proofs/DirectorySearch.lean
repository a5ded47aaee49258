import Mathlib.Data.List.TakeWhile
import YuzuOS.Library.Chain
import YuzuOS.Kernel.Ext2

/-! The search of one directory block with arbitrary bytes. It follows the lengths on the
disk without a check of them, compares names up to a zero and takes deleted records. -/

namespace YuzuOS.Proofs.DirectorySearch
open YuzuOS.Library YuzuOS.Kernel

variable {buffer : Memory} {blocksize offset turns : Nat} {name : List (BitVec 8)} {offsets : List Nat} {result : Int}

def entryName (buffer : Memory) (offset : Nat) : List (BitVec 8) :=
  (List.range (entryNameLen buffer offset)).map fun i => buffer (offset + 8 + i)

/-- Records with room for their names follow each other from the start of the block to its end. -/
structure Tiled (buffer : Memory) (blocksize : Nat) (offsets : List Nat) : Prop where
  tiles : Tiles id (entryRecLen buffer) 0 offsets blocksize
  room : ∀ offset ∈ offsets, 8 + entryNameLen buffer offset ≤ entryRecLen buffer offset

/-- The record is in use and has exactly the name. -/
def Live (buffer : Memory) (name : List (BitVec 8)) (offset : Nat) : Prop :=
  entryIno buffer offset ≠ 0 ∧ entryName buffer offset = name

instance (buffer : Memory) (name : List (BitVec 8)) (offset : Nat) : Decidable (Live buffer name offset) :=
  inferInstanceAs (Decidable (_ ∧ _))

def liveResult (buffer : Memory) (name : List (BitVec 8)) (offsets : List Nat) : Int :=
  ((offsets.find? fun offset => Live buffer name offset).map fun offset => (entryIno buffer offset : Int)).getD (-eNoent)

/-- The search returns, reads the block only and, where records tile the block, finds the
first one in use with the name. -/
def Finds (buffer : Memory) (blocksize : Nat) (name : List (BitVec 8)) : Prop :=
  ∃ turns result, ext2FsInoFindLoop buffer blocksize name turns 0 = some result ∧
    (∀ place ∈ ext2FsInoFindReads buffer blocksize name turns 0, place < blocksize) ∧
    ∀ offsets, Tiled buffer blocksize offsets → result = liveResult buffer name offsets

def Inside (buffer : Memory) (blocksize offset : Nat) : Prop :=
  offset + 6 < blocksize ∧ (entryNameLen buffer offset ≠ 0 → offset + 8 + entryNameLen buffer offset ≤ blocksize)

/-- The records from an offset on lie in the block, up to its end or to one whose name is
the wanted one up to a zero. None of them before it has the length zero, which leads nowhere. -/
inductive Passes (buffer : Memory) (blocksize : Nat) (name : List (BitVec 8)) : Nat → Prop
  | finished {offset : Nat} (behind : blocksize ≤ offset) : Passes buffer blocksize name offset
  | found {offset : Nat} (inside : Inside buffer blocksize offset) (same : entryNameTmp buffer offset = name) :
      Passes buffer blocksize name offset
  | passed {offset : Nat} (inside : Inside buffer blocksize offset) (other : entryNameTmp buffer offset ≠ name)
      (rest : Passes buffer blocksize name (offset + entryRecLen buffer offset)) : Passes buffer blocksize name offset

/-- The first record whose name is the wanted one up to a zero has the number of the first one
in use with exactly the name, or it has the number that stands for the error. -/
def Agrees (buffer : Memory) (name : List (BitVec 8)) (offsets : List Nat) : Prop :=
  ∀ first ∈ offsets.find? fun offset => entryNameTmp buffer offset = name,
    match offsets.find? fun offset => Live buffer name offset with
    | some live => entryIno buffer first < 2 ^ 31 ∧ entryIno buffer first = entryIno buffer live
    | none => entryIno buffer first = 2 ^ 32 - 2

/-! ### Termination and reads -/

theorem inside_reads {more : List Nat} (least : ∀ place ∈ more, place < offset + 6) :
    (∀ place ∈ (offset + 6) :: List.range' (offset + 8) (entryNameLen buffer offset) ++ more, place < blocksize) ↔
      Inside buffer blocksize offset := by
  constructor
  · intro reads
    refine ⟨reads _ List.mem_cons_self, fun positive => ?_⟩
    have last := reads (offset + 8 + (entryNameLen buffer offset - 1))
      (List.mem_append_left _ (List.mem_cons_of_mem _ (List.mem_range'_1.mpr ⟨by omega, by omega⟩)))
    omega
  · intro ⟨header, bytes⟩ place member
    rcases List.mem_append.mp member with copied | other
    · rcases List.mem_cons.mp copied with rfl | inner
      · exact header
      · obtain ⟨above, below⟩ := List.mem_range'_1.mp inner
        have fits := bytes (by omega)
        omega
    · exact (least place other).trans header

theorem passes_of_loop (found : ext2FsInoFindLoop buffer blocksize name turns offset = some result)
    (reads : ∀ place ∈ ext2FsInoFindReads buffer blocksize name turns offset, place < blocksize) :
    Passes buffer blocksize name offset := by
  induction turns generalizing offset with
  | zero => cases found
  | succ turns ih =>
    rw [ext2FsInoFindLoop] at found
    rw [ext2FsInoFindReads] at reads
    by_cases inside : offset < blocksize
    case neg => exact .finished (Nat.le_of_not_lt inside)
    case pos =>
      rw [if_pos inside] at found reads
      by_cases same : entryNameTmp buffer offset = name
      · simp only [if_pos same] at reads
        refine .found ((inside_reads fun place member => ?_).mp reads) same
        have bound := List.mem_range'_1.mp member
        omega
      · simp only [if_neg same] at found reads
        obtain ⟨here, later⟩ := List.forall_mem_append.mp reads
        refine .passed ((inside_reads fun place member => ?_).mp here) same (ih found later)
        have bound := List.mem_range'_1.mp member
        omega

theorem loop_of_passes (passes : Passes buffer blocksize name offset) :
    ∃ turns result, ext2FsInoFindLoop buffer blocksize name turns offset = some result ∧
      ∀ place ∈ ext2FsInoFindReads buffer blocksize name turns offset, place < blocksize := by
  induction passes with
  | finished behind => exact ⟨1, _, if_neg (Nat.not_lt.mpr behind), by simp [ext2FsInoFindReads, Nat.not_lt.mpr behind]⟩
  | @found offset inside same =>
    have below : offset < blocksize := by
      have header := inside.1
      omega
    refine ⟨1, toInt (entryIno buffer offset), by rw [ext2FsInoFindLoop, if_pos below, if_pos same], ?_⟩
    rw [ext2FsInoFindReads, if_pos below]
    simp only [if_pos same]
    refine (inside_reads fun place member => ?_).mpr inside
    have bound := List.mem_range'_1.mp member
    omega
  | @passed offset inside other rest ih =>
    have below : offset < blocksize := by
      have header := inside.1
      omega
    obtain ⟨turns, result, found, reads⟩ := ih
    refine ⟨turns + 1, result, by rw [ext2FsInoFindLoop, if_pos below, if_neg other, found], ?_⟩
    rw [ext2FsInoFindReads, if_pos below]
    simp only [if_neg other]
    refine List.forall_mem_append.mpr ⟨(inside_reads fun place member => ?_).mpr inside, reads⟩
    have bound := List.mem_range'_1.mp member
    omega

/-! ### The record that is found -/

theorem loop_tiled (tiles : Tiles id (entryRecLen buffer) offset offsets blocksize)
    (room : ∀ offset ∈ offsets, 8 + entryNameLen buffer offset ≤ entryRecLen buffer offset)
    (found : ext2FsInoFindLoop buffer blocksize name turns offset = some result) :
    result = ((offsets.find? fun offset => entryNameTmp buffer offset = name).map fun offset =>
      toInt (entryIno buffer offset)).getD (-eNoent) := by
  induction offsets generalizing offset turns with
  | nil =>
    cases turns with
    | zero => cases found
    | succ turns =>
      have same : offset = blocksize := tiles
      rw [ext2FsInoFindLoop, if_neg (by omega)] at found
      exact (Option.some.inj found).symm
  | cons first rest ih =>
    cases turns with
    | zero => cases found
    | succ turns =>
      obtain ⟨rfl, later⟩ := tiles_cons.mp tiles
      have within := Tiles.le later
      have header := room first List.mem_cons_self
      rw [id_eq] at found within later
      rw [ext2FsInoFindLoop, if_pos (by omega)] at found
      by_cases same : entryNameTmp buffer first = name
      · rw [if_pos same] at found
        rw [List.find?_cons_of_pos (by simpa using same)]
        exact (Option.some.inj found).symm
      · rw [if_neg same] at found
        rw [List.find?_cons_of_neg (by simpa using same)]
        exact ih later (fun other member => room other (List.mem_cons_of_mem _ member)) found

/-- Without a zero in the name, a record that has exactly the name has it up to a zero. -/
theorem live_matches (ended : 0 ∉ name) (live : Live buffer name offset) : entryNameTmp buffer offset = name := by
  have whole : (entryName buffer offset).takeWhile (· ≠ 0) = entryName buffer offset := by
    refine List.takeWhile_eq_self_iff.mpr fun byte member => decide_eq_true fun zero => ended ?_
    rw [← zero, ← live.2]
    exact member
  exact whole.trans live.2

theorem agrees_iff (ended : 0 ∉ name) :
    ((offsets.find? fun offset => entryNameTmp buffer offset = name).map fun offset =>
      toInt (entryIno buffer offset)).getD (-eNoent) = liveResult buffer name offsets ↔ Agrees buffer name offsets := by
  unfold liveResult Agrees
  cases first : offsets.find? fun offset => entryNameTmp buffer offset = name with
  | none =>
    have absent : (offsets.find? fun offset => Live buffer name offset) = none := by
      refine List.find?_eq_none.mpr fun offset member => ?_
      have other := List.find?_eq_none.mp first offset member
      simp only [decide_eq_true_eq] at other ⊢
      exact fun live => other (live_matches ended live)
    rw [absent]
    exact iff_of_true rfl nofun
  | some record =>
    have bound : entryIno buffer record < 2 ^ 32 := Memory.load32_lt
    simp only [Option.map_some, Option.getD_some, Option.mem_def, Option.some.injEq, forall_eq']
    cases offsets.find? fun offset => Live buffer name offset with
    | none =>
      simp only [Option.map_none, Option.getD_none, eNoent, toInt]
      split
      next => omega
      next => omega
    | some live =>
      simp only [Option.map_some, Option.getD_some, toInt]
      split
      next => omega
      next => omega

theorem ino_find_iff (buffer : Memory) (blocksize : Nat) (ended : 0 ∉ name) :
    Finds buffer blocksize name ↔
      Passes buffer blocksize name 0 ∧ ∀ offsets, Tiled buffer blocksize offsets → Agrees buffer name offsets := by
  constructor
  · intro ⟨turns, result, found, reads, finds⟩
    refine ⟨passes_of_loop found reads, fun offsets tiled => (agrees_iff ended).mp ?_⟩
    rw [← finds offsets tiled]
    exact (loop_tiled tiled.tiles tiled.room found).symm
  · intro ⟨passes, agrees⟩
    obtain ⟨turns, result, found, reads⟩ := loop_of_passes passes
    refine ⟨turns, result, found, reads, fun offsets tiled => ?_⟩
    rw [loop_tiled tiled.tiles tiled.room found]
    exact (agrees_iff ended).mpr (agrees offsets tiled)

def usedBlock : Memory := fun place =>
  if place = 0 then 5 else if place = 4 ∨ place = 20 then 16 else if place = 6 ∨ place = 22 then 1
  else if place = 8 then 98 else if place = 16 then 7 else if place = 24 then 97 else 0

theorem usedBlock_tiled (tiled : Tiled usedBlock 32 offsets) : offsets = [0, 16] := by
  obtain ⟨tiles, room⟩ := tiled
  rcases offsets with - | ⟨first, - | ⟨second, - | ⟨third, rest⟩⟩⟩
  · have ends : 0 = 32 := tiles
    exact absurd ends (by decide)
  · obtain ⟨rfl, ends⟩ := tiles_cons.mp tiles
    have ends : 0 + entryRecLen usedBlock 0 = 32 := ends
    exact absurd ends (by decide)
  · obtain ⟨rfl, later⟩ := tiles_cons.mp tiles
    exact congrArg (fun second => [0, second]) later.1
  · obtain ⟨rfl, later⟩ := tiles_cons.mp tiles
    obtain ⟨rfl, last⟩ := tiles_cons.mp later
    obtain ⟨rfl, -⟩ := tiles_cons.mp last
    exact absurd (room _ (List.mem_cons_of_mem _ (List.mem_cons_of_mem _ List.mem_cons_self))) (by decide)

theorem ino_find_example : Finds usedBlock 32 [97] ∧ liveResult usedBlock [97] [0, 16] = 7 := by
  refine ⟨(ino_find_iff usedBlock 32 (by decide)).mpr ⟨?_, fun offsets tiled => ?_⟩, by decide +kernel⟩
  · exact .passed ⟨by decide, fun _ => by decide⟩ (by decide) (.found ⟨by decide, fun _ => by decide⟩ (by decide))
  · rw [usedBlock_tiled tiled]
    intro first found
    have second : [0, 16].find? (fun offset => entryNameTmp usedBlock offset = [97]) = some 16 := by decide
    have live : [0, 16].find? (fun offset => Live usedBlock [97] offset) = some 16 := by decide
    rw [second] at found
    cases found
    rw [live]
    decide

/-- A deleted record with the name `"a"` in front of one in use. -/
def deletedBlock : Memory := fun place =>
  if place = 4 ∨ place = 20 then 16 else if place = 6 ∨ place = 22 then 1 else if place = 8 ∨ place = 24 then 97
  else if place = 16 then 5 else 0

theorem zeros_repeat (turns : Nat) : ext2FsInoFindLoop (fun _ => 0) 1024 [120] turns 0 = none := by
  induction turns with
  | zero => rfl
  | succ turns ih => exact ih

/-- A block of zeros is searched forever, and the number of a deleted record is returned. -/
theorem ino_find_misses : ¬Finds (fun _ => 0) 1024 [120] ∧
    Tiled deletedBlock 32 [0, 16] ∧ liveResult deletedBlock [97] [0, 16] = 5 ∧
    ext2FsInoFindLoop deletedBlock 32 [97] 33 0 = some 0 := by
  refine ⟨fun ⟨turns, _, found, _⟩ => ?_, ⟨⟨rfl, rfl, rfl⟩, by decide +kernel⟩, by decide +kernel, by decide +kernel⟩
  rw [zeros_repeat] at found
  cases found

end YuzuOS.Proofs.DirectorySearch
