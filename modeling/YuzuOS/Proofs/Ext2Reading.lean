import YuzuOS.Library.BlockTree
import YuzuOS.Kernel.Ext2

/-! Reads of ext2 files. A read delivers blocks in order, from the first block of
the tree that the block of its position selects. -/

namespace YuzuOS.Proofs.Ext2Reading
open YuzuOS.Library YuzuOS.Library.BlockTree YuzuOS.Kernel

/-- Block sizes of ext2 with the number of pointers in a block. -/
structure Geometry (sb : VfsSb) (width : Nat) : Prop where
  words : sb.blocksize = 4 * width
  least : 256 ≤ width
  most : width ≤ 16384
  divides : sb.blocksize ∣ 2 ^ 32

def fileTree (width n : Nat) : Nat × Nat × Nat :=
  if n < 12 then (0, n, 0)
  else if n < 12 + width then (1, 12, n - 12)
  else if n < 12 + width + width ^ 2 then (2, 13, n - (12 + width))
  else (3, 14, n - (12 + width + width ^ 2))

def fileLeaf (blocks : Nat → Memory) (width : Nat) (iBlock : Nat → Nat) (n : Nat) : Nat :=
  leaf blocks width (fileTree width n).1 (iBlock (fileTree width n).2.1) (fileTree width n).2.2

def fileByte (blocks : Nat → Memory) (width : Nat) (iBlock : Nat → Nat) (place : Nat) : BitVec 8 :=
  blocks (fileLeaf blocks width iBlock (place / (4 * width))) (place % (4 * width))

/-- The block that a read from block `n` on starts with. -/
def resume (width n : Nat) : Nat :=
  if n < 12 then n else if n < 268 then 12 else if n < 65804 then 12 + width else 12 + width + width ^ 2

variable {sb : VfsSb} {inode : Ext2Inode} {width ppos count bound buffer m last level block turns : Nat}
  {memory : Memory} {stream : Nat → BitVec 8} {state : Ext2Read}

/-- The bytes of the stream from the position up to block `m` are in the buffer. -/
structure Delivered (size ppos bound buffer : Nat) (memory : Memory) (stream : Nat → BitVec 8) (m : Nat)
    (state : Ext2Read) : Prop where
  target : state.targetPos = size * m
  pointer : state.buffer = buffer + (min (size * m) bound - ppos)
  bytes : state.memory = memory.write buffer (min (size * m) bound - ppos) fun i => stream (ppos + i)

theorem breadBlock_delivered (delivered : Delivered sb.blocksize ppos (ppos + count) buffer memory stream m state)
    (before : sb.blocksize * m < ppos + count) (after : ppos < sb.blocksize * (m + 1))
    (fits : ppos + count + sb.blocksize ≤ 2 ^ 32)
    (holds : ∀ i < sb.blocksize, ext2FsBreadBlock sb block i = stream (sb.blocksize * m + i)) :
    Delivered sb.blocksize ppos (ppos + count) buffer memory stream (m + 1) (ext2FsBreadNRec sb ppos count 0 block state) := by
  have next : sb.blocksize * (m + 1) = sb.blocksize * m + sb.blocksize := Nat.mul_succ _ _
  rw [next] at after
  generalize target : sb.blocksize * m = place at *
  have sum : (place + sb.blocksize) % 2 ^ 32 = place + sb.blocksize := Nat.mod_eq_of_lt (by omega)
  have start : (if state.targetPos < ppos then (ppos - state.targetPos) % 2 ^ 32 else 0) = ppos - place := by
    rw [delivered.target, target]
    split <;> omega
  have rest : (if ppos + count < (state.targetPos + sb.blocksize) % 2 ^ 32 then
      ((state.targetPos + sb.blocksize) % 2 ^ 32 - ppos - count) % 2 ^ 32 else 0) = place + sb.blocksize - (ppos + count) := by
    rw [delivered.target, target, sum]
    split <;> omega
  have len : (sb.blocksize + 2 ^ 33 - (ppos - place) - (place + sb.blocksize - (ppos + count))) % 2 ^ 32 =
      min (place + sb.blocksize) (ppos + count) - ppos - (min place (ppos + count) - ppos) := by omega
  simp only [ext2FsBreadNRec, start, rest, len]
  refine ⟨?_, ?_, ?_⟩
  · simp only [delivered.target, target, sum, next]
  · simp only [delivered.pointer, target, next]
    omega
  · have whole : min (place + sb.blocksize) (ppos + count) - ppos =
        (min place (ppos + count) - ppos) + (min (place + sb.blocksize) (ppos + count) - ppos - (min place (ppos + count) - ppos)) := by
      omega
    simp only [delivered.pointer, delivered.bytes, target, next]
    rw [whole, ← Memory.write_append, ← whole]
    refine Memory.write_congr fun i bound => ?_
    rw [holds _ (by omega)]
    congr 1
    omega

theorem breadNRec_delivered (width : Nat) (words : sb.blocksize = 4 * width)
    (ends : ∀ m, sb.blocksize * m < ppos + count ↔ m < last) (fits : ppos + count + sb.blocksize ≤ 2 ^ 32)
    (delivered : Delivered sb.blocksize ppos (ppos + count) buffer memory stream m state)
    (before : m < last) (after : ppos < sb.blocksize * (m + 1))
    (holds : ∀ j < width ^ level, m + j < last → ∀ i < sb.blocksize,
      ext2FsBreadBlock sb (leaf (ext2FsBreadBlock sb) width level block j) i = stream (sb.blocksize * (m + j) + i)) :
    Delivered sb.blocksize ppos (ppos + count) buffer memory stream (min (m + width ^ level) last)
      (ext2FsBreadNRec sb ppos count level block state) := by
  induction level generalizing m block state with
  | zero =>
    have one : min (m + width ^ 0) last = m + 1 := by
      rw [Nat.pow_zero]
      omega
    rw [one]
    exact breadBlock_delivered delivered ((ends m).mpr before) after fits (holds 0 (by simp) before)
  | succ level ih =>
    have entries : sb.blocksize / 4 = width := by omega
    rw [ext2FsBreadNRec, entries, Nat.pow_succ, Nat.mul_comm]
    -- the loop over the pointers, of which the first `done` are read
    have loop : ∀ done ≤ width, Delivered sb.blocksize ppos (ppos + count) buffer memory stream
        (min (m + done * width ^ level) last) ((List.range done).foldl (fun state i =>
          if state.targetPos < ppos + count then
            ext2FsBreadNRec sb ppos count level ((ext2FsBreadBlock sb block).load32 (4 * i)) state
          else state) state) := by
      intro done few
      induction done with
      | zero =>
        have none : min (m + 0 * width ^ level) last = m := by omega
        rw [none]
        exact delivered
      | succ done inner =>
        have earlier := inner (by omega)
        rw [List.range_succ, List.foldl_append, List.foldl_cons, List.foldl_nil]
        generalize (List.range done).foldl _ state = middle at *
        rw [Nat.succ_mul]
        split
        next more =>
          rw [earlier.target] at more
          have inside : m + done * width ^ level < last := by
            have less := (ends _).mp more
            omega
          have here : min (m + done * width ^ level) last = m + done * width ^ level := by omega
          rw [here] at earlier
          rw [← Nat.add_assoc]
          refine ih earlier inside (after.trans_le (Nat.mul_le_mul_left _ (by omega))) fun j below short i bound => ?_
          have child := leaf_below (ext2FsBreadBlock sb) block done below
          rw [pointer] at child
          rw [← child, holds (done * width ^ level + j) ?_ (by omega) i bound, Nat.add_assoc]
          calc done * width ^ level + j < done * width ^ level + width ^ level := by omega
            _ = (done + 1) * width ^ level := (Nat.succ_mul _ _).symm
            _ ≤ width * width ^ level := Nat.mul_le_mul_right _ few
            _ = width ^ (level + 1) := by rw [Nat.pow_succ, Nat.mul_comm]
        next done' =>
          have beyond : last ≤ m + done * width ^ level := by
            by_contra short
            rw [earlier.target] at done'
            exact done' ((ends _).mpr (by omega))
          have stays : min (m + (done * width ^ level + width ^ level)) last = min (m + done * width ^ level) last := by omega
          rw [stays]
          exact earlier
    exact loop width (Nat.le_refl _)

def readTree (n : Nat) : Nat × Nat :=
  if n < 12 then (0, n) else if n < 268 then (1, 12) else if n < 65804 then (2, 13) else (3, 14)

theorem readTurn_readTree (positive : 0 < sb.blocksize) (target : state.targetPos = sb.blocksize * m)
    (few : m < 16843020) :
    ext2FsReadTurn sb inode ppos count state =
      ext2FsBreadNRec sb ppos count (readTree m).1 (inode.iBlock (readTree m).2) state := by
  have block : state.targetPos / sb.blocksize = m := by rw [target, Nat.mul_div_cancel_left _ positive]
  rw [ext2FsReadTurn, block]
  unfold readTree ext2InoUpperLevel0 ext2InoUpperLevel1 ext2InoUpperLevel2 ext2InoUpperLevel3
  rw [if_pos few]
  split
  next => rfl
  next =>
    split
    next => rfl
    next =>
      split
      next => rfl
      next => rfl

/-- The selected tree holds the blocks from `resume` on. -/
theorem fileLeaf_readTree {j : Nat} (blocks : Nat → Memory) (iBlock : Nat → Nat) (inside : j < width ^ (readTree m).1) :
    fileLeaf blocks width iBlock (resume width m + j) = leaf blocks width (readTree m).1 (iBlock (readTree m).2) j := by
  unfold resume readTree at *
  unfold fileLeaf fileTree
  split
  next direct =>
    rw [if_pos direct, Nat.pow_zero] at inside
    have first : j = 0 := by omega
    rw [first, Nat.add_zero, if_pos direct]
  next indirect =>
    rw [if_neg indirect] at inside
    split
    next single =>
      rw [if_pos single, Nat.pow_one] at inside
      have index : 12 + j - 12 = j := by omega
      rw [if_neg (by omega), if_pos (by omega), index]
    next many =>
      rw [if_neg many] at inside
      split
      next double =>
        simp only [if_pos double] at inside
        have index : 12 + width + j - (12 + width) = j := by omega
        rw [if_neg (by omega), if_neg (by omega), if_pos (by omega), index]
      next triple =>
        have index : 12 + width + width ^ 2 + j - (12 + width + width ^ 2) = j := by omega
        rw [if_neg (by omega), if_neg (by omega), if_neg (by omega), index]

/-- Behind a whole tree the code goes on with the next one. -/
theorem resume_next (least : 256 ≤ width) (most : width ≤ 16384) (small : (readTree m).1 < 3) :
    resume width (m + width ^ (readTree m).1) = resume width m + width ^ (readTree m).1 := by
  have square : 256 * 256 ≤ width ^ 2 := by
    rw [Nat.pow_two]
    exact Nat.mul_le_mul least least
  unfold readTree at *
  unfold resume
  split
  next direct =>
    have edge : m + 1 < 12 ∨ m + 1 = 12 := by omega
    rw [Nat.pow_zero]
    rcases edge with inside | last
    · rw [if_pos inside]
    · rw [last]
      rfl
  next indirect =>
    rw [if_neg indirect] at small
    split
    next single =>
      simp only [Nat.pow_one]
      rw [if_neg (by omega), if_neg (by omega), if_pos (by omega)]
    next many =>
      rw [if_neg many] at small
      split
      next double =>
        simp only
        rw [if_neg (by omega), if_neg (by omega), if_neg (by omega)]
      next triple =>
        rw [if_neg triple] at small
        omega

def readStream (blocks : Nat → Memory) (width : Nat) (iBlock : Nat → Nat) (ppos place : Nat) : BitVec 8 :=
  fileByte blocks width iBlock
    (4 * width * resume width (ppos / (4 * width)) + (place - 4 * width * (ppos / (4 * width))))

theorem readStream_block {blocks : Nat → Memory} {iBlock : Nat → Nat} {i : Nat} (inside : i < 4 * width)
    (after : ppos / (4 * width) ≤ m)
    (aligned : resume width m = resume width (ppos / (4 * width)) + (m - ppos / (4 * width))) (j : Nat) :
    readStream blocks width iBlock ppos (4 * width * (m + j) + i) =
      blocks (fileLeaf blocks width iBlock (resume width m + j)) i := by
  have positive : 0 < 4 * width := Nat.zero_lt_of_lt inside
  have place : 4 * width * resume width (ppos / (4 * width)) + (4 * width * (m + j) + i - 4 * width * (ppos / (4 * width))) =
      4 * width * (resume width m + j) + i := by
    generalize ppos / (4 * width) = first at *
    obtain ⟨later, rfl⟩ := Nat.exists_eq_add_of_le after
    rw [aligned, Nat.add_sub_cancel_left]
    simp only [Nat.mul_add]
    omega
  rw [readStream, place, fileByte, Nat.mul_add_div positive, Nat.mul_add_mod, Nat.div_eq_of_lt inside, Nat.mod_eq_of_lt inside,
    Nat.add_zero]

theorem readLoop_done (ends : ∀ m, sb.blocksize * m < ppos + count ↔ m < last)
    (target : state.targetPos = sb.blocksize * m) (done : last ≤ m) :
    ext2FsReadLoop sb inode ppos count (turns + 1) state = some state := by
  have beyond : ¬state.targetPos < ppos + count := by
    rw [target, ends]
    omega
  rw [ext2FsReadLoop, if_neg beyond]

theorem readLoop_delivered (geometry : Geometry sb width) (ends : ∀ m, sb.blocksize * m < ppos + count ↔ m < last)
    (fits : ppos + count + sb.blocksize ≤ 2 ^ 32)
    (delivered : Delivered sb.blocksize ppos (ppos + count) buffer memory
      (readStream (ext2FsBreadBlock sb) width inode.iBlock ppos) m state)
    (after : ppos / sb.blocksize ≤ m)
    (aligned : resume width m = resume width (ppos / sb.blocksize) + (m - ppos / sb.blocksize)) :
    ∃ turns final, ext2FsReadLoop sb inode ppos count turns state = some final ∧
      Delivered sb.blocksize ppos (ppos + count) buffer memory
        (readStream (ext2FsBreadBlock sb) width inode.iBlock ppos) (max m last) final := by
  obtain ⟨words, least, most, _⟩ := geometry
  have positive : 0 < sb.blocksize := by omega
  generalize left : last - m = n
  induction n using Nat.strongRecOn generalizing m state with
  | ind n ih =>
    rcases Nat.lt_or_ge m last with more | done
    · have few : last ≤ 2 ^ 22 := by
        by_contra large
        have inside := (ends (2 ^ 22)).mpr (by omega)
        omega
      have position : ppos < sb.blocksize * (m + 1) :=
        (Nat.lt_mul_div_succ ppos positive).trans_le (Nat.mul_le_mul_left _ (by omega))
      have turned : Delivered sb.blocksize ppos (ppos + count) buffer memory
          (readStream (ext2FsBreadBlock sb) width inode.iBlock ppos) (min (m + width ^ (readTree m).1) last)
          (ext2FsReadTurn sb inode ppos count state) := by
        rw [readTurn_readTree positive delivered.target (by omega)]
        refine breadNRec_delivered width words ends fits delivered more position fun j inside _ i bound => ?_
        rw [words] at bound after aligned ⊢
        rw [readStream_block bound after aligned, fileLeaf_readTree _ _ inside]
      have looped (turns : Nat) : ext2FsReadLoop sb inode ppos count (turns + 1) state =
          ext2FsReadLoop sb inode ppos count turns (ext2FsReadTurn sb inode ppos count state) := by
        have under : state.targetPos < ppos + count := delivered.target ▸ (ends m).mpr more
        rw [ext2FsReadLoop, if_pos under]
      have full : 0 < width ^ (readTree m).1 := Nat.pow_pos (by omega)
      rcases Nat.lt_or_ge (m + width ^ (readTree m).1) last with within | beyond
      · -- a tree that is read whole is not the triple one
        have level : (readTree m).1 < 3 := by
          by_contra triple
          have cube : 256 ^ 3 ≤ width ^ (readTree m).1 :=
            (Nat.pow_le_pow_left least 3).trans (Nat.pow_le_pow_right (by omega) (by omega))
          omega
        rw [Nat.min_eq_left (by omega)] at turned
        obtain ⟨turns, final, ran, whole⟩ := ih _ (by omega) turned (by omega)
          (by rw [resume_next least most level]; omega) rfl
        rw [Nat.max_eq_right (by omega)] at whole ⊢
        exact ⟨turns + 1, final, (looped turns).trans ran, whole⟩
      · rw [Nat.min_eq_right beyond] at turned
        rw [Nat.max_eq_right more.le]
        exact ⟨2, _, (looped 1).trans (readLoop_done ends turned.target (Nat.le_refl _)), turned⟩
    · rw [Nat.max_eq_left done]
      exact ⟨1, state, readLoop_done ends delivered.target done, delivered⟩

theorem readCount_spec (inside : ppos ≤ inode.iSize) (sum : ppos + count < 2 ^ 32) :
    ext2FsReadCount inode count ppos = min (ppos + count) inode.iSize - ppos := by
  have fits := inode.sizeFits
  unfold ext2FsReadCount
  rw [Nat.mod_eq_of_lt sum]
  omega

theorem blocks_below (positive : 0 < sb.blocksize) (bound m : Nat) :
    sb.blocksize * m < bound ↔ m < (bound + sb.blocksize - 1) / sb.blocksize := by
  have step : sb.blocksize * (m + 1) = sb.blocksize * m + sb.blocksize := Nat.mul_succ _ _
  rw [← Nat.succ_le_iff, ← Nat.succ_le_iff (n := (bound + sb.blocksize - 1) / sb.blocksize), Nat.le_div_iff_mul_le positive,
    Nat.mul_comm m.succ, Nat.succ_eq_add_one, step]
  omega

/-- The place in the file from which a read at a position takes its bytes. -/
def resumeAt (width ppos : Nat) : Nat := 4 * width * resume width (ppos / (4 * width)) + ppos % (4 * width)

/-- What `read` returns, and what it leaves in the buffer and in the file. -/
def readResult (sb : VfsSb) (width : Nat) (inode : Ext2Inode) (file : VfsFile) (memory : Memory) (buffer ppos n : Nat) :
    Int × Memory × VfsFile :=
  (if n < 2 ^ 31 then (n : Int) else n - 2 ^ 32,
    memory.write buffer n fun i => fileByte (ext2FsBreadBlock sb) width inode.iBlock (resumeAt width ppos + i),
    { file with pos := ppos + n })

/-- A read that stays below the top of the address space ends with its bytes. -/
theorem ext2FsRead_spec (geometry : Geometry sb width) (file : VfsFile) (memory : Memory) (buffer : Nat)
    (inside : ppos ≤ inode.iSize) (sum : ppos + count < 2 ^ 32)
    (fits : min (ppos + count) inode.iSize + sb.blocksize ≤ 2 ^ 32) :
    ∃ turns, ext2FsRead turns sb inode file memory buffer count ppos =
      some (readResult sb width inode file memory buffer ppos (min (ppos + count) inode.iSize - ppos)) := by
  have positive : 0 < sb.blocksize := by
    have words := geometry.words
    have least := geometry.least
    omega
  have start : ppos / sb.blocksize * sb.blocksize ≤ ppos := Nat.div_mul_le_self _ _
  have begins : ppos / sb.blocksize * sb.blocksize % 2 ^ 32 = sb.blocksize * (ppos / sb.blocksize) := by
    rw [Nat.mod_eq_of_lt (by omega), Nat.mul_comm]
  have counted := readCount_spec inside sum
  generalize total : min (ppos + count) inode.iSize - ppos = n at counted
  have ends := blocks_below positive (ppos + n)
  have delivered : Delivered sb.blocksize ppos (ppos + n) buffer memory
      (readStream (ext2FsBreadBlock sb) width inode.iBlock ppos) (ppos / sb.blocksize)
      ⟨memory, buffer, sb.blocksize * (ppos / sb.blocksize)⟩ := by
    rw [Nat.mul_comm] at start
    have nothing : min (sb.blocksize * (ppos / sb.blocksize)) (ppos + n) - ppos = 0 := by omega
    refine ⟨rfl, ?_, ?_⟩
    · rw [nothing, Nat.add_zero]
    · rw [nothing, Memory.write_zero]
  obtain ⟨turns, final, ran, whole⟩ :=
    readLoop_delivered geometry ends (by omega) delivered (Nat.le_refl _) (by rw [Nat.sub_self, Nat.add_zero])
  have all : min (sb.blocksize * max (ppos / sb.blocksize) ((ppos + n + sb.blocksize - 1) / sb.blocksize)) (ppos + n) - ppos =
      n := by
    have reached := (ends (max (ppos / sb.blocksize) ((ppos + n + sb.blocksize - 1) / sb.blocksize))).not.mpr (by omega)
    omega
  refine ⟨turns, ?_⟩
  simp only [ext2FsRead, begins, counted, ran, Option.map_some, whole.bytes, all, readResult]
  have same : (fun i => readStream (ext2FsBreadBlock sb) width inode.iBlock ppos (ppos + i)) =
      fun i => fileByte (ext2FsBreadBlock sb) width inode.iBlock (resumeAt width ppos + i) := by
    funext i
    have split := Nat.div_add_mod ppos (4 * width)
    rw [readStream, resumeAt]
    congr 1
    omega
  rw [same]

theorem target_wraps (divides : sb.blocksize ∣ 2 ^ 32) {target : Nat} (aligned : sb.blocksize ∣ target) :
    sb.blocksize ∣ (target + sb.blocksize) % 2 ^ 32 :=
  (Nat.dvd_mod_iff divides).mpr (Nat.dvd_add aligned (Nat.dvd_refl _))

theorem breadNRec_target (divides : sb.blocksize ∣ 2 ^ 32) (aligned : sb.blocksize ∣ state.targetPos)
    (small : state.targetPos < 2 ^ 32) :
    sb.blocksize ∣ (ext2FsBreadNRec sb ppos count level block state).targetPos ∧
      (ext2FsBreadNRec sb ppos count level block state).targetPos < 2 ^ 32 := by
  induction level generalizing block state with
  | zero => exact ⟨target_wraps divides aligned, Nat.mod_lt _ (by decide)⟩
  | succ level ih =>
    rw [ext2FsBreadNRec]
    generalize List.range (sb.blocksize / 4) = entries
    induction entries generalizing state with
    | nil => exact ⟨aligned, small⟩
    | cons i rest inner =>
      rw [List.foldl_cons]
      split
      next =>
        obtain ⟨further, below⟩ := ih aligned small
        exact inner further below
      next => exact inner aligned small

/-- A read beyond the last block start of the address space never ends. -/
theorem readLoop_endless (divides : sb.blocksize ∣ 2 ^ 32) (beyond : 2 ^ 32 < ppos + count + sb.blocksize)
    (aligned : sb.blocksize ∣ state.targetPos) (small : state.targetPos < 2 ^ 32) :
    ext2FsReadLoop sb inode ppos count turns state = none := by
  induction turns generalizing state with
  | zero => rfl
  | succ turns ih =>
    have room : state.targetPos + sb.blocksize ≤ 2 ^ 32 := by
      obtain ⟨last, whole⟩ := divides
      obtain ⟨place, target⟩ := aligned
      rw [target, whole, ← Nat.mul_succ]
      rw [target, whole] at small
      exact Nat.mul_le_mul_left _ (Nat.lt_of_mul_lt_mul_left small)
    rw [ext2FsReadLoop, if_pos (by omega)]
    have turned : sb.blocksize ∣ (ext2FsReadTurn sb inode ppos count state).targetPos ∧
        (ext2FsReadTurn sb inode ppos count state).targetPos < 2 ^ 32 := by
      unfold ext2FsReadTurn
      simp only
      split
      next => exact breadNRec_target divides aligned small
      next =>
        split
        next => exact breadNRec_target divides aligned small
        next =>
          split
          next => exact breadNRec_target divides aligned small
          next =>
            split
            next => exact breadNRec_target divides aligned small
            next => exact ⟨aligned, small⟩
    exact ih turned.1 turned.2

end YuzuOS.Proofs.Ext2Reading
