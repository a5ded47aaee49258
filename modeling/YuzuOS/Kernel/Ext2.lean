import YuzuOS.Kernel.Align
import YuzuOS.Kernel.VirtualFs

/-! Reading of ext2 files and looking names up in directories. The buffers of
block reads are bytes of their own; `memory` holds what a reader gets. Offsets
into a file are never negative. -/

namespace YuzuOS.Kernel
open YuzuOS.Library

def vfsBytesPSector : Nat := 512

def ext2InoUpperLevel0 : Nat := 12
def ext2InoUpperLevel1 : Nat := 268
def ext2InoUpperLevel2 : Nat := 65804
def ext2InoUpperLevel3 : Nat := 16843020

def ext2MinBlockSize : Nat := 1024

/-- `device` holds the bytes of the device of `devname`. -/
structure VfsSb where
  device : Memory
  blocksize : Nat

/-- The block size as `ext2_fs_mount` sets it. -/
def ext2BlockSize (logBlockSize : Nat) : Nat := ext2MinBlockSize <<< logBlockSize

/-- `iBlock` goes on behind its 15 entries with what follows it in memory. -/
structure Ext2Inode where
  iSize : Nat
  iBlocks : Nat
  iBlock : Nat → Nat
  sizeFits : iSize < 2 ^ 32

/-- The buffer of a read from a sector on. -/
def virtFsBread (sb : VfsSb) (sector : Nat) : Memory := fun i => sb.device (sector * vfsBytesPSector + i)

def ext2FsBreadBlock (sb : VfsSb) (block : Nat) : Memory :=
  virtFsBread sb (block * (sb.blocksize / vfsBytesPSector) % 2 ^ 32)

/-- The buffer that is filled, the end of what it holds and `target_pos`. -/
structure Ext2Read where
  memory : Memory
  buffer : Nat
  targetPos : Nat

def ext2FsBreadNRec (sb : VfsSb) (ppos count : Nat) : Nat → Nat → Ext2Read → Ext2Read
  | 0, block, state =>
    let bufferBlock := ext2FsBreadBlock sb block
    let posStart := if state.targetPos < ppos then (ppos - state.targetPos) % 2 ^ 32 else 0
    let posEnd := if ppos + count < (state.targetPos + sb.blocksize) % 2 ^ 32 then
      ((state.targetPos + sb.blocksize) % 2 ^ 32 - ppos - count) % 2 ^ 32 else 0
    let len := (sb.blocksize + 2 ^ 33 - posStart - posEnd) % 2 ^ 32
    { memory := state.memory.write state.buffer len fun i => bufferBlock (posStart + i)
      buffer := state.buffer + len
      targetPos := (state.targetPos + sb.blocksize) % 2 ^ 32 }
  | level + 1, block, state =>
    (List.range (sb.blocksize / 4)).foldl (fun state i =>
      if state.targetPos < ppos + count then
        ext2FsBreadNRec sb ppos count level ((ext2FsBreadBlock sb block).load32 (4 * i)) state
      else state) state

/-- One turn of the loop of `ext2_fs_read`. -/
def ext2FsReadTurn (sb : VfsSb) (inode : Ext2Inode) (ppos count : Nat) (state : Ext2Read) : Ext2Read :=
  let block := state.targetPos / sb.blocksize
  if block < ext2InoUpperLevel0 then ext2FsBreadNRec sb ppos count 0 (inode.iBlock block) state
  else if block < ext2InoUpperLevel1 then ext2FsBreadNRec sb ppos count 1 (inode.iBlock 12) state
  else if block < ext2InoUpperLevel2 then ext2FsBreadNRec sb ppos count 2 (inode.iBlock 13) state
  else if block < ext2InoUpperLevel3 then ext2FsBreadNRec sb ppos count 3 (inode.iBlock 14) state
  else state

def ext2FsReadLoop (sb : VfsSb) (inode : Ext2Inode) (ppos count : Nat) : Nat → Ext2Read → Option Ext2Read
  | 0, _ => none
  | turns + 1, state =>
    if state.targetPos < ppos + count then
      ext2FsReadLoop sb inode ppos count turns (ext2FsReadTurn sb inode ppos count state)
    else some state

/-- `count` cut at the end of the file, as a `size_t`. -/
def ext2FsReadCount (inode : Ext2Inode) (count ppos : Nat) : Nat :=
  (((min ((ppos + count) % 2 ^ 32) inode.iSize : Nat) - ppos : Int) % 2 ^ 32).toNat

/-- The result is a `ssize_t`. `turns` bounds the loop. -/
def ext2FsRead (turns : Nat) (sb : VfsSb) (inode : Ext2Inode) (file : VfsFile) (memory : Memory)
    (buffer count ppos : Nat) : Option (Int × Memory × VfsFile) :=
  let targetPos := ppos / sb.blocksize * sb.blocksize % 2 ^ 32
  let count := ext2FsReadCount inode count ppos
  (ext2FsReadLoop sb inode ppos count turns ⟨memory, buffer, targetPos⟩).map fun state =>
    (if count < 2 ^ 31 then (count : Int) else count - 2 ^ 32, state.memory, { file with pos := ppos + count })

/-! The fields of the directory record at an offset of a block. -/

def entryIno (buffer : Memory) (offset : Nat) : Nat := buffer.load32 offset

def entryRecLen (buffer : Memory) (offset : Nat) : Nat := buffer.load16 (offset + 4)

def entryNameLen (buffer : Memory) (offset : Nat) : Nat := (buffer (offset + 6)).toNat

/-- `name_tmp` up to its first zero, as `strcmp` sees it. -/
def entryNameTmp (buffer : Memory) (offset : Nat) : List (BitVec 8) :=
  ((List.range (entryNameLen buffer offset)).map fun i => buffer (offset + 8 + i)).takeWhile (· ≠ 0)

/-- The loop of `ext2_fs_ino_find`. -/
def ext2FsInoFindLoop (buffer : Memory) (blocksize : Nat) (name : List (BitVec 8)) : Nat → Nat → Option Int
  | 0, _ => none
  | turns + 1, size =>
    if size < blocksize then
      if entryNameTmp buffer size = name then some (toInt (entryIno buffer size))
      else ext2FsInoFindLoop buffer blocksize name turns (size + entryRecLen buffer size)
    else some (-eNoent)

/-- The bytes that the loop of `ext2_fs_ino_find` reads, as offsets into the block. -/
def ext2FsInoFindReads (buffer : Memory) (blocksize : Nat) (name : List (BitVec 8)) : Nat → Nat → List Nat
  | 0, _ => []
  | turns + 1, size =>
    if size < blocksize then
      let copied := (size + 6) :: List.range' (size + 8) (entryNameLen buffer size)
      if entryNameTmp buffer size = name then copied ++ List.range' size 4
      else copied ++ List.range' (size + 4) 2 ++
        ext2FsInoFindReads buffer blocksize name turns (size + entryRecLen buffer size)
    else []

/-- A record of length zero repeats forever; any other moves on, so that the
turns are enough and `none` means that the search does not end. -/
def ext2FsInoFind (sb : VfsSb) (block : Nat) (name : List (BitVec 8)) : Option Int :=
  ext2FsInoFindLoop (ext2FsBreadBlock sb block) sb.blocksize name (sb.blocksize + 1) 0

/-- `ext2_fs_bread_rec` with `ext2_fs_ino_find` as its action. -/
def ext2FsBreadRec (sb : VfsSb) (name : List (BitVec 8)) : Nat → Nat → Option Int
  | 0, block => ext2FsInoFind sb block name
  | level + 1, block =>
    (List.range (sb.blocksize / 4)).foldl (fun result i => result.bind fun value =>
      if 0 ≤ value then some value else ext2FsBreadRec sb name level ((ext2FsBreadBlock sb block).load32 (4 * i)))
      (some (-eNoent))

/-- The loop of `ext2_fs_bread_rec` over the pointers of a block, with the search of the level below. -/
def ext2FsBreadRecLoop {σ : Type u} (search : Nat → σ → Int × σ) (buffer : Memory) : Nat → Nat → Int → σ → Int × σ
  | 0, _, result, state => (result, state)
  | left + 1, i, _, state =>
    let (result, state) := search (buffer.load32 (4 * i)) state
    if 0 ≤ result then (result, state) else ext2FsBreadRecLoop search buffer left (i + 1) result state

/-- `ext2_fs_bread_rec` with any action that returns; it may change a state. -/
def ext2FsBreadRecAction {σ : Type u} (sb : VfsSb) (action : Nat → σ → Int × σ) : Nat → Nat → σ → Int × σ
  | 0, block, state => action block state
  | level + 1, block, state =>
    ext2FsBreadRecLoop (ext2FsBreadRecAction sb action level) (ext2FsBreadBlock sb block) (sb.blocksize / 4) 0 (-eNoent) state

/-- The search of one entry, with the index that it takes the block from. -/
def ext2FsLookupFind (sb : VfsSb) (inode : Ext2Inode) (name : List (BitVec 8)) (i : Nat) : Option Int × List Nat :=
  if i < ext2InoUpperLevel0 then (ext2FsBreadRec sb name 0 (inode.iBlock i), [i])
  else if i < ext2InoUpperLevel1 then (ext2FsBreadRec sb name 1 (inode.iBlock 12), [12])
  else if i < ext2InoUpperLevel2 then (ext2FsBreadRec sb name 2 (inode.iBlock 13), [13])
  else if i < ext2InoUpperLevel3 then (ext2FsBreadRec sb name 3 (inode.iBlock 14), [14])
  else (some 0, [])

/-- The loop of `ext2_fs_lookup`: the number of the inode found, or `NULL`, and
the indices of `i_block` that were read. -/
def ext2FsLookupLoop (sb : VfsSb) (inode : Ext2Inode) (name : List (BitVec 8)) :
    Nat → Nat → Option (Option Nat × List Nat)
  | 0, _ => some (none, [])
  | left + 1, i =>
    if inode.iBlock i = 0 then
      (ext2FsLookupLoop sb inode name left (i + 1)).map fun (found, indices) => (found, i :: indices)
    else
      let (result, read) := ext2FsLookupFind sb inode name i
      result.bind fun value =>
        let ino := toUInt value
        if ino > 0 then some (some ino, i :: read)
        else (ext2FsLookupLoop sb inode name left (i + 1)).map fun (found, indices) => (found, i :: read ++ indices)

def ext2FsLookup (sb : VfsSb) (inode : Ext2Inode) (name : List (BitVec 8)) : Option (Option Nat × List Nat) :=
  ext2FsLookupLoop sb inode name inode.iBlocks 0

end YuzuOS.Kernel
