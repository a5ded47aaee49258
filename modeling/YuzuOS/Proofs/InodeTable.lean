import Mathlib.Tactic.Ring
import YuzuOS.Library.Chain
import YuzuOS.Kernel.Ext2Inode

/-! Where inodes are read from. Inode tables have records of `s_inode_size`, but the offset
in a block is scaled with the size of the structure. -/

namespace YuzuOS.Proofs.InodeTable
open YuzuOS.Library YuzuOS.Kernel

/-- The block of the inode table that the descriptor of the group names. The descriptors fill
the blocks behind the first data block. -/
def inodeTable (device : Memory) (sb : Ext2Sb) (group : Nat) : Nat :=
  device.load32 ((sb.sFirstDataBlock + 1) * sb.blockSize + ext2GroupDescSize * group + 8)

/-- A valid superblock, with the descriptors and the inode tables of its groups on a device
with 32-bit sector numbers. -/
structure Valid (device : Memory) (sb : Ext2Sb) : Prop where
  perGroup : 0 < sb.sInodesPerGroup
  inodes : sb.sInodesCount < 2 ^ 32
  power : ∃ bits, sb.sInodeSize = 2 ^ bits
  least : ext2InodeStructSize ≤ sb.sInodeSize
  most : sb.sInodeSize ≤ sb.blockSize
  representable : sb.blockSize < 2 ^ 32
  addressable : sb.sBlocksCount * (sb.blockSize / vfsBytesPSector) ≤ 2 ^ 32
  descriptors : ∀ group, group * sb.sInodesPerGroup < sb.sInodesCount →
    sb.sFirstDataBlock + 1 + group / sb.groupsPBlock < sb.sBlocksCount
  tables : ∀ group, group * sb.sInodesPerGroup < sb.sInodesCount →
    inodeTable device sb group * sb.blockSize + sb.sInodeSize * sb.sInodesPerGroup ≤ sb.sBlocksCount * sb.blockSize
  apart : ∀ group other, group * sb.sInodesPerGroup < sb.sInodesCount → other * sb.sInodesPerGroup < sb.sInodesCount →
    group ≠ other → Apart (inodeTable device sb group * sb.blockSize) (sb.sInodeSize * sb.sInodesPerGroup)
      (inodeTable device sb other * sb.blockSize) (sb.sInodeSize * sb.sInodesPerGroup)

def place (sb : VfsSb) (pointer : BlockPointer) : Nat :=
  pointer.block * (sb.blocksize / vfsBytesPSector) % 2 ^ 32 * vfsBytesPSector + pointer.offset

def Numbered (sb : Ext2Sb) (ino : Nat) : Prop := ext2StartingIno ≤ ino ∧ ino ≤ sb.sInodesCount

/-- The record of the inode is the one at its place in the table of its group, and it meets no
record that another number gives. -/
structure Fetches (device : Memory) (sb : Ext2Sb) (ino : Nat) : Prop where
  record : ∀ i, (ext2FsInodeGet (sb.mounted device) sb ino).bytes (sb.mounted device) i =
    device (place (sb.mounted device) (ext2FsInodeGet (sb.mounted device) sb ino) + i)
  position : place (sb.mounted device) (ext2FsInodeGet (sb.mounted device) sb ino) =
    inodeTable device sb (sb.getGroupFromInode ino) * sb.blockSize + sb.sInodeSize * sb.getRelativeInodeInGroup ino
  apart : ∀ other, Numbered sb other → other ≠ ino →
    Apart (place (sb.mounted device) (ext2FsInodeGet (sb.mounted device) sb ino)) ext2InodeStructSize
      (place (sb.mounted device) (ext2FsInodeGet (sb.mounted device) sb other)) ext2InodeStructSize

variable {device : Memory} {sb : Ext2Sb} {ino other group block : Nat}

/-! ### Blocks and groups -/

theorem blockSize_multiple (sb : Ext2Sb) : ∃ width, 0 < width ∧ sb.blockSize = 1024 * width :=
  ⟨2 ^ sb.sLogBlockSize, Nat.two_pow_pos _, Nat.shiftLeft_eq _ _⟩

theorem sectors (sb : Ext2Sb) :
    sb.blockSize / vfsBytesPSector * vfsBytesPSector = sb.blockSize ∧ 2 ≤ sb.blockSize / vfsBytesPSector := by
  obtain ⟨width, positive, size⟩ := blockSize_multiple sb
  rw [size, vfsBytesPSector]
  omega

theorem Valid.blocks (valid : Valid device sb) : sb.sBlocksCount ≤ 2 ^ 31 := by
  have enough := Nat.mul_le_mul_left sb.sBlocksCount (sectors sb).2
  have most := valid.addressable
  omega

theorem place_block (valid : Valid device sb) (inside : block < sb.sBlocksCount) (offset : Nat) :
    place (sb.mounted device) ⟨block, offset⟩ = block * sb.blockSize + offset := by
  have sector : block * (sb.blockSize / vfsBytesPSector) < 2 ^ 32 :=
    (Nat.mul_lt_mul_of_pos_right inside (Nat.zero_lt_of_lt (sectors sb).2)).trans_le valid.addressable
  unfold place Ext2Sb.mounted
  rw [Nat.mod_eq_of_lt sector, Nat.mul_assoc, (sectors sb).1]

theorem bread_place (pointer : BlockPointer) (i : Nat) :
    pointer.bytes (sb.mounted device) i = device (place (sb.mounted device) pointer + i) := by
  rw [place, Nat.add_assoc]
  rfl

theorem numbered_group (numbered : Numbered sb ino) :
    sb.getGroupFromInode ino * sb.sInodesPerGroup < sb.sInodesCount := by
  have below := Nat.div_mul_le_self (ino - ext2StartingIno) sb.sInodesPerGroup
  have first := numbered.1
  have last := numbered.2
  unfold ext2StartingIno at below first
  unfold Ext2Sb.getGroupFromInode ext2StartingIno
  omega

theorem groupDesc_table (valid : Valid device sb) (inside : group * sb.sInodesPerGroup < sb.sInodesCount) :
    bgInodeTable (ext2FsGroupDescGet (sb.mounted device) sb group) = inodeTable device sb group := by
  have block := valid.descriptors group inside
  have small : sb.sFirstDataBlock + 1 + group / sb.groupsPBlock < 2 ^ 32 := by
    have most := valid.blocks
    omega
  have whole : ext2GroupDescSize * sb.groupsPBlock = sb.blockSize := by
    obtain ⟨width, positive, size⟩ := blockSize_multiple sb
    rw [Ext2Sb.groupsPBlock, size, ext2GroupDescSize]
    omega
  have position : (sb.sFirstDataBlock + 1 + group / sb.groupsPBlock) * sb.blockSize + group % sb.groupsPBlock * ext2GroupDescSize =
      (sb.sFirstDataBlock + 1) * sb.blockSize + ext2GroupDescSize * group := by
    calc (sb.sFirstDataBlock + 1 + group / sb.groupsPBlock) * sb.blockSize + group % sb.groupsPBlock * ext2GroupDescSize
      _ = (sb.sFirstDataBlock + 1) * sb.blockSize +
          ext2GroupDescSize * (sb.groupsPBlock * (group / sb.groupsPBlock) + group % sb.groupsPBlock) := by rw [← whole]; ring
      _ = (sb.sFirstDataBlock + 1) * sb.blockSize + ext2GroupDescSize * group := by rw [Nat.div_add_mod]
  have bytes (i : Nat) : ext2FsGroupDescGet (sb.mounted device) sb group i =
      device ((sb.sFirstDataBlock + 1) * sb.blockSize + ext2GroupDescSize * group + i) := by
    have read : ext2FsGroupDescGet (sb.mounted device) sb group i =
        BlockPointer.bytes ⟨(sb.sFirstDataBlock + 1 + group / sb.groupsPBlock) % 2 ^ 32,
          group % sb.groupsPBlock * ext2GroupDescSize⟩ (sb.mounted device) i := rfl
    rw [read, bread_place, Nat.mod_eq_of_lt small, place_block valid block, position]
  unfold bgInodeTable inodeTable Memory.load32
  simp only [bytes, Nat.add_assoc]

/-! ### Records -/

/-- The number of whole blocks of records before the one of an inode. -/
def tableBlock (sb : Ext2Sb) (ino : Nat) : Nat := sb.getRelativeInodeInGroup ino / sb.inodesPBlock

def blockIndex (sb : Ext2Sb) (ino : Nat) : Nat := sb.getRelativeInodeInGroup ino % sb.inodesPBlock

theorem Valid.stride (valid : Valid device sb) : sb.inodesPBlock * sb.sInodeSize = sb.blockSize := by
  obtain ⟨bits, size⟩ := valid.power
  have whole : sb.blockSize = 2 ^ (10 + sb.sLogBlockSize) := by
    rw [Ext2Sb.blockSize, ext2BlockSize, Nat.shiftLeft_eq, ext2MinBlockSize, Nat.pow_add]
  have most := valid.most
  rw [size, whole] at most
  rw [Ext2Sb.inodesPBlock, size, whole]
  exact Nat.div_mul_cancel (Nat.pow_dvd_pow 2 ((Nat.pow_le_pow_iff_right (by decide)).mp most))

theorem Valid.perBlock (valid : Valid device sb) : 0 < sb.inodesPBlock := by
  have least := valid.least
  rw [ext2InodeStructSize] at least
  exact Nat.div_pos valid.most (by omega)

theorem record_split (valid : Valid device sb) (ino : Nat) : sb.sInodeSize * sb.getRelativeInodeInGroup ino =
    tableBlock sb ino * sb.blockSize + sb.sInodeSize * blockIndex sb ino := by
  have split := Nat.div_add_mod (sb.getRelativeInodeInGroup ino) sb.inodesPBlock
  calc sb.sInodeSize * sb.getRelativeInodeInGroup ino
    _ = sb.sInodeSize * (sb.inodesPBlock * tableBlock sb ino + blockIndex sb ino) := congrArg _ split.symm
    _ = tableBlock sb ino * (sb.inodesPBlock * sb.sInodeSize) + sb.sInodeSize * blockIndex sb ino := by ring
    _ = tableBlock sb ino * sb.blockSize + sb.sInodeSize * blockIndex sb ino := by rw [valid.stride]

theorem relative_lt (valid : Valid device sb) (ino : Nat) : sb.getRelativeInodeInGroup ino < sb.sInodesPerGroup :=
  Nat.mod_lt _ valid.perGroup

theorem index_inside (valid : Valid device sb) (ino : Nat) :
    sb.sInodeSize * blockIndex sb ino + sb.sInodeSize ≤ sb.blockSize := by
  have below : blockIndex sb ino + 1 ≤ sb.inodesPBlock := Nat.mod_lt _ valid.perBlock
  have most := Nat.mul_le_mul_left sb.sInodeSize below
  rwa [Nat.mul_comm _ sb.inodesPBlock, valid.stride, Nat.mul_add_one] at most

/-- The right place of a record of the structure's size lies in the table. -/
theorem record_inside (valid : Valid device sb) (ino : Nat) :
    sb.sInodeSize * sb.getRelativeInodeInGroup ino + sb.sInodeSize ≤ sb.sInodeSize * sb.sInodesPerGroup := by
  have most := Nat.mul_le_mul_left sb.sInodeSize (relative_lt valid ino)
  rwa [Nat.mul_succ] at most

/-- The offset is scaled with the size of the structure. -/
theorem index_scaled (valid : Valid device sb) (ino : Nat) :
    blockIndex sb ino * ext2InodeStructSize ≤ sb.sInodeSize * blockIndex sb ino := by
  rw [Nat.mul_comm]
  exact Nat.mul_le_mul_right _ valid.least

theorem inodeGet_place (valid : Valid device sb) (numbered : Numbered sb ino) :
    place (sb.mounted device) (ext2FsInodeGet (sb.mounted device) sb ino) =
      (inodeTable device sb (sb.getGroupFromInode ino) + tableBlock sb ino) * sb.blockSize +
        blockIndex sb ino * ext2InodeStructSize := by
  have group := numbered_group numbered
  have tables := valid.tables _ group
  have inside := record_inside valid ino
  have split := record_split valid ino
  have least := valid.least
  have index := index_inside valid ino
  have scaled := index_scaled valid ino
  have blocks := valid.blocks
  obtain ⟨width, positive, size⟩ := blockSize_multiple sb
  have below : inodeTable device sb (sb.getGroupFromInode ino) + tableBlock sb ino < sb.sBlocksCount := by
    refine Nat.lt_of_mul_lt_mul_right (a := sb.blockSize) ?_
    rw [Nat.add_mul]
    rw [ext2InodeStructSize] at least
    omega
  have few : sb.getGroupFromInode ino < 2 ^ 32 := by
    have most := Nat.le_mul_of_pos_right (sb.getGroupFromInode ino) valid.perGroup
    have inodes := valid.inodes
    omega
  have got : ext2FsInodeGet (sb.mounted device) sb ino =
      ⟨inodeTable device sb (sb.getGroupFromInode ino) + tableBlock sb ino, blockIndex sb ino * ext2InodeStructSize⟩ := by
    have representable := valid.representable
    rw [ext2FsInodeGet, Nat.mod_eq_of_lt few, groupDesc_table valid group]
    exact congrArg₂ BlockPointer.mk (Nat.mod_eq_of_lt (by unfold tableBlock at below; omega))
      (Nat.mod_eq_of_lt (by unfold blockIndex at index scaled; omega))
  rw [got, place_block valid below]

/-- Two records of blocks lie apart where the blocks or the records in the block differ. -/
theorem apart_records {size least first second : Nat} (firstIn : first * least + least ≤ size)
    (secondIn : second * least + least ≤ size) {firstBlock secondBlock : Nat}
    (differ : firstBlock ≠ secondBlock ∨ first ≠ second) :
    Apart (firstBlock * size + first * least) least (secondBlock * size + second * least) least := by
  unfold Apart
  have order {low high : Nat} (below : low < high) (unit : Nat) : low * unit + unit ≤ high * unit := by
    rw [← Nat.succ_mul]
    exact Nat.mul_le_mul_right unit below
  rcases Nat.lt_trichotomy firstBlock secondBlock with below | rfl | above
  · have step := order below size
    omega
  · rcases Nat.lt_or_gt_of_ne (differ.resolve_left (not_not_intro rfl)) with less | more
    · have step := order less least
      omega
    · have step := order more least
      omega
  · have step := order above size
    omega

theorem relative_differ (sameGroup : sb.getGroupFromInode ino = sb.getGroupFromInode other) (first : Numbered sb ino)
    (second : Numbered sb other) (differ : other ≠ ino) :
    tableBlock sb ino ≠ tableBlock sb other ∨ blockIndex sb ino ≠ blockIndex sb other := by
  by_contra same
  push Not at same
  have relative : sb.getRelativeInodeInGroup ino = sb.getRelativeInodeInGroup other := by
    rw [← Nat.div_add_mod (sb.getRelativeInodeInGroup ino) sb.inodesPBlock,
      ← Nat.div_add_mod (sb.getRelativeInodeInGroup other) sb.inodesPBlock]
    exact congrArg₂ (sb.inodesPBlock * · + ·) same.1 same.2
  have number : ino - ext2StartingIno = other - ext2StartingIno := by
    rw [← Nat.div_add_mod (ino - ext2StartingIno) sb.sInodesPerGroup, ← Nat.div_add_mod (other - ext2StartingIno) sb.sInodesPerGroup]
    exact congrArg₂ (sb.sInodesPerGroup * · + ·) sameGroup relative
  have lower := first.1
  have lower' := second.1
  omega

theorem inodeGet_apart (valid : Valid device sb) (first : Numbered sb ino) (second : Numbered sb other)
    (differ : other ≠ ino) :
    Apart (place (sb.mounted device) (ext2FsInodeGet (sb.mounted device) sb ino)) ext2InodeStructSize
      (place (sb.mounted device) (ext2FsInodeGet (sb.mounted device) sb other)) ext2InodeStructSize := by
  have least := valid.least
  have fits (ino : Nat) : blockIndex sb ino * ext2InodeStructSize + ext2InodeStructSize ≤ sb.blockSize := by
    have index := index_inside valid ino
    have scaled := index_scaled valid ino
    omega
  rw [inodeGet_place valid first, inodeGet_place valid second]
  by_cases same : sb.getGroupFromInode ino = sb.getGroupFromInode other
  · rw [same]
    refine apart_records (fits ino) (fits other) ?_
    rcases relative_differ same first second differ with block | index
    · exact .inl (by omega)
    · exact .inr index
  · have tables := valid.apart _ _ (numbered_group first) (numbered_group second) same
    have inside (ino : Nat) : tableBlock sb ino * sb.blockSize + blockIndex sb ino * ext2InodeStructSize + ext2InodeStructSize ≤
        sb.sInodeSize * sb.sInodesPerGroup := by
      have record := record_inside valid ino
      have split := record_split valid ino
      have scaled := index_scaled valid ino
      omega
    have low := inside ino
    have high := inside other
    rw [Nat.add_mul, Nat.add_mul]
    unfold Apart at tables ⊢
    omega

/-- The record is the right one exactly where the two sizes agree or it is the first of a block. -/
theorem inode_get_iff (valid : Valid device sb) (numbered : Numbered sb ino) :
    Fetches device sb ino ↔ sb.sInodeSize = ext2InodeStructSize ∨
      sb.getRelativeInodeInGroup ino % sb.inodesPBlock = 0 := by
  have same : place (sb.mounted device) (ext2FsInodeGet (sb.mounted device) sb ino) =
      inodeTable device sb (sb.getGroupFromInode ino) * sb.blockSize + sb.sInodeSize * sb.getRelativeInodeInGroup ino ↔
        blockIndex sb ino * ext2InodeStructSize = blockIndex sb ino * sb.sInodeSize := by
    rw [inodeGet_place valid numbered, record_split valid ino, Nat.add_mul, Nat.mul_comm sb.sInodeSize]
    omega
  constructor
  · intro fetches
    rcases Nat.eq_zero_or_pos (blockIndex sb ino) with first | positive
    · exact .inr first
    · exact .inl (Nat.eq_of_mul_eq_mul_left positive (same.mp fetches.position)).symm
  · intro condition
    refine ⟨fun i => bread_place _ i, same.mpr ?_, fun other second differ => inodeGet_apart valid numbered second differ⟩
    rcases condition with equal | first
    · rw [equal]
    · rw [blockIndex, first, Nat.zero_mul, Nat.zero_mul]

/-- Eight inodes of 256 bytes in a table at block 4, named by the descriptor in block 2. -/
def wideSb : Ext2Sb := ⟨8, 16, 1, 0, 8, 256⟩

def wideDevice : Memory := fun place => if place = 2056 then 4 else 0

theorem wide_valid : Valid wideDevice wideSb := by
  have first (group : Nat) (inside : group * wideSb.sInodesPerGroup < wideSb.sInodesCount) : group = 0 := by
    have eight : group * 8 < 8 := inside
    omega
  refine ⟨by decide, by decide, ⟨8, by decide⟩, by decide, by decide, by decide, by decide, fun group inside => ?_,
    fun group inside => ?_, fun group other inside within differ => ?_⟩
  · rw [first group inside]
    decide
  · rw [first group inside]
    decide +kernel
  · exact absurd ((first group inside).trans (first other within).symm) differ

theorem inode_get_example : Fetches wideDevice wideSb 5 :=
  (inode_get_iff wide_valid ⟨by decide, by decide⟩).mpr (.inr (by decide))

/-- The second inode is read 128 bytes behind the first, where its record begins 256 bytes behind it. -/
theorem inode_get_misses : Valid wideDevice wideSb ∧ Numbered wideSb 2 ∧ ¬Fetches wideDevice wideSb 2 ∧
    place (wideSb.mounted wideDevice) (ext2FsInodeGet (wideSb.mounted wideDevice) wideSb 2) = 4 * 1024 + 128 := by
  have read : place (wideSb.mounted wideDevice) (ext2FsInodeGet (wideSb.mounted wideDevice) wideSb 2) = 4 * 1024 + 128 := by
    decide +kernel
  have right : inodeTable wideDevice wideSb (wideSb.getGroupFromInode 2) * wideSb.blockSize +
      wideSb.sInodeSize * wideSb.getRelativeInodeInGroup 2 = 4 * 1024 + 256 := by decide +kernel
  refine ⟨wide_valid, ⟨by decide, by decide⟩, fun fetches => ?_, read⟩
  have position := fetches.position
  rw [read, right] at position
  omega

end YuzuOS.Proofs.InodeTable
