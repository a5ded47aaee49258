import Mathlib.Logic.Function.Basic
import YuzuOS.Kernel.Physical

/-! Page tables as the processor walks them. The functions reach the tables through
the window that the last entry of the directory opens, so their accesses are walks
as well; `none` is a page fault. -/

namespace YuzuOS.Kernel

def pageTblBase : Nat := 0xFFC00000

/-- `PAGE_FRAME`, one bit short of the mask for all frames. -/
def pageFrame : BitVec 32 := 0x7FFFF000

def pageTblIndex (addr : Nat) : Nat := addr / 2 ^ 12 % 1024
def pageDirIndex (addr : Nat) : Nat := addr / 2 ^ 22 % 1024
def pageIsEnabled (entry : BitVec 32) : Bool := entry &&& 1#32 ≠ 0

/-- The frame of an entry for the processor. -/
def frameNumber (entry : BitVec 32) : Nat := (entry >>> 12).toNat

def virtMmFrameSet (entry addr : BitVec 32) : BitVec 32 := entry &&& ~~~pageFrame ||| addr
def virtMmFlagSet (entry flags : BitVec 32) : BitVec 32 := entry ||| flags

/-- The words of the physical frames, and the frame of the active directory. -/
structure Paging where
  words : Nat → Nat → BitVec 32
  dir : Nat

namespace Paging

def setWord (paging : Paging) (frame index : Nat) (word : BitVec 32) : Paging :=
  { paging with words := Function.update paging.words frame (Function.update (paging.words frame) index word) }

def clearFrame (paging : Paging) (frame : Nat) : Paging :=
  { paging with words := Function.update paging.words frame fun _ => 0 }

def entry (paging : Paging) (index : Nat) : BitVec 32 := paging.words paging.dir index

/-- The frame behind a page. -/
def translate (paging : Paging) (virtual : Nat) : Option Nat :=
  if pageIsEnabled (paging.entry (pageDirIndex virtual)) then
    let word := paging.words (frameNumber (paging.entry (pageDirIndex virtual))) (pageTblIndex virtual)
    if pageIsEnabled word then some (frameNumber word) else none
  else none

/-- The page of the window that shows a table. -/
def window (paging : Paging) (index : Nat) : Option Nat := paging.translate (pageTblBase + index * physMmBlock)

end Paging

/-- The part of `virt_mm_map_addr` that makes a missing table of the block that
`phys_mm_block_alloc` gives. -/
def virtMmMapTable (physicalTbl flags : BitVec 32) (index : Nat) (paging : Paging) : Option Paging :=
  if pageIsEnabled (paging.entry index) then some paging
  else
    let paging := paging.setWord paging.dir index (virtMmFrameSet (virtMmFlagSet (paging.entry index) flags) physicalTbl)
    (paging.window index).map paging.clearFrame

def virtMmMapAddr (physicalTbl physical : BitVec 32) (virtual : Nat) (flags : BitVec 32) (paging : Paging) :
    Option Paging :=
  (virtMmMapTable physicalTbl flags (pageDirIndex virtual) paging).bind fun paging =>
    (paging.window (pageDirIndex virtual)).map fun table =>
      paging.setWord table (pageTblIndex virtual)
        (virtMmFrameSet (virtMmFlagSet (paging.words table (pageTblIndex virtual)) flags) physical)

def virtMmAddrUnmap (virtual : Nat) (paging : Paging) : Option Paging :=
  if pageIsEnabled (paging.entry (pageDirIndex virtual)) then
    (paging.window (pageDirIndex virtual)).map fun table =>
      if pageIsEnabled (paging.words table (pageTblIndex virtual)) then paging.setWord table (pageTblIndex virtual) 0
      else paging
  else some paging

/-- The loop of `virt_mm_addr_range_unmap`. -/
def virtMmRangeUnmapLoop (stop : Nat) : Nat → Nat → Paging → Option Paging
  | 0, _, _ => none
  | turns + 1, addr, paging =>
    if addr < stop then
      (virtMmAddrUnmap addr paging).bind fun paging => virtMmRangeUnmapLoop stop turns ((addr + physMmBlock) % 2 ^ 32) paging
    else some paging

/-- An address space does not have more pages. -/
def virtMmAddrRangeUnmap (start stop : Nat) (paging : Paging) : Option Paging :=
  virtMmRangeUnmapLoop stop (2 ^ 20 + 1) start paging

section Entries

variable {entry flags addr : BitVec 32}

theorem pageIsEnabled_eq (entry : BitVec 32) : pageIsEnabled entry = entry.getLsbD 0 := by
  have bit : entry &&& 1#32 = 0 ↔ entry.getLsbD 0 = false := and_bit entry (show 0 < 32 by decide)
  rw [pageIsEnabled]
  by_cases zero : entry &&& 1#32 = 0
  · rw [bit.mp zero]
    exact decide_eq_false (not_not_intro zero)
  · rw [Bool.eq_true_of_not_eq_false (mt bit.mpr zero)]
    exact decide_eq_true zero

theorem pageFrame_bit {i : Nat} (inside : i < 32) : pageFrame.getLsbD i = decide (12 ≤ i ∧ i < 31) := by
  have all : ∀ i < 32, pageFrame.getLsbD i = decide (12 ≤ i ∧ i < 31) := by decide
  exact all i inside

theorem flagSet_enabled (present : pageIsEnabled flags = true) : pageIsEnabled (virtMmFlagSet entry flags) = true := by
  rw [pageIsEnabled_eq] at present ⊢
  simp [virtMmFlagSet, present]

theorem frameSet_enabled (present : pageIsEnabled entry = true) : pageIsEnabled (virtMmFrameSet entry addr) = true := by
  rw [pageIsEnabled_eq] at present ⊢
  have mask : pageFrame.getLsbD 0 = false := pageFrame_bit (by decide)
  simp only [virtMmFrameSet, BitVec.getLsbD_or, BitVec.getLsbD_and, BitVec.getLsbD_not, present, mask]
  rfl

theorem frameSet_bit {i : Nat} (inside : i < 32) : (virtMmFrameSet entry addr).getLsbD i =
    ((entry.getLsbD i && !decide (12 ≤ i ∧ i < 31)) || addr.getLsbD i) := by
  simp only [virtMmFrameSet, BitVec.getLsbD_or, BitVec.getLsbD_and, BitVec.getLsbD_not, pageFrame_bit inside, inside,
    decide_true, Bool.true_and]

/-- The other bits of the frame are those of the address. -/
theorem frameSet_low : frameNumber (virtMmFrameSet entry addr) % 2 ^ 19 = frameNumber addr % 2 ^ 19 := by
  rw [frameNumber, frameNumber, ← BitVec.toNat_setWidth, ← BitVec.toNat_setWidth]
  apply congrArg
  apply BitVec.eq_of_getLsbD_eq
  intro i low
  have middle : 12 ≤ 12 + i ∧ 12 + i < 31 := by omega
  rw [BitVec.getLsbD_setWidth, BitVec.getLsbD_setWidth, BitVec.getLsbD_ushiftRight, BitVec.getLsbD_ushiftRight,
    frameSet_bit (by omega)]
  simp [middle]

/-- The last bit of the old contents stays in the entry. -/
theorem frameSet_frame : frameNumber (virtMmFrameSet entry addr) = frameNumber addr ↔
    (entry.getLsbD 31 = true → addr.getLsbD 31 = true) := by
  have bits (word : BitVec 32) (i : Nat) : (word >>> 12).getLsbD i = word.getLsbD (12 + i) := BitVec.getLsbD_ushiftRight ..
  rw [frameNumber, frameNumber, BitVec.toNat_inj]
  constructor
  · intro same last
    have here := congrArg (fun word : BitVec 32 => word.getLsbD 19) same
    simp only [bits, frameSet_bit (show 12 + 19 < 32 by decide), last] at here
    simpa using here.symm
  · intro kept
    apply BitVec.eq_of_getLsbD_eq
    intro i _
    rw [bits, bits]
    by_cases inside : 12 + i < 32
    · rw [frameSet_bit inside]
      by_cases last : 12 + i = 31
      · rw [last]
        cases high : entry.getLsbD 31 with
        | true => simp [kept high]
        | false => simp
      · have middle : 12 ≤ 12 + i ∧ 12 + i < 31 := by omega
        simp [middle]
    · rw [BitVec.getLsbD_of_ge _ _ (by omega), BitVec.getLsbD_of_ge _ _ (by omega)]

end Entries

end YuzuOS.Kernel
