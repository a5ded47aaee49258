import YuzuOS.Kernel.UserProcess
import YuzuOS.Kernel.VirtualInit
import YuzuOS.Proofs.PageTables
import YuzuOS.Proofs.PhysicalSearch
import YuzuOS.Proofs.ReservedFrames

/-! The state that start-up leaves to the page tables. The first directory maps the first four megabytes at the kernel's
address and nothing else, and none of their frames is handed out afterwards, so that every block is fresh. -/

namespace YuzuOS.Proofs.BootPages
open YuzuOS.Library YuzuOS.Kernel PhysicalFrames PhysicalSearch PhysicalInit PageTables ReservedFrames

def shownFrames : Nat := 1024

variable {reserved tbl i turns : Nat} {mm : PhysMm} {memory : BootMemory}

theorem alloc_first (guarded : Guarded reserved ⟨mm, []⟩) (positive : 0 < reserved) (more : mm.used < mm.max)
    (large : shownFrames ≤ mm.max) {free : Nat} (low : free < shownFrames)
    (clear : bitmapTest mm.bitmap free = false) :
    ∃ bit, reserved ≤ bit ∧ bit ≤ free ∧ bitmapTest mm.bitmap bit = false ∧ physMmBlockAlloc mm = (physMmBlock * bit,
      { mm with bitmap := bitmapSet mm.bitmap bit, used := mm.used + 1 }) := by
  have bounded : mm.max ≤ 2 ^ 20 := guarded.bounded
  have below : mm.max < bitmapNone := by
    unfold bitmapNone
    omega
  have seen : free < mm.max / 32 * 32 := by
    unfold shownFrames at low large
    omega
  have found : bitmapGetFirst mm.bitmap mm.max ≠ bitmapNone := scan_seen (by omega) seen clear rfl
  obtain ⟨-, test, -, earlier⟩ := (bitmapScan_some below).mp ⟨rfl, found⟩
  have behind : reserved ≤ bitmapGetFirst mm.bitmap mm.max := guarded.clear test
  have first : bitmapGetFirst mm.bitmap mm.max ≤ free := by
    apply Nat.le_of_not_lt
    intro passed
    rcases earlier free passed with set | refused
    · rw [clear] at set
      cases set
    · cases refused
  have address : physMmBlock * bitmapGetFirst mm.bitmap mm.max % 2 ^ 32 =
      physMmBlock * bitmapGetFirst mm.bitmap mm.max := by
    unfold physMmBlock shownFrames at *
    omega
  have counted : (mm.used + 1) % 2 ^ 32 = mm.used + 1 := by omega
  refine ⟨bitmapGetFirst mm.bitmap mm.max, behind, first, test, ?_⟩
  rw [physMmBlockAlloc, if_neg (Nat.not_le.mpr more), if_neg (by omega), address, counted]

def kernelWord (frame : Nat) : BitVec 32 := virtMmFrameSet (virtMmFlagSet 0 3) (BitVec.ofNat 32 (physMmBlock * frame))

theorem bootWords_lookup : ∀ frame < shownFrames, lookup (kernelWord frame) = some frame ∧
    lookup (BitVec.ofNat 32 (physMmBlock * frame) &&& 0xFFFFF000 ||| 3) = some frame := by decide +kernel

theorem addrSet_tests (addr frame : Nat) (mm : PhysMm) :
    bitmapTest (physMmAddrSet addr mm).bitmap frame =
      (bitmapTest mm.bitmap frame || decide (frame = addr / physMmBlock)) := by
  unfold physMmAddrSet
  dsimp only
  by_cases set : bitmapTest mm.bitmap (addr / physMmBlock) = true
  · rw [if_pos set]
    by_cases own : frame = addr / physMmBlock
    · rw [own, set, Bool.true_or]
    · rw [decide_eq_false own, Bool.or_false]
  · rw [if_neg set, bitmapTest_set, Bool.or_comm]

theorem addrSet_max (addr : Nat) (mm : PhysMm) : (physMmAddrSet addr mm).max = mm.max := by
  unfold physMmAddrSet
  dsimp only
  split <;> rfl

def mapTurn (tbl i : Nat) (memory : BootMemory) : BootMemory :=
  { memory.setWord tbl i (kernelWord i) with mm := physMmAddrSet (physMmBlock * i) memory.mm }

theorem mapTurn_words (frame j : Nat) : (mapTurn tbl i memory).words frame j =
    if frame = tbl ∧ j = i then kernelWord i else memory.words frame j := by
  simp only [mapTurn, BootMemory.setWord, Function.update_apply]
  by_cases own : frame = tbl
  · by_cases here : j = i
    · rw [if_pos own, if_pos ⟨own, here⟩, here, Function.update_self]
    · rw [if_pos own, if_neg (fun both => here both.2), Function.update_of_ne here, own]
  · rw [if_neg own, if_neg (fun both => own both.1)]

theorem mapTurn_tests (frame : Nat) : bitmapTest (mapTurn tbl i memory).mm.bitmap frame =
    (bitmapTest memory.mm.bitmap frame || decide (frame = i)) := by
  rw [mapTurn, addrSet_tests, Nat.mul_div_cancel_left i (by decide)]

theorem mapTurn_max : (mapTurn tbl i memory).mm.max = memory.mm.max := addrSet_max _ _

theorem mapLoop_turn (inside : i < shownFrames) (zero : memory.words tbl i = 0) :
    BootMemory.virtMmMapLoop tbl (turns + 1) (physMmBlock * i) (kernelVirtAddr + physMmBlock * i) memory =
      BootMemory.virtMmMapLoop tbl turns (physMmBlock * (i + 1)) (kernelVirtAddr + physMmBlock * (i + 1))
        (mapTurn tbl i memory) := by
  have index : pageTblIndex (kernelVirtAddr + physMmBlock * i) = i := by
    unfold pageTblIndex kernelVirtAddr physMmBlock shownFrames at *
    omega
  have nextPhys : (physMmBlock * i + physMmBlock) % 2 ^ 32 = physMmBlock * (i + 1) := by
    unfold physMmBlock shownFrames at *
    omega
  have nextVirt : (kernelVirtAddr + physMmBlock * i + physMmBlock) % 2 ^ 32 =
      kernelVirtAddr + physMmBlock * (i + 1) := by
    unfold kernelVirtAddr physMmBlock shownFrames at *
    omega
  rw [BootMemory.virtMmMapLoop, index, nextPhys, nextVirt, zero]
  rfl

/-- What the loop of `virt_mm_map` does from a page of a clear table on. -/
theorem mapLoop_spec (left : i + turns = shownFrames) (zero : ∀ j, i ≤ j → memory.words tbl j = 0) :
    let after := BootMemory.virtMmMapLoop tbl turns (physMmBlock * i) (kernelVirtAddr + physMmBlock * i) memory
    (∀ frame j, after.words frame j =
      if frame = tbl ∧ i ≤ j ∧ j < shownFrames then kernelWord j else memory.words frame j) ∧
    (∀ frame, bitmapTest after.mm.bitmap frame =
      (bitmapTest memory.mm.bitmap frame || decide (i ≤ frame ∧ frame < shownFrames))) ∧
    after.mm.max = memory.mm.max := by
  induction turns generalizing i memory with
  | zero =>
    dsimp only [BootMemory.virtMmMapLoop]
    refine ⟨fun frame j => ?_, fun frame => ?_, rfl⟩
    · rw [if_neg (by omega)]
    · have nothing : ¬(i ≤ frame ∧ frame < shownFrames) := by omega
      rw [decide_eq_false nothing, Bool.or_false]
  | succ turns ih =>
    have zeros : ∀ j, i + 1 ≤ j → (mapTurn tbl i memory).words tbl j = 0 := by
      intro j later
      rw [mapTurn_words, if_neg (by omega)]
      exact zero j (by omega)
    obtain ⟨words, tests, max⟩ := ih (by omega : i + 1 + turns = shownFrames) zeros
    rw [mapLoop_turn (by omega) (zero i (Nat.le_refl i))]
    refine ⟨fun frame j => ?_, fun frame => ?_, ?_⟩
    · rw [words, mapTurn_words]
      by_cases here : frame = tbl ∧ j = i
      · rw [if_neg (by omega), if_pos here, if_pos (by omega), here.2]
      · rw [if_neg here]
        by_cases later : frame = tbl ∧ i + 1 ≤ j ∧ j < shownFrames
        · rw [if_pos later, if_pos (by omega)]
        · rw [if_neg later, if_neg (by omega)]
    · rw [tests, mapTurn_tests, Bool.or_assoc, ← Bool.decide_or]
      congr 2
      apply propext
      omega
    · rw [max, mapTurn_max]

structure Booted (size : Nat) (words : Nat → Nat → BitVec 32) (mm : PhysMm) (paging : Paging) : Prop where
  proper : Proper paging
  kernel : ∀ virtual, kernelVirtAddr ≤ virtual → virtual < kernelVirtAddr + physMmBlock * shownFrames →
    paging.translate virtual = some ((virtual - kernelVirtAddr) / physMmBlock)
  others : ∀ virtual < pageTblBase, ¬(kernelVirtAddr ≤ virtual ∧ virtual < kernelVirtAddr + physMmBlock * shownFrames) →
    paging.translate virtual = none
  kept : ∀ frame, physMmBlock * frame < 0x100000 + size → paging.words frame = words frame
  fresh : ∀ frame, shownFrames ≤ frame → Fresh paging frame
  guarded : Guarded shownFrames ⟨mm, []⟩

structure Written (dir tbl : Nat) (words after : Nat → Nat → BitVec 32) : Prop where
  recursive : after dir 1023 = (BitVec.ofNat 32 (physMmBlock * dir) &&& 0xFFFFF000 ||| 3)
  table : after dir 768 = kernelWord tbl
  rest : ∀ j, j ≠ 1023 → j ≠ 768 → after dir j = 0
  pages : ∀ j < shownFrames, after tbl j = kernelWord j
  others : ∀ frame, frame ≠ dir → frame ≠ tbl → after frame = words frame

theorem frame_block (low : i < shownFrames) : BootMemory.frame (physMmBlock * i) = some i := by
  have inside : physMmBlock * i < 2 ^ 22 := by
    unfold physMmBlock shownFrames at *
    omega
  rw [BootMemory.frame, if_pos inside, Nat.mul_div_cancel_left i (by decide)]

/-- The pages of the kernel with a table in the block that is given. -/
theorem map_written {dir : Nat} {next : PhysMm} (given : physMmBlockAlloc memory.mm = (physMmBlock * tbl, next))
    (low : tbl < shownFrames) (apart : dir ≠ tbl) (clear : ∀ j, memory.words dir j = 0) :
    ∃ after, BootMemory.virtMmMap dir 0 0xC0000000 memory = some after ∧ after.words dir 768 = kernelWord tbl ∧
      (∀ j, j ≠ 768 → after.words dir j = 0) ∧ (∀ j < shownFrames, after.words tbl j = kernelWord j) ∧
      (∀ frame, frame ≠ dir → frame ≠ tbl → after.words frame = memory.words frame) ∧
      (∀ frame, bitmapTest after.mm.bitmap frame = (bitmapTest next.bitmap frame || decide (frame < shownFrames))) ∧
      after.mm.max = next.max := by
  have zeros : ∀ j, 0 ≤ j → ({ memory with mm := next }.clearFrame tbl).words tbl j = 0 := by
    intro j _
    simp only [BootMemory.clearFrame, Function.update_self]
  obtain ⟨words, tests, max⟩ := mapLoop_spec (by rfl : 0 + 1024 = shownFrames) zeros
  have start : kernelVirtAddr + physMmBlock * 0 = 0xC0000000 := rfl
  have index : pageDirIndex 0xC0000000 = 768 := by decide
  rw [BootMemory.virtMmMap, given]
  dsimp only
  rw [frame_block low, Option.map_some, index]
  rw [start, Nat.mul_zero] at words tests max
  generalize BootMemory.virtMmMapLoop tbl 1024 0 0xC0000000 ({ memory with mm := next }.clearFrame tbl) = looped at *
  have old (frame j : Nat) (other : frame ≠ tbl) : looped.words frame j = memory.words frame j := by
    rw [words, if_neg (fun both => other both.1)]
    simp only [BootMemory.clearFrame, Function.update_of_ne other]
  refine ⟨_, rfl, ?_, fun j other => ?_, fun j inside => ?_, fun frame notDir notTbl => ?_, fun frame => ?_, max⟩
  · simp only [BootMemory.setWord, Function.update_self]
    rw [old dir 768 apart, clear]
    rfl
  · simp only [BootMemory.setWord, Function.update_self, Function.update_of_ne other]
    rw [old dir j apart, clear]
  · simp only [BootMemory.setWord, Function.update_of_ne (Ne.symm apart)]
    rw [words, if_pos ⟨rfl, Nat.zero_le j, inside⟩]
  · simp only [BootMemory.setWord, Function.update_of_ne notDir]
    exact funext fun j => old frame j notTbl
  · simp only [BootMemory.setWord, tests, BootMemory.clearFrame, Nat.zero_le, true_and]

theorem init_written {words : Nat → Nat → BitVec 32} (guarded : Guarded reserved ⟨mm, []⟩) (positive : 0 < reserved)
    (more : mm.used + 1 < mm.max) (large : shownFrames ≤ mm.max) {first second : Nat} (apart : first < second)
    (low : second < shownFrames) (one : bitmapTest mm.bitmap first = false)
    (two : bitmapTest mm.bitmap second = false) :
    ∃ dir tbl last after, BootMemory.virtMmInit ⟨mm, words⟩ = some (last, ⟨after, dir⟩) ∧ Written dir tbl words after ∧
      reserved ≤ dir ∧ dir < shownFrames ∧ reserved ≤ tbl ∧ tbl < shownFrames ∧ dir ≠ tbl ∧
      Guarded shownFrames ⟨last, []⟩ := by
  obtain ⟨dir, behindDir, firstDir, -, givenDir⟩ :=
    alloc_first guarded positive (by omega) large (by omega : first < shownFrames) one
  have lowDir : dir < shownFrames := by omega
  obtain ⟨bounded, marked, -⟩ := guarded
  have tests : ∀ frame,
    bitmapTest (bitmapSet mm.bitmap dir) frame = (decide (frame = dir) || bitmapTest mm.bitmap frame) :=
    fun _ => bitmapTest_set
  have again : Guarded reserved ⟨{ mm with bitmap := bitmapSet mm.bitmap dir, used := mm.used + 1 }, []⟩ := by
    refine ⟨bounded, fun frame inside => ?_, fun frame member => absurd member List.not_mem_nil⟩
    rw [tests, marked frame inside, Bool.or_true]
  obtain ⟨free, lowFree, clear⟩ : ∃ free < shownFrames, bitmapTest (bitmapSet mm.bitmap dir) free = false := by
    by_cases taken : dir = first
    · refine ⟨second, low, ?_⟩
      rw [tests, two, decide_eq_false (by omega)]
      rfl
    · refine ⟨first, by omega, ?_⟩
      rw [tests, one, decide_eq_false (Ne.symm taken)]
      rfl
  obtain ⟨tbl, behindTbl, firstTbl, clearTbl, givenTbl⟩ := alloc_first again positive more large lowFree clear
  have lowTbl : tbl < shownFrames := by omega
  have differ : dir ≠ tbl := by
    rintro rfl
    rw [tests, decide_eq_true rfl] at clearTbl
    cases clearTbl
  have zeros : ∀ j, ((⟨{ mm with bitmap := bitmapSet mm.bitmap dir, used := mm.used + 1 }, words⟩ :
      BootMemory).clearFrame dir).words dir j = 0 := by
    intro j
    simp only [BootMemory.clearFrame, Function.update_self]
  obtain ⟨after, mapped, table, rest, pages, others, marks, max⟩ := map_written givenTbl lowTbl differ zeros
  refine ⟨dir, tbl, after.mm,
    (after.setWord dir 1023 (BitVec.ofNat 32 (physMmBlock * dir) &&& 0xFFFFF000 ||| 3)).words, ?_,
    ⟨?_, ?_, fun j last other => ?_, fun j inside => ?_, fun frame notDir notTbl => ?_⟩, behindDir, lowDir, behindTbl,
    lowTbl, differ, ⟨?_, fun frame inside => ?_, fun frame member => absurd member List.not_mem_nil⟩⟩
  · rw [BootMemory.virtMmInit]
    dsimp only
    rw [givenDir]
    dsimp only
    rw [frame_block lowDir, Option.bind_some]
    exact congrArg (Option.map _) mapped
  · simp only [BootMemory.setWord, Function.update_self]
  · simp only [BootMemory.setWord, Function.update_self]
    rw [Function.update_of_ne (by decide), table]
  · simp only [BootMemory.setWord, Function.update_self, Function.update_of_ne last]
    exact rest j other
  · simp only [BootMemory.setWord, Function.update_of_ne (Ne.symm differ)]
    exact pages j inside
  · simp only [BootMemory.setWord, Function.update_of_ne notDir]
    rw [others frame notDir notTbl]
    simp only [BootMemory.clearFrame, Function.update_of_ne notDir]
  · rw [max]
    exact bounded
  · rw [marks, decide_eq_true inside, Bool.or_true]

theorem lookup_some {word : BitVec 32} {frame : Nat} (found : lookup word = some frame) :
    pageIsEnabled word = true ∧ frameNumber word = frame := by
  unfold lookup at found
  split at found
  next enabled => exact ⟨enabled, Option.some.inj found⟩
  next => cases found

theorem entry_mk (after : Nat → Nat → BitVec 32) (dir j : Nat) : Paging.entry ⟨after, dir⟩ j = after dir j := rfl

section Written

variable {dir : Nat} {words after : Nat → Nat → BitVec 32} (written : Written dir tbl words after)
include written

theorem Written.enabled (lowTbl : tbl < shownFrames) {j : Nat} (inside : j < 1023)
    (enabled : pageIsEnabled (after dir j) = true) : j = 768 ∧ frameNumber (after dir j) = tbl := by
  by_cases table : j = 768
  · subst table
    rw [written.table]
    exact ⟨rfl, (lookup_some (bootWords_lookup tbl lowTbl).1).2⟩
  · rw [written.rest j (Nat.ne_of_lt inside) table] at enabled
    cases enabled

theorem Written.proper (lowDir : dir < shownFrames) (lowTbl : tbl < shownFrames) (differ : dir ≠ tbl) :
    Proper ⟨after, dir⟩ where
  enabled := by
    rw [entry_mk, written.recursive]
    exact (lookup_some (bootWords_lookup dir lowDir).2).1
  itself := by
    rw [entry_mk, written.recursive]
    exact (lookup_some (bootWords_lookup dir lowDir).2).2
  apart := by
    intro i inside enabled same
    exact differ (same.symm.trans (written.enabled lowTbl inside enabled).2)
  distinct := by
    intro i inside j within one two _
    exact (written.enabled lowTbl inside one).1.trans (written.enabled lowTbl within two).1.symm

theorem Written.translate (lowTbl : tbl < shownFrames) {virtual : Nat} (low : kernelVirtAddr ≤ virtual)
    (high : virtual < kernelVirtAddr + physMmBlock * shownFrames) :
    Paging.translate ⟨after, dir⟩ virtual = some ((virtual - kernelVirtAddr) / physMmBlock) := by
  have table : pageDirIndex virtual = 768 := by
    unfold kernelVirtAddr physMmBlock shownFrames pageDirIndex at *
    omega
  have page : pageTblIndex virtual = (virtual - kernelVirtAddr) / physMmBlock := by
    unfold kernelVirtAddr physMmBlock shownFrames pageTblIndex at *
    omega
  have inside : (virtual - kernelVirtAddr) / physMmBlock < shownFrames := by
    unfold kernelVirtAddr physMmBlock shownFrames at *
    omega
  obtain ⟨enabled, shows⟩ := lookup_some (bootWords_lookup tbl lowTbl).1
  rw [translate_eq, entry_mk, table, page, written.table, if_pos enabled, shows]
  dsimp only
  rw [written.pages _ inside]
  exact (bootWords_lookup _ inside).1

theorem Written.translate_none {virtual : Nat} (below : virtual < pageTblBase)
    (outside : ¬(kernelVirtAddr ≤ virtual ∧ virtual < kernelVirtAddr + physMmBlock * shownFrames)) :
    Paging.translate ⟨after, dir⟩ virtual = none := by
  have last : pageDirIndex virtual ≠ 1023 := Nat.ne_of_lt (below_index below)
  have table : pageDirIndex virtual ≠ 768 := by
    unfold kernelVirtAddr physMmBlock shownFrames pageTblBase pageDirIndex at *
    omega
  rw [translate_eq, entry_mk, written.rest _ last table]
  rfl

theorem Written.fresh (lowDir : dir < shownFrames) (lowTbl : tbl < shownFrames) {frame : Nat}
    (high : shownFrames ≤ frame) : Fresh ⟨after, dir⟩ frame := by
  refine ⟨fun same => ?_, fun i inside enabled same => ?_⟩
  · dsimp only at same
    omega
  have table := (written.enabled lowTbl inside enabled).2
  rw [entry_mk] at same
  omega

end Written

variable {kernelSize memLower memUpper : Nat} {mmap : List MultibootMmapEntry} {memory : Bitmap}

/-- After `phys_mm_init` and `virt_mm_init`, with a kernel and a bitmap that leave two of the frames that are shown, the
kernel half shows these and nothing else is mapped, the kernel and the bitmap are as they were, and over any later calls
every block is a fresh frame behind them. -/
theorem boot_pages {words : Nat → Nat → BitVec 32}
    (room : 0x100000 + kernelSize + physMmBitmapSize (physMmBitmapMax memLower memUpper) + 2 * physMmBlock ≤ 2 ^ 22)
    (large : shownFrames ≤ physMmBitmapMax memLower memUpper)
    (more : (physMmInit memory kernelSize memLower memUpper mmap).used + 1 < physMmBitmapMax memLower memUpper) :
    ∃ mm paging, BootMemory.virtMmInit ⟨physMmInit memory kernelSize memLower memUpper mmap, words⟩ =
      some (mm, paging) ∧
      Booted (kernelSize + physMmBitmapSize (physMmBitmapMax memLower memUpper)) words mm paging ∧
      ∀ actions final, Meets physStep Finds ⟨mm, []⟩ actions → run physStep ⟨mm, []⟩ actions = some final →
        ∀ frame ∈ final.live, Fresh paging frame := by
  have guarded := init_guarded memory kernelSize memLower memUpper mmap
  have kernel : kernelSize + physMmBitmapSize (physMmBitmapMax memLower memUpper) < 2 ^ 32 := by omega
  obtain ⟨cover, most⟩ := reserved_cover kernel
  have low : 256 + reservedBlocks kernelSize (physMmBitmapMax memLower memUpper) + 1 < shownFrames := by
    unfold physMmBlock shownFrames at *
    omega
  have clear (frame : Nat) (behind : 256 + reservedBlocks kernelSize (physMmBitmapMax memLower memUpper) ≤ frame)
      (shown : frame < shownFrames) :
      bitmapTest (physMmInit memory kernelSize memLower memUpper mmap).bitmap frame = false := by
    apply Bool.eq_false_of_not_eq_true
    intro set
    have reserved := (init_tests_below (Nat.lt_of_lt_of_le shown large)).mp set
    omega
  have maximum : (physMmInit memory kernelSize memLower memUpper mmap).max = physMmBitmapMax memLower memUpper :=
    init_max
  rw [← maximum] at large more
  obtain ⟨dir, tbl, mm, after, started, written, behindDir, lowDir, behindTbl, lowTbl, differ, ended⟩ :=
    init_written guarded (Nat.lt_of_lt_of_le (by decide) (Nat.le_add_right 256 _)) more large (Nat.lt_succ_self _)
      low (clear _ (Nat.le_refl _) (by omega)) (clear _ (Nat.le_succ _) low)
  refine ⟨mm, ⟨after, dir⟩, started, ⟨written.proper lowDir lowTbl differ, fun virtual least most => ?_,
    fun virtual below outside => written.translate_none below outside, fun frame inside => ?_,
    fun frame high => written.fresh lowDir lowTbl high, ended⟩, fun actions final met ran frame member => ?_⟩
  · exact written.translate lowTbl least most
  · have few : frame < 256 + reservedBlocks kernelSize (physMmBitmapMax memLower memUpper) := by
      unfold physMmBlock at inside cover
      omega
    exact written.others frame (by omega) (by omega)
  · have kept := run_invariant (Guarded shownFrames)
      (fun before action after kept finds stepped => physStep_guarded kept finds stepped) ended met ran
    exact written.fresh lowDir lowTbl (kept.given frame member)

/-- Eight megabytes, with a kernel of one page and whatever the frames hold. -/
theorem boot_pages_example : ∃ mm paging,
    BootMemory.virtMmInit ⟨physMmInit (fun _ => 0) 0x1000 0 8192 [⟨0, 0x800000, 1⟩], fun _ _ => 7⟩ = some (mm, paging) ∧
      paging.translate 0xC0123456 = some 0x123 ∧ paging.translate 0x1000 = none := by
  have room : 0x100000 + 0x1000 + physMmBitmapSize (physMmBitmapMax 0 8192) + 2 * physMmBlock ≤ 2 ^ 22 := by decide
  have more : (physMmInit (fun _ => 0) 0x1000 0 8192 [⟨0, 0x800000, 1⟩]).used + 1 < physMmBitmapMax 0 8192 := by
    decide +kernel
  obtain ⟨mm, paging, started, booted, -⟩ := boot_pages room (by decide) more
  exact ⟨mm, paging, started, booted.kernel _ (by decide) (by decide), booted.others _ (by decide) (by decide)⟩

end YuzuOS.Proofs.BootPages
