import YuzuOS.Kernel.Virtual

/-! What the functions of the page tables do to the translations. The entry of a page
is made from what stood there, and the mask leaves the last bit of that in place. -/

namespace YuzuOS.Proofs.PageTables
open Kernel

def lookup (word : BitVec 32) : Option Nat := if pageIsEnabled word then some (frameNumber word) else none

/-- The last entry of the directory shows the directory itself, and every table has a
frame of its own. -/
structure Proper (paging : Paging) : Prop where
  enabled : pageIsEnabled (paging.entry 1023) = true
  itself : frameNumber (paging.entry 1023) = paging.dir
  apart : ∀ i < 1023, pageIsEnabled (paging.entry i) = true → frameNumber (paging.entry i) ≠ paging.dir
  distinct : ∀ i < 1023, ∀ j < 1023, pageIsEnabled (paging.entry i) = true → pageIsEnabled (paging.entry j) = true →
    frameNumber (paging.entry i) = frameNumber (paging.entry j) → i = j

/-- A frame that is neither the directory nor a table. -/
def Fresh (paging : Paging) (frame : Nat) : Prop :=
  frame ≠ paging.dir ∧ ∀ i < 1023, pageIsEnabled (paging.entry i) = true → frameNumber (paging.entry i) ≠ frame

section Indices

theorem dirIndex_lt (addr : Nat) : pageDirIndex addr < 1024 := Nat.mod_lt _ (by decide)

theorem window_index {i : Nat} (inside : i < 1024) :
    pageDirIndex (pageTblBase + i * physMmBlock) = 1023 ∧ pageTblIndex (pageTblBase + i * physMmBlock) = i := by
  unfold pageDirIndex pageTblIndex pageTblBase physMmBlock
  omega

theorem below_index {virtual : Nat} (below : virtual < pageTblBase) : pageDirIndex virtual < 1023 := by
  unfold pageDirIndex
  unfold pageTblBase at below
  omega

theorem indices_page {first second : Nat} (same : first / physMmBlock = second / physMmBlock) :
    pageDirIndex first = pageDirIndex second ∧ pageTblIndex first = pageTblIndex second := by
  unfold physMmBlock at same
  unfold pageDirIndex pageTblIndex
  omega

/-- Two addresses have both indices in common only in one page. -/
theorem page_eq {first second : Nat} (one : first < 2 ^ 32) (other : second < 2 ^ 32)
    (dir : pageDirIndex first = pageDirIndex second) (tbl : pageTblIndex first = pageTblIndex second) :
    first / physMmBlock = second / physMmBlock := by
  unfold pageDirIndex at dir
  unfold pageTblIndex at tbl
  unfold physMmBlock
  omega

end Indices

variable {paging : Paging} {index frame : Nat} {word : BitVec 32}

theorem translate_eq (paging : Paging) (virtual : Nat) : paging.translate virtual =
    if pageIsEnabled (paging.entry (pageDirIndex virtual)) then
      lookup (paging.words (frameNumber (paging.entry (pageDirIndex virtual))) (pageTblIndex virtual)) else none := rfl

theorem translate_page {first second : Nat} (same : first / physMmBlock = second / physMmBlock) :
    paging.translate first = paging.translate second := by
  rw [translate_eq, translate_eq, (indices_page same).1, (indices_page same).2]

/-- Through the window a table is found at its own index. -/
theorem window_eq (proper : Proper paging) (inside : index < 1024) :
    paging.window index = lookup (paging.entry index) := by
  rw [Paging.window, translate_eq, (window_index inside).1, (window_index inside).2, if_pos proper.enabled, proper.itself]
  rfl

theorem entry_setWord (elsewhere : frame ≠ paging.dir) (tbl i : Nat) :
    (paging.setWord frame tbl word).entry i = paging.entry i := by
  simp only [Paging.entry, Paging.setWord, Function.update_of_ne (Ne.symm elsewhere)]

/-- A write outside of the directory leaves the tables where they are. -/
theorem Proper.of_entries {before after : Paging} (proper : Proper before) (dir : after.dir = before.dir)
    (entries : ∀ i, after.entry i = before.entry i) : Proper after := by
  refine ⟨?_, ?_, ?_, ?_⟩
  · rw [entries]
    exact proper.enabled
  · rw [entries, dir]
    exact proper.itself
  · intro i low
    rw [entries, dir]
    exact proper.apart i low
  · intro i low j small
    rw [entries, entries]
    exact proper.distinct i low j small

section SetWord

variable (proper : Proper paging) (low : index < 1023) (enabled : pageIsEnabled (paging.entry index) = true)
include proper low enabled

theorem setWord_proper (tbl : Nat) : Proper (paging.setWord (frameNumber (paging.entry index)) tbl word) :=
  proper.of_entries rfl (entry_setWord (proper.apart index low enabled) tbl)

theorem setWord_page {virtual : Nat} (dir : pageDirIndex virtual = index) :
    (paging.setWord (frameNumber (paging.entry index)) (pageTblIndex virtual) word).translate virtual =
      lookup word := by
  rw [translate_eq, entry_setWord (proper.apart index low enabled), dir, if_pos enabled]
  simp only [Paging.setWord, Function.update_self]

theorem setWord_others {virtual tbl : Nat} (other : ¬(pageDirIndex virtual = index ∧ pageTblIndex virtual = tbl)) :
    (paging.setWord (frameNumber (paging.entry index)) tbl word).translate virtual = paging.translate virtual := by
  have apart := proper.apart index low enabled
  rw [translate_eq, translate_eq, entry_setWord apart]
  by_cases there : pageIsEnabled (paging.entry (pageDirIndex virtual)) = true
  · rw [if_pos there, if_pos there]
    congr 1
    simp only [Paging.setWord]
    by_cases same : frameNumber (paging.entry (pageDirIndex virtual)) = frameNumber (paging.entry index)
    · have small : pageDirIndex virtual < 1023 := by
        by_contra last
        have bound := dirIndex_lt virtual
        have is : pageDirIndex virtual = 1023 := by omega
        rw [is, proper.itself] at same
        exact apart same.symm
      have dir := proper.distinct _ small index low there enabled same
      rw [same, Function.update_self, Function.update_of_ne fun tbl => other ⟨dir, tbl⟩]
    · rw [Function.update_of_ne same]
  · rw [if_neg there, if_neg there]

end SetWord

theorem newTable_entry (index : Nat) (fresh : Fresh paging (frameNumber word)) (i : Nat) :
    ((paging.setWord paging.dir index word).clearFrame (frameNumber word)).entry i =
      if i = index then word else paging.entry i := by
  simp only [Paging.entry, Paging.setWord, Paging.clearFrame, Function.update_of_ne (Ne.symm fresh.1), Function.update_self]
  exact Function.update_apply ..

section NewTable

variable (proper : Proper paging) (present : pageIsEnabled word = true) (fresh : Fresh paging (frameNumber word))
include proper fresh

theorem newTable_proper (low : index < 1023) :
    Proper ((paging.setWord paging.dir index word).clearFrame (frameNumber word)) := by
  have entries (i : Nat) := newTable_entry index fresh i
  have last : ¬1023 = index := by omega
  refine ⟨?_, ?_, ?_, ?_⟩
  · rw [entries, if_neg last]
    exact proper.enabled
  · rw [entries, if_neg last]
    exact proper.itself
  · intro i small
    rw [entries]
    by_cases new : i = index
    · rw [if_pos new]
      exact fun _ => fresh.1
    · rw [if_neg new]
      exact proper.apart i small
  · intro i small j less
    rw [entries, entries]
    by_cases new : i = index <;> by_cases newer : j = index
    · exact fun _ _ _ => new.trans newer.symm
    · rw [if_pos new, if_neg newer]
      exact fun _ there same => absurd same.symm (fresh.2 j less there)
    · rw [if_neg new, if_pos newer]
      exact fun there _ same => absurd same (fresh.2 i small there)
    · rw [if_neg new, if_neg newer]
      exact proper.distinct i small j less

include present

/-- The pages of the new table were not mapped before either. -/
theorem newTable_translate (absent : ¬pageIsEnabled (paging.entry index) = true) {virtual : Nat}
    (other : ¬(pageDirIndex virtual = 1023 ∧ pageTblIndex virtual = index)) :
    ((paging.setWord paging.dir index word).clearFrame (frameNumber word)).translate virtual =
      paging.translate virtual := by
  rw [translate_eq, translate_eq, newTable_entry index fresh]
  by_cases new : pageDirIndex virtual = index
  · rw [if_pos new, if_pos present, new, if_neg absent]
    simp only [Paging.clearFrame, Function.update_self]
    rfl
  · rw [if_neg new]
    by_cases there : pageIsEnabled (paging.entry (pageDirIndex virtual)) = true
    · rw [if_pos there, if_pos there]
      congr 1
      simp only [Paging.clearFrame, Paging.setWord]
      by_cases last : pageDirIndex virtual = 1023
      · rw [last, proper.itself, Function.update_of_ne (Ne.symm fresh.1), Function.update_self,
          Function.update_of_ne fun tbl => other ⟨last, tbl⟩]
      · have small : pageDirIndex virtual < 1023 := by
          have bound := dirIndex_lt virtual
          omega
        rw [Function.update_of_ne (fresh.2 _ small there), Function.update_of_ne (proper.apart _ small there)]
    · rw [if_neg there, if_neg there]

end NewTable

/-! ### Unmapping -/

/-- The pages are gone, and the translations of the others are what they were. -/
def Unmapped (before after : Paging) (pages : Nat → Prop) : Prop :=
  ∀ virtual < 2 ^ 32, (pages (virtual / physMmBlock) → after.translate virtual = none) ∧
    (¬pages (virtual / physMmBlock) → after.translate virtual = before.translate virtual)

theorem Unmapped.trans {before middle after : Paging} {first second : Nat → Prop} (one : Unmapped before middle first)
    (other : Unmapped middle after second) : Unmapped before after fun page => first page ∨ second page := by
  intro virtual inside
  constructor
  · rintro (gone | gone)
    · by_cases again : second (virtual / physMmBlock)
      · exact (other virtual inside).1 again
      · rw [(other virtual inside).2 again]
        exact (one virtual inside).1 gone
    · exact (other virtual inside).1 gone
  · intro kept
    rw [(other virtual inside).2 (not_or.mp kept).2, (one virtual inside).2 (not_or.mp kept).1]

theorem Unmapped.congr {before after : Paging} {first second : Nat → Prop} (unmapped : Unmapped before after first)
    (same : ∀ page, first page ↔ second page) : Unmapped before after second := by
  intro virtual inside
  rw [← same]
  exact unmapped virtual inside

theorem addrUnmap_spec {virtual : Nat} (proper : Proper paging) (below : virtual < pageTblBase) :
    ∃ after, virtMmAddrUnmap virtual paging = some after ∧ Proper after ∧
      Unmapped paging after fun page => page = virtual / physMmBlock := by
  have low := below_index below
  have already (none : paging.translate virtual = none) : Unmapped paging paging fun page => page = virtual / physMmBlock := by
    intro other inside
    exact ⟨fun same => (translate_page same).trans none, fun _ => rfl⟩
  unfold virtMmAddrUnmap
  by_cases table : pageIsEnabled (paging.entry (pageDirIndex virtual)) = true
  · have shown := window_eq proper (low.trans (by decide))
    rw [lookup, if_pos table] at shown
    rw [if_pos table, shown]
    by_cases page : pageIsEnabled (paging.words (frameNumber (paging.entry (pageDirIndex virtual))) (pageTblIndex virtual)) = true
    · rw [Option.map_some, if_pos page]
      refine ⟨_, rfl, setWord_proper proper low table _, ?_⟩
      intro other inside
      constructor
      · intro same
        obtain ⟨dir, tbl⟩ := indices_page same
        rw [← tbl, setWord_page proper low table dir]
        rfl
      · intro different
        apply setWord_others proper low table
        exact fun both => different (page_eq inside (below.trans (by decide)) both.1 both.2)
    · rw [Option.map_some, if_neg page]
      refine ⟨_, rfl, proper, already ?_⟩
      rw [translate_eq, if_pos table]
      exact if_neg page
  · rw [if_neg table]
    refine ⟨_, rfl, proper, already ?_⟩
    rw [translate_eq, if_neg table]

def Stepped (start stop page : Nat) : Prop :=
  ∃ turn, start + turn * physMmBlock < stop ∧ (start + turn * physMmBlock) / physMmBlock = page

theorem stepped_iff {start stop page : Nat} (below : start < stop) :
    page = start / physMmBlock ∨ Stepped (start + physMmBlock) stop page ↔ Stepped start stop page := by
  constructor
  · rintro (rfl | ⟨turn, inside, rfl⟩)
    · exact ⟨0, by simpa using below, by simp⟩
    · exact ⟨turn + 1, by rw [Nat.succ_mul]; omega, by rw [Nat.succ_mul, Nat.add_comm (turn * _), Nat.add_assoc]⟩
  · rintro ⟨turn, inside, rfl⟩
    cases turn with
    | zero => exact .inl (by simp)
    | succ turn =>
      rw [Nat.succ_mul, Nat.add_comm (turn * _), ← Nat.add_assoc] at inside ⊢
      exact .inr ⟨turn, inside, rfl⟩

theorem rangeUnmapLoop_spec {turns start stop : Nat} (proper : Proper paging) (below : stop ≤ pageTblBase)
    (enough : stop ≤ start + turns * physMmBlock) :
    ∃ after, virtMmRangeUnmapLoop stop (turns + 1) start paging = some after ∧ Proper after ∧
      Unmapped paging after (Stepped start stop) := by
  induction turns generalizing start paging with
  | zero =>
    rw [Nat.zero_mul, Nat.add_zero] at enough
    refine ⟨paging, if_neg (Nat.not_lt.mpr enough), proper, fun virtual _ => ⟨fun ⟨turn, inside, _⟩ => ?_, fun _ => rfl⟩⟩
    exact absurd (Nat.lt_of_le_of_lt (Nat.le_add_right _ _) inside) (Nat.not_lt.mpr enough)
  | succ turns ih =>
    by_cases more : start < stop
    · obtain ⟨middle, unmap, kept, gone⟩ := addrUnmap_spec proper (more.trans_le below)
      have fits : start + physMmBlock < 2 ^ 32 := by
        unfold pageTblBase at below
        unfold physMmBlock
        omega
      rw [Nat.succ_mul, Nat.add_comm (turns * _), ← Nat.add_assoc] at enough
      obtain ⟨after, loop, last, rest⟩ := ih kept enough
      refine ⟨after, ?_, last, (gone.trans rest).congr fun page => stepped_iff more⟩
      rw [virtMmRangeUnmapLoop, if_pos more, unmap, Option.bind_some, Nat.mod_eq_of_lt fits, loop]
    · refine ⟨paging, if_neg more, proper, fun virtual _ => ⟨fun ⟨turn, inside, _⟩ => ?_, fun _ => rfl⟩⟩
      exact absurd (Nat.lt_of_le_of_lt (Nat.le_add_right _ _) inside) more

theorem rangeUnmap_spec {stop : Nat} (start : Nat) (proper : Proper paging) (below : stop ≤ pageTblBase) :
    ∃ after, virtMmAddrRangeUnmap start stop paging = some after ∧ Proper after ∧
      Unmapped paging after (Stepped start stop) := by
  refine rangeUnmapLoop_spec proper below (below.trans ?_)
  exact (show pageTblBase ≤ 2 ^ 20 * physMmBlock by decide).trans (Nat.le_add_left _ _)

theorem stepped_inside {start stop page : Nat} (stepped : Stepped start stop page) :
    ∃ addr, start ≤ addr ∧ addr < stop ∧ addr / physMmBlock = page := by
  obtain ⟨turn, inside, same⟩ := stepped
  exact ⟨_, Nat.le_add_right _ _, inside, same⟩

theorem stepped_of_inside {start stop addr : Nat} (aligned : start % physMmBlock = 0) (lower : start ≤ addr)
    (upper : addr < stop) :
    Stepped start stop (addr / physMmBlock) := by
  unfold physMmBlock at *
  refine ⟨addr / 4096 - start / 4096, ?_, ?_⟩ <;> unfold physMmBlock <;> omega

/-! ### Mapping -/

def oldEntry (paging : Paging) (virtual : Nat) : BitVec 32 :=
  if pageIsEnabled (paging.entry (pageDirIndex virtual)) then
    paging.words (frameNumber (paging.entry (pageDirIndex virtual))) (pageTblIndex virtual)
  else 0

/-- The allocator gave a frame that no table has, where a table is to be made. -/
def TableFresh (paging : Paging) (physicalTbl flags : BitVec 32) (virtual : Nat) : Prop :=
  ¬pageIsEnabled (paging.entry (pageDirIndex virtual)) = true →
    Fresh paging (frameNumber (virtMmFrameSet (virtMmFlagSet (paging.entry (pageDirIndex virtual)) flags) physicalTbl))

/-- A page that the call is not about. A new table also comes to stand in the window. -/
def Other (paging : Paging) (virtual other : Nat) : Prop :=
  other < 2 ^ 32 ∧ other / physMmBlock ≠ virtual / physMmBlock ∧
    (pageIsEnabled (paging.entry (pageDirIndex virtual)) = true ∨
      ¬(pageDirIndex other = 1023 ∧ pageTblIndex other = pageDirIndex virtual))

/-- The directory of a call has at most one new entry, that of a missing table. -/
structure NewEntry (physicalTbl flags : BitVec 32) (virtual : Nat) (before after : Paging) : Prop where
  dir : after.dir = before.dir
  entries : ∀ i, after.entry i = before.entry i ∨ i = pageDirIndex virtual ∧
    ¬pageIsEnabled (before.entry (pageDirIndex virtual)) = true ∧
    after.entry i = virtMmFrameSet (virtMmFlagSet (before.entry (pageDirIndex virtual)) flags) physicalTbl

/-- Between the two halves of the call the table is there, and no page has moved. -/
theorem mapTable_spec {physicalTbl flags : BitVec 32} {virtual : Nat} (proper : Proper paging)
    (below : virtual < pageTblBase) (present : pageIsEnabled flags = true)
    (fresh : TableFresh paging physicalTbl flags virtual) :
    ∃ after, virtMmMapTable physicalTbl flags (pageDirIndex virtual) paging = some after ∧ Proper after ∧
      NewEntry physicalTbl flags virtual paging after ∧
      pageIsEnabled (after.entry (pageDirIndex virtual)) = true ∧
      after.words (frameNumber (after.entry (pageDirIndex virtual))) (pageTblIndex virtual) = oldEntry paging virtual ∧
      ∀ other, Other paging virtual other → after.translate other = paging.translate other := by
  have low := below_index below
  unfold oldEntry virtMmMapTable
  by_cases there : pageIsEnabled (paging.entry (pageDirIndex virtual)) = true
  · rw [if_pos there, if_pos there]
    exact ⟨paging, rfl, proper, ⟨rfl, fun _ => .inl rfl⟩, there, rfl, fun _ _ => rfl⟩
  · rw [if_neg there, if_neg there]
    have clear := fresh there
    obtain ⟨word, made⟩ : ∃ word, word = virtMmFrameSet (virtMmFlagSet (paging.entry (pageDirIndex virtual)) flags) physicalTbl :=
      ⟨_, rfl⟩
    rw [← made] at clear ⊢
    have enabled : pageIsEnabled word = true := by
      rw [made]
      exact frameSet_enabled (flagSet_enabled present)
    have entries := newTable_entry (pageDirIndex virtual) clear
    have self := (entries (pageDirIndex virtual)).trans (if_pos rfl)
    have shown : (paging.setWord paging.dir (pageDirIndex virtual) word).window (pageDirIndex virtual) =
        some (frameNumber word) := by
      have last : (paging.setWord paging.dir (pageDirIndex virtual) word).entry 1023 = paging.entry 1023 := by
        simp only [Paging.entry, Paging.setWord, Function.update_self]
        exact Function.update_of_ne (by omega) ..
      have index := window_index (low.trans (by decide))
      rw [Paging.window, translate_eq, index.1, index.2, last, if_pos proper.enabled, proper.itself]
      simp only [Paging.setWord, Function.update_self, lookup, if_pos enabled]
    refine ⟨_, congrArg (Option.map (Paging.clearFrame _)) shown, newTable_proper proper clear low, ⟨rfl, fun i => ?_⟩, ?_, ?_, ?_⟩
    · by_cases new : i = pageDirIndex virtual
      · rw [entries, if_pos new, ← made]
        exact .inr ⟨new, there, rfl⟩
      · exact .inl ((entries i).trans (if_neg new))
    · rw [self]
      exact enabled
    · rw [self]
      simp only [Paging.clearFrame, Function.update_self]
    · intro other elsewhere
      exact newTable_translate proper enabled clear there (elsewhere.2.2.resolve_left there)

/-- The call returns, the page is in the frame, and the other pages are where they were. -/
def Maps (physicalTbl physical flags : BitVec 32) (virtual : Nat) (paging : Paging) : Prop :=
  ∃ after, virtMmMapAddr physicalTbl physical virtual flags paging = some after ∧
    after.translate virtual = some (frameNumber physical) ∧
    ∀ other, Other paging virtual other → after.translate other = paging.translate other

theorem mapAddr_spec {physicalTbl flags : BitVec 32} {virtual : Nat} (physical : BitVec 32) (proper : Proper paging)
    (below : virtual < pageTblBase) (present : pageIsEnabled flags = true)
    (fresh : TableFresh paging physicalTbl flags virtual) :
    ∃ after, virtMmMapAddr physicalTbl physical virtual flags paging = some after ∧ Proper after ∧
      NewEntry physicalTbl flags virtual paging after ∧
      after.translate virtual =
        some (frameNumber (virtMmFrameSet (virtMmFlagSet (oldEntry paging virtual) flags) physical)) ∧
      ∀ other, Other paging virtual other → after.translate other = paging.translate other := by
  obtain ⟨middle, table, kept, new, enabled, old, same⟩ := mapTable_spec proper below present fresh
  have low := below_index below
  have shown := window_eq kept (low.trans (by decide))
  rw [lookup, if_pos enabled] at shown
  refine ⟨_, by rw [virtMmMapAddr, table, Option.bind_some, shown]; rfl, ?_, ?_, ?_, ?_⟩
  · exact setWord_proper kept low enabled _
  · refine ⟨new.dir, fun i => ?_⟩
    rw [entry_setWord (kept.apart _ low enabled)]
    exact new.entries i
  · rw [setWord_page kept low enabled rfl, old, lookup, if_pos (frameSet_enabled (flagSet_enabled present))]
  · intro other elsewhere
    rw [← same other elsewhere]
    apply setWord_others kept low enabled
    intro both
    exact elsewhere.2.1 (page_eq elsewhere.1 (below.trans (by decide)) both.1 both.2)

theorem virt_mm_map_addr_iff {physicalTbl physical flags : BitVec 32} {virtual : Nat} (proper : Proper paging)
    (below : virtual < pageTblBase) (present : pageIsEnabled flags = true)
    (fresh : TableFresh paging physicalTbl flags virtual) :
    Maps physicalTbl physical flags virtual paging ↔
      ((oldEntry paging virtual ||| flags).getLsbD 31 = true → physical.getLsbD 31 = true) := by
  obtain ⟨after, call, -, -, page, others⟩ := mapAddr_spec physical proper below present fresh
  rw [virtMmFlagSet] at page
  constructor
  · rintro ⟨result, same, right, -⟩
    obtain rfl : after = result := Option.some.inj (call.symm.trans same)
    exact frameSet_frame.mp (Option.some.inj (page.symm.trans right))
  · intro kept
    exact ⟨after, call, page.trans (congrArg some (frameSet_frame.mpr kept)), others⟩

/-- A directory in the first frame, with one table in the second whose first page has `word`. -/
def onePage (word : BitVec 32) : Paging where
  words := fun frame index =>
    if frame = 1 ∧ index = 1023 then 0x1003 else if frame = 1 ∧ index = 0 then 0x2007
    else if frame = 2 ∧ index = 0 then word else 0
  dir := 1

theorem onePage_enabled (word : BitVec 32) {i : Nat} (low : i < 1023)
    (enabled : pageIsEnabled ((onePage word).entry i) = true) : i = 0 := by
  by_contra other
  have last : ¬i = 1023 := by omega
  rw [Paging.entry, onePage] at enabled
  simp only [last, other, and_false, if_false, pageIsEnabled] at enabled
  exact absurd enabled (by decide)

theorem onePage_proper (word : BitVec 32) : Proper (onePage word) := by
  refine ⟨show pageIsEnabled 0x1003 = true by decide, show frameNumber 0x1003 = 1 by decide, ?_, ?_⟩
  · intro i low enabled
    obtain rfl := onePage_enabled word low enabled
    exact show frameNumber 0x2007 ≠ 1 by decide
  · intro i low j less first second _
    rw [onePage_enabled word low first, onePage_enabled word less second]

theorem virt_mm_map_addr_example :
    Maps 0x3000 0x200000 7 0 (onePage 0x400007) ∧ Maps 0x3000 0x200000 7 0x400000 (onePage 0) :=
  ⟨(virt_mm_map_addr_iff (onePage_proper _) (by decide) (by decide) fun absent => absurd (by decide) absent).mpr (by decide),
    (virt_mm_map_addr_iff (onePage_proper _) (by decide) (by decide) fun _ => by
      refine ⟨by decide, ?_⟩
      intro i low enabled
      obtain rfl := onePage_enabled 0 low enabled
      decide).mpr (by decide)⟩

/-- The page was in the frame at two gibibytes. -/
theorem virt_mm_map_addr_misses : ¬Maps 0x3000 0x200000 7 0 (onePage 0x80000007) := by
  rintro ⟨after, call, page, -⟩
  have run : (virtMmMapAddr 0x3000 0x200000 0 7 (onePage 0x80000007)).map (fun after => after.translate 0) = some (some 0x80200) := by
    decide +kernel
  obtain ⟨result, same, wrong⟩ := Option.map_eq_some_iff.mp run
  rw [Option.some.inj (call.symm.trans same), wrong] at page
  exact absurd page (by decide)

end YuzuOS.Proofs.PageTables
