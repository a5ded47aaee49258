import Mathlib.Data.Finset.Card
import YuzuOS.Kernel.Directories
import YuzuOS.Kernel.UserProcess
import YuzuOS.Proofs.PageTables

/-! Pages that the kernel maps for a while, and what that leaves alone: the user half of the
directory, and the frames that are held. -/

namespace YuzuOS.Proofs.ScratchPages
open YuzuOS.Kernel YuzuOS.Proofs.PageTables

/-- A table of the kernel half of the active directory. -/
def KernelTable (space : Directories) (frame : Nat) : Prop :=
  ∃ i, 768 ≤ i ∧ i < 1023 ∧ pageIsEnabled (space.entry i) = true ∧ frameNumber (space.entry i) = frame

/-- The tables of the kernel half have frames of their own, and so have the blocks that the allocator answers
up to a limit; none of them is held. An entry without a table is clear. -/
structure Sound (held : Nat → Prop) (limit : Nat) (space : Directories) : Prop where
  window : pageIsEnabled (space.entry 1023) = true
  clear : ∀ i, 768 ≤ i → i < 1023 → ¬pageIsEnabled (space.entry i) = true → space.entry i = 0
  distinct : ∀ i, 768 ≤ i → i < 1023 → ∀ j, 768 ≤ j → j < 1023 → pageIsEnabled (space.entry i) = true →
    pageIsEnabled (space.entry j) = true → frameNumber (space.entry i) = frameNumber (space.entry j) → i = j
  apart : ∀ frame, KernelTable space frame → ¬held frame
  unheld : ∀ n ≥ space.taken, n < limit → ¬held (frameNumber (space.blocks n))
  unshown : ∀ n ≥ space.taken, n < limit → ¬KernelTable space (frameNumber (space.blocks n))
  once : ∀ m ≥ space.taken, m < limit → ∀ n ≥ space.taken, n < limit →
    frameNumber (space.blocks m) = frameNumber (space.blocks n) → m = n

/-- What a call for the kernel half leaves as it was. -/
structure Passes (held : Nat → Prop) (before after : Directories) : Prop where
  count : after.count = before.count
  active : after.active = before.active
  blocks : after.blocks = before.blocks
  taken : before.taken ≤ after.taken
  user : ∀ i < 768, after.entry i = before.entry i
  words : ∀ frame, held frame → after.words frame = before.words frame

def InKernel (virtual : Nat) : Prop := kernelVirtAddr ≤ virtual ∧ virtual < pageTblBase

variable {held : Nat → Prop} {limit : Nat} {tables : Finset Nat} {space before middle after : Directories}
  {dir index tbl virtual frame : Nat} {physical flags word : BitVec 32}

theorem InKernel.indices (inside : InKernel virtual) : 768 ≤ pageDirIndex virtual ∧ pageDirIndex virtual < 1023 ∧
    virtual < 2 ^ 32 := by
  obtain ⟨lower, upper⟩ := inside
  unfold kernelVirtAddr at lower
  unfold pageTblBase at upper
  unfold pageDirIndex
  omega

theorem Passes.refl (held : Nat → Prop) (space : Directories) : Passes held space space :=
  ⟨rfl, rfl, rfl, le_rfl, fun _ _ => rfl, fun _ _ => rfl⟩

theorem Passes.trans (first : Passes held before middle) (second : Passes held middle after) :
    Passes held before after :=
  ⟨second.count.trans first.count, second.active.trans first.active, second.blocks.trans first.blocks,
    first.taken.trans second.taken, fun i low => (second.user i low).trans (first.user i low),
    fun frame holds => (second.words frame holds).trans (first.words frame holds)⟩

/-- A call that leaves the entries where they are. -/
theorem Sound.of_entries (sound : Sound held limit before) (entries : ∀ i, after.entry i = before.entry i)
    (blocks : after.blocks = before.blocks) (taken : before.taken ≤ after.taken) : Sound held limit after := by
  have tables (frame : Nat) : KernelTable after frame ↔ KernelTable before frame := by
    simp only [KernelTable, entries]
  refine ⟨?_, fun i => ?_, fun i => ?_, fun frame shown => ?_, fun n more less => ?_, fun n more less => ?_,
    fun m more less n most least => ?_⟩
  · rw [entries]
    exact sound.window
  · rw [entries]
    exact sound.clear i
  · simp only [entries]
    exact sound.distinct i
  · exact sound.apart frame ((tables frame).mp shown)
  · rw [blocks]
    exact sound.unheld n (taken.trans more) less
  · rw [blocks, tables]
    exact sound.unshown n (taken.trans more) less
  · rw [blocks]
    exact sound.once m (taken.trans more) less n (taken.trans most) least

theorem Sound.mono {kept : Nat → Prop} (sound : Sound held limit space) (frames : ∀ frame, kept frame → held frame) :
    Sound kept limit space :=
  ⟨sound.window, sound.clear, sound.distinct, fun frame shown keeps => sound.apart frame shown (frames frame keeps),
    fun n more less keeps => sound.unheld n more less (frames _ keeps), sound.unshown, sound.once⟩

/-- The next block is held from now on. -/
theorem Sound.takes (sound : Sound held limit before) (entries : ∀ i, after.entry i = before.entry i)
    (blocks : after.blocks = before.blocks)
    (taken : after.taken = before.taken + 1) (left : before.taken < limit) :
    Sound (fun frame => held frame ∨ frame = frameNumber (before.blocks before.taken)) limit after := by
  have kept : Sound held limit after := sound.of_entries entries blocks (taken ▸ Nat.le_succ _)
  refine ⟨kept.window, kept.clear, kept.distinct, fun frame shown holds => ?_, fun n more less holds => ?_,
    kept.unshown, kept.once⟩
  · cases holds with
    | inl old => exact kept.apart frame shown old
    | inr new =>
      obtain ⟨i, high, low, enabled, same⟩ := shown
      rw [entries] at enabled same
      exact sound.unshown before.taken le_rfl left ⟨i, high, low, enabled, same.trans new⟩
  · cases holds with
    | inl old => exact kept.unheld n more less old
    | inr new =>
      rw [blocks] at new
      have same := sound.once n (by omega) less before.taken le_rfl left new
      omega

/-! ### Words of tables -/

theorem setTableWord_eq (below : index < 1023) :
    space.setTableWord index tbl word = space.setWord (frameNumber (space.entry index)) tbl word :=
  if_neg (Nat.ne_of_lt below)

theorem setWord_passes (free : ¬held frame) : Passes held space (space.setWord frame tbl word) := by
  refine ⟨rfl, rfl, rfl, le_rfl, fun _ _ => rfl, fun other holds => ?_⟩
  have different : other ≠ frame := fun same => free (same ▸ holds)
  exact Function.update_of_ne different _ _

theorem setWord_sound (sound : Sound held limit space) : Sound held limit (space.setWord frame tbl word) :=
  sound.of_entries (fun _ => rfl) rfl le_rfl

theorem Sound.table_free (sound : Sound held limit space) (high : 768 ≤ index) (low : index < 1023)
    (enabled : pageIsEnabled (space.entry index) = true) : ¬held (frameNumber (space.entry index)) :=
  sound.apart _ ⟨index, high, low, enabled, rfl⟩

/-! ### New tables -/

def withTable (space : Directories) (dir index : Nat) (flags : BitVec 32) : Directories :=
  space.takeBlock.2.setEntry dir index (virtMmFrameSet (virtMmFlagSet (space.dirs dir index) flags)
    (space.blocks space.taken))

theorem mapTable_new (missing : ¬pageIsEnabled (space.dirs dir index) = true) (below : index < 1023) :
    space.virtMmMapTable dir index flags =
      if (withTable space dir index flags).Shown index then
        some { withTable space dir index flags with
          words := Function.update space.words (frameNumber ((withTable space dir index flags).entry index)) fun _ =>
            0 }
      else none := by
  rw [Directories.virtMmMapTable, if_neg missing]
  have other := Nat.ne_of_lt below
  simp only [Directories.clearTable, if_neg other]
  rfl

theorem withTable_other (other : dir ≠ space.active) (i : Nat) : (withTable space dir index flags).entry i =
    space.entry i :=
  congrFun (show (withTable space dir index flags).dirs space.active = space.dirs space.active from
    Function.update_of_ne (Ne.symm other) _ _) i

def tableEntry (space : Directories) (flags : BitVec 32) : BitVec 32 := virtMmFrameSet flags (space.blocks space.taken)

theorem withTable_active (zero : space.entry index = 0) (i : Nat) :
    (withTable space space.active index flags).entry i = if i =
    index then tableEntry space flags else space.entry i := by
  have same : virtMmFlagSet (space.dirs space.active index) flags = flags := by
    have here : space.dirs space.active index = 0 := zero
    simp [here, virtMmFlagSet]
  have self : (withTable space space.active index flags).dirs space.active =
      Function.update (space.dirs space.active) index (tableEntry space flags) := by
    rw [withTable, same]
    exact Function.update_self _ _ _
  have entry : (withTable space space.active index flags).entry i =
      (withTable space space.active index flags).dirs space.active i := rfl
  rw [entry, self, Function.update_apply]
  rfl

theorem tableEntry_enabled (present : pageIsEnabled flags = true) : pageIsEnabled (tableEntry space flags) = true :=
  frameSet_enabled present

theorem tableEntry_frame (last : flags.getLsbD 31 = false) : frameNumber (tableEntry space flags) =
    frameNumber (space.blocks space.taken) := by
  refine frameSet_frame.mpr fun set => ?_
  rw [last] at set
  cases set

theorem newTable_sound (sound : Sound held limit before) (low : index < 1023)
    (present : pageIsEnabled flags = true) (last : flags.getLsbD 31 = false)
    (entries : ∀ i, after.entry i = if i = index then tableEntry before flags else before.entry i)
    (blocks : after.blocks = before.blocks) (taken : after.taken = before.taken + 1) (left : before.taken < limit) :
    Sound held limit after := by
  have fresh : frameNumber (tableEntry before flags) = frameNumber (before.blocks before.taken) := tableEntry_frame last
  have enabled : pageIsEnabled (tableEntry before flags) = true := tableEntry_enabled present
  have self : after.entry index = tableEntry before flags := (entries index).trans (if_pos rfl)
  have kept (i : Nat) (other : i ≠ index) : after.entry i = before.entry i := (entries i).trans (if_neg other)
  have tables (frame : Nat) (shown : KernelTable after frame) :
      KernelTable before frame ∨ frame = frameNumber (before.blocks before.taken) := by
    obtain ⟨i, above, below, there, same⟩ := shown
    by_cases new : i = index
    · rw [new, self, fresh] at same
      exact .inr same.symm
    · rw [kept i new] at there same
      exact .inl ⟨i, above, below, there, same⟩
  have new_frame (i : Nat) (above : 768 ≤ i) (below : i < 1023) (there : pageIsEnabled (before.entry i) = true) :
      frameNumber (before.entry i) ≠ frameNumber (tableEntry before flags) := by
    intro same
    exact sound.unshown before.taken le_rfl left ⟨i, above, below, there, same.trans fresh⟩
  refine ⟨?_, fun i above below missing => ?_, fun i above below j higher lower one other same => ?_,
    fun frame shown => ?_,
    fun n more less => ?_, fun n more less shown => ?_, fun m more less n most least => ?_⟩
  · rw [kept 1023 (Nat.ne_of_gt low)]
    exact sound.window
  · by_cases new : i = index
    · rw [new, self] at missing
      exact absurd enabled missing
    · rw [kept i new] at missing ⊢
      exact sound.clear i above below missing
  · by_cases new : i = index
    · by_cases newer : j = index
      · exact new.trans newer.symm
      · rw [new, self, kept j newer] at same
        rw [kept j newer] at other
        exact absurd same.symm (new_frame j higher lower other)
    · rw [kept i new] at one same
      by_cases newer : j = index
      · rw [newer, self] at same
        exact absurd same (new_frame i above below one)
      · rw [kept j newer] at other same
        exact sound.distinct i above below j higher lower one other same
  · cases tables frame shown with
    | inl old => exact sound.apart frame old
    | inr new => exact new ▸ sound.unheld before.taken le_rfl left
  · rw [blocks]
    exact sound.unheld n (by omega) less
  · rw [blocks] at shown
    cases tables _ shown with
    | inl old => exact sound.unshown n (by omega) less old
    | inr new =>
      have same := sound.once n (by omega) less before.taken le_rfl left new
      omega
  · rw [blocks]
    exact sound.once m (by omega) less n (by omega) least

theorem mapTable_made (sound : Sound held limit space) (high : 768 ≤ index) (low : index < 1023)
    (missing : ¬pageIsEnabled (space.entry index) = true) (left : space.taken < limit)
    (present : pageIsEnabled flags = true)
    (last : flags.getLsbD 31 = false) :
    ∃ after, space.virtMmMapTable space.active index flags = some after ∧ Sound held limit after ∧
      Passes held space after ∧
      (∀ i, after.entry i = if i = index then tableEntry space flags else space.entry i) ∧
      (∀ other, other ≠ space.active → after.dirs other = space.dirs other) ∧
      after.words = Function.update space.words (frameNumber (space.blocks space.taken)) (fun _ => 0) ∧
      after.taken = space.taken + 1 ∧ after.heapCurrent = space.heapCurrent ∧ after.table = space.table := by
  have entries (i : Nat) : (withTable space space.active index flags).entry i =
      if i = index then tableEntry space flags else space.entry i :=
        withTable_active (sound.clear index high low missing) i
  have shown : (withTable space space.active index flags).Shown index := by
    refine ⟨?_, ?_⟩
    · rw [entries, if_neg (Nat.ne_of_gt low)]
      exact sound.window
    · rw [entries, if_pos rfl]
      exact tableEntry_enabled present
  have self : frameNumber ((withTable space space.active index flags).entry index) =
    frameNumber (space.blocks space.taken) := by
    rw [entries, if_pos rfl, tableEntry_frame last]
  refine ⟨_, (mapTable_new missing low).trans (if_pos shown),
    newTable_sound sound low present last entries rfl rfl left,
    ⟨rfl, rfl, rfl, Nat.le_succ _, fun i user => ?_, fun frame holds => ?_⟩, entries, fun other different => ?_, ?_,
      rfl, rfl, rfl⟩
  · have other : i ≠ index := by omega
    exact (entries i).trans (if_neg other)
  · have different : frame ≠ frameNumber (space.blocks space.taken) := fun same =>
      sound.unheld space.taken le_rfl left (same ▸ holds)
    simp only [self, Function.update_of_ne different]
  · exact Function.update_of_ne different _ _
  · simp only [self]

/-- Whatever directory the call is about, the active one stays sound. -/
theorem mapTable_passes (sound : Sound held limit space) (high : 768 ≤ index) (low : index < 1023)
    (present : pageIsEnabled flags = true)
    (last : flags.getLsbD 31 = false) (made : space.virtMmMapTable dir index flags = some after)
    (bounded : after.taken ≤ limit) :
    Sound held limit after ∧ Passes held space after := by
  by_cases there : pageIsEnabled (space.dirs dir index) = true
  · rw [Directories.virtMmMapTable, if_pos there] at made
    cases made
    exact ⟨sound, .refl held space⟩
  · by_cases own : dir = space.active
    · subst own
      have taken : after.taken = space.taken + 1 := by
        rw [mapTable_new there low] at made
        split at made
        · cases made
          rfl
        · cases made
      obtain ⟨result, ran, kept, passes, -⟩ := mapTable_made sound high low there (by omega) present last
      obtain rfl := Option.some.inj (ran.symm.trans made)
      exact ⟨kept, passes⟩
    · rw [mapTable_new there low] at made
      split at made
      next shown =>
        cases made
        have entries (i : Nat) : (withTable space dir index flags).entry i = space.entry i := withTable_other own i
        have enabled := shown.2
        rw [entries] at enabled ⊢
        refine ⟨sound.of_entries entries rfl (Nat.le_succ _), rfl, rfl, rfl, Nat.le_succ _, fun i _ => entries i,
          fun frame holds => ?_⟩
        have different : frame ≠ frameNumber (space.entry index) := fun same =>
          sound.table_free high low enabled (same ▸ holds)
        exact Function.update_of_ne different _ _
      next => cases made

theorem mapAddr_passes (sound : Sound held limit space) (inside : InKernel virtual)
    (present : pageIsEnabled flags = true)
    (last : flags.getLsbD 31 = false) (mapped : space.virtMmMapAddr dir physical virtual flags = some after)
    (bounded : after.taken ≤ limit) : Sound held limit after ∧ Passes held space after := by
  obtain ⟨high, low, -⟩ := inside.indices
  obtain ⟨middle, made, set⟩ := Option.bind_eq_some_iff.mp mapped
  split at set
  next shown =>
    cases set
    rw [setTableWord_eq low] at bounded ⊢
    obtain ⟨kept, passes⟩ := mapTable_passes sound high low present last made bounded
    exact ⟨setWord_sound kept, passes.trans (setWord_passes (kept.table_free high low shown.2))⟩
  next => cases set

/-! ### Scratch pages -/

/-- Nothing stands where the frame of a page would. -/
def Cleared (space : Directories) (virtual : Nat) : Prop :=
  pageIsEnabled (space.entry (pageDirIndex virtual)) = true →
    space.words (frameNumber (space.entry (pageDirIndex virtual))) (pageTblIndex virtual) = 0

def page (space : Directories) (virtual : Nat) : Option Nat := space.translate space.active virtual

theorem Cleared.of_page {other : Nat} (same : virtual / physMmBlock = other / physMmBlock)
    (cleared : Cleared space virtual) :
    Cleared space other := by
  rw [Cleared, ← (indices_page same).1, ← (indices_page same).2]
  exact cleared

/-- How many of some tables have to be made. -/
def lacking (tables : Finset Nat) (space : Directories) : Nat :=
  (tables.filter fun i => ¬pageIsEnabled (space.entry i) = true).card

structure Moves (touched held : Nat → Prop) (tables : Finset Nat) (before after : Directories) : Prop
    extends Passes held before after where
  frames : after.taken + lacking tables after = before.taken + lacking tables before
  others : ∀ dir, dir ≠ before.active → after.dirs dir = before.dirs dir
  entries : ∀ i, pageIsEnabled (before.entry i) = true → after.entry i = before.entry i
  pages : ∀ other, InKernel other → ¬touched (other / physMmBlock) →
    page after other = page before other ∧ (Cleared before other → Cleared after other)
  heapCurrent : after.heapCurrent = before.heapCurrent
  table : after.table = before.table

theorem page_kernel (low : pageDirIndex virtual < 1023) : page space virtual =
    if pageIsEnabled (space.entry (pageDirIndex virtual)) = true then
      lookup (space.words (frameNumber (space.entry (pageDirIndex virtual))) (pageTblIndex virtual))
    else none := by
  rw [page, Directories.translate, if_neg (Nat.ne_of_lt low)]
  rfl

theorem Cleared.unmapped (cleared : Cleared space virtual) (low : pageDirIndex virtual < 1023) :
    page space virtual = none := by
  rw [page_kernel low]
  split
  next enabled =>
    rw [cleared enabled]
    rfl
  next => rfl

theorem lacking_same (entries : ∀ i, after.entry i = before.entry i) : lacking tables after =
    lacking tables before := by
  simp only [lacking, entries]

theorem lacking_made (member : index ∈ tables) (absent : ¬pageIsEnabled (before.entry index) = true)
    (made : pageIsEnabled (after.entry index) = true) (others : ∀ i, i ≠ index → after.entry i = before.entry i) :
    lacking tables after + 1 = lacking tables before := by
  have same : (tables.filter fun i => ¬pageIsEnabled (after.entry i) = true) =
      (tables.filter fun i => ¬pageIsEnabled (before.entry i) = true).erase index := by
    ext i
    rw [Finset.mem_erase, Finset.mem_filter, Finset.mem_filter]
    by_cases here : i = index
    · simp [here, made]
    · rw [others i here]
      simp [here]
  rw [lacking, same]
  exact Finset.card_erase_add_one (Finset.mem_filter.mpr ⟨member, absent⟩)

theorem Moves.trans {touched : Nat → Prop} (first : Moves touched held tables before middle)
    (second : Moves touched held tables middle after) :
    Moves touched held tables before after := by
  refine ⟨first.toPasses.trans second.toPasses, second.frames.trans first.frames, fun dir other => ?_,
    fun i enabled => ?_, fun other inside apart => ?_,
    second.heapCurrent.trans first.heapCurrent, second.table.trans first.table⟩
  · exact (second.others dir (first.active ▸ other)).trans (first.others dir other)
  · have same := first.entries i enabled
    rw [← same] at enabled
    exact (second.entries i enabled).trans same
  · obtain ⟨one, clear⟩ := first.pages other inside apart
    obtain ⟨two, clearer⟩ := second.pages other inside apart
    exact ⟨two.trans one, fun cleared => clearer (clear cleared)⟩

theorem Moves.mono {touched more kept : Nat → Prop} (moves : Moves touched held tables before after)
    (pages : ∀ page, touched page → more page)
    (frames : ∀ frame, kept frame → held frame) : Moves more kept tables before after := by
  refine ⟨⟨moves.count, moves.active, moves.blocks, moves.taken, moves.user, fun frame holds =>
    moves.words frame (frames frame holds)⟩,
    moves.frames, moves.others, moves.entries, fun other inside apart => ?_, moves.heapCurrent, moves.table⟩
  exact moves.pages other inside fun touches => apart (pages _ touches)

theorem setWord_scratches (sound : Sound held limit space) (inside : InKernel virtual)
    (enabled : pageIsEnabled (space.entry (pageDirIndex virtual)) = true) {after : Directories}
    (set : after = space.setWord (frameNumber (space.entry (pageDirIndex virtual))) (pageTblIndex virtual) word) :
    Moves (· = virtual / physMmBlock) held tables space after ∧ page after virtual =
      lookup word ∧ (word = 0 → Cleared after virtual) := by
  obtain ⟨high, low, small⟩ := inside.indices
  have here : after.words (frameNumber (space.entry (pageDirIndex virtual))) (pageTblIndex virtual) = word := by
    rw [set]
    simp only [Directories.setWord, Function.update_self]
  have same (i : Nat) : after.entry i = space.entry i := by
    rw [set]
    rfl
  have there (other : Nat) (within : InKernel other) (apart : other / physMmBlock ≠ virtual / physMmBlock)
      (shown : pageIsEnabled (space.entry (pageDirIndex other)) = true) :
      after.words (frameNumber (space.entry (pageDirIndex other))) (pageTblIndex other) =
        space.words (frameNumber (space.entry (pageDirIndex other))) (pageTblIndex other) := by
    obtain ⟨above, below, bound⟩ := within.indices
    rw [set]
    simp only [Directories.setWord]
    by_cases frames : frameNumber (space.entry (pageDirIndex other)) = frameNumber (space.entry (pageDirIndex virtual))
    · have index := sound.distinct _ above below _ high low shown enabled frames
      have different : pageTblIndex other ≠ pageTblIndex virtual := fun tbl => apart (page_eq bound small index tbl)
      rw [frames, Function.update_self, Function.update_of_ne different]
    · rw [Function.update_of_ne frames]
  have passes : Passes held space after := set ▸ setWord_passes (sound.table_free high low enabled)
  have taken : after.taken = space.taken := by
    rw [set]
    rfl
  refine ⟨⟨passes, by rw [taken, lacking_same same], fun _ _ => by rw [set]; rfl, fun i _ => same i,
    fun other within apart => ?_, by rw [set]; rfl, by rw [set]; rfl⟩,
    ?_, fun zero shown => ?_⟩
  · obtain ⟨-, below, -⟩ := within.indices
    refine ⟨?_, fun cleared shown => ?_⟩
    · rw [page_kernel below, page_kernel below, same]
      split
      next shown => rw [there other within apart shown]
      next => rfl
    · rw [same] at shown ⊢
      rw [there other within apart shown]
      exact cleared shown
  · rw [page_kernel low, same, if_pos enabled, here]
  · rw [same] at shown ⊢
    rw [here]
    exact zero

/-- A table made for a page, if it is missing, is clear. -/
theorem mapTable_scratches (sound : Sound held limit space) (inside : InKernel virtual)
    (member : pageDirIndex virtual ∈ tables)
    (left : space.taken + lacking tables space ≤ limit) (present : pageIsEnabled flags = true)
    (last : flags.getLsbD 31 = false) :
    ∃ after, space.virtMmMapTable space.active (pageDirIndex virtual) flags = some after ∧ Sound held limit after ∧
      Moves (fun _ => False) held tables space after ∧ pageIsEnabled (after.entry (pageDirIndex virtual)) = true ∧
      (Cleared space virtual → Cleared after virtual) := by
  obtain ⟨high, low, -⟩ := inside.indices
  by_cases there : pageIsEnabled (space.entry (pageDirIndex virtual)) = true
  · have made : space.virtMmMapTable space.active (pageDirIndex virtual) flags = some space := if_pos there
    exact ⟨space, made, sound, ⟨.refl held space, rfl, fun _ _ => rfl, fun _ _ => rfl, fun _ _ _ => ⟨rfl, id⟩, rfl,
      rfl⟩, there, id⟩
  · have some : 0 < lacking tables space := Finset.card_pos.mpr ⟨_, Finset.mem_filter.mpr ⟨member, there⟩⟩
    obtain ⟨after, made, kept, passes, entries, others, words, taken, heap, table⟩ :=
      mapTable_made sound high low there (by omega) present last
    have self : after.entry (pageDirIndex virtual) = tableEntry space flags := (entries _).trans (if_pos rfl)
    have frame : frameNumber (after.entry (pageDirIndex virtual)) = frameNumber (space.blocks space.taken) := by
      rw [self, tableEntry_frame last]
    have enabled : pageIsEnabled (after.entry (pageDirIndex virtual)) = true := by
      rw [self]
      exact tableEntry_enabled present
    have zero (other : Nat) (index : pageDirIndex other = pageDirIndex virtual) :
        after.words (frameNumber (after.entry (pageDirIndex other))) (pageTblIndex other) = 0 := by
      rw [index, frame, words, Function.update_self]
    have rest := lacking_made member there enabled fun i other => (entries i).trans (if_neg other)
    refine ⟨after, made, kept, ⟨passes, by omega, others, fun i shown => ?_, fun other within _ => ?_, heap, table⟩,
      enabled,
      fun _ _ => zero virtual rfl⟩
    · have different : i ≠ pageDirIndex virtual := fun same => there (same ▸ shown)
      exact (entries i).trans (if_neg different)
    · obtain ⟨above, below, -⟩ := within.indices
      by_cases index : pageDirIndex other = pageDirIndex virtual
      · refine ⟨?_, fun _ _ => zero other index⟩
        rw [page_kernel below, page_kernel below, zero other index, index, if_pos enabled, if_neg there]
        rfl
      · have same : after.entry (pageDirIndex other) =
          space.entry (pageDirIndex other) := (entries _).trans (if_neg index)
        have kept (shown : pageIsEnabled (space.entry (pageDirIndex other)) = true) :
            after.words (frameNumber (space.entry (pageDirIndex other))) =
              space.words (frameNumber (space.entry (pageDirIndex other))) := by
          rw [words]
          refine Function.update_of_ne (fun new => ?_) _ _
          exact sound.unshown space.taken le_rfl (by omega) ⟨_, above, below, shown, new⟩
        refine ⟨?_, fun cleared shown => ?_⟩
        · rw [page_kernel below, page_kernel below, same]
          split
          next shown => rw [kept shown]
          next => rfl
        · rw [same] at shown ⊢
          rw [kept shown]
          exact cleared shown

/-- A page is mapped where nothing stood. -/
theorem mapAddr_scratch (sound : Sound held limit space) (inside : InKernel virtual)
    (member : pageDirIndex virtual ∈ tables)
    (left : space.taken + lacking tables space ≤ limit) (cleared : Cleared space virtual) (physical : BitVec 32)
    (present : pageIsEnabled flags = true) (last : flags.getLsbD 31 = false) :
    ∃ after, space.virtMmMapAddr space.active physical virtual flags = some after ∧ Sound held limit after ∧
      Moves (· = virtual / physMmBlock) held tables space after ∧ page after virtual = some (frameNumber physical) := by
  obtain ⟨-, low, -⟩ := inside.indices
  obtain ⟨middle, made, kept, moves, enabled, clear⟩ := mapTable_scratches sound inside member left present last
  have zero := clear cleared enabled
  have shown : middle.Shown (pageDirIndex virtual) := ⟨kept.window, enabled⟩
  have word : middle.tableWord (pageDirIndex virtual) (pageTblIndex virtual) = 0 := by
    rw [Directories.tableWord, if_neg (Nat.ne_of_lt low), zero]
  have flagged : virtMmFlagSet 0 flags = flags := by simp [virtMmFlagSet]
  obtain ⟨after, set⟩ : ∃ after, after = middle.setWord (frameNumber (middle.entry (pageDirIndex virtual)))
    (pageTblIndex virtual)
      (virtMmFrameSet flags physical) := ⟨_, rfl⟩
  obtain ⟨writes, mapped, -⟩ := setWord_scratches kept inside enabled set
  refine ⟨after, ?_, ?_, (moves.mono (fun _ => False.elim) fun _ => id).trans writes, ?_⟩
  · rw [Directories.virtMmMapAddr, made, Option.bind_some, if_pos shown, word]
    dsimp only
    rw [flagged, setTableWord_eq low, set]
  · rw [set]
    exact setWord_sound kept
  · rw [mapped, lookup, if_pos (frameSet_enabled present)]
    refine congrArg some (frameSet_frame.mpr fun high => ?_)
    rw [last] at high
    cases high

/-- A page that is mapped is taken out again. -/
theorem addrUnmap_scratch (tables : Finset Nat) (sound : Sound held limit space) (inside : InKernel virtual)
    (mapped : (page space virtual).isSome) :
    ∃ after, space.virtMmAddrUnmap space.active virtual = some after ∧ Sound held limit after ∧
      Moves (· = virtual / physMmBlock) held tables space after ∧ Cleared after virtual := by
  obtain ⟨high, low, -⟩ := inside.indices
  rw [page_kernel low] at mapped
  have enabled : pageIsEnabled (space.entry (pageDirIndex virtual)) = true := by
    by_contra missing
    rw [if_neg missing] at mapped
    cases mapped
  have shown : space.Shown (pageDirIndex virtual) := ⟨sound.window, enabled⟩
  have word : space.tableWord (pageDirIndex virtual) (pageTblIndex virtual) =
      space.words (frameNumber (space.entry (pageDirIndex virtual))) (pageTblIndex virtual) := if_neg (Nat.ne_of_lt low)
  have present : pageIsEnabled (space.tableWord (pageDirIndex virtual) (pageTblIndex virtual)) = true := by
    rw [if_pos enabled, ← word, lookup] at mapped
    by_contra missing
    rw [if_neg missing] at mapped
    cases mapped
  have there : pageIsEnabled (space.dirs space.active (pageDirIndex virtual)) = true := enabled
  obtain ⟨after, set⟩ : ∃ after, after = space.setWord (frameNumber (space.entry (pageDirIndex virtual)))
    (pageTblIndex virtual) 0 :=
    ⟨_, rfl⟩
  obtain ⟨writes, -, cleared⟩ := setWord_scratches sound inside enabled set
  refine ⟨after, ?_, ?_, writes, cleared rfl⟩
  · rw [Directories.virtMmAddrUnmap, if_pos there, if_pos shown, if_pos present, setTableWord_eq low, set]
  · rw [set]
    exact setWord_sound sound

/-! ### Contents of pages -/

def written (space : Directories) (frame : Nat) (content : Nat → BitVec 32) : Directories :=
  { space with words := Function.update space.words frame content }

section Written

variable {content : Nat → BitVec 32}

theorem written_self : (written space frame content).words frame = content := Function.update_self _ _ _

theorem written_other {other : Nat} (different : other ≠ frame) : (written space frame content).words other =
    space.words other :=
  Function.update_of_ne different _ _

theorem written_sound (sound : Sound held limit space) : Sound held limit (written space frame content) :=
  sound.of_entries (fun _ => rfl) rfl le_rfl

theorem written_moves (free : ¬KernelTable space frame) {kept : Nat → Prop} (unkept : ¬kept frame) :
    Moves (fun _ => False) kept tables space (written space frame content) := by
  have same {index : Nat} (high : 768 ≤ index) (low : index < 1023)
    (enabled : pageIsEnabled (space.entry index) = true) :
      (written space frame content).words (frameNumber (space.entry index)) =
        space.words (frameNumber (space.entry index)) :=
    written_other fun table => free ⟨index, high, low, enabled, table⟩
  refine ⟨⟨rfl, rfl, rfl, le_rfl, fun _ _ => rfl, fun other holds => ?_⟩, rfl, fun _ _ => rfl, fun _ _ => rfl,
    fun other inside _ => ⟨?_, fun cleared shown => ?_⟩, rfl, rfl⟩
  · exact written_other fun here => unkept (here ▸ holds)
  · obtain ⟨high, low, -⟩ := inside.indices
    rw [page_kernel low, page_kernel low]
    have entry : (written space frame content).entry (pageDirIndex other) = space.entry (pageDirIndex other) := rfl
    rw [entry]
    split
    next enabled => rw [same high low enabled]
    next => rfl
  · obtain ⟨high, low, -⟩ := inside.indices
    have entry : (written space frame content).entry (pageDirIndex other) = space.entry (pageDirIndex other) := rfl
    rw [entry] at shown ⊢
    rw [same high low shown]
    exact cleared shown

theorem page_word {i : Nat} (aligned : virtual % physMmBlock = 0) (bound : i < 1024) :
    page space (virtual + 4 * i) = page space virtual ∧ (virtual + 4 * i) / 4 % 1024 = i := by
  unfold physMmBlock at aligned
  have same : (virtual + 4 * i) / physMmBlock = virtual / physMmBlock := by
    unfold physMmBlock
    omega
  have indices := indices_page same
  refine ⟨?_, by omega⟩
  rw [page, page, Directories.translate, Directories.translate, indices.1, indices.2]

theorem store_word {i : Nat} (aligned : virtual % physMmBlock = 0) (bound : i < 1024)
    (mapped : page space virtual = some frame) :
    space.store (virtual + 4 * i) word = some (written space frame (Function.update (space.words frame) i word)) := by
  obtain ⟨same, index⟩ : page space (virtual + 4 * i) = page space virtual ∧ (virtual + 4 * i) / 4 % 1024 = i :=
    page_word aligned bound
  have there : space.translate space.active (virtual + 4 * i) = some frame := same.trans mapped
  rw [Directories.store, there, Option.map_some, index]
  rfl

theorem fold_written {body : Directories → Nat → Option Directories} {value : Nat → BitVec 32}
    (each : ∀ content i, i < 1024 →
      body (written space frame content) i = some (written space frame (Function.update content i (value i))))
    {count : Nat} (bound : count ≤ 1024) :
    (List.range count).foldlM body space =
      some (written space frame fun i => if i < count then value i else space.words frame i) := by
  induction count with
  | zero =>
    have same : written space frame (fun i => if i < 0 then value i else space.words frame i) = space := by
      simp only [Nat.not_lt_zero, if_false]
      rw [written, Function.update_eq_self]
    rw [same]
    rfl
  | succ count ih =>
    rw [List.range_succ, List.foldlM_append, ih (Nat.le_of_succ_le bound)]
    simp only [Option.bind_eq_bind, Option.bind_some, List.foldlM_cons, List.foldlM_nil, each _ count bound]
    refine congrArg (fun content => some (written space frame content)) (funext fun i => ?_)
    rw [Function.update_apply]
    by_cases here : i = count
    · rw [if_pos here, if_pos (by omega), here]
    · have less : i < count + 1 ↔ i < count := by omega
      rw [if_neg here]
      simp only [less]

end Written

theorem clearPage_written (inside : InKernel virtual) (aligned : virtual % physMmBlock = 0)
    (mapped : page space virtual = some frame)
    (free : ¬KernelTable space frame) :
    space.clearPage virtual = some (written space frame fun i => if i < 1024 then 0 else space.words frame i) := by
  refine fold_written (fun content i bound => ?_) le_rfl
  have still : Moves (fun _ => False) (fun _ => False) ∅ space (written space frame content) := written_moves free id
  have there := (still.pages virtual inside id).1.trans mapped
  rw [store_word aligned bound there, written_self]
  exact congrArg some (by rw [written, written, written, Function.update_idem])

theorem copyPage_written {source sourceFrame : Nat} (inside : InKernel virtual) (aligned : virtual % physMmBlock = 0)
    (mapped : page space virtual = some frame) (free : ¬KernelTable space frame) (within : InKernel source)
    (sourceAligned : source % physMmBlock = 0) (sourceMapped : page space source = some sourceFrame) (apart : sourceFrame ≠ frame) :
    space.copyPage virtual source =
      some (written space frame fun i => if i < 1024 then space.words sourceFrame i else space.words frame i) := by
  refine fold_written (fun content i bound => ?_) le_rfl
  have moves : Moves (fun _ => False) (fun _ => False) ∅ space (written space frame content) := written_moves free id
  have there := (moves.pages virtual inside id).1.trans mapped
  obtain ⟨same, index⟩ : page (written space frame content) (source + 4 * i) =
    page (written space frame content) source ∧
      (source + 4 * i) / 4 % 1024 = i := page_word sourceAligned bound
  have here : (written space frame content).translate (written space frame content).active (source + 4 * i) =
    some sourceFrame :=
    same.trans ((moves.pages source within id).1.trans sourceMapped)
  have loaded : (written space frame content).load (source + 4 * i) = some (space.words sourceFrame i) := by
    rw [Directories.load, here, Option.map_some, index, written_other apart]
  rw [loaded, Option.bind_some, store_word aligned bound there, written_self]
  exact congrArg some (by rw [written, written, written, Function.update_idem])

end YuzuOS.Proofs.ScratchPages
