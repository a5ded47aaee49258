import YuzuOS.Kernel.Frames
import YuzuOS.Proofs.PageTables

/-! A page mapped on the answers of the allocator: the tables stay in order, a missing one is
made of the next answer, and the other pages keep their frames. -/

namespace YuzuOS.Proofs.FramePages
open YuzuOS.Kernel YuzuOS.Proofs.PageTables

def Next (space : MappedSpace) (count i : Nat) : Prop := space.taken ≤ i ∧ i < space.taken + count

/-- The page tables are in order, and the blocks to come are in no use as tables. -/
structure Stocked (space : MappedSpace) (count : Nat) : Prop where
  tables : Proper space.paging
  clear : ∀ i < 1023, ¬pageIsEnabled (space.paging.entry i) = true → space.paging.entry i = 0
  fresh : ∀ i, Next space count i → Fresh space.paging (frameNumber (space.blocks i))
  distinct : ∀ i, Next space count i → ∀ j, Next space count j →
    frameNumber (space.blocks i) = frameNumber (space.blocks j) → i = j

variable {space next : MappedSpace} {virtual other count : Nat} {physical flags : BitVec 32}

/-- The pages that were mapped stay in their frames. -/
def Keeps (space after : MappedSpace) (pages : Nat → Prop) : Prop :=
  ∀ virtual < 2 ^ 32, pages virtual → ∀ frame, space.paging.translate virtual = some frame →
    after.paging.translate virtual = some frame

theorem tableFrame (stocked : Stocked space count) (below : virtual < pageTblBase) (low : flags.getLsbD 31 = false)
    (absent : ¬pageIsEnabled (space.paging.entry (pageDirIndex virtual)) = true) (block : BitVec 32) :
    frameNumber (virtMmFrameSet (virtMmFlagSet (space.paging.entry (pageDirIndex virtual)) flags) block) =
      frameNumber block := by
  rw [stocked.clear _ (below_index below) absent]
  refine frameSet_frame.mpr fun high => ?_
  rw [virtMmFlagSet, BitVec.getLsbD_or, low] at high
  cases high

/-- A page that was mapped is no page of the window that comes to show a new table. -/
theorem other_of_mapped {paging : Paging} {frame : Nat} (proper : Proper paging) (inside : other < 2 ^ 32)
    (apart : other / physMmBlock ≠ virtual / physMmBlock) (mapped : paging.translate other = some frame) :
    Other paging virtual other := by
  refine ⟨inside, apart, ?_⟩
  by_cases there : pageIsEnabled (paging.entry (pageDirIndex virtual)) = true
  · exact .inl there
  · refine .inr fun window => there ?_
    rw [translate_eq, window.1, if_pos proper.enabled, proper.itself, window.2] at mapped
    unfold lookup at mapped
    split at mapped
    next enabled => exact enabled
    next => cases mapped

theorem enabled_of_mapped {paging : Paging} {frame : Nat} (mapped : paging.translate virtual = some frame) :
    pageIsEnabled (paging.entry (pageDirIndex virtual)) = true := by
  rw [translate_eq] at mapped
  by_contra absent
  rw [if_neg absent] at mapped
  cases mapped

/-! ### One page -/

def newTables (space : MappedSpace) (virtual : Nat) : Nat :=
  if pageIsEnabled (space.paging.entry (pageDirIndex virtual)) then 0 else 1

/-- What `virt_mm_map_addr` leaves. The old entry of the page keeps its last bit. -/
structure PageMapped (physical flags : BitVec 32) (virtual : Nat) (space after : MappedSpace) : Prop where
  blocks : after.blocks = space.blocks
  mm : after.mm = space.mm
  taken : after.taken = space.taken + newTables space virtual
  entry : NewEntry (space.blocks space.taken) flags virtual space.paging after.paging
  page : after.paging.translate virtual =
    some (frameNumber (virtMmFrameSet (virtMmFlagSet (oldEntry space.paging virtual) flags) physical))
  others : ∀ other, Other space.paging virtual other → after.paging.translate other = space.paging.translate other

theorem mapAddr_taken (ran : space.mapAddr physical virtual flags = some next) :
    next.blocks = space.blocks ∧ next.mm = space.mm ∧ next.taken = space.taken + newTables space virtual := by
  obtain ⟨paging, -, rfl⟩ := Option.map_eq_some_iff.mp ran
  exact ⟨rfl, rfl, rfl⟩

theorem mapAddr_more (ran : space.mapAddr physical virtual flags = some next) : space.taken ≤ next.taken := by
  rw [(mapAddr_taken ran).2.2]
  exact Nat.le_add_right _ _

theorem mapAddr_stocked (physical : BitVec 32) (stocked : Stocked space count) (below : virtual < pageTblBase)
    (present : pageIsEnabled flags = true) (low : flags.getLsbD 31 = false) (enough : newTables space virtual ≤ count) :
    ∃ after, space.mapAddr physical virtual flags = some after ∧ PageMapped physical flags virtual space after ∧
      Stocked after (count - newTables space virtual) := by
  -- a table is made of the next block
  have first (absent : ¬pageIsEnabled (space.paging.entry (pageDirIndex virtual)) = true) :
      Next space count space.taken ∧ newTables space virtual = 1 := by
    have one : newTables space virtual = 1 := if_neg absent
    exact ⟨⟨le_rfl, by omega⟩, one⟩
  have fresh : TableFresh space.paging (space.blocks space.taken) flags virtual := by
    intro absent
    rw [tableFrame stocked below low absent]
    exact stocked.fresh _ (first absent).1
  obtain ⟨paging, call, proper, new, page, others⟩ := mapAddr_spec physical stocked.tables below present fresh
  refine ⟨{ space with paging, taken := space.taken + newTables space virtual }, congrArg (Option.map _) call,
    ⟨rfl, rfl, rfl, new, page, others⟩, proper, ?_, ?_, ?_⟩
  · intro i small absent
    rcases new.entries i with same | ⟨-, -, made⟩
    · rw [same] at absent ⊢
      exact stocked.clear i small absent
    · rw [made] at absent
      exact absurd (frameSet_enabled (flagSet_enabled present)) absent
  all_goals
    have old {i : Nat} (later : space.taken + newTables space virtual ≤ i ∧
        i < space.taken + newTables space virtual + (count - newTables space virtual)) : Next space count i :=
      ⟨by omega, by omega⟩
  · intro i later
    have unused := stocked.fresh i (old later)
    refine ⟨fun same => unused.1 (same.trans new.dir), fun j small enabled => ?_⟩
    rcases new.entries j with same | ⟨-, absent, made⟩
    · rw [same] at enabled ⊢
      exact unused.2 j small enabled
    · rw [made, tableFrame stocked below low absent]
      intro again
      have index := stocked.distinct _ (first absent).1 i (old later) again
      have lower : space.taken + newTables space virtual ≤ i := later.1
      rw [(first absent).2] at lower
      omega
  · exact fun i later j last => stocked.distinct i (old later) j (old last)

theorem PageMapped.keeps (mapped : PageMapped physical flags virtual space next) (proper : Proper space.paging) :
    Keeps space next fun page => page / physMmBlock ≠ virtual / physMmBlock := by
  intro other inside apart frame held
  rw [← held]
  exact mapped.others other (other_of_mapped proper inside apart held)

theorem PageMapped.table (mapped : PageMapped physical flags virtual space next) {i : Nat}
    (enabled : pageIsEnabled (space.paging.entry i) = true) : next.paging.entry i = space.paging.entry i := by
  rcases mapped.entry.entries i with same | ⟨rfl, absent, -⟩
  · exact same
  · exact absurd enabled absent

theorem Stocked.skip (stocked : Stocked space (count + 1)) : Stocked { space with taken := space.taken + 1 } count := by
  have old {i : Nat} (later : space.taken + 1 ≤ i ∧ i < space.taken + 1 + count) : Next space (count + 1) i :=
    ⟨by omega, by omega⟩
  exact ⟨stocked.tables, stocked.clear, fun i later => stocked.fresh i (old later),
    fun i later j last => stocked.distinct i (old later) j (old last)⟩

theorem Stocked.areas (stocked : Stocked space count) (mm : ProcessMm) : Stocked { space with mm } count :=
  ⟨stocked.tables, stocked.clear, stocked.fresh, stocked.distinct⟩

theorem Stocked.fewer {less : Nat} (stocked : Stocked space count) (few : less ≤ count) : Stocked space less := by
  have old {i : Nat} (later : Next space less i) : Next space count i := ⟨later.1, later.2.trans_le (Nat.add_le_add_left few _)⟩
  exact ⟨stocked.tables, stocked.clear, fun i later => stocked.fresh i (old later),
    fun i later j last => stocked.distinct i (old later) j (old last)⟩

/-! ### The pages of a block -/

/-- The tables that may be missing from a page on. -/
def tablesFrom (space : MappedSpace) (virtual : Nat) : Nat := 1022 - pageDirIndex virtual + newTables space virtual

theorem tablesFrom_step (mapped : PageMapped physical flags virtual space next) (proper : Proper next.paging)
    (below : virtual < pageTblBase) (aligned : virtual % physMmBlock = 0) :
    tablesFrom next (virtual + physMmBlock) + newTables space virtual ≤ tablesFrom space virtual := by
  have here := enabled_of_mapped mapped.page
  have index : pageDirIndex (virtual + physMmBlock) = pageDirIndex virtual ∨
      pageDirIndex (virtual + physMmBlock) = pageDirIndex virtual + 1 := by
    unfold pageDirIndex physMmBlock
    unfold physMmBlock at aligned
    unfold pageTblBase at below
    omega
  have inside := below_index below
  unfold tablesFrom
  rcases index with same | onward
  · have none : newTables next (virtual + physMmBlock) = 0 := by
      rw [newTables, same, if_pos here]
    omega
  · by_cases last : pageDirIndex virtual = 1022
    · have none : newTables next (virtual + physMmBlock) = 0 := by
        rw [newTables, onward, last]
        exact if_pos proper.enabled
      omega
    · have few : newTables next (virtual + physMmBlock) ≤ 1 := by
        unfold newTables
        split <;> decide
      omega

/-- The frames of a block, as far as pages from `start` on are mapped to them. -/
def FramesGiven (block : BitVec 32) (start stop : Nat) : Prop :=
  ∀ k, start + physMmBlock * k < stop → frameNumber (block + BitVec.ofNat 32 (physMmBlock * k)) ≠ 0

theorem block_step (block : BitVec 32) (k : Nat) :
    block + BitVec.ofNat 32 (physMmBlock * (k + 1)) = block + 4096 + BitVec.ofNat 32 (physMmBlock * k) := by
  rw [Nat.mul_succ, Nat.add_comm (physMmBlock * k), BitVec.ofNat_add, ← BitVec.add_assoc]
  rfl

theorem FramesGiven.step {block : BitVec 32} {start stop : Nat} (given : FramesGiven block start stop) :
    FramesGiven (block + 4096) (start + physMmBlock) stop := by
  intro k inside
  have there := given (k + 1) (by rw [Nat.mul_succ]; omega)
  rwa [block_step] at there

/-- Setting a frame never clears a bit of it. -/
theorem frameSet_nonzero (entry : BitVec 32) (frame : frameNumber physical ≠ 0) :
    frameNumber (virtMmFrameSet entry physical) ≠ 0 := by
  intro zero
  have none : virtMmFrameSet entry physical >>> 12 = 0 := BitVec.eq_of_toNat_eq zero
  rw [virtMmFrameSet, BitVec.ushiftRight_or_distrib] at none
  exact frame (congrArg BitVec.toNat (BitVec.or_eq_zero_iff.mp none).2)

theorem mapFrames_more {stop turns final : Nat} (ran : space.mapFrames stop flags turns physical virtual = some (final, next)) :
    space.taken ≤ next.taken ∧ next.mm = space.mm := by
  induction turns generalizing space physical virtual with
  | zero => cases ran
  | succ turns ih =>
    rw [MappedSpace.mapFrames] at ran
    split at ran
    next =>
      obtain ⟨middle, mapped, rest⟩ := Option.bind_eq_some_iff.mp ran
      exact ⟨(mapAddr_more mapped).trans (ih rest).1, (ih rest).2.trans (mapAddr_taken mapped).2.1⟩
    next =>
      cases ran
      exact ⟨le_rfl, rfl⟩

theorem step_fits {stop : Nat} (inside : virtual < stop) (below : stop ≤ pageTblBase) :
    (virtual + physMmBlock) % 2 ^ 32 = virtual + physMmBlock := by
  unfold pageTblBase at below
  unfold physMmBlock
  omega

theorem mapFrames_stocked {stop turns : Nat} (stocked : Stocked space count) (tables : tablesFrom space virtual ≤ count)
    (aligned : virtual % physMmBlock = 0) (whole : stop % physMmBlock = 0) (below : stop ≤ pageTblBase)
    (present : pageIsEnabled flags = true) (low : flags.getLsbD 31 = false) (enough : stop ≤ virtual + turns * physMmBlock) :
    ∃ final after, space.mapFrames stop flags (turns + 1) physical virtual = some (final, after) ∧ after.mm = space.mm ∧
      (∀ place, virtual ≤ place → place < stop → after.paging.translate place ≠ none) ∧
      Keeps space after fun place => ¬(virtual ≤ place ∧ place < stop) := by
  induction turns generalizing space physical virtual count with
  | zero =>
    rw [Nat.zero_mul, Nat.add_zero] at enough
    refine ⟨virtual, space, if_neg (Nat.not_lt.mpr enough), rfl, fun place lower upper => ?_, fun _ _ _ _ mapped => mapped⟩
    exact absurd (lower.trans_lt upper) (Nat.not_lt.mpr enough)
  | succ turns ih =>
    by_cases more : virtual < stop
    · have room : newTables space virtual ≤ tablesFrom space virtual := Nat.le_add_left _ _
      obtain ⟨middle, call, mapped, stocked'⟩ :=
        mapAddr_stocked physical stocked (more.trans_le below) present low (room.trans tables)
      have fits := step_fits more below
      have fewer := tablesFrom_step mapped stocked'.tables (more.trans_le below) aligned
      rw [Nat.succ_mul, Nat.add_comm (turns * _), ← Nat.add_assoc] at enough
      have goes : ∃ final after, middle.mapFrames stop flags (turns + 1) (physical + 4096) (virtual + physMmBlock) =
          some (final, after) ∧ _ := ih stocked' (by omega) (by rw [Nat.add_mod_right, aligned]) enough
      obtain ⟨final, after, loop, mm, pages, others⟩ := goes
      refine ⟨final, after, ?_, mm.trans mapped.mm, fun place lower upper => ?_, fun place inside outside frame held => ?_⟩
      · rw [MappedSpace.mapFrames, if_pos more, call, Option.bind_some, fits, loop]
      · by_cases first : place < virtual + physMmBlock
        · have page : place / physMmBlock = virtual / physMmBlock := by
            unfold physMmBlock at *
            omega
          have here := (translate_page page).trans mapped.page
          rw [others place ((upper.trans_le below).trans (by decide)) (by omega) _ here]
          exact Option.some_ne_none _
        · exact pages place (Nat.not_lt.mp first) upper
      · refine others place inside (fun both => outside ⟨(Nat.le_add_right _ _).trans both.1, both.2⟩) frame ?_
        refine mapped.keeps stocked.tables place inside (fun page => outside ?_) frame held
        unfold physMmBlock at *
        omega
    · refine ⟨virtual, space, if_neg more, rfl, fun place lower upper => ?_, fun _ _ _ _ mapped => mapped⟩
      exact absurd (lower.trans_lt upper) more

end YuzuOS.Proofs.FramePages
