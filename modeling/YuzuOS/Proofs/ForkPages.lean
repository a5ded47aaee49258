import YuzuOS.Library.Run
import YuzuOS.Proofs.ScratchPages

/-! The pages of a child. Each page of the parent is copied through two scratch pages, and the table
of the child is filled through a third. -/

namespace YuzuOS.Proofs.ForkPages
open YuzuOS.Library YuzuOS.Kernel YuzuOS.Proofs.PageTables YuzuOS.Proofs.ScratchPages

variable {held : Nat → Prop} {limit : Nat} {tables : Finset Nat} {space before middle after : Directories}
  {virtual virtualTbl tableFrame : Nat} {word : BitVec 32}

theorem userFlags_present : pageIsEnabled pageTblFlags = true := by decide

theorem userFlags_last : pageTblFlags.getLsbD 31 = false := by decide

theorem flagged_enabled (word : BitVec 32) : pageIsEnabled (word ||| pageTblFlags) = true :=
  flagSet_enabled userFlags_present

theorem flagged_frame (word : BitVec 32) : frameNumber (word ||| pageTblFlags) = frameNumber word := by
  have flags : pageTblFlags >>> 12 = 0#32 := by decide
  rw [frameNumber, frameNumber, BitVec.ushiftRight_or_distrib, flags, BitVec.or_zero]

def nextFrame (space : Directories) : Nat := frameNumber (space.blocks space.taken)

/-- With the next block taken and two scratch pages passed. -/
def copying (space : Directories) : Directories :=
  { space with heapCurrent := space.heapCurrent + physMmBlock + physMmBlock, taken := space.taken + 1 }

theorem forkCopy_copies (iTbl : Fin 1024) (sound : Sound held limit space)
    (left : space.taken + 1 + lacking tables space ≤ limit)
    (member : pageDirIndex space.heapCurrent ∈ tables)
    (memberNext : pageDirIndex (space.heapCurrent + physMmBlock) ∈ tables)
    (home : InKernel virtualTbl)
    (homeAligned : virtualTbl % physMmBlock = 0) (homeMapped : page space virtualTbl = some tableFrame)
    (holds : held tableFrame)
    (aligned : space.heapCurrent % physMmBlock = 0) (lower : kernelVirtAddr ≤ space.heapCurrent)
    (upper : space.heapCurrent + physMmBlock + physMmBlock ≤ pageTblBase)
    (cleared : Cleared space space.heapCurrent) (clearedNext : Cleared space (space.heapCurrent + physMmBlock))
    (apart : virtualTbl / physMmBlock ≠ space.heapCurrent / physMmBlock)
    (apartNext : virtualTbl / physMmBlock ≠ (space.heapCurrent + physMmBlock) / physMmBlock)
    (source : held (frameNumber word)) :
    ∃ after, space.forkCopy virtualTbl iTbl word = some after ∧
      Sound (fun frame => held frame ∨ frame = nextFrame space) limit after ∧
      Moves (fun page => page = space.heapCurrent / physMmBlock ∨
        page = (space.heapCurrent + physMmBlock) / physMmBlock)
        (fun frame => held frame ∧ frame ≠ tableFrame) tables (copying space) after ∧
      Cleared after space.heapCurrent ∧ Cleared after (space.heapCurrent + physMmBlock) ∧
      (∀ i < 1024, after.words (nextFrame space) i = space.words (frameNumber word) i) ∧
      after.words tableFrame =
        Function.update (space.words tableFrame) iTbl (space.blocks space.taken ||| pageTblFlags) := by
  have fits : space.heapCurrent + physMmBlock + physMmBlock < 2 ^ 32 := upper.trans_lt (by decide)
  have inside : InKernel space.heapCurrent := ⟨lower, by unfold physMmBlock at upper; omega⟩
  have insideNext : InKernel (space.heapCurrent + physMmBlock) :=
    ⟨lower.trans (Nat.le_add_right _ _), by unfold physMmBlock at upper ⊢; omega⟩
  have alignedNext : (space.heapCurrent + physMmBlock) % physMmBlock = 0 := by rw [Nat.add_mod_right, aligned]
  have different : (space.heapCurrent + physMmBlock) / physMmBlock ≠ space.heapCurrent / physMmBlock := by
    rw [Nat.add_div_right _ (by decide)]
    exact Nat.succ_ne_self _
  have start : Sound (fun frame => held frame ∨ frame = nextFrame space) limit (copying space) :=
    sound.takes (fun _ => rfl) rfl rfl (by omega)
  have fresh : ¬held (nextFrame space) := sound.unheld space.taken le_rfl (by omega)
  have sourceApart : frameNumber word ≠ nextFrame space := fun same => fresh (same ▸ source)
  have homeApart : tableFrame ≠ nextFrame space := fun same => fresh (same ▸ holds)
  -- both scratch pages are mapped
  obtain ⟨one, mapped, sound₁, moves₁, here₁⟩ := mapAddr_scratch start inside member left
    (show Cleared (copying space) _ from cleared) word userFlags_present userFlags_last
  obtain ⟨two, forked, sound₂, moves₂, here₂⟩ :=
    mapAddr_scratch sound₁ insideNext memberNext (moves₁.frames.trans_le left)
    ((moves₁.pages _ insideNext different).2 clearedNext) (space.blocks space.taken) userFlags_present userFlags_last
  have still₂ : page two space.heapCurrent =
    some (frameNumber word) := (moves₂.pages _ inside different.symm).1.trans here₁
  have free₂ : ¬KernelTable two (nextFrame space) := fun shown => sound₂.apart _ shown (.inr rfl)
  -- the copy
  have copied := copyPage_written insideNext alignedNext here₂ free₂ inside aligned still₂ sourceApart
  obtain ⟨three, set₃⟩ : ∃ three, three = written two (nextFrame space) fun i =>
      if i < 1024 then two.words (frameNumber word) i else two.words (nextFrame space) i := ⟨_, rfl⟩
  rw [← nextFrame, ← set₃] at copied
  have sound₃ : Sound (fun frame => held frame ∨ frame = nextFrame space) limit three := set₃ ▸ written_sound sound₂
  have moves₃ : Moves (fun _ => False) held tables two three := set₃ ▸ written_moves free₂ fresh
  -- both are unmapped
  have here₃ : page three space.heapCurrent = some (frameNumber word) := (moves₃.pages _ inside id).1.trans still₂
  obtain ⟨four, unmapped, sound₄, moves₄, clear₄⟩ :=
    addrUnmap_scratch tables sound₃ inside (Option.isSome_of_eq_some here₃)
  have here₄ : page four (space.heapCurrent + physMmBlock) = some (nextFrame space) :=
    (moves₄.pages _ insideNext different).1.trans ((moves₃.pages _ insideNext id).1.trans here₂)
  obtain ⟨five, released, sound₅, moves₅, clear₅⟩ :=
    addrUnmap_scratch tables sound₄ insideNext (Option.isSome_of_eq_some here₄)
  have home₅ : page five virtualTbl = some tableFrame :=
    (moves₅.pages _ home apartNext).1.trans ((moves₄.pages _ home apart).1.trans ((moves₃.pages _ home id).1.trans
      ((moves₂.pages _ home apartNext).1.trans ((moves₁.pages _ home apart).1.trans homeMapped))))
  -- the entry of the child
  have stored : five.store (virtualTbl + 4 * iTbl) (space.blocks space.taken ||| pageTblFlags) =
      some (written five tableFrame
        (Function.update (five.words tableFrame) iTbl (space.blocks space.taken ||| pageTblFlags))) :=
    store_word homeAligned iTbl.isLt home₅
  have free₅ : ¬KernelTable five tableFrame := fun shown => sound₅.apart _ shown (.inl holds)
  obtain ⟨six, set₆⟩ : ∃ six, six = written five tableFrame
      (Function.update (five.words tableFrame) iTbl (space.blocks space.taken ||| pageTblFlags)) := ⟨_, rfl⟩
  rw [← set₆] at stored
  have moves₆ : Moves (fun _ => False) (fun frame => held frame ∧ frame ≠ tableFrame) tables five six :=
    set₆ ▸ written_moves free₅ fun both => both.2 rfl
  have table₅ (frame : Nat) (keeps : held frame) : five.words frame = space.words frame :=
    (moves₅.words _ (.inl keeps)).trans ((moves₄.words _ (.inl keeps)).trans ((moves₃.words _ keeps).trans
      ((moves₂.words _ (.inl keeps)).trans (moves₁.words _ (.inl keeps)))))
  refine ⟨six, ?_, set₆ ▸ written_sound sound₅,
    ?_, (moves₆.pages _ inside id).2 ((moves₅.pages _ inside different.symm).2 clear₄),
    (moves₆.pages _ insideNext id).2 clear₅, fun i bound => ?_, ?_⟩
  · have first : (space.heapCurrent + physMmBlock) % 2 ^ 32 = space.heapCurrent + physMmBlock :=
      Nat.mod_eq_of_lt ((Nat.le_add_right _ _).trans_lt fits)
    have second : (space.heapCurrent + physMmBlock + physMmBlock) % 2 ^ 32 =
      space.heapCurrent + physMmBlock + physMmBlock :=
      Nat.mod_eq_of_lt fits
    have blocks : space.takeBlock.1 = space.blocks space.taken := rfl
    rw [Directories.forkCopy]
    simp only [first, second]
    refine Option.bind_eq_some_iff.mpr ⟨one, mapped,
      Option.bind_eq_some_iff.mpr ⟨two, forked, Option.bind_eq_some_iff.mpr ⟨three, copied,
      Option.bind_eq_some_iff.mpr ⟨four, unmapped, Option.bind_eq_some_iff.mpr ⟨five, released, stored⟩⟩⟩⟩⟩
  · have weaken {touched kept : Nat → Prop} {before after : Directories}
      (moves : Moves touched kept tables before after)
        (pages : ∀ page, touched page → page = space.heapCurrent / physMmBlock ∨
          page = (space.heapCurrent + physMmBlock) / physMmBlock)
        (frames : ∀ frame, held frame ∧ frame ≠ tableFrame → kept frame) := moves.mono pages frames
    exact (weaken moves₁ (fun _ => .inl) fun _ both =>
      .inl both.1).trans ((weaken moves₂ (fun _ => .inr) fun _ both => .inl both.1).trans
      ((weaken moves₃ (fun _ => False.elim) fun _ both =>
        both.1).trans ((weaken moves₄ (fun _ => .inl) fun _ both => .inl both.1).trans
        ((weaken moves₅ (fun _ => .inr) fun _ both =>
          .inl both.1).trans (weaken moves₆ (fun _ => False.elim) fun _ => id)))))
  · have source₂ : two.words (frameNumber word) = space.words (frameNumber word) :=
      (moves₂.words _ (.inl source)).trans (moves₁.words _ (.inl source))
    rw [set₆, written_other homeApart.symm, moves₅.words _ (.inr rfl), moves₄.words _ (.inr rfl), set₃, written_self,
      if_pos bound, source₂]
  · rw [set₆, written_self, table₅ tableFrame holds]

/-! ### The call -/

def sourceWord (space : Directories) (iDir : Fin 768) (iTbl : Fin 1024) : BitVec 32 :=
    space.words (frameNumber (space.entry iDir)) iTbl

def presentPages (space : Directories) (iDir : Fin 768) (items : List (Fin 1024)) : Nat :=
  items.countP fun iTbl => pageIsEnabled (sourceWord space iDir iTbl)

def tablePages (space : Directories) (iDir : Fin 768) : Nat :=
  if pageIsEnabled (space.entry iDir) = true then 2 * presentPages space iDir (List.finRange 1024) + 1 else 0

/-- The frames of a table of the child and its pages. -/
def tableFrames (space : Directories) (iDir : Fin 768) : Nat :=
  if pageIsEnabled (space.entry iDir) = true then presentPages space iDir (List.finRange 1024) + 1 else 0

/-- The tables of pages in a row. -/
def scratchTables (start pages : Nat) : Finset Nat := (Finset.range pages).image fun n =>
    pageDirIndex (start + physMmBlock * n)

/-- The place of a frame of the child: a table, or a page in a table. -/
abbrev Place := Fin 768 × Option (Fin 1024)

/-- The directories at the first turn, the frames in use, what the allocator may be asked for, and how many
scratch pages there are. -/
structure Fork where
  origin : Directories
  held : Nat → Prop
  limit : Nat
  pages : Nat
  aligned : origin.heapCurrent % physMmBlock = 0
  lower : kernelVirtAddr ≤ origin.heapCurrent
  upper : origin.heapCurrent + physMmBlock * pages ≤ pageTblBase
  cleared : ∀ n < pages, Cleared origin (origin.heapCurrent + physMmBlock * n)
  table : ∀ i : Fin 768, pageIsEnabled (origin.entry i) = true → held (frameNumber (origin.entry i))
  page : ∀ (i : Fin 768) (j : Fin 1024), pageIsEnabled (origin.entry i) = true →
    pageIsEnabled (sourceWord origin i j) = true → held (frameNumber (sourceWord origin i j))
  active : origin.active ≠ origin.count - 1

namespace Fork

variable (fork : Fork)

def child : Nat := fork.origin.count - 1

def scratch (n : Nat) : Nat := fork.origin.heapCurrent + physMmBlock * n

def Used (owner : Nat → Option Place) (frame : Nat) : Prop := fork.held frame ∨ owner frame ≠ none

theorem scratch_succ (n : Nat) : fork.scratch (n + 1) = fork.scratch n + physMmBlock := by
  rw [scratch, scratch, Nat.mul_succ, Nat.add_assoc]

theorem scratch_aligned (n : Nat) : fork.scratch n % physMmBlock = 0 := by
  rw [scratch, Nat.add_mul_mod_self_left, fork.aligned]

theorem scratch_page (n : Nat) : fork.scratch n / physMmBlock = fork.origin.heapCurrent / physMmBlock + n :=
  Nat.add_mul_div_left _ _ (by decide)

theorem scratch_ne {m n : Nat} (different : m ≠ n) : fork.scratch m / physMmBlock ≠ fork.scratch n / physMmBlock := by
  rw [scratch_page, scratch_page]
  omega

theorem scratch_end {n : Nat} (inside : n < fork.pages) : fork.scratch n + physMmBlock ≤ pageTblBase := by
  rw [← scratch_succ]
  exact (Nat.add_le_add_left (Nat.mul_le_mul_left _ inside) _).trans fork.upper

theorem scratch_inside {n : Nat} (inside : n < fork.pages) : InKernel (fork.scratch n) :=
  ⟨fork.lower.trans (Nat.le_add_right _ _), Nat.lt_of_lt_of_le (Nat.lt_add_of_pos_right (by decide))
    (fork.scratch_end inside)⟩

theorem scratch_member {n : Nat} (inside : n < fork.pages) :
    pageDirIndex (fork.scratch n) ∈ scratchTables fork.origin.heapCurrent fork.pages :=
  Finset.mem_image_of_mem _ (Finset.mem_range.mpr inside)

end Fork

structure Stays (fork : Fork) (opened : Nat → Prop) (space : Directories) :
    Prop extends Passes fork.held fork.origin space where
  pages : ∀ other, InKernel other → ¬opened (other / physMmBlock) →
    page space other = page fork.origin other ∧ (Cleared fork.origin other → Cleared space other)

/-- Between the turns: so many scratch pages have been passed, and so many pages and blocks are still needed. -/
structure Copying (fork : Fork) (owner : Nat → Option Place) (opened : Nat → Prop) (passed pages blocks : Nat)
    (space : Directories) : Prop where
  sound : Sound (fork.Used owner) fork.limit space
  stays : Stays fork opened space
  given : ∀ frame, owner frame ≠ none → ¬fork.held frame ∧
    ∃ n ≥ fork.origin.taken, n < fork.limit ∧ frameNumber (fork.origin.blocks n) = frame
  heap : space.heapCurrent = fork.scratch passed
  room : passed + pages ≤ fork.pages
  frames : space.taken + blocks + lacking (scratchTables fork.origin.heapCurrent fork.pages) space ≤ fork.limit

/-- The entry of the child for an entry of the parent. -/
def CopyOf (fork : Fork) (owner : Nat → Option Place) (space : Directories) (place : Place) (word copy : BitVec 32) :
    Prop :=
  pageIsEnabled copy = pageIsEnabled word ∧ (pageIsEnabled word = true →
    owner (frameNumber copy) = some place ∧
      ∀ n < 1024, space.words (frameNumber copy) n = fork.origin.words (frameNumber word) n)

structure Grows (target : Nat) (owner grown : Nat → Option Place) (before after : Directories) : Prop where
  owners : ∀ frame place, owner frame = some place → grown frame = some place
  words : ∀ frame, owner frame ≠ none → frame ≠ target → after.words frame = before.words frame

/-- The turns of a table: the pages in front are copied, those behind are not there. -/
structure Filling (fork : Fork) (owner : Nat → Option Place) (iDir : Fin 768) (home : Nat) (physicalTbl : BitVec 32)
    (passed pages blocks : Nat) (rest : List (Fin 1024)) (space : Directories) : Prop
    extends Copying fork owner (· = fork.scratch home / physMmBlock) passed pages blocks space where
  behind : home < passed
  opened : space.table = some (fork.scratch home, physicalTbl)
  mapped : page space (fork.scratch home) = some (frameNumber physicalTbl)
  owned : owner (frameNumber physicalTbl) = some (iDir, none)
  filled : ∀ j, j ∉ rest → CopyOf fork owner space (iDir, some j) (sourceWord fork.origin iDir j)
    (space.words (frameNumber physicalTbl) j)
  empty : ∀ j ∈ rest, space.words (frameNumber physicalTbl) j = 0

variable {fork : Fork} {owner grown : Nat → Option Place} {opened : Nat → Prop}
  {passed pages blocks target : Nat} {place : Place}

theorem Grows.refl (target : Nat) (owner : Nat → Option Place) (space : Directories) :
    Grows target owner owner space space :=
  ⟨fun _ _ => id, fun _ _ _ => rfl⟩

theorem Grows.trans {more : Nat → Option Place} (first : Grows target owner grown before middle)
    (second : Grows target grown more middle after) : Grows target owner more before after := by
  refine ⟨fun frame place here => second.owners frame place (first.owners frame place here), fun frame known other =>
    ?_⟩
  obtain ⟨place, here⟩ := Option.ne_none_iff_exists'.mp known
  have still : grown frame ≠ none := Option.ne_none_iff_exists'.mpr ⟨place, first.owners frame place here⟩
  exact (second.words frame still other).trans (first.words frame known other)

/-- The entry stays a copy, if its table has another frame than the pages of the child. -/
theorem CopyOf.grows {copy : BitVec 32} (copies : CopyOf fork owner before place word copy)
    (grows : Grows target owner grown before after) (other : owner target ≠ some place) :
    CopyOf fork grown after place word copy := by
  refine ⟨copies.1, fun enabled => ?_⟩
  obtain ⟨owned, content⟩ := copies.2 enabled
  have known : owner (frameNumber copy) ≠ none := Option.ne_none_iff_exists'.mpr ⟨place, owned⟩
  have apart : frameNumber copy ≠ target := fun same => other (same ▸ owned)
  refine ⟨grows.owners _ _ owned, fun n bound => ?_⟩
  rw [grows.words _ known apart]
  exact content n bound

/-- Pages that are clear again are as they were. -/
theorem Stays.moves {touched still kept : Nat → Prop} {tables : Finset Nat} (stays : Stays fork opened before)
    (moves : Moves touched kept tables before after) (frames : ∀ frame, fork.held frame → kept frame)
    (restored : ∀ other, InKernel other → ¬still (other / physMmBlock) → touched (other / physMmBlock) →
      Cleared fork.origin other ∧ Cleared after other)
    (closed : ∀ page, ¬still page → opened page → touched page) : Stays fork still after := by
  have passes : Passes fork.held before after :=
    ⟨moves.count, moves.active, moves.blocks, moves.taken, moves.user, fun frame holds =>
      moves.words frame (frames frame holds)⟩
  refine ⟨stays.toPasses.trans passes, fun other inside apart => ?_⟩
  by_cases touches : touched (other / physMmBlock)
  · obtain ⟨-, low, -⟩ := inside.indices
    obtain ⟨before, after⟩ := restored other inside apart touches
    exact ⟨(after.unmapped low).trans (before.unmapped low).symm, fun _ => after⟩
  · obtain ⟨same, clear⟩ := stays.pages other inside fun opens => touches (closed _ apart opens)
    obtain ⟨kept, clears⟩ := moves.pages other inside touches
    exact ⟨kept.trans same, fun cleared => clears (clear cleared)⟩

theorem Stays.same (stays : Stays fork opened before) (entries : ∀ i, after.entry i = before.entry i)
    (count : after.count = before.count) (active : after.active = before.active) (words : after.words = before.words)
    (blocks : after.blocks = before.blocks) (taken : before.taken ≤ after.taken) : Stays fork opened after := by
  refine ⟨⟨count.trans stays.count, active.trans stays.active, blocks.trans stays.blocks, stays.taken.trans taken,
    fun i low => (entries i).trans (stays.user i low), fun frame holds => ?_⟩, fun other inside apart => ?_⟩
  · rw [words]
    exact stays.words frame holds
  · obtain ⟨-, low, -⟩ := inside.indices
    have same : page after other = page before other := by rw [page_kernel low, page_kernel low, entries, words]
    obtain ⟨kept, clear⟩ := stays.pages other inside apart
    refine ⟨same.trans kept, fun cleared => ?_⟩
    rw [Cleared, entries, words]
    exact clear cleared

section Next

variable (copying : Copying fork owner opened passed pages (blocks + 1) space)
include copying

theorem next_taken : space.taken < fork.limit := by
  have frames := copying.frames
  omega

theorem next_unused : ¬fork.Used owner (nextFrame space) := copying.sound.unheld space.taken le_rfl (next_taken copying)

theorem next_owner (place : Place) {frame : Nat} (used : fork.Used owner frame) :
    Function.update owner (nextFrame space) (some place) frame = owner frame :=
  Function.update_of_ne (fun same : frame = nextFrame space => next_unused copying (same ▸ used)) _ _

omit copying in
theorem next_used {next : Nat} (used : fork.Used (Function.update owner next (some place)) frame) :
    fork.Used owner frame ∨ frame = next := by
  by_cases new : frame = next
  · exact .inr new
  · rw [Fork.Used, Function.update_of_ne new] at used
    exact .inl used

theorem next_given (known : Function.update owner (nextFrame space) (some place) frame ≠ none) :
    ¬fork.held frame ∧ ∃ n ≥ fork.origin.taken, n < fork.limit ∧ frameNumber (fork.origin.blocks n) = frame := by
  by_cases new : frame = nextFrame space
  · refine ⟨fun holds => next_unused copying (.inl (new ▸ holds)), space.taken, copying.stays.taken,
      next_taken copying, ?_⟩
    rw [new, ← copying.stays.blocks]
    rfl
  · rw [Function.update_of_ne new] at known
    exact copying.given frame known

theorem next_grows {target : Nat} (place : Place)
    (words : ∀ frame, fork.Used owner frame → frame ≠ target → after.words frame = space.words frame) :
    Grows target owner (Function.update owner (nextFrame space) (some place)) space after := by
  refine ⟨fun frame place here => ?_, fun frame known other => words frame (.inr known) other⟩
  exact (next_owner copying _ (.inr (Option.ne_none_iff_exists'.mpr ⟨place, here⟩))).trans here

end Next

/-! ### The turns of a table -/

section Table

variable {iDir : Fin 768} {iTbl : Fin 1024} {home : Nat} {physicalTbl : BitVec 32} {rest : List (Fin 1024)}

theorem forkPage_eq (filling : Filling fork owner iDir home physicalTbl passed pages blocks rest space)
    (enabled : pageIsEnabled (fork.origin.entry iDir) = true) :
    space.forkPage iDir iTbl =
      if pageIsEnabled (sourceWord fork.origin iDir iTbl) =
        true then space.forkCopy (fork.scratch home) iTbl (sourceWord fork.origin iDir iTbl)
      else some space := by
  have entry : space.entry iDir = fork.origin.entry iDir := filling.stays.user iDir iDir.isLt
  have shown : space.Shown iDir := ⟨filling.sound.window, entry ▸ enabled⟩
  have below : (iDir : Nat) ≠ 1023 := by omega
  have word : space.tableWord iDir iTbl = sourceWord fork.origin iDir iTbl := by
    rw [Directories.tableWord, if_neg below, entry, filling.stays.words _ (fork.table iDir enabled)]
    rfl
  rw [Directories.forkPage, filling.opened]
  simp only [word]
  rw [if_pos shown]

/-- A page that is not there is passed over. -/
theorem forkPage_skips (filling : Filling fork owner iDir home physicalTbl passed pages blocks (iTbl :: rest) space)
    (enabled : pageIsEnabled (fork.origin.entry iDir) = true)
    (absent : ¬pageIsEnabled (sourceWord fork.origin iDir iTbl) = true) :
    space.forkPage iDir iTbl = some space ∧
      Filling fork owner iDir home physicalTbl passed pages blocks rest space := by
  refine ⟨(forkPage_eq filling enabled).trans (if_neg absent), filling.toCopying, filling.behind, filling.opened,
    filling.mapped,
    filling.owned, fun j out => ?_, fun j member => filling.empty j (List.mem_cons_of_mem _ member)⟩
  by_cases here : j = iTbl
  · refine ⟨?_, fun present => absurd (here ▸ present) absent⟩
    rw [filling.empty j (here ▸ List.mem_cons_self), here]
    exact ((Bool.not_eq_true _).mp absent).symm
  · exact filling.filled j fun member => out ((List.mem_cons.mp member).resolve_left here)

theorem forkPage_copies
    (filling : Filling fork owner iDir home physicalTbl passed (pages + 2) (blocks + 1) (iTbl :: rest) space)
    (fresh : iTbl ∉ rest) (enabled : pageIsEnabled (fork.origin.entry iDir) = true)
    (present : pageIsEnabled (sourceWord fork.origin iDir iTbl) = true) :
    ∃ after grown, space.forkPage iDir iTbl = some after ∧
      Filling fork grown iDir home physicalTbl (passed + 2) pages blocks rest after ∧
      Grows (frameNumber physicalTbl) owner grown space after ∧ after.dirs fork.child = space.dirs fork.child := by
  have room := filling.room
  have frames := filling.frames
  have one : passed < fork.pages := by omega
  have two : passed + 1 < fork.pages := by omega
  have behind := filling.behind
  have next : space.heapCurrent + physMmBlock = fork.scratch (passed + 1) := by rw [filling.heap, fork.scratch_succ]
  have clear (n : Nat) (inside : n < fork.pages) (other : n ≠ home) : Cleared space (fork.scratch n) :=
    (filling.stays.pages _ (fork.scratch_inside inside) (fork.scratch_ne other)).2 (fork.cleared n inside)
  have holdsSource : fork.held (frameNumber (sourceWord fork.origin iDir iTbl)) := fork.page iDir iTbl enabled present
  have usedTable : fork.Used owner (frameNumber physicalTbl) := .inr (Option.ne_none_iff_exists'.mpr ⟨_, filling.owned⟩)
  have homeApart : fork.scratch home / physMmBlock ≠ space.heapCurrent / physMmBlock := by
    rw [filling.heap]
    exact fork.scratch_ne (Nat.ne_of_lt behind)
  have homeApartNext : fork.scratch home / physMmBlock ≠ (space.heapCurrent + physMmBlock) / physMmBlock := by
    rw [next]
    exact fork.scratch_ne (by omega)
  obtain ⟨after, copied, sound, moves, clear₁, clear₂, content, table⟩ :=
    forkCopy_copies iTbl filling.sound (by omega)
    (filling.heap ▸ fork.scratch_member one) (next ▸ fork.scratch_member two)
    (fork.scratch_inside (behind.trans one))
    (fork.scratch_aligned home) filling.mapped usedTable (filling.heap ▸ fork.scratch_aligned passed)
    (filling.heap ▸ (fork.scratch_inside one).1) (by rw [next]; exact fork.scratch_end two)
    (filling.heap ▸ clear passed one (Nat.ne_of_gt behind))
    (next ▸ clear (passed + 1) two (by omega)) homeApart homeApartNext (.inl holdsSource)
  have grows := next_grows filling.toCopying (iDir, some iTbl) fun frame used other => moves.words frame ⟨used, other⟩
  refine ⟨after, _, (forkPage_eq filling enabled).trans ((if_pos present).trans copied),
    ⟨⟨sound.mono fun frame => next_used, ?_, fun frame => next_given filling.toCopying, ?_, by omega, ?_⟩, by omega,
      moves.table.trans filling.opened,
      ?_, (next_owner filling.toCopying _ usedTable).trans filling.owned, fun j out => ?_, fun j member => ?_⟩,
        grows, moves.others _ fun same => fork.active (filling.stays.active ▸ same.symm)⟩
  · have start : Stays fork (· = fork.scratch home / physMmBlock) (copying space) :=
      filling.stays.same (fun _ => rfl) rfl rfl rfl rfl (Nat.le_succ _)
    refine start.moves moves (fun frame holds => ⟨.inl holds, fun same => ?_⟩) (fun other inside _ touches => ?_)
      fun _ apart opens => absurd opens apart
    · exact (filling.given _ (Option.ne_none_iff_exists'.mpr ⟨_, filling.owned⟩)).1 (same ▸ holds)
    · cases touches with
      | inl first =>
        refine ⟨.of_page ?_ (fork.cleared passed one), clear₁.of_page first.symm⟩
        rw [first, filling.heap]
        rfl
      | inr second =>
        refine ⟨.of_page ?_ (fork.cleared (passed + 1) two), clear₂.of_page second.symm⟩
        rw [second, next]
        rfl
  · have passes : after.heapCurrent = space.heapCurrent + physMmBlock + physMmBlock := moves.heapCurrent
    rw [passes, next, ← fork.scratch_succ]
  · have still : after.taken + lacking (scratchTables fork.origin.heapCurrent fork.pages) after =
      space.taken + 1 + lacking (scratchTables fork.origin.heapCurrent fork.pages) space := moves.frames
    omega
  · refine (moves.pages _ (fork.scratch_inside (behind.trans one)) fun touches => ?_).1.trans filling.mapped
    exact touches.elim homeApart homeApartNext
  · rw [table]
    by_cases here : j = iTbl
    · rw [here, Function.update_self]
      refine ⟨(flagged_enabled _).trans present.symm, fun _ => ⟨?_, fun n bound => ?_⟩⟩
      · rw [flagged_frame]
        exact Function.update_self _ _ _
      · rw [flagged_frame, ← nextFrame, content n bound, filling.stays.words _ holdsSource]
    · have other : (j : Nat) ≠ iTbl := fun same => here (Fin.ext same)
      rw [Function.update_of_ne other]
      refine (filling.filled j fun member => ?_).grows grows ?_
      · exact out ((List.mem_cons.mp member).resolve_left here)
      · rw [filling.owned]
        simp
  · have other : (j : Nat) ≠ iTbl := fun same => fresh (Fin.ext same ▸ member)
    rw [table, Function.update_of_ne other]
    exact filling.empty j (List.mem_cons_of_mem _ member)

theorem run_pages {items : List (Fin 1024)} (distinct : items.Nodup)
    (enabled : pageIsEnabled (fork.origin.entry iDir) = true)
    (filling : Filling fork owner iDir home physicalTbl passed (pages + 2 * presentPages fork.origin iDir items)
      (blocks + presentPages fork.origin iDir items) items space) :
    ∃ after grown, run dirStep space (items.map (.forkPage iDir)) = some after ∧
      Filling fork grown iDir home physicalTbl
        (passed + 2 * presentPages fork.origin iDir items) pages blocks [] after ∧
      Grows (frameNumber physicalTbl) owner grown space after ∧ after.dirs fork.child = space.dirs fork.child := by
  induction items generalizing owner passed space with
  | nil => exact ⟨space, owner, rfl, filling, .refl _ _ _, rfl⟩
  | cons iTbl rest ih =>
    obtain ⟨fresh, others⟩ := List.nodup_cons.mp distinct
    by_cases present : pageIsEnabled (sourceWord fork.origin iDir iTbl) = true
    · have count : presentPages fork.origin iDir (iTbl :: rest) = presentPages fork.origin iDir rest + 1 :=
        List.countP_cons_of_pos present
      have pagesEq : pages + 2 * (presentPages fork.origin iDir rest + 1) =
        pages + 2 * presentPages fork.origin iDir rest + 2 := by omega
      have passedEq : passed + 2 + 2 * presentPages fork.origin iDir rest =
        passed + 2 * (presentPages fork.origin iDir rest + 1) := by omega
      rw [count, pagesEq, ← Nat.add_assoc] at filling
      obtain ⟨middle, owned, step, filled, grows, child⟩ := forkPage_copies filling fresh enabled present
      obtain ⟨after, grown, ran, ended, more, same⟩ := ih others filled
      rw [passedEq, ← count] at ended
      exact ⟨after, grown, run_cons.mpr ⟨middle, step, ran⟩, ended, grows.trans more, same.trans child⟩
    · have count : presentPages fork.origin iDir (iTbl :: rest) = presentPages fork.origin iDir rest :=
        List.countP_cons_of_neg present
      rw [count] at filling ⊢
      obtain ⟨step, filled⟩ := forkPage_skips filling enabled present
      obtain ⟨after, grown, ran, rest⟩ := ih others filled
      exact ⟨after, grown, run_cons.mpr ⟨space, step, ran⟩, rest⟩

/-- In front of the pages the table of the child is made, through a scratch page. -/
theorem forkTable_opens (copying : Copying fork owner (fun _ => False) passed (pages + 1) (blocks + 1) space)
    (enabled : pageIsEnabled (fork.origin.entry iDir) = true) :
    ∃ after grown physicalTbl, space.forkTable iDir = some after ∧ owner (frameNumber physicalTbl) = none ∧
      Filling fork grown iDir passed physicalTbl (passed + 1) pages blocks (List.finRange 1024) after ∧
      Grows (frameNumber physicalTbl) owner grown space after ∧ after.dirs fork.child = space.dirs fork.child := by
  have room := copying.room
  have frames := copying.frames
  have here : passed < fork.pages := by omega
  have inside := fork.scratch_inside here
  have entry : space.entry iDir = fork.origin.entry iDir := copying.stays.user iDir iDir.isLt
  have clear : Cleared space (fork.scratch passed) := (copying.stays.pages _ inside id).2 (fork.cleared passed here)
  have start : Sound (fun frame => fork.Used owner frame ∨ frame = nextFrame space) fork.limit space.takeBlock.2 :=
    copying.sound.takes (fun _ => rfl) rfl rfl (next_taken copying)
  have left :
    space.takeBlock.2.taken + lacking
    (scratchTables fork.origin.heapCurrent fork.pages) space.takeBlock.2 ≤ fork.limit := by
    have same : space.takeBlock.2.taken + lacking (scratchTables fork.origin.heapCurrent fork.pages) space.takeBlock.2 =
      space.taken + 1 + lacking (scratchTables fork.origin.heapCurrent fork.pages) space := rfl
    omega
  obtain ⟨one, mapped, sound, moves, shown⟩ := mapAddr_scratch start inside (fork.scratch_member here) left clear
    (space.blocks space.taken) userFlags_present userFlags_last
  have free : ¬KernelTable one (nextFrame space) := fun table => sound.apart _ table (.inr rfl)
  have zeroed := clearPage_written inside (fork.scratch_aligned passed) shown free
  obtain ⟨two, set⟩ : ∃ two, two = written one (nextFrame space) fun i =>
    if i < 1024 then 0 else one.words (nextFrame space) i :=
    ⟨_, rfl⟩
  rw [← nextFrame, ← set] at zeroed
  have writes : Moves (fun _ => False) (fork.Used owner)
    (scratchTables fork.origin.heapCurrent fork.pages) one two := set ▸ written_moves free (next_unused copying)
  have total : Moves (· = fork.scratch passed / physMmBlock) (fork.Used owner)
    (scratchTables fork.origin.heapCurrent fork.pages) space.takeBlock.2 two :=
    (moves.mono (fun _ => id) fun _ => .inl).trans (writes.mono (fun _ => False.elim) fun _ => id)
  obtain ⟨heap, next⟩ : ∃ heap, (space.heapCurrent + physMmBlock) % 2 ^ 32 = heap := ⟨_, rfl⟩
  obtain ⟨after, last⟩ : ∃ after, after = { two with
    heapCurrent := heap, table := some (space.heapCurrent, space.blocks space.taken) } := ⟨_, rfl⟩
  have words : after.words = two.words := by rw [last]
  have entries (i : Nat) : after.entry i = two.entry i := by
    rw [last]
    rfl
  have taken : after.taken = two.taken := by rw [last]
  refine ⟨after, Function.update owner (nextFrame space) (some (iDir, none)), space.blocks space.taken, ?_, ?_,
    ⟨⟨?_, ?_, fun frame => next_given copying, ?_, by omega, ?_⟩, by omega, ?_, ?_, Function.update_self _ _ _,
      fun j out => absurd (List.mem_finRange j) out, fun j _ => ?_⟩,
    next_grows copying (iDir, none) fun frame used _ => ?_, ?_⟩
  · rw [← copying.heap] at mapped zeroed
    rw [Directories.forkTable, if_pos (entry ▸ enabled)]
    simp only [next]
    exact Option.bind_eq_some_iff.mpr ⟨one, mapped, Option.map_eq_some_iff.mpr ⟨two, zeroed, last.symm⟩⟩
  · by_contra known
    exact next_unused copying (.inr known)
  · have sound₂ : Sound (fun frame => fork.Used owner frame ∨ frame = nextFrame space) fork.limit two :=
      set ▸ written_sound sound
    have blocks : after.blocks = two.blocks := by rw [last]
    exact (sound₂.of_entries entries blocks taken.ge).mono fun frame => next_used
  · have begun : Stays fork (fun _ => False) space.takeBlock.2 :=
      copying.stays.same (fun _ => rfl) rfl rfl rfl rfl (Nat.le_succ _)
    refine (begun.moves total (fun _ => .inl) (fun _ _ apart touches => absurd touches apart) fun _ _ =>
      False.elim).same
      entries ?_ ?_ words ?_ taken.ge
    all_goals rw [last]
  · have fits : fork.scratch (passed + 1) < 2 ^ 32 := by
      rw [fork.scratch_succ]
      exact (fork.scratch_end here).trans_lt (by decide)
    rw [last]
    simp only [← next, copying.heap]
    rw [← fork.scratch_succ, Nat.mod_eq_of_lt fits]
  · have same : two.taken + lacking (scratchTables fork.origin.heapCurrent fork.pages) two =
      space.taken + 1 + lacking (scratchTables fork.origin.heapCurrent fork.pages) space := total.frames
    rw [taken, lacking_same entries]
    omega
  · rw [last, copying.heap]
  · have still : page after (fork.scratch passed) = page two (fork.scratch passed) := by
      rw [last]
      rfl
    exact still.trans ((writes.pages _ inside id).1.trans shown)
  · rw [words, set]
    exact (congrFun written_self _).trans (if_pos j.isLt)
  · rw [words]
    exact total.words frame used
  · have other : fork.child ≠ space.takeBlock.2.active := fun same => fork.active (copying.stays.active ▸ same.symm)
    have dirs : after.dirs = two.dirs := by rw [last]
    rw [dirs]
    exact total.others _ other

/-- Behind the pages the scratch page is unmapped, and the child gets the table. -/
theorem forkEntry_closes (filling : Filling fork owner iDir home physicalTbl passed pages blocks [] space) :
    ∃ after, space.forkEntry iDir = some after ∧ Copying fork owner (fun _ => False) passed pages blocks after ∧
      after.table = none ∧ (∀ frame, owner frame ≠ none → after.words frame = space.words frame) ∧
      after.dirs fork.child = Function.update (space.dirs fork.child) iDir (physicalTbl ||| pageTblFlags) := by
  have room := filling.room
  have behind := filling.behind
  have here : home < fork.pages := by omega
  have inside := fork.scratch_inside here
  obtain ⟨one, unmapped, sound, moves, clear⟩ :=
    addrUnmap_scratch (scratchTables fork.origin.heapCurrent fork.pages) filling.sound inside
    (Option.isSome_of_eq_some filling.mapped)
  have count : one.count - 1 = fork.child := by rw [moves.count, filling.stays.count]; rfl
  have active : one.active = fork.origin.active := moves.active.trans filling.stays.active
  obtain ⟨after, last⟩ : ∃ after, after =
    { one.setEntry (one.count - 1) iDir (physicalTbl ||| pageTblFlags) with table := none } :=
    ⟨_, rfl⟩
  have dirs : after.dirs = Function.update one.dirs fork.child
      (Function.update (one.dirs fork.child) iDir (physicalTbl ||| pageTblFlags)) := by
    rw [last, ← count]
    rfl
  have own : one.active ≠ fork.child := active ▸ fork.active
  have activeSame : after.active = one.active := by
    rw [last]
    rfl
  have entries (i : Nat) : after.entry i = one.entry i := by
    rw [Directories.entry, Directories.entry, activeSame, dirs, Function.update_of_ne own]
  have words : after.words = one.words := by
    rw [last]
    rfl
  have taken : after.taken = one.taken := by
    rw [last]
    rfl
  have blocks : after.blocks = one.blocks := by
    rw [last]
    rfl
  have counts : after.count = one.count := by
    rw [last]
    rfl
  have others : one.dirs fork.child = space.dirs fork.child := moves.others _ fun same =>
    own (moves.active.trans same.symm)
  refine ⟨after, ?_, ⟨sound.of_entries entries blocks taken.ge, ?_, filling.given, ?_, filling.room, ?_⟩, ?_,
    fun frame known => ?_, ?_⟩
  · rw [Directories.forkEntry, filling.opened]
    exact Option.map_eq_some_iff.mpr ⟨one, unmapped, last.symm⟩
  · have closed : Stays fork (fun _ => False) one := by
      refine filling.stays.moves moves (fun _ => .inl)
        (fun other inside _ touches => ⟨?_, clear.of_page touches.symm⟩) fun _ _ => id
      exact (fork.cleared home here).of_page touches.symm
    exact closed.same entries counts activeSame words blocks taken.ge
  · have heap : after.heapCurrent = one.heapCurrent := by
      rw [last]
      rfl
    exact heap.trans (moves.heapCurrent.trans filling.heap)
  · have frames := filling.frames
    have same := moves.frames
    rw [taken, lacking_same entries]
    omega
  · rw [last]
  · rw [words]
    exact moves.words frame (.inr known)
  · rw [dirs, Function.update_self, others]

end Table

end YuzuOS.Proofs.ForkPages
