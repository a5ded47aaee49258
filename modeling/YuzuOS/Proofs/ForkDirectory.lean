import YuzuOS.Proofs.ForkPages

/-! The directory of a child, when the parent is the active process. -/

namespace YuzuOS.Proofs.ForkDirectory
open YuzuOS.Library YuzuOS.Kernel YuzuOS.Proofs.PageTables YuzuOS.Proofs.ScratchPages YuzuOS.Proofs.ForkPages

variable {held : Nat → Prop} {limit : Nat} {space before middle after : Directories} {dir virtual : Nat}
  {fork : Fork} {owner grown : Nat → Option Place} {passed pages blocks target : Nat}

/-! ### The tables -/

/-- The child has what the parent has behind an entry. -/
def Done (fork : Fork) (owner : Nat → Option Place) (space : Directories) (iDir : Fin 768) : Prop :=
  pageIsEnabled (space.dirs fork.child iDir) = pageIsEnabled (fork.origin.entry iDir) ∧
    (pageIsEnabled (fork.origin.entry iDir) = true →
      owner (frameNumber (space.dirs fork.child iDir)) = some (iDir, none) ∧
        ∀ iTbl : Fin 1024, CopyOf fork owner space (iDir, some iTbl) (sourceWord fork.origin iDir iTbl)
          (space.words (frameNumber (space.dirs fork.child iDir)) iTbl))

structure Forking (fork : Fork) (owner : Nat → Option Place) (passed pages blocks : Nat) (rest : List (Fin 768))
    (space : Directories) : Prop extends Copying fork owner (fun _ => False) passed pages blocks space where
  closed : space.table = none
  done : ∀ iDir, iDir ∉ rest → Done fork owner space iDir
  empty : ∀ iDir ∈ rest, space.dirs fork.child iDir = 0

theorem Done.grows {iDir : Fin 768} (done : Done fork owner before iDir) (grows : Grows target owner grown before after)
    (entry : after.dirs fork.child iDir = before.dirs fork.child iDir)
    (other : ∀ place, owner target ≠ some (iDir, place)) :
    Done fork grown after iDir := by
  refine ⟨entry ▸ done.1, fun enabled => ?_⟩
  obtain ⟨owned, copies⟩ := done.2 enabled
  have known : owner (frameNumber (before.dirs fork.child iDir)) ≠ none := Option.ne_none_iff_exists'.mpr ⟨_, owned⟩
  have apart : frameNumber (before.dirs fork.child iDir) ≠ target := fun same => other none (same ▸ owned)
  rw [entry]
  refine ⟨grows.owners _ _ owned, fun iTbl => ?_⟩
  rw [grows.words _ known apart]
  exact (copies iTbl).grows grows (other _)

section Tables

variable {iDir : Fin 768} {rest : List (Fin 768)}

def turn (iDir : Fin 768) : List DirStep :=
    .forkTable iDir :: (List.finRange 1024).map (.forkPage iDir) ++ [.forkEntry iDir]

theorem run_closed (closed : space.table = none) (items : List (Fin 1024)) :
    run dirStep space (items.map (.forkPage iDir)) = some space := by
  induction items with
  | nil => rfl
  | cons iTbl rest ih =>
    refine run_cons.mpr ⟨space, ?_, ih⟩
    rw [dirStep, Directories.forkPage, closed]

theorem turn_skips (forking : Forking fork owner passed pages blocks (iDir :: rest) space)
    (absent : ¬pageIsEnabled (fork.origin.entry iDir) = true) :
    run dirStep space (turn iDir) = some space ∧ Forking fork owner passed pages blocks rest space := by
  have entry : space.entry iDir = fork.origin.entry iDir := forking.stays.user iDir iDir.isLt
  have same : { space with table := none } = space := by rw [← forking.closed]
  refine ⟨run_cons.mpr ⟨space, ?_, run_append.mpr ⟨space, run_closed forking.closed _, run_cons.mpr ⟨space, ?_, rfl⟩⟩⟩,
    forking.toCopying, forking.closed, fun i out => ?_, fun i member => forking.empty i (List.mem_cons_of_mem _ member)⟩
  · rw [dirStep, Directories.forkTable, entry, if_neg absent, same]
  · rw [dirStep, Directories.forkEntry, forking.closed]
  · by_cases here : i = iDir
    · refine ⟨?_, fun enabled => absurd (here ▸ enabled) absent⟩
      rw [here, forking.empty iDir List.mem_cons_self]
      exact ((Bool.not_eq_true _).mp absent).symm
    · exact forking.done i fun member => out ((List.mem_cons.mp member).resolve_left here)

theorem turn_copies
    (forking : Forking fork owner passed (pages + 2 * presentPages fork.origin iDir (List.finRange 1024) + 1)
      (blocks + presentPages fork.origin iDir (List.finRange 1024) + 1) (iDir :: rest) space)
    (fresh : iDir ∉ rest) (enabled : pageIsEnabled (fork.origin.entry iDir) = true) :
    ∃ after grown, run dirStep space (turn iDir) = some after ∧
      Forking fork grown
        (passed + 1 + 2 * presentPages fork.origin iDir (List.finRange 1024)) pages blocks rest after := by
  obtain ⟨one, first, physicalTbl, opens, none, filling, grows₁, child₁⟩ := forkTable_opens forking.toCopying enabled
  obtain ⟨two, grown, ran, filled, grows₂, child₂⟩ := run_pages (List.nodup_finRange 1024) enabled filling
  obtain ⟨after, closes, copying, closed, words, child₃⟩ := forkEntry_closes filled
  have grows : Grows (frameNumber physicalTbl) owner grown space two := grows₁.trans grows₂
  have last : Grows (frameNumber physicalTbl) grown grown two after :=
    ⟨fun _ _ => id, fun frame known _ => words frame known⟩
  have child : after.dirs fork.child = Function.update (space.dirs fork.child) iDir (physicalTbl ||| pageTblFlags) := by
    rw [child₃, child₂, child₁]
  refine ⟨after, grown, run_cons.mpr ⟨one, opens, run_append.mpr ⟨two, ran, run_cons.mpr ⟨after, closes, rfl⟩⟩⟩,
    copying, closed,
    fun i out => ?_, fun i member => ?_⟩
  · by_cases here : i = iDir
    · have entry : after.dirs fork.child iDir = physicalTbl ||| pageTblFlags := by rw [child, Function.update_self]
      have known : grown (frameNumber physicalTbl) ≠ .none := Option.ne_none_iff_exists'.mpr ⟨_, filled.owned⟩
      rw [here, Done, entry, flagged_frame]
      refine ⟨(flagged_enabled _).trans enabled.symm, fun _ => ⟨filled.owned, fun iTbl => ?_⟩⟩
      rw [words _ known]
      refine (filled.filled iTbl List.not_mem_nil).grows last ?_
      rw [filled.owned]
      simp
    · have different : (i : Nat) ≠ iDir := fun same => here (Fin.ext same)
      have done := forking.done i fun member => out ((List.mem_cons.mp member).resolve_left here)
      refine done.grows (grows.trans last) ?_ fun place => ?_
      · rw [child, Function.update_of_ne different]
      · rw [none]
        exact (Option.some_ne_none _).symm
  · have different : (i : Nat) ≠ iDir := fun same => fresh (Fin.ext same ▸ member)
    rw [child, Function.update_of_ne different]
    exact forking.empty i (List.mem_cons_of_mem _ member)

theorem run_tables {tables : List (Fin 768)} (distinct : tables.Nodup)
    (forking : Forking fork owner passed (pages + (tables.map (tablePages fork.origin)).sum)
    (blocks + (tables.map (tableFrames fork.origin)).sum)
      tables space) :
    ∃ after grown passed, run dirStep space (tables.flatMap turn) = some after ∧
      Forking fork grown passed pages blocks [] after := by
  induction tables generalizing owner passed space with
  | nil => exact ⟨space, owner, passed, rfl, forking⟩
  | cons iDir rest ih =>
    obtain ⟨fresh, others⟩ := List.nodup_cons.mp distinct
    rw [List.map_cons, List.map_cons, List.sum_cons, List.sum_cons] at forking
    by_cases enabled : pageIsEnabled (fork.origin.entry iDir) = true
    · rw [tablePages, tableFrames, if_pos enabled, if_pos enabled] at forking
      have pagesEq :
        pages + (2 * presentPages fork.origin iDir (List.finRange 1024) + 1 +
        (rest.map (tablePages fork.origin)).sum) =
        pages + (rest.map (tablePages fork.origin)).sum + 2 * presentPages fork.origin iDir
          (List.finRange 1024) + 1 := by omega
      have blocksEq :
        blocks + (presentPages fork.origin iDir (List.finRange 1024) + 1 + (rest.map (tableFrames fork.origin)).sum) =
        blocks + (rest.map (tableFrames fork.origin)).sum + presentPages fork.origin iDir (List.finRange 1024) + 1 :=
          by omega
      rw [pagesEq, blocksEq] at forking
      obtain ⟨middle, owned, step, between⟩ := turn_copies forking fresh enabled
      obtain ⟨after, grown, more, ran, ended⟩ := ih others between
      exact ⟨after, grown, more, run_append.mpr ⟨middle, step, ran⟩, ended⟩
    · rw [tablePages, tableFrames, if_neg enabled, if_neg enabled, Nat.zero_add, Nat.zero_add] at forking
      obtain ⟨step, between⟩ := turn_skips forking enabled
      obtain ⟨after, grown, more, ran, ended⟩ := ih others between
      exact ⟨after, grown, more, run_append.mpr ⟨space, step, ran⟩, ended⟩

end Tables

/-! ### The allocations in front -/

section Allocations

variable {index : Nat} {physical flags : BitVec 32}

theorem mapTable_taken (made : space.virtMmMapTable dir index flags = some after) : space.taken ≤ after.taken := by
  rw [Directories.virtMmMapTable] at made
  split at made
  · cases made
    exact le_rfl
  · dsimp only at made
    split at made
    · cases made
      rw [Directories.clearTable]
      split <;> exact Nat.le_succ _
    · cases made

theorem mapAddr_taken (mapped : space.virtMmMapAddr dir physical virtual flags = some after) :
    space.taken ≤ after.taken := by
  obtain ⟨middle, made, set⟩ := Option.bind_eq_some_iff.mp mapped
  split at set
  · cases set
    refine (mapTable_taken made).trans_eq ?_
    rw [Directories.setTableWord]
    split <;> rfl
  · cases set

theorem mapFrames_taken {turns stop last : Nat}
    (mapped : space.mapFrames stop turns physical virtual = some (last, after)) :
    space.taken ≤ after.taken := by
  induction turns generalizing physical virtual space with
  | zero => cases mapped
  | succ turns ih =>
    rw [Directories.mapFrames] at mapped
    split at mapped
    · obtain ⟨middle, first, rest⟩ := Option.bind_eq_some_iff.mp mapped
      exact (mapAddr_taken first).trans (ih rest)
    · cases mapped
      exact le_rfl

theorem kernelFlags_present : pageIsEnabled pageTblKernelFlags = true := by decide

theorem kernelFlags_last : pageTblKernelFlags.getLsbD 31 = false := by decide

theorem mapFrames_passes {turns stop last : Nat} (sound : Sound held limit space) (lower : kernelVirtAddr ≤ virtual)
    (upper : stop ≤ pageTblBase) (mapped : space.mapFrames stop turns physical virtual = some (last, after))
    (bounded : after.taken ≤ limit) : Sound held limit after ∧ Passes held space after := by
  induction turns generalizing physical virtual space with
  | zero => cases mapped
  | succ turns ih =>
    rw [Directories.mapFrames] at mapped
    split at mapped
    next more =>
      obtain ⟨middle, first, rest⟩ := Option.bind_eq_some_iff.mp mapped
      have inside : InKernel virtual := ⟨lower, more.trans_le upper⟩
      have fits : virtual + physMmBlock < 2 ^ 32 := by
        have below := inside.2
        unfold pageTblBase at below
        unfold physMmBlock
        omega
      rw [Nat.mod_eq_of_lt fits] at rest
      obtain ⟨kept, passes⟩ := mapAddr_passes sound inside kernelFlags_present kernelFlags_last first
        ((mapFrames_taken rest).trans bounded)
      obtain ⟨sound, more⟩ := ih kept (lower.trans (Nat.le_add_right _ _)) rest
      exact ⟨sound, passes.trans more⟩
    next =>
      cases mapped
      exact ⟨sound, .refl held _⟩

theorem divCeil_above {current : Nat} (lower : kernelVirtAddr ≤ current) (upper : current ≤ pageTblBase) :
    kernelVirtAddr ≤ divCeil current physMmBlock * physMmBlock % 2 ^ 32 := by
  unfold kernelVirtAddr at lower ⊢
  unfold pageTblBase at upper
  unfold divCeil physMmBlock
  split <;> omega

/-- The heap grows below the window. -/
theorem sbrk_passes {increment : Nat} (sound : Sound held limit space) (lower : kernelVirtAddr ≤ space.current)
    (upper : space.current + increment ≤ pageTblBase) (ran : space.mallocSbrk increment = some after)
    (bounded : after.taken ≤ limit) :
    Sound held limit after ∧ Passes held space after ∧ after.current = space.current + increment := by
  have fits : space.current + increment < 2 ^ 32 := upper.trans_lt (by decide)
  rw [Directories.mallocSbrk] at ran
  simp only [Nat.mod_eq_of_lt fits] at ran
  split at ran
  next none =>
    cases ran
    exact ⟨sound, .refl held space, by rw [none]; rfl⟩
  next =>
    split at ran
    · cases ran
      exact ⟨sound.of_entries (fun _ => rfl) rfl le_rfl, ⟨rfl, rfl, rfl, le_rfl, fun _ _ => rfl, fun _ _ => rfl⟩, rfl⟩
    · obtain ⟨⟨last, mapped⟩, frames, same⟩ := Option.map_eq_some_iff.mp ran
      have taken : mapped.taken ≤ limit := by
        rw [← same] at bounded
        exact bounded
      have start : Sound held limit space.takeBlock.2 := sound.of_entries (fun _ => rfl) rfl (Nat.le_succ _)
      have begins := divCeil_above lower ((Nat.le_add_right _ _).trans upper)
      obtain ⟨kept, passes⟩ := mapFrames_passes start begins upper frames taken
      rw [← same]
      exact ⟨kept.of_entries (fun _ => rfl) rfl le_rfl,
        ⟨passes.count, passes.active, passes.blocks, (Nat.le_succ _).trans passes.taken,
        passes.user, passes.words⟩, rfl⟩

theorem sbrk_current {increment : Nat} (inside : space.current < 2 ^ 32)
    (ran : space.mallocSbrk increment = some after) :
    after.current = (space.current + increment) % 2 ^ 32 ∧ space.taken ≤ after.taken := by
  rw [Directories.mallocSbrk] at ran
  generalize total : (space.current + increment) % 2 ^ 32 = current at ran ⊢
  dsimp only at ran
  split at ran
  next none =>
    rw [none, Nat.add_zero, Nat.mod_eq_of_lt inside] at total
    cases ran
    exact ⟨total, le_rfl⟩
  next =>
    split at ran
    · cases ran
      exact ⟨rfl, le_rfl⟩
    · obtain ⟨⟨last, mapped⟩, frames, same⟩ := Option.map_eq_some_iff.mp ran
      rw [← same]
      exact ⟨rfl, (Nat.le_succ _).trans (mapFrames_taken frames)⟩

theorem alignGrow_le (space : Directories) : space.alignGrow ≤ 2 * physMmBlock := by
  rw [Directories.alignGrow]
  split
  · exact Nat.zero_le _
  · have size : physMmBlock = 4096 := rfl
    have header : mallocHeader = 16 := rfl
    have below : divCeil space.current physMmBlock * physMmBlock - space.current ≤ physMmBlock := by
      unfold divCeil physMmBlock
      split <;> omega
    dsimp only
    split <;> omega

theorem create_others {entries : List Nat} {start copied : Nat → BitVec 32} {i : Nat} (out : i ∉ entries)
    (ran : entries.foldlM (fun dir i =>
      (space.virtMmPhysAddrGet (pageTblBase + i * physMmBlock)).map (Function.update dir i)) start = some copied) :
    copied i = start i := by
  induction entries generalizing start with
  | nil =>
    cases ran
    rfl
  | cons first rest ih =>
    rw [List.foldlM_cons] at ran
    obtain ⟨next, updated, ran⟩ := Option.bind_eq_some_iff.mp ran
    obtain ⟨word, -, same⟩ := Option.map_eq_some_iff.mp updated
    have different : i ≠ first := fun here => out (here ▸ List.mem_cons_self)
    rw [ih (fun member => out (List.mem_cons_of_mem _ member)) ran, ← same, Function.update_of_ne different]

theorem addrCreate_made {address : Nat} (ran : space.virtMmAddrCreate address = some after) :
    ∃ made : Nat → BitVec 32, (∀ i < 768, made i = 0) ∧
      after = { space with dirs := Function.update space.dirs space.count made, count := space.count + 1 } := by
  obtain ⟨copied, entries, ran⟩ := Option.bind_eq_some_iff.mp ran
  obtain ⟨last, -, same⟩ := Option.map_eq_some_iff.mp ran
  refine ⟨Function.update copied 1023 last, fun i low => ?_, same.symm⟩
  have other : i ≠ 1023 := by omega
  have out : i ∉ List.range' 768 255 := fun member => by
    have bounds := List.mem_range'_1.mp member
    omega
  rw [Function.update_of_ne other, create_others out entries]

/-- `virt_mm_addr_create` leaves the user half of the parent, and makes a directory without one. -/
theorem addrCreate_passes {heap : HeapAnswers} {created : Directories} (sound : Sound held limit space)
    (known : space.active < space.count) (inside : InKernel space.current)
    (ran : run dirStep space heap.virtMmAddrCreate = some created) (upper : created.current ≤ pageTblBase)
    (bounded : created.taken ≤ limit) :
    Sound held limit created ∧ created.count = space.count + 1 ∧ created.active = space.active ∧
      created.blocks = space.blocks ∧ space.taken ≤ created.taken ∧
        space.current ≤ created.current ∧ (∀ i < 768, created.entry i = space.entry i) ∧
      (∀ frame, held frame → created.words frame = space.words frame) ∧ ∀ i < 768, created.dirs space.count i = 0 := by
  obtain ⟨one, aligned, ran⟩ := run_cons.mp ran
  obtain ⟨two, allocated, ran⟩ := run_cons.mp ran
  obtain ⟨three, made, ran⟩ := run_cons.mp ran
  cases ran
  obtain ⟨dir, low, same⟩ := addrCreate_made made
  obtain ⟨grow, blockGrow⟩ : ∃ grow, grow = if heap.fresh then physMmBlock + mallocHeader else 0 := ⟨_, rfl⟩
  have small : grow ≤ 2 * physMmBlock := by
    rw [blockGrow]
    split <;> decide
  rw [dirStep, ← blockGrow] at allocated
  have current : created.current = two.current := by rw [same]
  have taken : created.taken = two.taken := by rw [same]
  -- the addresses do not wrap
  have size : physMmBlock = 4096 := rfl
  have base : pageTblBase = 0xFFC00000 := rfl
  have align := alignGrow_le space
  have above := inside.1
  have below := inside.2
  obtain ⟨oneCurrent, oneTaken⟩ := sbrk_current (by omega) aligned
  have oneSum : one.current = space.current + space.alignGrow := oneCurrent.trans (Nat.mod_eq_of_lt (by omega))
  obtain ⟨twoCurrent, twoTaken⟩ := sbrk_current (by omega) allocated
  have twoSum : two.current = one.current + grow := twoCurrent.trans (Nat.mod_eq_of_lt (by omega))
  obtain ⟨sound₁, passes₁, -⟩ := sbrk_passes sound inside.1 (by omega) aligned (by omega)
  obtain ⟨sound₂, passes₂, -⟩ := sbrk_passes sound₁ (by omega) (by omega) allocated (by omega)
  have passes := passes₁.trans passes₂
  have own : two.active ≠ two.count := by
    rw [passes.active, passes.count]
    exact Nat.ne_of_lt known
  have dirs : created.dirs two.active = two.dirs two.active := by
    rw [same]
    exact Function.update_of_ne own _ _
  have active : created.active = two.active := by rw [same]
  have entries (i : Nat) : created.entry i = two.entry i := by rw [Directories.entry, active, dirs, Directories.entry]
  have blocks : created.blocks = two.blocks := by rw [same]
  refine ⟨sound₂.of_entries entries blocks taken.ge, ?_, active.trans passes.active, blocks.trans passes.blocks,
    taken ▸ passes.taken,
    by omega, fun i user => (entries i).trans (passes.user i user), fun frame holds => ?_, fun i user => ?_⟩
  · rw [same, ← passes.count]
  · rw [same]
    exact passes.words frame holds
  · rw [same, ← passes.count]
    simp only [Function.update_self]
    exact low i user

end Allocations

/-! ### The call -/

def scratchPages (space : Directories) : Nat := ((List.finRange 768).map (tablePages space)).sum

def childFrames (space : Directories) : Nat := ((List.finRange 768).map (tableFrames space)).sum

def takenLast (space created : Directories) : Nat :=
  created.taken + childFrames space + lacking (scratchTables created.current (scratchPages space)) created

/-- The parent is the active process and its frames are held. Behind `virt_mm_addr_create` the heap ends with a page,
there are scratch pages behind it, and no page of the kernel half has a frame that the allocator will answer. -/
structure Forks (held : Nat → Prop) (space created : Directories) : Prop where
  known : space.active < space.count
  heap : InKernel space.current
  tables : ∀ iDir : Fin 768, pageIsEnabled (space.entry iDir) = true → held (frameNumber (space.entry iDir))
  pages : ∀ (iDir : Fin 768) (iTbl : Fin 1024), pageIsEnabled (space.entry iDir) = true →
    pageIsEnabled (sourceWord space iDir iTbl) = true → held (frameNumber (sourceWord space iDir iTbl))
  sound : Sound held (takenLast space created) space
  aligned : created.current % physMmBlock = 0
  upper : created.current + physMmBlock * scratchPages space ≤ pageTblBase
  clear : ∀ n < scratchPages space, Cleared created (created.current + physMmBlock * n)
  unused : ∀ virtual, InKernel virtual → ∀ n ≥ created.taken, n < takenLast space created →
    created.translate created.active virtual ≠ some (frameNumber (created.blocks n))

/-- What the call leaves: the child has the number that was free. -/
structure Forked (held : Nat → Prop) (space created after : Directories) : Prop where
  entries : ∀ i < 768, after.dirs space.active i = space.entry i
  mappings : ∀ virtual < kernelVirtAddr, after.translate space.active virtual = space.translate space.active virtual
  contents : ∀ frame, held frame → after.words frame = space.words frame
  present : ∀ virtual < kernelVirtAddr,
    (after.translate space.count virtual).isSome = (space.translate space.active virtual).isSome
  copies : ∀ virtual < kernelVirtAddr, ∀ frame copy, space.translate space.active virtual = some frame →
    after.translate space.count virtual = some copy → ¬held copy ∧ ∀ n < 1024, after.words copy n = space.words frame n
  own : ∀ first < kernelVirtAddr, ∀ second < kernelVirtAddr, ∀ copy, after.translate space.count first = some copy →
    after.translate space.count second = some copy → first / physMmBlock = second / physMmBlock
  tables : ∀ iDir : Fin 768, pageIsEnabled (after.dirs space.count iDir) = true →
    ¬held (frameNumber (after.dirs space.count iDir)) ∧ ∀ virtual < kernelVirtAddr,
      after.translate space.count virtual ≠ some (frameNumber (after.dirs space.count iDir))
  unshared : ∀ virtual < kernelVirtAddr, ∀ copy, after.translate space.count virtual = some copy →
    ∀ other, InKernel other → after.translate space.active other ≠ some copy
  kernel : ∀ virtual, InKernel virtual → after.translate space.active virtual = created.translate space.active virtual
  scratch : ∀ n < scratchPages space, after.translate space.active (created.current + physMmBlock * n) = none

theorem translate_below (low : pageDirIndex virtual < 1023) : space.translate dir virtual =
    if pageIsEnabled (space.dirs dir (pageDirIndex virtual)) = true then
      lookup (space.words (frameNumber (space.dirs dir (pageDirIndex virtual))) (pageTblIndex virtual)) else none := by
  rw [Directories.translate, if_neg (Nat.ne_of_lt low)]
  rfl

theorem user_index (user : virtual < kernelVirtAddr) : pageDirIndex virtual < 768 := by
  unfold kernelVirtAddr at user
  unfold pageDirIndex
  omega

theorem lookup_some {word : BitVec 32} {frame : Nat} (found : lookup word = some frame) :
    pageIsEnabled word = true ∧ frameNumber word = frame := by
  rw [lookup] at found
  split at found
  next enabled => exact ⟨enabled, Option.some.inj found⟩
  next => cases found

theorem lookup_isSome (word : BitVec 32) : (lookup word).isSome = pageIsEnabled word := by
  rw [lookup]
  split
  next enabled => exact enabled.symm
  next absent => exact ((Bool.not_eq_true _).mp absent).symm

def placeOf (virtual : Nat) (user : virtual < kernelVirtAddr) : Place :=
  (⟨pageDirIndex virtual, user_index user⟩, some ⟨pageTblIndex virtual, Nat.mod_lt _ (by decide)⟩)

theorem child_page (forking : Forking fork owner passed pages blocks [] space) (user : virtual < kernelVirtAddr) :
    (space.translate fork.child virtual).isSome = (fork.origin.translate fork.origin.active virtual).isSome ∧
      ∀ copy, space.translate fork.child virtual = some copy →
        ∃ frame, fork.origin.translate fork.origin.active virtual = some frame ∧ owner copy =
          some (placeOf virtual user) ∧
          ∀ n < 1024, space.words copy n = fork.origin.words frame n := by
  have low : pageDirIndex virtual < 1023 := (user_index user).trans (by decide)
  obtain ⟨same, copies⟩ := forking.done ⟨pageDirIndex virtual, user_index user⟩ List.not_mem_nil
  simp only at same copies
  have entry : fork.origin.dirs fork.origin.active (pageDirIndex virtual) =
    fork.origin.entry (pageDirIndex virtual) := rfl
  rw [translate_below low, translate_below low, entry, same]
  by_cases enabled : pageIsEnabled (fork.origin.entry (pageDirIndex virtual)) = true
  · obtain ⟨alike, content⟩ := (copies enabled).2 ⟨pageTblIndex virtual, Nat.mod_lt _ (by decide)⟩
    simp only [if_pos enabled, lookup_isSome]
    refine ⟨alike, fun copy found => ?_⟩
    obtain ⟨there, frame⟩ := lookup_some found
    have here := alike.symm.trans there
    obtain ⟨owned, words⟩ := content here
    exact ⟨_, if_pos here, frame ▸ owned, frame ▸ words⟩
  · simp [if_neg enabled]

theorem user_same {other : Nat} (entries : ∀ i < 768, after.dirs other i = before.dirs dir i)
    (words : ∀ frame, held frame → after.words frame = before.words frame)
    (tables : ∀ iDir : Fin 768, pageIsEnabled (before.dirs dir iDir) = true → held (frameNumber (before.dirs dir iDir)))
    (user : virtual < kernelVirtAddr) : after.translate other virtual = before.translate dir virtual := by
  have index := user_index user
  have low : pageDirIndex virtual < 1023 := index.trans (by decide)
  rw [translate_below low, translate_below low, entries _ index]
  by_cases enabled : pageIsEnabled (before.dirs dir (pageDirIndex virtual)) = true
  · rw [if_pos enabled, if_pos enabled, words _ (tables ⟨pageDirIndex virtual, index⟩ enabled)]
  · rw [if_neg enabled, if_neg enabled]

theorem user_held {created : Directories} {frame : Nat} (forks : Forks held space created)
    (user : virtual < kernelVirtAddr)
    (found : space.translate space.active virtual = some frame) : held frame := by
  have index := user_index user
  rw [translate_below (index.trans (by decide))] at found
  split at found
  next enabled =>
    obtain ⟨here, same⟩ := lookup_some found
    exact same ▸ forks.pages ⟨pageDirIndex virtual, index⟩ ⟨pageTblIndex virtual, Nat.mod_lt _ (by decide)⟩ enabled here
  next => cases found

theorem Forking.forked {created : Directories} (forking : Forking fork owner passed pages blocks [] after)
    (origin : fork.origin = { created with heapCurrent := created.current, table := none })
    (many : fork.pages = scratchPages space)
    (limit : fork.limit = takenLast space created) (count : created.count = space.count + 1)
    (active : created.active = space.active)
    (entries : ∀ i < 768, created.entry i = space.entry i)
    (words : ∀ frame, fork.held frame → created.words frame = space.words frame)
    (forks : Forks fork.held space created) : Forked fork.held space created after := by
  have child : fork.child = space.count := by
    rw [Fork.child, origin]
    exact (congrArg (· - 1) count).trans (Nat.add_sub_cancel _ _)
  have originActive : fork.origin.active = space.active := by rw [origin, ← active]
  have originWords : fork.origin.words = created.words := by rw [origin]
  have lastActive : after.active = space.active := forking.stays.active.trans originActive
  have originEntry (i : Nat) (low : i < 768) : fork.origin.dirs fork.origin.active i = space.dirs space.active i := by
    refine Eq.trans ?_ (entries i low)
    rw [origin]
    rfl
  have lastEntry (i : Nat) (low : i < 768) : after.dirs space.active i = space.dirs space.active i := by
    have same := forking.stays.user i low
    rw [Directories.entry, lastActive] at same
    exact same.trans (originEntry i low)
  have contents (frame : Nat) (holds : fork.held frame) : after.words frame = space.words frame := by
    rw [forking.stays.words frame holds, originWords, words frame holds]
  have begins {virtual : Nat} (user : virtual < kernelVirtAddr) :
      fork.origin.translate fork.origin.active virtual = space.translate space.active virtual :=
    user_same originEntry (fun frame holds => (congrFun originWords frame).trans (words frame holds)) forks.tables user
  have kernel (virtual : Nat) (inside : InKernel virtual) :
      after.translate space.active virtual = created.translate space.active virtual := by
    have same := (forking.stays.pages virtual inside id).1
    rw [page, page, lastActive, originActive] at same
    rw [same, origin]
    rfl
  have copies {virtual : Nat} (user : virtual < kernelVirtAddr) := child_page forking user
  rw [child] at copies
  refine ⟨lastEntry, fun virtual user => user_same lastEntry contents forks.tables user, contents,
    fun virtual user => ?_,
    fun virtual user frame copy there here => ?_, fun first one second two copy here there => ?_,
    fun iDir enabled => ?_, fun virtual user copy here other inside there => ?_, kernel, fun n few => ?_⟩
  · rw [(copies user).1, begins user]
  · obtain ⟨source, found, owned, content⟩ := (copies user).2 copy here
    rw [begins user, there] at found
    obtain rfl := Option.some.inj found
    have known : owner copy ≠ none := Option.ne_none_iff_exists'.mpr ⟨_, owned⟩
    refine ⟨(forking.given copy known).1, fun n bound => ?_⟩
    rw [content n bound, originWords, words frame (user_held forks user there)]
  · obtain ⟨-, -, owned, -⟩ := (copies one).2 copy here
    obtain ⟨-, -, owns, -⟩ := (copies two).2 copy there
    rw [owned] at owns
    obtain ⟨index, tbl⟩ := Prod.mk.inj (Option.some.inj owns)
    have bound {virtual : Nat} (user : virtual < kernelVirtAddr) : virtual < 2 ^ 32 := user.trans (by decide)
    exact page_eq (bound one) (bound two) (Fin.val_eq_of_eq index) (Fin.val_eq_of_eq (Option.some.inj tbl))
  · obtain ⟨same, done⟩ := forking.done iDir List.not_mem_nil
    rw [child] at same done
    obtain ⟨owned, -⟩ := done (same ▸ enabled)
    refine ⟨(forking.given _ (Option.ne_none_iff_exists'.mpr ⟨_, owned⟩)).1, fun virtual user here => ?_⟩
    obtain ⟨-, -, owns, -⟩ := (copies user).2 _ here
    rw [owned] at owns
    cases (Prod.mk.inj (Option.some.inj owns)).2
  · obtain ⟨-, -, owned, -⟩ := (copies user).2 copy here
    obtain ⟨-, n, more, less, frame⟩ := forking.given copy (Option.ne_none_iff_exists'.mpr ⟨_, owned⟩)
    rw [kernel other inside] at there
    rw [origin] at more frame
    rw [limit] at less
    refine forks.unused other inside n more less ?_
    rw [active, there, ← frame]
  · have inside := fork.scratch_inside (many ▸ few)
    have same : fork.scratch n = created.current + physMmBlock * n := by rw [Fork.scratch, origin]
    obtain ⟨-, low, -⟩ := inside.indices
    rw [same] at inside low
    have clear := (forks.clear n few).unmapped low
    rw [page, active] at clear
    rw [kernel _ inside, clear]

theorem mallocAlign_aligned (aligned : space.current % physMmBlock = 0) : space.mallocSbrk space.alignGrow =
    some space := by
  have none : space.alignGrow = 0 := if_pos aligned
  rw [none, Directories.mallocSbrk]
  exact if_pos rfl

theorem tables_same {created : Directories} (entries : ∀ i < 768, created.entry i = space.entry i)
    (words : ∀ frame, held frame → created.words frame = space.words frame)
    (tables : ∀ iDir : Fin 768, pageIsEnabled (space.entry iDir) = true → held (frameNumber (space.entry iDir)))
    (iDir : Fin 768) :
    tablePages created iDir = tablePages space iDir ∧ tableFrames created iDir = tableFrames space iDir := by
  have entry := entries iDir iDir.isLt
  rw [tablePages, tablePages, tableFrames, tableFrames, entry]
  by_cases enabled : pageIsEnabled (space.entry iDir) = true
  · have same : presentPages created iDir (List.finRange 1024) = presentPages space iDir (List.finRange 1024) := by
      simp only [presentPages, sourceWord, entry, words _ (tables iDir enabled)]
    simp only [same, and_self]
  · simp only [if_neg enabled, and_self]

/-- The call ends, whatever pages there are. -/
theorem forkDir_forked {created : Directories} {heap : HeapAnswers} (forks : Forks held space created)
    (ran : run dirStep space heap.virtMmAddrCreate = some created) :
    ∃ after, run dirStep space heap.virtMmForkDir = some after ∧ Forked held space created after := by
  have bounded : created.taken ≤ takenLast space created := (Nat.le_add_right _ _).trans (Nat.le_add_right _ _)
  obtain ⟨sound, count, active, blocks, taken, current, entries, words, empty⟩ :=
    addrCreate_passes forks.sound forks.known forks.heap ran ((Nat.le_add_right _ _).trans forks.upper) bounded
  have same (iDir : Fin 768) := tables_same entries words forks.tables iDir
  have source (iDir : Fin 768) (iTbl : Fin 1024) (enabled : pageIsEnabled (space.entry iDir) = true) :
      sourceWord created iDir iTbl = sourceWord space iDir iTbl := by
    rw [sourceWord, sourceWord, entries iDir iDir.isLt, words _ (forks.tables iDir enabled)]
  have lower : kernelVirtAddr ≤ created.current := forks.heap.1.trans current
  obtain ⟨fork, origin, heldSame, limit, many⟩ : ∃ fork : Fork, fork.origin = { created with
      heapCurrent := created.current, table := none } ∧ held = fork.held ∧ fork.limit = takenLast space created ∧
      fork.pages = scratchPages space := by
    refine ⟨⟨{ created with heapCurrent := created.current, table := none }, held, takenLast space created,
      scratchPages space,
      forks.aligned, lower, forks.upper, forks.clear, fun iDir enabled => ?_, fun iDir iTbl enabled here => ?_, ?_⟩,
      rfl, rfl, rfl, by dsimp only⟩
    · have entry : created.entry iDir = space.entry iDir := entries iDir iDir.isLt
      have there : pageIsEnabled (created.entry iDir) = true := enabled
      have holds := forks.tables iDir (entry ▸ there)
      exact entry.symm ▸ holds
    · have entry : created.entry iDir = space.entry iDir := entries iDir iDir.isLt
      have there : pageIsEnabled (created.entry iDir) = true := enabled
      have word := source iDir iTbl (entry ▸ there)
      have shown : pageIsEnabled (sourceWord created iDir iTbl) = true := here
      have holds := forks.pages iDir iTbl (entry ▸ there) (word ▸ shown)
      exact word.symm ▸ holds
    · have known := forks.known
      have own : created.active ≠ created.count - 1 := by omega
      exact own
  subst heldSame
  have pagesSum : ((List.finRange 768).map (tablePages fork.origin)).sum = fork.pages := by
    have each : tablePages fork.origin = tablePages space := by
      rw [origin]
      exact funext fun iDir => (same iDir).1
    rw [each, many, scratchPages]
  have framesSum : ((List.finRange 768).map (tableFrames fork.origin)).sum = childFrames space := by
    have each : tableFrames fork.origin = tableFrames space := by
      rw [origin]
      exact funext fun iDir => (same iDir).2
    rw [each, childFrames]
  have start : Forking fork (fun _ => none) 0 (0 + ((List.finRange 768).map (tablePages fork.origin)).sum)
      (0 + ((List.finRange 768).map (tableFrames fork.origin)).sum) (List.finRange 768) fork.origin := by
    refine ⟨⟨?_, ⟨.refl _ _, fun _ _ _ => ⟨rfl, id⟩⟩, fun _ known => absurd rfl known, rfl, ?_, ?_⟩, ?_,
      fun iDir out => absurd (List.mem_finRange iDir) out, fun iDir _ => ?_⟩
    · have kept : Sound fork.held fork.limit fork.origin := by
        rw [origin, limit]
        exact sound.of_entries (fun _ => rfl) rfl le_rfl
      exact kept.mono fun frame used => used.resolve_right fun known => known rfl
    · rw [pagesSum]
      omega
    · have same : lacking (scratchTables fork.origin.heapCurrent fork.pages) fork.origin =
          lacking (scratchTables created.current (scratchPages space)) created := by
        rw [many, origin]
        exact lacking_same fun _ => rfl
      have taken : fork.origin.taken = created.taken := by rw [origin]
      rw [framesSum, same, limit, taken, Nat.zero_add]
      exact le_rfl
    · rw [origin]
    · have child : fork.child = space.count := by
        rw [Fork.child, origin]
        exact (congrArg (· - 1) count).trans (Nat.add_sub_cancel _ _)
      rw [child, origin]
      exact empty iDir iDir.isLt
  obtain ⟨after, grown, passed, turns, ended⟩ := run_tables (List.nodup_finRange 768) start
  refine ⟨after, run_append.mpr ⟨created, ran, run_cons.mpr ⟨created, mallocAlign_aligned forks.aligned,
    run_cons.mpr ⟨fork.origin, ?_, turns⟩⟩⟩, ended.forked origin many limit count active entries words forks⟩
  rw [origin]
  rfl

/-- The child gets a copy of every page, in frames of its own, and the parent stays as it was. -/
theorem fork_dir_copies {created : Directories} {heap : HeapAnswers} (forks : Forks held space created)
    (ran : run dirStep space heap.virtMmAddrCreate = some created) :
    ∃ after, run dirStep space heap.virtMmForkDir = some after ∧
      (∀ virtual < kernelVirtAddr,
        (after.translate space.count virtual).isSome = (space.translate space.active virtual).isSome) ∧
      (∀ virtual < kernelVirtAddr, ∀ copy, after.translate space.count virtual = some copy →
        ¬held copy ∧
        (∃ frame, space.translate space.active virtual = some frame ∧
          ∀ n < 1024, after.words copy n = space.words frame n) ∧
        (∀ other < kernelVirtAddr, after.translate space.count other = some copy →
          virtual / physMmBlock = other / physMmBlock) ∧
        ∀ other, InKernel other → after.translate space.active other ≠ some copy) ∧
      (∀ virtual < kernelVirtAddr, after.translate space.active virtual = space.translate space.active virtual) ∧
      (∀ frame, held frame → after.words frame = space.words frame) ∧
      (∀ virtual, InKernel virtual → after.translate space.active virtual = created.translate space.active virtual) ∧
      ∀ n < scratchPages space, after.translate space.active (created.current + physMmBlock * n) = none := by
  obtain ⟨after, done, forked⟩ := forkDir_forked forks ran
  refine ⟨after, done, forked.present, fun virtual user copy here => ?_, forked.mappings, forked.contents,
    forked.kernel, forked.scratch⟩
  have there := forked.present virtual user
  rw [here] at there
  obtain ⟨frame, mapped⟩ := Option.isSome_iff_exists.mp there.symm
  obtain ⟨fresh, content⟩ := forked.copies virtual user frame copy mapped here
  exact ⟨fresh, ⟨frame, mapped, content⟩, fun other low same => forked.own virtual user other low copy here same,
    forked.unshared virtual user copy here⟩

/-! ### A process with one page -/

/-- The scratch pages begin with the last page of the only table of the heap. -/
def parentSpace : Directories where
  dirs := fun dir index =>
    if dir = 1 ∧ index = 0 then 0x3007 else if index = 832 then 0x2003 else if index = 1023 then 0x1003 else 0
  count := 2
  active := 1
  words := fun frame index =>
    if frame = 3 ∧ index = 5 then 0x10007 else if frame = 2 ∧ index < 16 then BitVec.ofNat 32 ((index + 32) * 4096 + 3)
    else if frame = 16 then BitVec.ofNat 32 index else 0
  blocks := fun n => BitVec.ofNat 32 ((n + 2048) * 4096)
  taken := 0
  current := 0xD03FF000
  remaining := 0
  heapCurrent := 0
  table := none

def parentHeld (frame : Nat) : Prop := frame = 3 ∨ frame = 16

instance (frame : Nat) : Decidable (parentHeld frame) := inferInstanceAs (Decidable (_ ∨ _))

def freeHeap : HeapAnswers := ⟨fun _ => 0, false, 0xD0001000⟩

theorem parent_entry {i : Nat} (high : 768 ≤ i) (low : i < 1023) :
    parentSpace.entry i = if i = 832 then 0x2003 else 0 := by
  have user : i ≠ 0 := by omega
  have window : i ≠ 1023 := by omega
  simp only [Directories.entry, parentSpace, user, window, and_false, if_false]

theorem parent_table {i : Nat} (high : 768 ≤ i) (low : i < 1023)
    (enabled : pageIsEnabled (parentSpace.entry i) = true) : i = 832 := by
  by_contra other
  rw [parent_entry high low, if_neg other] at enabled
  cases enabled

theorem parent_frame {frame : Nat} (shown : KernelTable parentSpace frame) : frame = 2 := by
  obtain ⟨i, high, low, enabled, same⟩ := shown
  rw [← same, parent_table high low enabled]
  decide

theorem parent_sound : Sound parentHeld 3 parentSpace := by
  refine ⟨by decide, fun i high low missing => ?_, fun i high low j above below one two _ => ?_, fun frame shown => ?_,
    fun n more less => ?_, fun n more less shown => ?_, fun m _ less n _ least same => ?_⟩
  · rw [parent_entry high low] at missing ⊢
    split at missing
    · exact absurd (by decide) missing
    next other => rw [if_neg other]
  · rw [parent_table high low one, parent_table above below two]
  · rw [parent_frame shown]
    decide
  · revert n
    decide
  · have different : ∀ n ≥ parentSpace.taken, n < 3 → frameNumber (parentSpace.blocks n) ≠ 2 := by decide
    exact different n more less (parent_frame shown)
  · revert m n
    decide

def createdSpace (made : Nat → BitVec 32) : Directories :=
  { parentSpace with dirs := Function.update parentSpace.dirs 2 made, count := 3 }

theorem parent_creates : ∃ made, run dirStep parentSpace freeHeap.virtMmAddrCreate = some (createdSpace made) := by
  have returns : (parentSpace.virtMmAddrCreate 0xD0001000).isSome := by decide +kernel
  obtain ⟨created, creates⟩ := Option.isSome_iff_exists.mp returns
  obtain ⟨made, -, same⟩ := addrCreate_made creates
  have aligned : parentSpace.mallocSbrk parentSpace.alignGrow = some parentSpace := mallocAlign_aligned (by decide)
  refine ⟨made,
    run_cons.mpr ⟨parentSpace, aligned, run_cons.mpr ⟨parentSpace, rfl, run_cons.mpr ⟨created, creates, ?_⟩⟩⟩⟩
  rw [same]
  rfl

/-- The heap of the kernel has frames in front of the blocks. -/
theorem parent_kernel (inside : InKernel virtual) {frame : Nat} (found : page parentSpace virtual = some frame) :
    frame < 2048 := by
  obtain ⟨high, low, -⟩ := inside.indices
  rw [page_kernel low] at found
  split at found
  next enabled =>
    obtain ⟨here, same⟩ := lookup_some found
    rw [parent_table high low enabled] at here same
    have small : ∀ i < 16, frameNumber (parentSpace.words (frameNumber (parentSpace.entry 832)) i) < 2048 := by decide
    by_cases few : pageTblIndex virtual < 16
    · exact same ▸ small _ few
    · have none : parentSpace.words (frameNumber (parentSpace.entry 832)) (pageTblIndex virtual) = 0 := by
        have two : frameNumber (parentSpace.entry 832) = 2 := by decide
        rw [two]
        simp [parentSpace, few]
      rw [none] at here
      cases here
  next => cases found

theorem parent_forks (made : Nat → BitVec 32) : Forks parentHeld parentSpace (createdSpace made) := by
  have user : ∀ iDir : Fin 768, pageIsEnabled (parentSpace.entry iDir) = true → iDir = 0 := by decide +kernel
  have table : ∀ iTbl : Fin 1024, pageIsEnabled (sourceWord parentSpace 0 iTbl) = true →
      parentHeld (frameNumber (sourceWord parentSpace 0 iTbl)) := by decide +kernel
  have pages : scratchPages parentSpace = 3 := by decide +kernel
  have last : takenLast parentSpace (createdSpace made) = 3 := by
    have frames : childFrames parentSpace = 2 := by decide +kernel
    have tables : lacking (scratchTables (createdSpace made).current 3) (createdSpace made) = 1 := by
      have same : lacking (scratchTables (createdSpace made).current 3) (createdSpace made) =
          lacking (scratchTables parentSpace.current 3) parentSpace := lacking_same fun _ => rfl
      rw [same]
      decide
    rw [takenLast, frames, pages, tables]
    rfl
  have current : (createdSpace made).current = 0xD03FF000 := rfl
  refine ⟨by decide, ⟨by decide, by decide⟩, fun iDir enabled => ?_, fun iDir iTbl enabled here => ?_, ?_,
    by rw [current]; decide, ?_, fun n few => ?_, fun virtual inside n _ less => ?_⟩
  · rw [user iDir enabled]
    decide
  · obtain rfl := user iDir enabled
    exact table iTbl here
  · rw [last]
    exact parent_sound
  · rw [pages, current]
    decide
  · rw [pages] at few
    have clear : ∀ n < 3, pageIsEnabled (parentSpace.entry (pageDirIndex (0xD03FF000 + physMmBlock * n))) = true →
        parentSpace.words (frameNumber (parentSpace.entry (pageDirIndex (0xD03FF000 + physMmBlock * n))))
          (pageTblIndex (0xD03FF000 + physMmBlock * n)) = 0 := by decide
    exact clear n few
  · rw [last] at less
    intro shared
    have front := parent_kernel inside shared
    have behind : ∀ n < 3, 2048 ≤ frameNumber (parentSpace.blocks n) := by decide
    exact absurd front (Nat.not_lt.mpr (behind n less))

/-- The page of the child has the contents of the page of the parent. -/
theorem fork_dir_copies_example : ∃ after, run dirStep parentSpace freeHeap.virtMmForkDir = some after ∧
    ∃ copy, after.translate 2 0x5000 = some copy ∧ ¬parentHeld copy ∧
      ∀ n < 1024, after.words copy n = BitVec.ofNat 32 n := by
  obtain ⟨made, creates⟩ := parent_creates
  obtain ⟨after, done, present, copies, -⟩ := fork_dir_copies (parent_forks made) creates
  have mapped : parentSpace.translate 1 0x5000 = some 16 := by decide
  have there := present 0x5000 (by decide)
  obtain ⟨copy, found⟩ := Option.isSome_iff_exists.mp (there.trans (Option.isSome_of_eq_some mapped))
  obtain ⟨fresh, ⟨frame, source, content⟩, -⟩ := copies 0x5000 (by decide) copy found
  obtain rfl := Option.some.inj (mapped.symm.trans source)
  exact ⟨after, done, copy, found, fresh, content⟩

end YuzuOS.Proofs.ForkDirectory
