import YuzuOS.Library.Run
import YuzuOS.Kernel.Directories
import YuzuOS.Kernel.UserProcess
import YuzuOS.Proofs.PageTables

/-! The kernel halves of the directories. They are copied when a directory is made, and a table
that is made later is only in one directory. -/

namespace YuzuOS.Proofs.KernelHalf
open YuzuOS.Library YuzuOS.Kernel YuzuOS.Proofs.PageTables

/-- Every directory has the entries of `virt_mm_dir` in its kernel half. -/
def Agrees (space : Directories) : Prop :=
  ∀ dir < space.count, ∀ i, 768 ≤ i → i < 1023 → space.dirs dir i = space.dirs 0 i

/-- No table has to be made for an address, which is below the window. -/
def Ready (space : Directories) (dir virtual : Nat) : Prop :=
  pageDirIndex virtual ≠ 1023 ∧ pageIsEnabled (space.dirs dir (pageDirIndex virtual)) = true

/-- The heap grows into pages with tables, or `virt_mm_dir` is alone. -/
def Grows (space : Directories) (grow : Nat) : Prop :=
  space.count = 1 ∨ (space.remaining < grow →
    ∀ virtual, divCeil space.current physMmBlock * physMmBlock % 2 ^ 32 ≤ virtual →
      virtual < (space.current + grow) % 2 ^ 32 → Ready space 0 virtual)

/-- A step that makes a table finds `virt_mm_dir` alone. -/
def Covered (space : Directories) : DirStep → Prop
  | .malloc grow => Grows space grow
  | .mallocAlign => Grows space space.alignGrow
  | .forkTable iDir => pageIsEnabled (space.entry iDir) = true → Ready space space.active space.heapCurrent
  | .forkPage iDir iTbl => space.table ≠ none → pageIsEnabled (space.tableWord iDir iTbl) = true →
      Ready space space.active space.heapCurrent ∧
        Ready space space.active ((space.heapCurrent + physMmBlock) % 2 ^ 32)
  | _ => True

structure Shared (space : Directories) : Prop where
  halves : Agrees space
  active : space.active < space.count
  scratch : ∀ virtualTbl physicalTbl, space.table = some (virtualTbl, physicalTbl) → pageDirIndex virtualTbl ≠ 1023

/-- A call that makes no directory and installs none. -/
structure Alike (before after : Directories) : Prop where
  count : after.count = before.count
  active : after.active = before.active
  table : after.table = before.table

/-- A call that writes no directory either. -/
structure Kept (before after : Directories) : Prop extends Alike before after where
  dirs : after.dirs = before.dirs

variable {space before middle after : Directories} {dir virtual index tbl : Nat} {physical flags word : BitVec 32}

theorem scratch_none (outside : space.table = none) :
    ∀ virtualTbl physicalTbl, space.table = some (virtualTbl, physicalTbl) → pageDirIndex virtualTbl ≠ 1023 := by
  intro virtualTbl physicalTbl here
  rw [outside] at here
  cases here

theorem Alike.refl (space : Directories) : Alike space space := ⟨rfl, rfl, rfl⟩

theorem Alike.trans (first : Alike before middle) (second : Alike middle after) : Alike before after :=
  ⟨second.count.trans first.count, second.active.trans first.active, second.table.trans first.table⟩

theorem Kept.refl (space : Directories) : Kept space space := ⟨.refl space, rfl⟩

theorem Kept.trans (first : Kept before middle) (second : Kept middle after) : Kept before after :=
  ⟨first.toAlike.trans second.toAlike, second.dirs.trans first.dirs⟩

theorem Kept.ready (kept : Kept before after) (ready : Ready before dir virtual) : Ready after dir virtual := by
  rw [Ready, kept.dirs]
  exact ready

theorem Kept.shared (kept : Kept before after) (shared : Shared before) : Shared after := by
  refine ⟨fun dir known => ?_, ?_, ?_⟩
  · rw [kept.dirs]
    exact shared.halves dir (kept.count ▸ known)
  · rw [kept.active, kept.count]
    exact shared.active
  · rw [kept.table]
    exact shared.scratch

/-! ### Mapping and unmapping -/

theorem setTableWord_kept (below : index ≠ 1023) : Kept space (space.setTableWord index tbl word) := by
  rw [Directories.setTableWord, if_neg below]
  exact ⟨⟨rfl, rfl, rfl⟩, rfl⟩

theorem setTableWord_alike : Alike space (space.setTableWord index tbl word) := by
  rw [Directories.setTableWord]
  split <;> exact ⟨rfl, rfl, rfl⟩

theorem mapTable_alike (made : space.virtMmMapTable dir index flags = some after) : Alike space after := by
  rw [Directories.virtMmMapTable] at made
  split at made
  · cases made
    exact .refl _
  · dsimp only at made
    split at made
    · cases made
      rw [Directories.clearTable]
      split <;> exact ⟨rfl, rfl, rfl⟩
    · cases made

theorem mapAddr_alike (mapped : space.virtMmMapAddr dir physical virtual flags = some after) : Alike space after := by
  obtain ⟨middle, made, set⟩ := Option.bind_eq_some_iff.mp mapped
  split at set
  · cases set
    exact (mapTable_alike made).trans setTableWord_alike
  · cases set

theorem mapAddr_kept (ready : Ready space dir virtual) (mapped : space.virtMmMapAddr dir physical virtual flags = some after) :
    Kept space after := by
  rw [Directories.virtMmMapAddr, Directories.virtMmMapTable, if_pos ready.2, Option.bind_some] at mapped
  split at mapped
  · cases mapped
    exact setTableWord_kept ready.1
  · cases mapped

theorem addrUnmap_kept (below : pageDirIndex virtual ≠ 1023) (unmapped : space.virtMmAddrUnmap dir virtual = some after) :
    Kept space after := by
  rw [Directories.virtMmAddrUnmap] at unmapped
  split at unmapped
  · split at unmapped
    · split at unmapped
      · cases unmapped
        exact setTableWord_kept below
      · cases unmapped
        exact .refl _
    · cases unmapped
  · cases unmapped
    exact .refl _

/-! ### The heap -/

theorem below_of_ready (ready : Ready space dir virtual) (inside : virtual < 2 ^ 32) : virtual + physMmBlock < 2 ^ 32 := by
  have other := ready.1
  unfold pageDirIndex at other
  unfold physMmBlock
  omega

theorem mapFrames_alike {turns stop last : Nat} (mapped : space.mapFrames stop turns physical virtual = some (last, after)) :
    Alike space after := by
  induction turns generalizing physical virtual space with
  | zero => cases mapped
  | succ turns ih =>
    rw [Directories.mapFrames] at mapped
    split at mapped
    · obtain ⟨middle, first, rest⟩ := Option.bind_eq_some_iff.mp mapped
      exact (mapAddr_alike first).trans (ih rest)
    · cases mapped
      exact .refl _

theorem mapFrames_kept {turns stop last : Nat} (small : stop < 2 ^ 32)
    (ready : ∀ page, virtual ≤ page → page < stop → Ready space 0 page)
    (mapped : space.mapFrames stop turns physical virtual = some (last, after)) : Kept space after := by
  induction turns generalizing physical virtual space with
  | zero => cases mapped
  | succ turns ih =>
    rw [Directories.mapFrames] at mapped
    split at mapped
    next more =>
      obtain ⟨middle, first, rest⟩ := Option.bind_eq_some_iff.mp mapped
      have here := ready virtual le_rfl more
      have kept := mapAddr_kept here first
      rw [Nat.mod_eq_of_lt (below_of_ready here (more.trans small))] at rest
      refine kept.trans (ih (fun page lower upper => ?_) rest)
      exact kept.ready (ready page ((Nat.le_add_right _ _).trans lower) upper)
    next =>
      cases mapped
      exact .refl _

theorem sbrk_alike {increment : Nat} (ran : space.mallocSbrk increment = some after) : Alike space after := by
  rw [Directories.mallocSbrk] at ran
  dsimp only at ran
  split at ran
  · cases ran
    exact .refl _
  · split at ran
    · cases ran
      exact ⟨rfl, rfl, rfl⟩
    · obtain ⟨⟨last, mapped⟩, frames, same⟩ := Option.map_eq_some_iff.mp ran
      have alike := mapFrames_alike frames
      rw [← same]
      exact ⟨alike.count, alike.active, alike.table⟩

theorem sbrk_kept {increment : Nat} (ran : space.mallocSbrk increment = some after)
    (ready : space.remaining < increment → ∀ page, divCeil space.current physMmBlock * physMmBlock % 2 ^ 32 ≤ page →
      page < (space.current + increment) % 2 ^ 32 → Ready space 0 page) : Kept space after := by
  rw [Directories.mallocSbrk] at ran
  dsimp only at ran
  split at ran
  · cases ran
    exact .refl _
  · split at ran
    · cases ran
      exact ⟨⟨rfl, rfl, rfl⟩, rfl⟩
    next more =>
      obtain ⟨⟨last, mapped⟩, frames, same⟩ := Option.map_eq_some_iff.mp ran
      have kept : Kept space.takeBlock.2 mapped :=
        mapFrames_kept (Nat.mod_lt _ (by decide)) (fun page => ready (Nat.lt_of_not_le more) page) frames
      rw [← same]
      exact ⟨⟨kept.count, kept.active, kept.table⟩, kept.dirs⟩

/-! ### Copies of pages -/

theorem store_kept (stored : space.store virtual word = some after) : Kept space after := by
  obtain ⟨frame, -, same⟩ := Option.map_eq_some_iff.mp stored
  rw [← same]
  exact ⟨⟨rfl, rfl, rfl⟩, rfl⟩

theorem foldlM_kept {α : Type} {body : Directories → α → Option Directories}
    (each : ∀ before item after, body before item = some after → Kept before after) {items : List α}
    (ran : items.foldlM body space = some after) : Kept space after := by
  induction items generalizing space with
  | nil =>
    cases ran
    exact .refl _
  | cons item rest ih =>
    rw [List.foldlM_cons] at ran
    obtain ⟨middle, first, later⟩ := Option.bind_eq_some_iff.mp ran
    exact (each _ _ _ first).trans (ih later)

theorem clearPage_kept (cleared : space.clearPage virtual = some after) : Kept space after :=
  foldlM_kept (fun _ _ _ stored => store_kept stored) cleared

theorem copyPage_kept {target source : Nat} (copied : space.copyPage target source = some after) : Kept space after := by
  refine foldlM_kept (fun before i after stored => ?_) copied
  obtain ⟨word, -, stored⟩ := Option.bind_eq_some_iff.mp stored
  exact store_kept stored

/-! ### Steps -/

theorem forkTable_shared {iDir : Fin 768} (shared : Shared space) (covered : Covered space (.forkTable iDir))
    (ran : space.forkTable iDir = some after) : Shared after := by
  rw [Directories.forkTable] at ran
  split at ran
  next present =>
    obtain ⟨mapped, first, ran⟩ := Option.bind_eq_some_iff.mp ran
    obtain ⟨cleared, second, same⟩ := Option.map_eq_some_iff.mp ran
    have ready := covered present
    have start : Kept space space.takeBlock.2 := ⟨⟨rfl, rfl, rfl⟩, rfl⟩
    have one : Kept space.takeBlock.2 mapped := mapAddr_kept ready first
    have mostly := ((start.trans one).trans (clearPage_kept second)).shared shared
    rw [← same]
    refine ⟨fun dir known => mostly.halves dir known, mostly.active, fun virtualTbl physicalTbl here => ?_⟩
    simp only [Option.some.injEq, Prod.mk.injEq] at here
    exact here.1 ▸ ready.1
  next =>
    cases ran
    exact ⟨shared.halves, shared.active, scratch_none rfl⟩

theorem forkCopy_kept {virtualTbl : Nat} {iTbl : Fin 1024} (ready : Ready space space.active space.heapCurrent)
    (next : Ready space space.active ((space.heapCurrent + physMmBlock) % 2 ^ 32))
    (ran : space.forkCopy virtualTbl iTbl word = some after) : Kept space after := by
  rw [Directories.forkCopy] at ran
  generalize (space.heapCurrent + physMmBlock) % 2 ^ 32 = forkedEntry at ran next
  dsimp only at ran
  generalize (forkedEntry + physMmBlock) % 2 ^ 32 = heapCurrent at ran
  obtain ⟨first, mapped, ran⟩ := Option.bind_eq_some_iff.mp ran
  obtain ⟨second, forked, ran⟩ := Option.bind_eq_some_iff.mp ran
  obtain ⟨third, copied, ran⟩ := Option.bind_eq_some_iff.mp ran
  obtain ⟨fourth, unmapped, ran⟩ := Option.bind_eq_some_iff.mp ran
  obtain ⟨fifth, released, stored⟩ := Option.bind_eq_some_iff.mp ran
  have start : Kept space { space with heapCurrent := heapCurrent, taken := space.taken + 1 } := ⟨⟨rfl, rfl, rfl⟩, rfl⟩
  have one := start.trans (mapAddr_kept (start.ready ready) mapped)
  have same : first.active = space.active := one.active
  rw [same] at forked
  have two := one.trans (mapAddr_kept (one.ready next) forked)
  have three := two.trans (copyPage_kept copied)
  have four := three.trans (addrUnmap_kept ready.1 unmapped)
  exact (four.trans (addrUnmap_kept next.1 released)).trans (store_kept stored)

theorem forkPage_shared {iDir : Fin 768} {iTbl : Fin 1024} (shared : Shared space)
    (covered : Covered space (.forkPage iDir iTbl)) (ran : space.forkPage iDir iTbl = some after) : Shared after := by
  rw [Directories.forkPage] at ran
  cases inside : space.table with
  | none =>
    rw [inside] at ran
    cases ran
    exact shared
  | some table =>
    rw [inside] at ran
    dsimp only at ran
    split at ran
    · split at ran
      next present =>
        obtain ⟨ready, next⟩ := covered (by rw [inside]; exact Option.some_ne_none table) present
        exact (forkCopy_kept ready next ran).shared shared
      next =>
        cases ran
        exact shared
    · cases ran

theorem forkEntry_shared {iDir : Fin 768} (shared : Shared space) (ran : space.forkEntry iDir = some after) : Shared after := by
  rw [Directories.forkEntry] at ran
  cases inside : space.table with
  | none =>
    rw [inside] at ran
    cases ran
    exact shared
  | some table =>
    rw [inside] at ran
    obtain ⟨unmapped, first, same⟩ := Option.map_eq_some_iff.mp ran
    have kept := (addrUnmap_kept (shared.scratch _ _ inside) first).shared shared
    rw [← same]
    -- the entry that is written lies in the user half
    have upper (dir i : Nat) (high : 768 ≤ i) :
        (unmapped.setEntry (unmapped.count - 1) iDir (table.2 ||| pageTblFlags)).dirs dir i = unmapped.dirs dir i := by
      have other : i ≠ iDir := by omega
      dsimp only [Directories.setEntry]
      rw [Function.update_apply]
      split
      next here => rw [Function.update_of_ne other, here]
      next => rfl
    refine ⟨fun dir known i high low => ?_, kept.active, scratch_none rfl⟩
    exact (upper dir i high).trans ((kept.halves dir known i high low).trans (upper 0 i high).symm)

theorem create_copies {entries : List Nat} {start copied : Nat → BitVec 32} (inside : ∀ i ∈ entries, i < 1024)
    (ran : entries.foldlM (fun dir i =>
      (space.virtMmPhysAddrGet (pageTblBase + i * physMmBlock)).map (Function.update dir i)) start = some copied)
    {i : Nat} (here : i ∈ entries ∨ start i = space.entry i) : copied i = space.entry i := by
  induction entries generalizing start with
  | nil =>
    cases ran
    exact here.resolve_left List.not_mem_nil
  | cons first rest ih =>
    rw [List.foldlM_cons] at ran
    obtain ⟨next, updated, ran⟩ := Option.bind_eq_some_iff.mp ran
    obtain ⟨word, got, same⟩ := Option.map_eq_some_iff.mp updated
    have window := window_index (inside first List.mem_cons_self)
    rw [Directories.virtMmPhysAddrGet, window.1, window.2] at got
    have entry : word = space.entry first := by
      split at got
      · rw [Directories.tableWord, if_pos rfl] at got
        exact (Option.some.inj got).symm
      · cases got
    refine ih (fun i member => inside i (List.mem_cons_of_mem _ member)) ran ?_
    rw [← same]
    by_cases own : i = first
    · right
      rw [own, Function.update_self, entry]
    · rw [Function.update_of_ne own]
      exact here.imp_left fun member => (List.mem_cons.mp member).resolve_left own

theorem addrCreate_shared {address : Nat} (shared : Shared space) (ran : space.virtMmAddrCreate address = some after) :
    Shared after := by
  obtain ⟨copied, entries, ran⟩ := Option.bind_eq_some_iff.mp ran
  obtain ⟨last, -, same⟩ := Option.map_eq_some_iff.mp ran
  have inside : ∀ i ∈ List.range' 768 255, i < 1024 := fun i member => by
    have bounds := List.mem_range'_1.mp member
    omega
  have active := shared.active
  have zero : 0 ≠ space.count := by omega
  rw [← same]
  refine ⟨fun dir known i high low => ?_, Nat.lt_succ_of_lt active, shared.scratch⟩
  have kernel : Function.update space.dirs space.count (Function.update copied 1023 last) 0 i = space.dirs 0 i := by
    rw [Function.update_of_ne zero]
  refine Eq.trans ?_ kernel.symm
  by_cases new : dir = space.count
  · have member : i ∈ List.range' 768 255 := List.mem_range'_1.mpr ⟨high, by omega⟩
    have copy := create_copies inside entries (.inl member)
    simp only [new, Function.update_self, Function.update_of_ne (Nat.ne_of_lt low)]
    rw [copy]
    exact shared.halves _ active i high low
  · simp only [Function.update_of_ne new]
    exact shared.halves dir (Nat.lt_of_le_of_ne (Nat.le_of_lt_succ known) new) i high low

theorem sbrk_shared {grow : Nat} (shared : Shared space) (grows : Grows space grow)
    (ran : space.mallocSbrk grow = some after) : Shared after := by
  cases grows with
  | inl alone =>
    have alike := sbrk_alike ran
    have only : after.count = 1 := alike.count.trans alone
    refine ⟨fun dir known i _ _ => ?_, ?_, ?_⟩
    · rw [only] at known
      rw [Nat.lt_one_iff.mp known]
    · rw [alike.active, alike.count]
      exact shared.active
    · rw [alike.table]
      exact shared.scratch
  | inr ready => exact (sbrk_kept ran ready).shared shared

theorem step_shared {step : DirStep} (shared : Shared before) (covered : Covered before step)
    (stepped : dirStep before step = some after) : Shared after := by
  cases step with
  | malloc grow => exact sbrk_shared shared covered stepped
  | mallocAlign => exact sbrk_shared shared covered stepped
  | addrCreate address => exact addrCreate_shared shared stepped
  | forkStart =>
    cases stepped
    exact ⟨shared.halves, shared.active, scratch_none rfl⟩
  | forkTable iDir => exact forkTable_shared shared covered stepped
  | forkPage iDir iTbl => exact forkPage_shared shared covered stepped
  | forkEntry iDir => exact forkEntry_shared shared stepped
  | switch dir =>
    rw [dirStep] at stepped
    split at stepped
    next known =>
      cases stepped
      exact ⟨shared.halves, known, shared.scratch⟩
    next => cases stepped

theorem Agrees.translate (agrees : Agrees space) (known : dir < space.count) (lower : kernelVirtAddr ≤ virtual)
    (upper : virtual < pageTblBase) : space.translate dir virtual = space.translate 0 virtual := by
  have low := below_index upper
  have high : 768 ≤ pageDirIndex virtual := by
    unfold kernelVirtAddr at lower
    unfold pageTblBase at upper
    unfold pageDirIndex
    omega
  rw [Directories.translate, Directories.translate, agrees dir known _ high low]
  simp only [if_neg (Nat.ne_of_lt low)]

structure Boots (start : Directories) : Prop where
  count : start.count = 1
  active : start.active = 0
  table : start.table = none

theorem Boots.shared {start : Directories} (boots : Boots start) : Shared start := by
  refine ⟨fun dir known i _ _ => ?_, ?_, scratch_none boots.table⟩
  · rw [boots.count] at known
    rw [Nat.lt_one_iff.mp known]
  · rw [boots.active, boots.count]
    exact Nat.one_pos

/-- In a run whose steps find `virt_mm_dir` alone where they make a table, all directories have the same kernel half. -/
theorem kernel_half_shared {start : Directories} {calls : List DirCall} (boots : Boots start)
    (met : Meets dirStep Covered start (calls.flatMap DirCall.steps)) :
    ∀ done rest, calls.flatMap DirCall.steps = done ++ rest → ∀ reached, run dirStep start done = some reached →
      Agrees reached ∧ ∀ dir < reached.count, ∀ virtual, kernelVirtAddr ≤ virtual → virtual < pageTblBase →
        reached.translate dir virtual = reached.translate 0 virtual := by
  intro done rest split reached ran
  rw [split] at met
  have shared := run_invariant Shared (fun _ _ _ => step_shared) boots.shared (meets_append met ran).1 ran
  exact ⟨shared.halves, fun dir known virtual lower upper => shared.halves.translate known lower upper⟩

/-- A heap that fills its first table, with `virt_mm_dir` alone. -/
def grownHeap : Directories where
  dirs := fun dir index => if dir = 0 ∧ index = 832 then 0x2003 else if dir = 0 ∧ index = 1023 then 0x1003 else 0
  count := 1
  active := 0
  words := fun frame index => if frame = 2 then BitVec.ofNat 32 ((index + 3) * 4096 + 3) else 0
  blocks := fun n => BitVec.ofNat 32 ((n + 2048) * 4096)
  taken := 0
  current := 0xD0400000
  remaining := 0
  heapCurrent := 0
  table := none

def smallHeap : Directories := { grownHeap with
  words := fun frame index => if frame = 2 ∧ index < 3 then BitVec.ofNat 32 ((index + 3) * 4096 + 3) else 0
  current := 0xD0003000 }

/-- A process is loaded from free blocks, with its directory in the second page of the heap. -/
def exampleLoad : DirCall := .load ⟨fun _ => 0, false, 0xD0001000⟩

theorem exampleLoad_covered : Meets dirStep Covered smallHeap (exampleLoad.steps ++ [.switch 1]) := by
  have stays : smallHeap.mallocSbrk 0 = some smallHeap := rfl
  have aligned : smallHeap.mallocSbrk smallHeap.alignGrow = some smallHeap := rfl
  have silent (state : Directories) : Covered state (.malloc 0) := .inr fun more => absurd more (Nat.not_lt_zero _)
  refine ⟨silent _, fun one first => ?_⟩
  obtain rfl := Option.some.inj (stays.symm.trans first)
  refine ⟨.inl rfl, fun two second => ?_⟩
  obtain rfl := Option.some.inj (aligned.symm.trans second)
  refine ⟨silent _, fun three third => ?_⟩
  refine ⟨trivial, fun four fourth => meets_of_mem (fun step member state => ?_) four⟩
  cases step with
  | malloc grow =>
    have none : grow = 0 := by simpa [HeapAnswers.mallocs] using member
    exact none ▸ silent state
  | mallocAlign => simp [HeapAnswers.mallocs] at member
  | addrCreate address => trivial
  | forkStart => trivial
  | forkTable iDir => simp [HeapAnswers.mallocs] at member
  | forkPage iDir iTbl => simp [HeapAnswers.mallocs] at member
  | forkEntry iDir => trivial
  | switch dir => trivial

/-- When the directory of the process is installed, the heap grows by a page of its first table. -/
def exampleCalls : List DirCall := [exampleLoad, .switch 1, .malloc 4096]

theorem kernel_half_shared_example : (run dirStep smallHeap (exampleCalls.flatMap DirCall.steps)).isSome ∧
    ∀ done rest, exampleCalls.flatMap DirCall.steps = done ++ rest → ∀ reached, run dirStep smallHeap done = some reached →
      Agrees reached ∧ ∀ dir < reached.count, ∀ virtual, kernelVirtAddr ≤ virtual → virtual < pageTblBase →
        reached.translate dir virtual = reached.translate 0 virtual := by
  have split : exampleCalls.flatMap DirCall.steps = (exampleLoad.steps ++ [.switch 1]) ++ [.malloc 4096] := rfl
  have ends : (run dirStep smallHeap (exampleLoad.steps ++ [.switch 1])).map
      (fun reached => (reached.current, pageIsEnabled (reached.dirs 0 832))) = some (0xD0003000, true) := by
    decide +kernel
  have covered : Meets dirStep Covered smallHeap (exampleCalls.flatMap DirCall.steps) := by
    rw [split]
    refine exampleLoad_covered.append fun middle ran => ⟨.inr fun _ virtual lower upper => ?_, fun _ _ => trivial⟩
    rw [ran] at ends
    obtain ⟨current, enabled⟩ := Prod.mk.inj (Option.some.inj ends)
    have start : divCeil 0xD0003000 physMmBlock * physMmBlock % 2 ^ 32 = 0xD0003000 := by decide
    rw [show middle.current = 0xD0003000 from current] at lower upper
    rw [start] at lower
    have index : pageDirIndex virtual = 832 := by
      unfold pageDirIndex
      omega
    rw [Ready, index]
    exact ⟨by decide, enabled⟩
  exact ⟨by decide +kernel, kernel_half_shared ⟨rfl, rfl, rfl⟩ covered⟩

/-- The page behind the first table of the heap gets a table that the process loaded before does not have. -/
theorem kernel_half_drifts : ¬∀ (start : Directories) (calls : List DirCall) (reached : Directories), Boots start →
    run dirStep start (calls.flatMap DirCall.steps) = some reached → Agrees reached := by
  intro right
  have run_eq : (run dirStep grownHeap (exampleLoad.steps ++ [.malloc 4096])).map
      (fun reached => (reached.count, decide (reached.dirs 1 833 = reached.dirs 0 833))) = some (2, false) := by
    decide +kernel
  obtain ⟨reached, ran, values⟩ := Option.map_eq_some_iff.mp run_eq
  obtain ⟨count, differs⟩ := Prod.mk.inj values
  have agrees := right grownHeap [exampleLoad, .malloc 4096] reached ⟨rfl, rfl, rfl⟩ ran
  have known : 1 < reached.count := by omega
  exact of_decide_eq_false differs (agrees 1 known 833 (by decide) (by decide))

end YuzuOS.Proofs.KernelHalf
