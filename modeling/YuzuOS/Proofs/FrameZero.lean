import YuzuOS.Proofs.MmapPages

/-! The answer `NULL` of the physical allocator. No function that maps pages refuses a
call, so `NULL` is mapped as frame 0; it is mapped only if the allocator answers it. -/

namespace YuzuOS.Proofs.FrameZero
open YuzuOS.Library YuzuOS.Kernel YuzuOS.Proofs.PageTables YuzuOS.Proofs.FramePages

/-- A heap page or a user page. -/
def Tracked (virtual : Nat) : Prop := virtual < 0xC0000000 ∨ heapBottom ≤ virtual ∧ virtual < heapTop

/-- What a caller takes for a failure: `NULL` or `-1` of the break, `NULL` or an error code of a
mapping and an error code of `mmap_brk`. `virt_mm_map_addr` returns nothing. -/
def Failed : FrameCall → Option Int → Prop
  | .sbrk _, some result => result = 0 ∨ result = 2 ^ 32 - 1
  | .map _ _, some result => result = 0 ∨ 2 ^ 32 - 4096 < result
  | .brk _ _, some result => result < 0
  | _, _ => False

/-- The call leaves the page tables, the heap and the break of the process and fails. -/
def Refuses (space : FrameSpace) (call : FrameCall) : Prop :=
  ∃ result next, frameCall space call = some (result, next) ∧ Failed call result ∧ next.paging = space.paging ∧
    next.current = space.current ∧ next.remaining = space.remaining ∧ next.mm.brk = space.mm.brk

/-- The call asks the allocator, of a mapping for user pages. -/
def Asks (space : FrameSpace) : FrameCall → Prop
  | .sbrk increment => space.remaining < increment ∧ increment < 2 ^ 32 ∧ space.current < 2 ^ 32
  | .map addr len => addr < pageTblBase ∧ ∀ result vm mm, Kernel.mmapMap addr len space.mm = some (result, vm, mm) →
      0 < (mm.vms vm).start ∧ (mm.vms vm).start < pageTblBase
  | _ => True

def InHeap (virtual : Nat) : Prop := heapBottom ≤ virtual ∧ virtual < heapTop

def Outside (limit : Nat) (space : MappedSpace) (frame : Nat) : Prop :=
  Fresh space.paging frame ∧ ∀ n, space.taken ≤ n → n < limit → frameNumber (space.blocks n) ≠ frame

/-- So is every frame that the entry of a page may have for it, which keeps the last bit that it had. -/
def Own (limit : Nat) (space : MappedSpace) (frame : Nat) : Prop :=
  ∀ other, other % 2 ^ 19 = frame % 2 ^ 19 → Outside limit space other

/-- From `start` on, the frames of a block are not `NULL`, and those in the heap are of their own. -/
def BlockGiven (limit : Nat) (space : MappedSpace) (block : BitVec 32) (start stop : Nat) : Prop :=
  ∀ k, start + physMmBlock * k < stop → frameNumber (block + BitVec.ofNat 32 (physMmBlock * k)) ≠ 0 ∧
    (InHeap (start + physMmBlock * k) → Own limit space (frameNumber (block + BitVec.ofNat 32 (physMmBlock * k))))

/-- The call maps heap or user pages, and the block for several of them is not `NULL`. -/
def Given (limit : Nat) (space : FrameSpace) : FrameCall → Prop
  | .sbrk increment => heapBottom ≤ space.current ∧ space.current + increment ≤ heapTop ∧ (space.remaining < increment →
      BlockGiven limit space.takeBlock.2 space.takeBlock.1 (divCeil space.current physMmBlock * physMmBlock) (space.current + increment))
  | .mapAddr physical virtual flags => virtual < pageTblBase ∧ pageIsEnabled flags = true ∧ flags.getLsbD 31 = false ∧
      frameNumber physical ≠ 0 ∧ (InHeap virtual → Own limit space.toMappedSpace (frameNumber physical))
  | .map addr len => ∀ result vm mm, Kernel.mmapMap addr len space.mm = some (result, vm, mm) → (mm.vms vm).stop ≤ heapBottom
  | .brk addr len => ∀ result vm mm, Kernel.mmapBrk addr len space.mm = some (result, some vm, mm) → (mm.vms vm).stop ≤ heapBottom ∧
      FramesGiven space.takeBlock.1 (space.mm.vms vm).stop (mm.vms vm).stop

/-- The answers up to `limit` are frames of their own and not `NULL`. No page that is tracked is in
frame 0, and the heap is in frames of its own. -/
structure Supplied (limit : Nat) (space : MappedSpace) : Prop where
  stocked : Stocked space (limit - space.taken)
  answered : ∀ n, space.taken ≤ n → n < limit → frameNumber (space.blocks n) ≠ 0
  held : ∀ virtual, InHeap virtual → ∀ frame, space.paging.translate virtual = some frame → Outside limit space frame
  apart : ∀ virtual, Tracked virtual → space.paging.translate virtual ≠ some 0

variable {limit virtual stop turns : Nat} {space next : MappedSpace} {physical flags : BitVec 32}

theorem tracked_below (tracked : Tracked virtual) : virtual < pageTblBase := by
  unfold Tracked heapTop at tracked
  unfold pageTblBase
  omega

theorem inHeap_tracked (inside : InHeap virtual) : Tracked virtual := .inr inside

theorem inHeap_page {first second : Nat} (same : first / physMmBlock = second / physMmBlock) (inside : InHeap first) :
    InHeap second := by
  unfold InHeap heapBottom heapTop physMmBlock at *
  omega

/-! ### One page -/

/-- A table is made of an answer, so the frames that are no answers stay outside. -/
theorem Outside.step {frame : Nat} (outside : Outside limit space frame) (stocked : Stocked space (limit - space.taken))
    (below : virtual < pageTblBase) (low : flags.getLsbD 31 = false) (mapped : PageMapped physical flags virtual space next)
    (within : next.taken ≤ limit) : Outside limit next frame := by
  have taken := mapped.taken
  refine ⟨⟨fun dir => outside.1.1 (dir.trans mapped.entry.dir), fun i small enabled => ?_⟩, fun n lower upper => ?_⟩
  · rcases mapped.entry.entries i with same | ⟨-, absent, made⟩
    · rw [same] at enabled ⊢
      exact outside.1.2 i small enabled
    · have one : newTables space virtual = 1 := if_neg absent
      rw [made, tableFrame stocked below low absent]
      exact outside.2 space.taken le_rfl (by omega)
  · rw [mapped.blocks]
    exact outside.2 n (by omega) upper

theorem mapAddr_supplied (supplied : Supplied limit space) (below : virtual < pageTblBase)
    (present : pageIsEnabled flags = true) (low : flags.getLsbD 31 = false) (frame : frameNumber physical ≠ 0)
    (own : InHeap virtual → Own limit space (frameNumber physical))
    (ran : space.mapAddr physical virtual flags = some next) (within : next.taken ≤ limit) :
    Supplied limit next ∧ PageMapped physical flags virtual space next := by
  have taken := (mapAddr_taken ran).2.2
  obtain ⟨_, again, mapped, stocked⟩ := mapAddr_stocked physical supplied.stocked below present low (by omega)
  obtain rfl := Option.some.inj (again.symm.trans ran)
  have elsewhere {place : Nat} (inside : place < pageTblBase) (other : place / physMmBlock ≠ virtual / physMmBlock) :
      Other space.paging virtual place :=
    ⟨inside.trans (by decide), other, .inr fun window => Nat.ne_of_lt (below_index inside) window.1⟩
  have left : limit - space.taken - newTables space virtual = limit - _ := (Nat.sub_sub _ _ _).trans (congrArg _ mapped.taken.symm)
  refine ⟨⟨left ▸ stocked, fun n lower upper => ?_, fun place inside there translated => ?_, fun place tracked => ?_⟩, mapped⟩
  · rw [mapped.blocks]
    exact supplied.answered n (by omega) upper
  · by_cases here : place / physMmBlock = virtual / physMmBlock
    · rw [translate_page here, mapped.page] at translated
      obtain rfl := Option.some.inj translated
      exact (own (inHeap_page here inside) _ frameSet_low).step supplied.stocked below low mapped within
    · rw [mapped.others place (elsewhere (tracked_below (inHeap_tracked inside)) here)] at translated
      exact (supplied.held place inside there translated).step supplied.stocked below low mapped within
  · by_cases here : place / physMmBlock = virtual / physMmBlock
    · rw [translate_page here, mapped.page]
      exact fun zero => frameSet_nonzero _ frame (Option.some.inj zero)
    · rw [mapped.others place (elsewhere (tracked_below tracked) here)]
      exact supplied.apart place tracked

/-! ### The loops -/

theorem Supplied.skip (supplied : Supplied limit space) {taken : Nat} (more : space.taken ≤ taken)
    (within : taken ≤ limit) :
    Supplied limit { space with taken } := by
  have later {n : Nat} (inside : Next { space with taken } (limit - taken) n) : Next space (limit - space.taken) n := by
    unfold Next at inside ⊢
    have lower := inside.1
    have upper := inside.2
    simp only at lower upper
    omega
  obtain ⟨⟨tables, clear, fresh, distinct⟩, answered, held, apart⟩ := supplied
  refine ⟨⟨tables, clear, fun n inside => fresh n (later inside), fun n inside m other => distinct n (later inside) m (later other)⟩,
    fun n lower upper => answered n (more.trans lower) upper, fun place inside frame translated => ?_, apart⟩
  have outside := held place inside frame translated
  exact ⟨outside.1, fun n lower upper => outside.2 n (more.trans lower) upper⟩

theorem Supplied.areas (supplied : Supplied limit space) (mm : ProcessMm) : Supplied limit { space with mm } :=
  ⟨supplied.stocked.areas mm, supplied.answered, supplied.held, supplied.apart⟩

theorem mapFrames_supplied {final : Nat} (supplied : Supplied limit space) (below : stop ≤ pageTblBase)
    (present : pageIsEnabled flags = true) (low : flags.getLsbD 31 = false) (given : BlockGiven limit space physical virtual stop)
    (ran : space.mapFrames stop flags turns physical virtual = some (final, next)) (within : next.taken ≤ limit) :
    Supplied limit next := by
  induction turns generalizing space physical virtual with
  | zero => cases ran
  | succ turns ih =>
    rw [MappedSpace.mapFrames] at ran
    split at ran
    next inside =>
      obtain ⟨middle, call, rest⟩ := Option.bind_eq_some_iff.mp ran
      have few := (mapFrames_more rest).1.trans within
      have first : frameNumber physical ≠ 0 ∧ (InHeap virtual → Own limit space (frameNumber physical)) := by
        simpa using given 0 inside
      obtain ⟨one, mapped⟩ := mapAddr_supplied supplied (inside.trans_le below) present low first.1 first.2 call few
      rw [step_fits inside below] at rest
      refine ih one (fun k page => ?_) rest
      have there := given (k + 1) (by rw [Nat.mul_succ]; omega)
      have place : virtual + physMmBlock * (k + 1) = virtual + physMmBlock + physMmBlock * k := by rw [Nat.mul_succ]; omega
      rw [block_step, place] at there
      exact ⟨there.1, fun heap other low' =>
        (there.2 heap other low').step supplied.stocked (inside.trans_le below) low mapped few⟩
    next =>
      cases ran
      exact supplied

theorem mapBlocks_more (ran : space.mapBlocks stop turns virtual = some next) : space.taken ≤ next.taken := by
  induction turns generalizing space virtual with
  | zero => cases ran
  | succ turns ih =>
    rw [MappedSpace.mapBlocks] at ran
    split at ran
    next =>
      obtain ⟨middle, mapped, rest⟩ := Option.bind_eq_some_iff.mp ran
      rw [MmapPages.mapBlock_eq] at mapped
      exact (Nat.le_succ _).trans ((mapAddr_more mapped).trans (ih rest))
    next =>
      cases ran
      exact le_rfl

theorem mapBlocks_supplied (supplied : Supplied limit space) (below : stop ≤ heapBottom)
    (ran : space.mapBlocks stop turns virtual = some next) (within : next.taken ≤ limit) : Supplied limit next := by
  induction turns generalizing space virtual with
  | zero => cases ran
  | succ turns ih =>
    rw [MappedSpace.mapBlocks] at ran
    split at ran
    next inside =>
      obtain ⟨middle, mapped, rest⟩ := Option.bind_eq_some_iff.mp ran
      rw [MmapPages.mapBlock_eq] at mapped
      have few : space.taken + 1 ≤ limit := (mapAddr_more mapped).trans ((mapBlocks_more rest).trans within)
      have one := mapAddr_supplied (supplied.skip (Nat.le_succ _) few) ((inside.trans_le below).trans (by decide)) (by decide) (by decide)
        (supplied.answered _ le_rfl few) (fun heap => absurd heap.1 (Nat.not_le.mpr (inside.trans_le below))) mapped
        ((mapBlocks_more rest).trans within)
      exact ih one.1 rest
    next =>
      cases ran
      exact supplied

/-! ### Cleared memory -/

structure Same (before after : Paging) : Prop where
  dir : after.dir = before.dir
  entries : ∀ i, after.entry i = before.entry i
  translate : ∀ virtual, after.translate virtual = before.translate virtual

theorem Same.trans {before middle after : Paging} (one : Same before middle) (other : Same middle after) : Same before after :=
  ⟨other.dir.trans one.dir, fun i => (other.entries i).trans (one.entries i),
    fun place => (other.translate place).trans (one.translate place)⟩

theorem Same.fresh {before after : Paging} {frame : Nat} (same : Same before after) (fresh : Fresh before frame) : Fresh after frame :=
  ⟨same.dir ▸ fresh.1, fun i low => by
    rw [same.entries]
    exact fresh.2 i low⟩

theorem setWord_same {before : Paging} {frame : Nat} (proper : Proper before) (fresh : Fresh before frame) (index : Nat)
    (word : BitVec 32) : Same before (before.setWord frame index word) := by
  refine ⟨rfl, entry_setWord fresh.1 index, fun place => ?_⟩
  rw [translate_eq, translate_eq, entry_setWord fresh.1]
  by_cases table : pageIsEnabled (before.entry (pageDirIndex place)) = true
  · rw [if_pos table, if_pos table]
    have apart : frameNumber (before.entry (pageDirIndex place)) ≠ frame := by
      by_cases last : pageDirIndex place = 1023
      · rw [last, proper.itself]
        exact fresh.1.symm
      · have index := dirIndex_lt place
        exact fresh.2 _ (by omega) table
    simp only [Paging.setWord, Function.update_of_ne apart]
  · rw [if_neg table, if_neg table]

/-- Memory is set without moving a page where none of it is a table. -/
theorem memset_same {before after : Paging} {byte : BitVec 8} {count : Nat} (proper : Proper before)
    (small : virtual + count ≤ 2 ^ 32) (fresh : ∀ i < count, ∀ frame, before.translate (virtual + i) = some frame → Fresh before frame)
    (ran : before.memset byte count virtual = some after) : Same before after := by
  induction count generalizing before virtual with
  | zero =>
    cases ran
    exact ⟨rfl, fun _ => rfl, fun _ => rfl⟩
  | succ count ih =>
    obtain ⟨middle, stored, rest⟩ := Option.bind_eq_some_iff.mp ran
    obtain ⟨frame, there, rfl⟩ := Option.map_eq_some_iff.mp stored
    have one := setWord_same proper (fresh 0 (Nat.succ_pos _) frame there) (virtual / 4 % 1024)
      (before.words frame (virtual / 4 % 1024) &&& ~~~((0xFF : BitVec 32) <<< (8 * (virtual % 4))) |||
        byte.setWidth 32 <<< (8 * (virtual % 4)))
    rcases Nat.eq_zero_or_pos count with rfl | more
    · cases rest
      exact one
    · rw [Nat.mod_eq_of_lt (by omega)] at rest
      refine one.trans (ih (proper.of_entries one.dir one.entries) (by omega) (fun i inside frame there => ?_) rest)
      rw [one.translate, Nat.add_assoc, Nat.add_comm 1] at there
      exact one.fresh (fresh (i + 1) (Nat.succ_lt_succ inside) frame there)

theorem memset_returns {before : Paging} (byte : BitVec 8) {count : Nat} (proper : Proper before) (small : virtual + count ≤ 2 ^ 32)
    (pages : ∀ i < count, ∃ frame, before.translate (virtual + i) = some frame ∧ Fresh before frame) :
    ∃ after, before.memset byte count virtual = some after := by
  induction count generalizing before virtual with
  | zero => exact ⟨before, rfl⟩
  | succ count ih =>
    obtain ⟨frame, there, fresh⟩ := pages 0 (Nat.succ_pos _)
    obtain ⟨middle, stored, one⟩ : ∃ middle, before.storeByte virtual byte = some middle ∧ Same before middle :=
      ⟨_, congrArg (Option.map _) there, setWord_same proper fresh _ _⟩
    rcases Nat.eq_zero_or_pos count with rfl | more
    · exact ⟨middle, by rw [Paging.memset, stored]; rfl⟩
    · obtain ⟨after, rest⟩ := @ih (virtual + 1) middle (proper.of_entries one.dir one.entries) (by omega) fun i inside => by
        obtain ⟨frame, there, fresh⟩ := pages (i + 1) (Nat.succ_lt_succ inside)
        rw [one.translate, Nat.add_assoc, Nat.add_comm 1]
        exact ⟨frame, there, one.fresh fresh⟩
      exact ⟨after, by rw [Paging.memset, stored, Option.bind_some, Nat.mod_eq_of_lt (by omega), rest]⟩

theorem Supplied.same {paging : Paging} (supplied : Supplied limit space) (same : Same space.paging paging) :
    Supplied limit { space with paging } := by
  have stocked := supplied.stocked
  refine ⟨⟨stocked.tables.of_entries same.dir same.entries, fun i low => ?_, fun n inside => same.fresh (stocked.fresh n inside),
    stocked.distinct⟩, supplied.answered, fun place inside frame there => ?_, fun place tracked => ?_⟩
  · show ¬pageIsEnabled (paging.entry i) = true → paging.entry i = 0
    rw [same.entries]
    exact stocked.clear i low
  · have outside := supplied.held place inside frame ((same.translate place).symm.trans there)
    exact ⟨same.fresh outside.1, outside.2⟩
  · show paging.translate place ≠ some 0
    rw [same.translate]
    exact supplied.apart place tracked

/-! ### Calls -/

theorem mmapBrk_more {addr len : Nat} {result : Int} (ran : space.mmapBrk addr len = some (result, next)) :
    space.taken ≤ next.taken := by
  obtain ⟨⟨value, served, mm⟩, areas, rest⟩ := Option.bind_eq_some_iff.mp ran
  cases served with
  | none =>
    cases rest
    exact le_rfl
  | some vm =>
    dsimp only at rest
    split at rest
    next =>
      obtain ⟨⟨stop, after⟩, mapped, made⟩ := Option.map_eq_some_iff.mp rest
      obtain ⟨-, rfl⟩ := Prod.mk.inj made
      exact (Nat.le_succ _).trans (mapFrames_more mapped).1
    next =>
      cases rest
      exact le_rfl

theorem mmapBrk_supplied {addr len : Nat} {result : Int} (supplied : Supplied limit space)
    (given : ∀ result vm mm, Kernel.mmapBrk addr len space.mm = some (result, some vm, mm) →
      (mm.vms vm).stop ≤ heapBottom ∧ FramesGiven (space.blocks space.taken) (space.mm.vms vm).stop (mm.vms vm).stop)
    (ran : space.mmapBrk addr len = some (result, next)) (within : next.taken ≤ limit) : Supplied limit next := by
  obtain ⟨⟨value, served, mm⟩, areas, rest⟩ := Option.bind_eq_some_iff.mp ran
  cases served with
  | none =>
    cases rest
    exact supplied.areas mm
  | some vm =>
    obtain ⟨below, frames⟩ := given value vm mm areas
    dsimp only at rest
    split at rest
    next =>
      obtain ⟨⟨stop, after⟩, mapped, made⟩ := Option.map_eq_some_iff.mp rest
      obtain ⟨-, rfl⟩ := Prod.mk.inj made
      have one := (supplied.skip (Nat.le_succ _) ((mapFrames_more mapped).1.trans within)).areas mm
      exact mapFrames_supplied one (below.trans (by decide)) (by decide) (by decide)
        (fun k inside => ⟨frames k inside, fun heap => absurd heap.1 (Nat.not_le.mpr (inside.trans_le below))⟩) mapped within
    next =>
      cases rest
      exact supplied.areas mm

theorem sbrk_parts {space next : FrameSpace} {increment result : Nat} (ran : space.mallocSbrk increment = some (result, next)) :
    next = space ∨ increment ≠ 0 ∧ ∃ grown paging, space.mallocGrow increment = some grown ∧
      grown.paging.memset 0 increment space.current = some paging ∧ next = { grown with paging } := by
  unfold FrameSpace.mallocSbrk at ran
  split at ran
  next =>
    cases ran
    exact .inl rfl
  next positive =>
    obtain ⟨grown, more, rest⟩ := Option.bind_eq_some_iff.mp ran
    obtain ⟨paging, cleared, made⟩ := Option.map_eq_some_iff.mp rest
    obtain ⟨-, rfl⟩ := Prod.mk.inj made
    exact .inr ⟨positive, grown, paging, more, cleared, rfl⟩

theorem grow_more {space grown : FrameSpace} {increment : Nat} (ran : space.mallocGrow increment = some grown) :
    space.taken ≤ grown.taken := by
  unfold FrameSpace.mallocGrow at ran
  dsimp only at ran
  split at ran
  next =>
    cases ran
    exact le_rfl
  next =>
    obtain ⟨⟨stop, after⟩, mapped, rfl⟩ := Option.map_eq_some_iff.mp ran
    exact (Nat.le_succ _).trans (mapFrames_more mapped).1

theorem sbrk_more {space next : FrameSpace} {increment result : Nat} (ran : space.mallocSbrk increment = some (result, next)) :
    space.taken ≤ next.taken := by
  rcases sbrk_parts ran with rfl | ⟨-, grown, paging, more, -, rfl⟩
  · exact le_rfl
  · exact (grow_more more :)

theorem grow_supplied {space grown : FrameSpace} {increment : Nat} (supplied : Supplied limit space.toMappedSpace)
    (given : Given limit space (.sbrk increment)) (ran : space.mallocGrow increment = some grown) (within : grown.taken ≤ limit) :
    Supplied limit grown.toMappedSpace := by
  obtain ⟨bottom, top, frames⟩ := given
  unfold FrameSpace.mallocGrow at ran
  dsimp only at ran
  split at ran
  next =>
    cases ran
    exact supplied
  next more =>
    obtain ⟨⟨stop, after⟩, mapped, rfl⟩ := Option.map_eq_some_iff.mp ran
    have whole : (space.current + increment) % 2 ^ 32 = space.current + increment := by
      unfold heapTop at top
      omega
    have rounded : divCeil space.current physMmBlock * physMmBlock % 2 ^ 32 = divCeil space.current physMmBlock * physMmBlock := by
      unfold heapTop at top
      unfold divCeil physMmBlock
      split
      · omega
      · omega
    rw [whole, rounded] at mapped
    have one := supplied.skip (Nat.le_succ _) ((mapFrames_more mapped).1.trans within)
    exact mapFrames_supplied one (top.trans (by decide)) (by decide) (by decide) (frames (Nat.lt_of_not_le more)) mapped within

theorem sbrk_supplied {space next : FrameSpace} {increment result : Nat}
    (supplied : Supplied limit space.toMappedSpace) (given : Given limit space (.sbrk increment))
    (ran : space.mallocSbrk increment = some (result, next)) (within : next.taken ≤ limit) :
    Supplied limit next.toMappedSpace := by
  rcases sbrk_parts ran with rfl | ⟨-, grown, paging, more, cleared, rfl⟩
  · exact supplied
  · have one := grow_supplied supplied given more within
    obtain ⟨bottom, top, -⟩ := given
    refine one.same (memset_same one.stocked.tables (top.trans (by decide)) (fun i inside frame there => ?_) cleared)
    exact (one.held _ ⟨by omega, by omega⟩ frame there).1

theorem frameStep_supplied {space next : FrameSpace} {call : FrameCall} (limit : Nat)
    (ran : frameStep space call = some next) :
    space.taken ≤ next.taken ∧
      (Supplied limit space.toMappedSpace → Given limit space call → next.taken ≤ limit → Supplied limit next.toMappedSpace) := by
  obtain ⟨⟨result, after⟩, called, rfl⟩ := Option.map_eq_some_iff.mp ran
  cases call with
  | sbrk increment =>
    obtain ⟨⟨base, final⟩, grown, made⟩ := Option.map_eq_some_iff.mp called
    obtain ⟨-, rfl⟩ := Prod.mk.inj made
    exact ⟨sbrk_more grown, fun supplied given => sbrk_supplied supplied given grown⟩
  | mapAddr physical virtual flags =>
    obtain ⟨final, mapped, made⟩ := Option.map_eq_some_iff.mp called
    obtain ⟨-, rfl⟩ := Prod.mk.inj made
    exact ⟨mapAddr_more mapped, fun supplied ⟨below, present, low, frame, own⟩ within =>
      (mapAddr_supplied supplied below present low frame own mapped within).1⟩
  | map addr len =>
    obtain ⟨⟨value, final⟩, mapped, made⟩ := Option.map_eq_some_iff.mp called
    obtain ⟨-, rfl⟩ := Prod.mk.inj made
    obtain ⟨⟨place, vm, mm⟩, served, rest⟩ := Option.bind_eq_some_iff.mp mapped
    obtain ⟨last, blocks, made⟩ := Option.map_eq_some_iff.mp rest
    obtain ⟨-, rfl⟩ := Prod.mk.inj made
    have more := mapBlocks_more blocks
    exact ⟨more, fun supplied given => mapBlocks_supplied (supplied.areas mm) (given place vm mm served) blocks⟩
  | brk addr len =>
    obtain ⟨⟨value, final⟩, mapped, made⟩ := Option.map_eq_some_iff.mp called
    obtain ⟨-, rfl⟩ := Prod.mk.inj made
    exact ⟨mmapBrk_more mapped, fun supplied given => mmapBrk_supplied supplied given mapped⟩

theorem run_more {space final : FrameSpace} {calls : List FrameCall} (ran : run frameStep space calls = some final) :
    space.taken ≤ final.taken := by
  induction calls generalizing space with
  | nil =>
    cases ran
    exact le_rfl
  | cons call calls ih =>
    obtain ⟨next, stepped, rest⟩ := run_cons.mp ran
    exact (frameStep_supplied 0 stepped).1.trans (ih rest)

/-- Where the allocator answers every request of a run with frames of their own, no tracked page
comes into frame 0. -/
theorem run_supplied {space final : FrameSpace} {calls : List FrameCall}
    (supplied : Supplied limit space.toMappedSpace) (ran : run frameStep space calls = some final)
    (given : Meets frameStep (Given limit) space calls) (within : final.taken ≤ limit) :
    Supplied limit final.toMappedSpace := by
  induction calls generalizing space with
  | nil =>
    cases ran
    exact supplied
  | cons call calls ih =>
    obtain ⟨next, stepped, rest⟩ := run_cons.mp ran
    exact ih ((frameStep_supplied limit stepped).2 supplied given.1 ((run_more rest).trans within)) rest (given.2 next stepped)

/-! ### Refusals -/

theorem grow_current {space grown : FrameSpace} {increment : Nat} (ran : space.mallocGrow increment = some grown) :
    grown.current = (space.current + increment) % 2 ^ 32 := by
  unfold FrameSpace.mallocGrow at ran
  dsimp only at ran
  split at ran
  next =>
    cases ran
    rfl
  next =>
    obtain ⟨_, -, rfl⟩ := Option.map_eq_some_iff.mp ran
    rfl

theorem sbrk_moves {space next : FrameSpace} {increment result : Nat} (asks : Asks space (.sbrk increment))
    (ran : space.mallocSbrk increment = some (result, next)) : next.current ≠ space.current := by
  obtain ⟨more, small, inside⟩ := asks
  have positive : 0 < increment := Nat.zero_lt_of_lt more
  unfold FrameSpace.mallocSbrk at ran
  rw [if_neg (Nat.ne_of_gt positive)] at ran
  obtain ⟨grown, larger, rest⟩ := Option.bind_eq_some_iff.mp ran
  obtain ⟨paging, -, made⟩ := Option.map_eq_some_iff.mp rest
  obtain ⟨-, rfl⟩ := Prod.mk.inj made
  show grown.current ≠ space.current
  rw [grow_current larger]
  omega

theorem mmapMap_result {addr len result vm : Nat} {mm next : ProcessMm}
    (ran : Kernel.mmapMap addr len mm = some (result, vm, next)) :
    result = if addr ≠ 0 then addr else (next.vms vm).start := by
  obtain ⟨found, -, rest⟩ := Option.bind_eq_some_iff.mp ran
  obtain ⟨⟨served, after⟩, -, made⟩ := Option.map_eq_some_iff.mp rest
  obtain ⟨rfl, rfl, rfl⟩ := Prod.mk.inj made |>.imp_right Prod.mk.inj
  rfl

theorem mmapBrk_result {addr len : Nat} {result : Int} {served : Option Nat} {mm next : ProcessMm}
    (ran : Kernel.mmapBrk addr len mm = some (result, served, next)) : result = 0 := by
  obtain ⟨found, -, rest⟩ := Option.bind_eq_some_iff.mp ran
  cases found with
  | none =>
    cases rest
    rfl
  | some vm =>
    dsimp only at rest
    split at rest
    next =>
      cases rest
      rfl
    next =>
      obtain ⟨after, -, made⟩ := Option.map_eq_some_iff.mp rest
      exact (Prod.mk.inj made).1.symm

/-- No call that asks the allocator ever refuses. -/
theorem never_refuses {space : FrameSpace} {call : FrameCall} (asks : Asks space call) : ¬Refuses space call := by
  intro ⟨result, next, called, failed, paging, current, remaining, brk⟩
  cases call with
  | sbrk increment =>
    obtain ⟨⟨base, final⟩, grown, made⟩ := Option.map_eq_some_iff.mp called
    obtain ⟨-, rfl⟩ := Prod.mk.inj made
    exact sbrk_moves asks grown current
  | mapAddr physical virtual flags =>
    obtain ⟨final, mapped, made⟩ := Option.map_eq_some_iff.mp called
    obtain ⟨rfl, -⟩ := Prod.mk.inj made
    exact failed
  | map addr len =>
    obtain ⟨⟨value, final⟩, mapped, made⟩ := Option.map_eq_some_iff.mp called
    obtain ⟨rfl, -⟩ := Prod.mk.inj made
    obtain ⟨⟨place, vm, mm⟩, served, rest⟩ := Option.bind_eq_some_iff.mp mapped
    obtain ⟨last, blocks, made⟩ := Option.map_eq_some_iff.mp rest
    obtain ⟨rfl, -⟩ := Prod.mk.inj made
    obtain ⟨low, user⟩ := asks
    obtain ⟨positive, start⟩ := user _ _ _ served
    have given := mmapMap_result served
    change (place : Int) = 0 ∨ 2 ^ 32 - 4096 < (place : Int) at failed
    unfold pageTblBase at low start
    split at given
    next => omega
    next => omega
  | brk addr len =>
    obtain ⟨⟨value, final⟩, mapped, made⟩ := Option.map_eq_some_iff.mp called
    obtain ⟨rfl, -⟩ := Prod.mk.inj made
    obtain ⟨⟨answer, served, mm⟩, areas, rest⟩ := Option.bind_eq_some_iff.mp mapped
    have zero := mmapBrk_result areas
    change value < 0 at failed
    have same : value = answer := by
      cases served with
      | none =>
        cases rest
        rfl
      | some vm =>
        dsimp only at rest
        split at rest
        next =>
          obtain ⟨last, -, made⟩ := Option.map_eq_some_iff.mp rest
          exact (Prod.mk.inj made).1.symm
        next =>
          cases rest
          rfl
    omega

/-- An empty heap and no areas, with one table and no page. -/
def emptySpace (blocks : Nat → BitVec 32) : FrameSpace where
  mm := ⟨0, 0, 0, ⟨fun _ => .head, fun _ => .head⟩, fun _ => ⟨0, 0⟩, 0⟩
  paging := onePage 0
  blocks := blocks
  taken := 0
  current := heapBottom
  remaining := 0

/-- Blocks from the sixth frame on. -/
def someBlocks (n : Nat) : BitVec 32 := BitVec.ofNat 32 (4096 * (5 + n))

theorem onePage_empty {virtual : Nat} (below : virtual < pageTblBase) : (onePage 0).translate virtual = none := by
  rw [translate_eq]
  split
  next enabled =>
    rw [onePage_enabled 0 (below_index below) enabled]
    have word : (onePage 0).words (frameNumber ((onePage 0).entry 0)) (pageTblIndex virtual) = 0 := by
      rw [show frameNumber ((onePage 0).entry 0) = 2 by decide]
      simp [onePage]
    rw [word]
    rfl
  next => rfl

theorem empty_supplied : Supplied 2 (emptySpace someBlocks).toMappedSpace := by
  have few (n : Nat) (below : n < 2) : n = 0 ∨ n = 1 := by omega
  refine ⟨⟨onePage_proper 0, fun i small absent => ?_, fun n inside => ?_, fun n inside m other same => ?_⟩, fun n _ below => ?_,
    fun virtual inside frame there => ?_, fun virtual tracked => ?_⟩
  · by_cases first : i = 0
    · subst first
      exact absurd (by decide) absent
    · have last : i ≠ 1023 := by omega
      show (onePage 0).words 1 i = 0
      simp [onePage, first, last]
  · have frame : frameNumber (someBlocks n) = 5 ∨ frameNumber (someBlocks n) = 6 := by
      rcases few n inside.2 with rfl | rfl
      · exact .inl (by decide)
      · exact .inr (by decide)
    show Fresh (onePage 0) (frameNumber (someBlocks n))
    have dir : (onePage 0).dir = 1 := rfl
    refine ⟨by omega, fun i small enabled => ?_⟩
    obtain rfl := onePage_enabled 0 small enabled
    have table : frameNumber ((onePage 0).entry 0) = 2 := by decide
    omega
  · rcases few n inside.2 with rfl | rfl
    · rcases few m other.2 with rfl | rfl
      · rfl
      · exact absurd same (by decide)
    · rcases few m other.2 with rfl | rfl
      · exact absurd same (by decide)
      · rfl
  · rcases few n below with rfl | rfl
    · decide
    · decide
  · have none := onePage_empty (tracked_below (inHeap_tracked inside))
    rw [show (emptySpace someBlocks).paging.translate virtual = Option.none from none] at there
    cases there
  · show (onePage 0).translate virtual ≠ some 0
    rw [onePage_empty (tracked_below tracked)]
    exact (Option.some_ne_none 0).symm

theorem empty_given : Given 2 (emptySpace someBlocks) (.sbrk 16) := by
  refine ⟨by decide, by decide, fun _ k inside => ?_⟩
  have first : k = 0 := by
    have start : divCeil (emptySpace someBlocks).current physMmBlock * physMmBlock = (emptySpace someBlocks).current := by decide
    rw [start, physMmBlock] at inside
    omega
  subst first
  have frame : frameNumber ((emptySpace someBlocks).takeBlock.1 + BitVec.ofNat 32 (physMmBlock * 0)) = 5 := by decide
  rw [frame]
  refine ⟨by decide, fun _ other low => ⟨⟨?_, fun i small enabled => ?_⟩, fun n lower upper => ?_⟩⟩
  · show other ≠ 1
    omega
  · obtain rfl := onePage_enabled 0 small enabled
    show frameNumber ((onePage 0).entry 0) ≠ other
    rw [show frameNumber ((onePage 0).entry 0) = 2 by decide]
    omega
  · obtain rfl : n = 1 := by
      have lower : 1 ≤ n := lower
      omega
    show frameNumber (someBlocks 1) ≠ other
    rw [show frameNumber (someBlocks 1) = 6 by decide]
    omega

/-- Of 512 frames only the one with number 400 is left. -/
def oneLeft : PhysMm := ⟨fun word => if word = 12 then 0xFFFEFFFF else 0xFFFFFFFF, 511, 512⟩

/-- An empty heap under a directory without tables. The allocator answers `NULL` for two frames, and
with the last one for one. -/
def lastFrame : FrameSpace where
  mm := ⟨0, 0, 0, ⟨fun _ => .head, fun _ => .head⟩, fun _ => ⟨0, 0⟩, 0⟩
  paging := { words := fun frame index => if frame = 300 ∧ index = 1023 then 0x12C003 else 0, dir := 300 }
  blocks := fun n => if n = 0 then 0 else 0x190000
  taken := 0
  current := heapBottom
  remaining := 0

example : lastFrame.blocks 0 = BitVec.ofNat 32 (physMmBlockNAlloc 2 oneLeft).1 ∧
    lastFrame.blocks 1 = BitVec.ofNat 32 (physMmBlockAlloc (physMmBlockNAlloc 2 oneLeft).2).1 := by
  constructor <;> decide +kernel

/-- Only the table of the heap is there. -/
def HeapTable (paging : Paging) : Prop :=
  paging.dir = 300 ∧ pageIsEnabled (paging.entry 1023) = true ∧ frameNumber (paging.entry 1023) = 300 ∧
    ∀ i < 1023, pageIsEnabled (paging.entry i) = true → i = 832 ∧ frameNumber (paging.entry i) = 400

instance (paging : Paging) : Decidable (HeapTable paging) := inferInstanceAs (Decidable (_ ∧ _))

theorem HeapTable.proper {paging : Paging} (heap : HeapTable paging) : Proper paging := by
  obtain ⟨dir, enabled, itself, tables⟩ := heap
  refine ⟨enabled, itself.trans dir.symm, fun i low there => ?_, fun i low j less first second _ => ?_⟩
  · rw [(tables i low there).2, dir]
    decide
  · rw [(tables i low first).1, (tables j less second).1]

theorem HeapTable.fresh {paging : Paging} {frame : Nat} (heap : HeapTable paging) (low : frame < 300) : Fresh paging frame := by
  obtain ⟨dir, -, -, tables⟩ := heap
  refine ⟨by omega, fun i small there => ?_⟩
  rw [(tables i small there).2]
  omega

end YuzuOS.Proofs.FrameZero
