import YuzuOS.Proofs.FramePages
import YuzuOS.Proofs.UserBreak

/-! The promise of `brk` for any address and any list of areas: an error and nothing
changed, or a break that has reached the address over pages of the heap alone. -/

namespace YuzuOS.Proofs.BreakContract
open YuzuOS.Library YuzuOS.Kernel YuzuOS.Proofs.MemoryAreas YuzuOS.Proofs.UserPages YuzuOS.Proofs.UserBreak
  YuzuOS.Proofs.PageTables YuzuOS.Proofs.FramePages

variable {space after next : MappedSpace} {mm : ProcessMm} {areas : List Nat} {vm addr brk brkStart : Nat}

/-- A well-formed list of areas with the heap area among them. -/
structure HeapList (mm : ProcessMm) (brkStart : Nat) (areas : List Nat) (vm : Nat) : Prop where
  listed : Listed mm.links areas
  allocated : ∀ other ∈ areas, other < mm.vmCount
  regular : ∀ other ∈ areas, Regular (mm.vms other)
  sorted : areas.Pairwise fun first second => (mm.vms first).stop ≤ (mm.vms second).start
  member : vm ∈ areas
  start : (mm.vms vm).start = brkStart

/-- A process whose heap is mapped. The kernel's half starts at the first frame, where `virt_mm_init`
maps it, and the allocator has a block for every table that may be missing. -/
structure HeapSpace (space : MappedSpace) (brkStart : Nat) (areas : List Nat) (vm : Nat) : Prop where
  list : HeapList space.mm brkStart areas vm
  mapped : ∀ place, (space.mm.vms vm).start ≤ place → place < (space.mm.vms vm).stop → space.paging.translate place ≠ none
  kernel : space.paging.translate kernelVirtAddr = some 0
  stocked : Stocked space 1024

def Disjoint (first second : ProcessVm) : Prop := first.stop ≤ second.start ∨ second.stop ≤ first.start

structure Refused (space after : MappedSpace) (areas : List Nat) (result : Int) : Prop where
  negative : result < 0
  brk : after.mm.brk = space.mm.brk
  listed : Listed after.mm.links areas
  vms : ∀ other ∈ areas, after.mm.vms other = space.mm.vms other
  paging : after.paging = space.paging

structure Reached (after : MappedSpace) (brkStart : Nat) (areas : List Nat) (vm addr : Nat) : Prop where
  brk : addr ≤ after.mm.brk
  mapped : ∀ place, brkStart ≤ place → place < after.mm.brk → after.paging.translate place ≠ none
  listed : Listed after.mm.links areas
  disjoint : ∀ other ∈ areas, other ≠ vm → Disjoint (after.mm.vms other) (after.mm.vms vm)

/-- The call comes back, so the kernel has the pages that it runs in, and keeps its promise. -/
def BrkContract (space : MappedSpace) (brkStart : Nat) (areas : List Nat) (vm addr : Nat) : Prop :=
  ∃ result after, space.syscallBrk brkStart addr = some (result, after) ∧ Keeps space after (kernelVirtAddr ≤ ·) ∧
    (Refused space after areas result ∨ Reached after brkStart areas vm addr)

/-- The address can be rounded up to a page, and no other area begins between the end of the
heap area and there. -/
def Clear (mm : ProcessMm) (areas : List Nat) (vm addr : Nat) : Prop :=
  addr + physMmBlock ≤ 2 ^ 32 ∧
    ∀ other ∈ areas, (mm.vms vm).stop ≤ (mm.vms other).start → pageAlign addr ≤ (mm.vms other).start

/-- The address is below the heap; or nothing is in the way of the heap, neither an area nor the kernel. -/
def BrkServed (space : MappedSpace) (brkStart : Nat) (areas : List Nat) (vm addr : Nat) : Prop :=
  addr < brkStart ∨ Clear space.mm areas vm addr ∧ pageAlign addr ≤ max (space.mm.vms vm).stop kernelVirtAddr

theorem HeapList.found (heap : HeapList mm brkStart areas vm) : mmapFindVm brkStart mm = some (some vm) := by
  have length : areas.length ≤ mm.vmCount := heap.listed.length_le heap.allocated
  have whole : Listed mm.links ([] ++ areas) := heap.listed
  rw [mmapFindVm, listed_first heap.listed, findVmLoop_spec whole (Nat.lt_succ_of_le length)]
  obtain ⟨before, rest, rfl⟩ := List.append_of_mem heap.member
  have early : ∀ other ∈ before, ¬((mm.vms other).start ≤ brkStart ∧ brkStart < (mm.vms other).stop) := by
    intro other inside holds
    have apart := (List.pairwise_append.mp heap.sorted).2.2 other inside vm List.mem_cons_self
    rw [heap.start] at apart
    omega
  have here := (heap.regular vm heap.member).ordered
  rw [heap.start] at here
  have skipped : before.find? (fun other => (mm.vms other).start ≤ brkStart ∧ brkStart < (mm.vms other).stop) = none := by
    apply List.find?_eq_none.mpr
    exact fun other inside holds => early other inside (by simpa using holds)
  rw [List.find?_append, skipped, Option.none_or, List.find?_cons_of_pos (by simp [heap.start, here])]

theorem HeapList.apart (heap : HeapList mm brkStart areas vm) {other : Nat} (inside : other ∈ areas)
    (different : other ≠ vm) :
    (mm.vms other).stop ≤ (mm.vms vm).start ∨ (mm.vms vm).stop ≤ (mm.vms other).start :=
  sorted_apart heap.sorted inside heap.member different

theorem pageAlign_wraps (small : addr < 2 ^ 32) (large : ¬ addr + physMmBlock ≤ 2 ^ 32) : pageAlign addr = 0 := by
  have size : physMmBlock = 4096 := rfl
  have wrapped : (addr + physMmBlock - 1) % 2 ^ 32 = addr + physMmBlock - 1 - 2 ^ 32 := by omega
  have low : (addr + physMmBlock - 1 - 2 ^ 32) / physMmBlock = 0 := Nat.div_eq_of_lt (by omega)
  rw [pageAlign, alignUp, wrapped, alignDown_page (by omega), low, Nat.zero_mul]

theorem grown_listed (listed : Listed mm.links areas) (allocated : ∀ other ∈ areas, other < mm.vmCount)
    (member : vm ∈ areas) :
    Listed (grown mm vm brk).links areas := by
  have different : vm ≠ mm.vmCount := Nat.ne_of_lt (allocated vm member)
  refine listed_congr listed fun node kind => ?_
  have old : node ≠ .vm mm.vmCount := by
    rcases kind with head | ⟨other, inside, rfl⟩
    · rw [head]
      exact VmNode.noConfusion
    · intro same
      cases same
      exact Nat.lt_irrefl _ (allocated _ inside)
  by_cases self : node = .vm vm
  · simp [self, grown, ProcessMm.copyVm, ProcessMm.setStop, ProcessMm.setVm, ProcessMm.allocVm, different]
  · simp [self, old, grown, ProcessMm.copyVm, ProcessMm.setStop, ProcessMm.setVm, ProcessMm.allocVm]

structure Grown (before after : ProcessMm) (areas : List Nat) (vm addr : Nat) : Prop where
  brk : after.brk = pageAlign addr
  listed : Listed after.links areas
  vms : after.vms vm = { before.vms vm with stop := max (before.vms vm).stop (pageAlign addr) }
  others : ∀ other ∈ areas, other ≠ vm → after.vms other = before.vms other

theorem mmapBrk_areas (heap : HeapList mm brkStart areas vm) (small : addr < 2 ^ 32) (above : brkStart ≤ addr) :
    ∃ after, mmapBrk brkStart (addr - brkStart) mm = some (0, some vm, after) ∧ Grown mm after areas vm addr := by
  have sum : brkStart + (addr - brkStart) = addr := by omega
  have requested := mmapBrk_found (sum.trans_lt small) heap.found
  rw [sum] at requested
  refine ⟨_, requested, ?_⟩
  split
  next enough =>
    refine ⟨rfl, heap.listed, ?_, fun _ _ _ => rfl⟩
    rw [max_eq_left enough]
  next short =>
    obtain ⟨here, _, others⟩ := @grown_vms mm vm (pageAlign addr) (heap.allocated vm heap.member)
    refine ⟨rfl, grown_listed heap.listed heap.allocated heap.member, ?_, fun other inside different => ?_⟩
    · rw [max_eq_right (Nat.le_of_not_le short)]
      exact here
    · exact others other (heap.allocated other inside) different

/-- The pages behind the old end of the heap area are mapped. -/
theorem syscallBrk_above (heap : HeapList space.mm brkStart areas vm) (nonzero : addr ≠ 0) (small : addr < 2 ^ 32)
    (above : brkStart ≤ addr) :
    ∃ mm, Grown space.mm mm areas vm addr ∧ space.syscallBrk brkStart addr =
      if (space.mm.vms vm).stop < pageAlign addr then
        (MappedSpace.mapFrames (pageAlign addr) pageTblFlags (2 ^ 20 + 1) (space.blocks space.taken) (space.mm.vms vm).stop
          { space with mm, taken := space.taken + 1 }).map fun (_, space) => ((0 : Int), space)
      else some (0, { space with mm }) := by
  obtain ⟨mm, requested, grown⟩ := mmapBrk_areas heap small above
  refine ⟨mm, grown, ?_⟩
  rw [MappedSpace.syscallBrk, if_neg nonzero, if_neg (Nat.not_lt.mpr above), MappedSpace.mmapBrk, requested, Option.bind_some]
  simp only [grown.vms, lt_max_iff, lt_irrefl, false_or]
  split
  next more =>
    rw [max_eq_right more.le]
    rfl
  next => rfl

theorem syscallBrk_areas (heap : HeapList space.mm brkStart areas vm) (nonzero : addr ≠ 0) (small : addr < 2 ^ 32)
    (above : brkStart ≤ addr) {result : Int} (ran : space.syscallBrk brkStart addr = some (result, after)) :
    result = 0 ∧ Grown space.mm after.mm areas vm addr := by
  obtain ⟨mm, grown, call⟩ := syscallBrk_above heap nonzero small above
  rw [call] at ran
  split at ran
  next =>
    obtain ⟨⟨final, last⟩, mapped, made⟩ := Option.map_eq_some_iff.mp ran
    obtain ⟨rfl, rfl⟩ := Prod.mk.inj made
    have same : last.mm = mm := (mapFrames_more mapped).2
    exact ⟨rfl, same ▸ grown⟩
  next =>
    cases ran
    exact ⟨rfl, grown⟩

/-! ### The kernel's first page -/

theorem mapAddr_window {physical flags : BitVec 32} {virtual : Nat} (above : pageTblBase ≤ virtual)
    (small : virtual / physMmBlock < 2 ^ 20 - 1) (enabled : pageIsEnabled (space.paging.entry 1023) = true)
    (itself : frameNumber (space.paging.entry 1023) = space.paging.dir)
    (ran : space.mapAddr physical virtual flags = some next) :
    next.paging.dir = space.paging.dir ∧ next.paging.entry 1023 = space.paging.entry 1023 ∧
      ∀ frame ≠ space.paging.dir, next.paging.words frame = space.paging.words frame := by
  have dir : pageDirIndex virtual = 1023 := by
    unfold physMmBlock at small
    unfold pageTblBase at above
    unfold pageDirIndex
    omega
  have tbl : pageTblIndex virtual ≠ 1023 := by
    unfold physMmBlock at small
    unfold pageTblBase at above
    unfold pageTblIndex
    omega
  have shown : space.paging.window 1023 = some space.paging.dir := by
    have index := window_index (show 1023 < 1024 by decide)
    rw [Paging.window, translate_eq, index.1, index.2, if_pos enabled, itself, lookup]
    rw [Paging.entry] at enabled itself
    rw [if_pos enabled, itself]
  obtain ⟨paging, call, rfl⟩ := Option.map_eq_some_iff.mp ran
  rw [virtMmMapAddr, virtMmMapTable, dir, if_pos enabled, Option.bind_some, shown] at call
  obtain rfl := Option.some.inj call
  refine ⟨rfl, ?_, fun frame other => Function.update_of_ne other _ _⟩
  simp only [Paging.entry, Paging.setWord, Function.update_self]
  exact Function.update_of_ne tbl.symm _ _

theorem kernel_index : pageDirIndex kernelVirtAddr = 768 ∧ pageTblIndex kernelVirtAddr = 0 := by decide

theorem kernel_page {table : Nat} (there : pageIsEnabled (space.paging.entry 768) = true)
    (frame : frameNumber (space.paging.entry 768) = table) :
    space.paging.translate kernelVirtAddr = lookup (space.paging.words table 0) := by
  rw [translate_eq, kernel_index.1, kernel_index.2, if_pos there, frame]

/-- The page that comes to be behind the kernel's first one was that page, or it was behind it before. -/
theorem mapAddr_kernel {table count virtual : Nat} {physical flags : BitVec 32} (stocked : Stocked space count)
    (mapped : PageMapped physical flags virtual space next) (aligned : virtual % physMmBlock = 0)
    (nonzero : frameNumber physical ≠ 0) (there : pageIsEnabled (space.paging.entry 768) = true)
    (frame : frameNumber (space.paging.entry 768) = table)
    (lost : kernelVirtAddr < virtual → ∃ frame ≠ 0, lookup (space.paging.words table 0) = some frame)
    (passed : kernelVirtAddr < virtual + physMmBlock) :
    ∃ frame ≠ 0, lookup (next.paging.words table 0) = some frame := by
  have first := mapped.table there
  rw [← kernel_page (first.symm ▸ there) (first.symm ▸ frame)]
  by_cases here : virtual = kernelVirtAddr
  · exact ⟨_, frameSet_nonzero _ nonzero, here ▸ mapped.page⟩
  · have other : kernelVirtAddr / physMmBlock ≠ virtual / physMmBlock := by
      unfold kernelVirtAddr physMmBlock at *
      omega
    have before : kernelVirtAddr < virtual := by
      unfold kernelVirtAddr physMmBlock at *
      omega
    obtain ⟨held, nonzero, word⟩ := lost before
    exact ⟨held, nonzero, mapped.keeps stocked.tables _ (by decide) other held ((kernel_page there frame).trans word)⟩

/-- A loop that comes past the kernel's first page leaves it in another frame of the kernel's first table. -/
theorem mapFrames_kernel {table stop turns final virtual : Nat} {physical flags : BitVec 32}
    (ran : space.mapFrames stop flags turns physical virtual = some (final, next))
    (aligned : virtual % physMmBlock = 0) (whole : stop % physMmBlock = 0) (fits : stop < 2 ^ 32) (past : kernelVirtAddr < stop)
    (present : pageIsEnabled flags = true) (low : flags.getLsbD 31 = false) (given : FramesGiven physical virtual stop)
    (enabled : pageIsEnabled (space.paging.entry 1023) = true) (itself : frameNumber (space.paging.entry 1023) = space.paging.dir)
    (apart : table ≠ space.paging.dir)
    (below : virtual ≤ pageTblBase → (∃ count, Stocked space count ∧ tablesFrom space virtual ≤ count) ∧
      pageIsEnabled (space.paging.entry 768) = true ∧ frameNumber (space.paging.entry 768) = table)
    (lost : kernelVirtAddr < virtual → ∃ frame ≠ 0, lookup (space.paging.words table 0) = some frame) :
    (∃ frame ≠ 0, lookup (next.paging.words table 0) = some frame) ∧ next.paging.entry 1023 = space.paging.entry 1023 ∧
      next.paging.dir = space.paging.dir := by
  induction turns generalizing space physical virtual with
  | zero => cases ran
  | succ turns ih =>
    rw [MappedSpace.mapFrames] at ran
    split at ran
    next more =>
      obtain ⟨middle, call, rest⟩ := Option.bind_eq_some_iff.mp ran
      have onward : (virtual + physMmBlock) % 2 ^ 32 = virtual + physMmBlock := by
        unfold physMmBlock at *
        omega
      rw [onward] at rest
      have step : (virtual + physMmBlock) % physMmBlock = 0 := by rw [Nat.add_mod_right, aligned]
      by_cases inside : virtual < pageTblBase
      · obtain ⟨⟨count, stocked, tables⟩, there, frame⟩ := below inside.le
        obtain ⟨_, again, mapped, stocked'⟩ :=
          mapAddr_stocked physical stocked inside present low ((Nat.le_add_left _ _).trans tables)
        obtain rfl := Option.some.inj (again.symm.trans call)
        have first := mapped.table there
        have self := mapped.table enabled
        have dir := mapped.entry.dir
        have fewer := tablesFrom_step mapped stocked'.tables inside aligned
        have nonzero : frameNumber physical ≠ 0 := by simpa using given 0 more
        have result := ih rest step given.step (self.symm ▸ enabled) (by rw [self, dir, itself]) (dir.symm ▸ apart)
          (fun _ => ⟨⟨_, stocked', by omega⟩, first.symm ▸ there, first.symm ▸ frame⟩)
          (mapAddr_kernel stocked mapped aligned nonzero there frame lost)
        rwa [self, dir] at result
      · have above := Nat.not_lt.mp inside
        obtain ⟨dir, self, words⟩ := mapAddr_window above (by unfold physMmBlock at *; omega) enabled itself call
        have passed : kernelVirtAddr < virtual := (show kernelVirtAddr < pageTblBase by decide).trans_le above
        have result := ih rest step given.step (self.symm ▸ enabled) (by rw [self, dir, itself]) (dir.symm ▸ apart)
          (fun within => absurd within (by unfold physMmBlock; omega)) fun _ => by
            rw [words table apart]
            exact lost passed
        rwa [self, dir] at result
    next outside =>
      obtain ⟨rfl, rfl⟩ := Prod.mk.inj (Option.some.inj ran)
      exact ⟨lost (past.trans_le (Nat.not_lt.mp outside)), rfl, rfl⟩

/-! ### The contract -/

theorem clear_of_contract (heap : HeapSpace space brkStart areas vm) (nonzero : addr ≠ 0) (small : addr < 2 ^ 32)
    (contract : BrkContract space brkStart areas vm addr) : addr < brkStart ∨ Clear space.mm areas vm addr := by
  rcases Nat.lt_or_ge addr brkStart with low | above
  · exact .inl low
  · obtain ⟨result, after, ran, -, outcome⟩ := contract
    obtain ⟨rfl, grown⟩ := syscallBrk_areas heap.list nonzero small above ran
    rcases outcome with refused | reached
    · exact absurd refused.negative (by decide)
    · have fits : addr + physMmBlock ≤ 2 ^ 32 := by
        by_contra large
        have enough := reached.brk
        rw [grown.brk, pageAlign_wraps small large] at enough
        omega
      refine .inr ⟨fits, fun other inside behind => ?_⟩
      have positive := (heap.list.regular vm heap.list.member).ordered
      have ordered := (heap.list.regular other inside).ordered
      have different : other ≠ vm := by
        rintro rfl
        omega
      have disjoint := reached.disjoint other inside different
      rw [Disjoint, grown.vms, grown.others other inside different] at disjoint
      simp only at disjoint
      omega

/-- A break above `KERNEL_VIRT_ADDR` takes the kernel's first page away. -/
theorem below_of_contract (heap : HeapSpace space brkStart areas vm) (nonzero : addr ≠ 0) (small : addr < 2 ^ 32)
    (given : FramesGiven (space.blocks space.taken) (space.mm.vms vm).stop (pageAlign addr))
    (user : (space.mm.vms vm).stop ≤ kernelVirtAddr) (above : brkStart ≤ addr)
    (contract : BrkContract space brkStart areas vm addr) : pageAlign addr ≤ kernelVirtAddr := by
  by_contra beyond
  have past := Nat.not_le.mp beyond
  obtain ⟨result, after, ran, keeps, -⟩ := contract
  obtain ⟨mm, grown, call⟩ := syscallBrk_above heap.list nonzero small above
  rw [call, if_pos (user.trans_lt past)] at ran
  obtain ⟨⟨final, last⟩, mapped, made⟩ := Option.map_eq_some_iff.mp ran
  obtain ⟨-, rfl⟩ := Prod.mk.inj made
  have proper := heap.stocked.tables
  have there : pageIsEnabled (space.paging.entry 768) = true := by
    have enabled := enabled_of_mapped heap.kernel
    rwa [kernel_index.1] at enabled
  have aligned := pageAlign_onPage addr
  obtain ⟨⟨frame, nonzero, word⟩, self, dir⟩ := mapFrames_kernel mapped (heap.list.regular vm heap.list.member).stopAligned
    aligned.aligned aligned.fits past (by decide) (by decide) given proper.enabled proper.itself
    (proper.apart 768 (by decide) there)
    (fun _ => ⟨⟨1023, (Stocked.skip heap.stocked).areas mm, by
      unfold tablesFrom newTables
      split <;> omega⟩, there, rfl⟩)
    fun passed => absurd passed (Nat.not_lt.mpr user)
  -- the window shows the table where it was, so the page is in the frame that the table now has for it
  have shown : last.paging.translate (pageTblBase + 768 * physMmBlock) = some (frameNumber (space.paging.entry 768)) := by
    refine keeps _ (by decide) (show kernelVirtAddr ≤ pageTblBase + 768 * physMmBlock by decide) _ ?_
    exact (window_eq proper (by decide)).trans (if_pos there)
  have index := window_index (show 768 < 1024 by decide)
  rw [translate_eq, index.1, index.2, self, if_pos proper.enabled, proper.itself, ← dir] at shown
  have held := keeps kernelVirtAddr (by decide) le_rfl 0 heap.kernel
  rw [translate_eq, kernel_index.1, kernel_index.2] at held
  unfold lookup at shown
  rw [Paging.entry] at held
  split at shown
  next enabled =>
    rw [if_pos enabled, Option.some.inj shown, word] at held
    exact nonzero (Option.some.inj held)
  next => cases shown

theorem contract_of_served (heap : HeapSpace space brkStart areas vm) (nonzero : addr ≠ 0) (small : addr < 2 ^ 32)
    (served : BrkServed space brkStart areas vm addr) : BrkContract space brkStart areas vm addr := by
  rcases Nat.lt_or_ge addr brkStart with low | above
  · refine ⟨-eInval, space, ?_, fun _ _ _ _ held => held, .inl ⟨by decide, rfl, heap.list.listed, fun _ _ => rfl, rfl⟩⟩
    rw [MappedSpace.syscallBrk, if_neg nonzero, if_pos low]
  · obtain ⟨⟨fits, clear⟩, bounded⟩ := served.resolve_left (Nat.not_lt.mpr above)
    obtain ⟨mm, grown, call⟩ := syscallBrk_above heap.list nonzero small above
    have start := heap.list.start
    have stopAligned := (heap.list.regular vm heap.list.member).stopAligned
    have reached {after : MappedSpace} (same : after.mm = mm)
        (mapped : ∀ place, brkStart ≤ place → place < pageAlign addr → after.paging.translate place ≠ none) :
        Reached after brkStart areas vm addr := by
      refine ⟨?_, fun place lower upper => mapped place lower ?_, same ▸ grown.listed, fun other inside different => ?_⟩
      · rw [same, grown.brk]
        exact (pageAlign_bounds fits).1
      · rwa [same, grown.brk] at upper
      · rw [Disjoint, same, grown.vms, grown.others other inside different]
        rcases heap.list.apart inside different with front | behind
        · exact .inl front
        · exact .inr (max_le behind (clear other inside behind))
    by_cases more : (space.mm.vms vm).stop < pageAlign addr
    · have user : pageAlign addr ≤ kernelVirtAddr := by omega
      obtain ⟨final, after, ran, same, pages, others⟩ := mapFrames_stocked ((Stocked.skip heap.stocked).areas mm)
        (by unfold tablesFrom newTables; split <;> omega) stopAligned (pageAlign_onPage addr).aligned
        (user.trans (by decide)) (by decide : pageIsEnabled pageTblFlags = true) (by decide)
        (by unfold physMmBlock kernelVirtAddr at *; omega : pageAlign addr ≤ (space.mm.vms vm).stop + 2 ^ 20 * physMmBlock)
      refine ⟨0, after, ?_, fun place inside kernel frame held => ?_, .inr (reached same fun place lower upper => ?_)⟩
      · rw [call, if_pos more, ran]
        rfl
      · exact others place inside (fun both => absurd (both.2.trans_le user) (Nat.not_lt.mpr kernel)) frame held
      · rcases Nat.lt_or_ge place (space.mm.vms vm).stop with old | new
        · obtain ⟨frame, held⟩ := Option.ne_none_iff_exists'.mp (heap.mapped place (start ▸ lower) old)
          have inside : place < 2 ^ 32 := (upper.trans_le user).trans (by decide)
          rw [others place inside (fun both => absurd both.1 (Nat.not_le.mpr old)) frame held]
          exact Option.some_ne_none _
        · exact pages place new upper
    · refine ⟨0, _, call.trans (if_neg more), fun _ _ _ _ held => held, .inr (reached rfl fun place lower upper => ?_)⟩
      exact heap.mapped place (start ▸ lower) (upper.trans_le (Nat.not_lt.mp more))

/-- A heap in the user's half is served as promised just below other areas and the kernel. Wherever
it is, that is enough, and other areas must not be in the way. -/
theorem brk_contract_iff (heap : HeapSpace space brkStart areas vm) (nonzero : addr ≠ 0) (small : addr < 2 ^ 32)
    (given : FramesGiven (space.blocks space.taken) (space.mm.vms vm).stop (pageAlign addr)) :
    ((space.mm.vms vm).stop ≤ kernelVirtAddr →
      (BrkContract space brkStart areas vm addr ↔ BrkServed space brkStart areas vm addr)) ∧
    (BrkServed space brkStart areas vm addr → BrkContract space brkStart areas vm addr) ∧
    (BrkContract space brkStart areas vm addr → addr < brkStart ∨ Clear space.mm areas vm addr) := by
  refine ⟨fun user => ⟨fun contract => ?_, contract_of_served heap nonzero small⟩, contract_of_served heap nonzero small,
    clear_of_contract heap nonzero small⟩
  rcases Nat.lt_or_ge addr brkStart with low | above
  · exact .inl low
  · have clear := (clear_of_contract heap nonzero small contract).resolve_left (Nat.not_lt.mpr above)
    exact .inr ⟨clear, (below_of_contract heap nonzero small given user above contract).trans (le_max_right _ _)⟩

/-- A heap area of one page, with another area two pages behind it, and the kernel's first page. -/
def twoAreas : MappedSpace where
  mm := ⟨0x1000, 0x40000000, 0x4000, (⟨fun _ => .null, fun _ => .null⟩ : Links VmNode) |> dlistHeadInit .head |>
    dlistAddTail (.vm 0) .head |> dlistAddTail (.vm 1) .head,
    fun vm => if vm = 0 then ⟨0x1000, 0x2000⟩ else ⟨0x4000, 0x5000⟩, 2⟩
  paging := {
    words := fun frame index => match frame, index with
      | 1, 0 => 0x2007
      | 1, 768 => 0x3003
      | 1, 1023 => 0x1003
      | 2, 1 => 0x4007
      | 2, 4 => 0x5007
      | 3, 0 => 0x3
      | _, _ => 0
    dir := 1 }
  blocks := fun i => BitVec.ofNat 32 ((i + 16) * physMmBlock)
  taken := 0

theorem twoAreas_enabled {i : Nat} (low : i < 1023) :
    twoAreas.paging.entry i = (if i = 0 then 0x2007 else if i = 768 then 0x3003 else 0 : BitVec 32) := by
  by_cases first : i = 0
  · subst first
    rfl
  · by_cases kernel : i = 768
    · subst kernel
      rfl
    · rw [if_neg first, if_neg kernel]
      have last : i ≠ 1023 := by omega
      simp only [Paging.entry, twoAreas]
      split <;> simp_all

theorem twoAreas_tables {i : Nat} (low : i < 1023) (enabled : pageIsEnabled (twoAreas.paging.entry i) = true) :
    i = 0 ∧ frameNumber (twoAreas.paging.entry i) = 2 ∨ i = 768 ∧ frameNumber (twoAreas.paging.entry i) = 3 := by
  rw [twoAreas_enabled low] at enabled ⊢
  by_cases first : i = 0
  · exact .inl ⟨first, by rw [if_pos first]; decide⟩
  · by_cases kernel : i = 768
    · exact .inr ⟨kernel, by rw [if_neg first, if_pos kernel]; decide⟩
    · rw [if_neg first, if_neg kernel] at enabled
      exact absurd enabled (by decide)

theorem twoAreas_stocked : Stocked twoAreas 1024 := by
  have number {i : Nat} (next : Next twoAreas 1024 i) : frameNumber (twoAreas.blocks i) = i + 16 := by
    have bound : i < 0 + 1024 := next.2
    have small : (i + 16) * 4096 < 2 ^ 32 := by omega
    simp only [frameNumber, twoAreas, physMmBlock, BitVec.toNat_ushiftRight, BitVec.toNat_ofNat, Nat.mod_eq_of_lt small]
    omega
  have dir : twoAreas.paging.dir = 1 := rfl
  refine ⟨⟨by decide, by decide, fun i low enabled => ?_, fun i low j less first second same => ?_⟩, fun i low absent => ?_,
    fun i next => ⟨?_, fun j low enabled => ?_⟩, fun i next j later same => ?_⟩
  · rcases twoAreas_tables low enabled with ⟨-, frame⟩ | ⟨-, frame⟩ <;> omega
  · rcases twoAreas_tables low first with ⟨one, frame⟩ | ⟨one, frame⟩ <;>
      rcases twoAreas_tables less second with ⟨other, table⟩ | ⟨other, table⟩ <;> omega
  · rw [twoAreas_enabled low] at absent ⊢
    split at absent
    next => exact absurd (by decide) absent
    next first =>
      split at absent
      next => exact absurd (by decide) absent
      next kernel => rw [if_neg first, if_neg kernel]
  · rw [number next]
    omega
  · rw [number next]
    rcases twoAreas_tables low enabled with ⟨-, frame⟩ | ⟨-, frame⟩ <;> omega
  · rw [number next, number later] at same
    omega

theorem twoAreas_heap : HeapSpace twoAreas 0x1000 [0, 1] 0 where
  list :=
    { listed := ⟨by decide, by simp [Links.Joined, twoAreas, dlistHeadInit, dlistAddTail, dlistAddInternal]⟩
      allocated := by decide
      regular := by
        intro other member
        simp only [List.mem_cons, List.not_mem_nil, or_false] at member
        rcases member with rfl | rfl <;> exact ⟨by decide, by decide, by decide, by decide⟩
      sorted := by simp [twoAreas]
      member := by decide
      start := rfl }
  mapped := by
    intro place lower upper
    have page : place / physMmBlock = 0x1000 / physMmBlock := by
      simp only [twoAreas, if_true] at lower upper
      unfold physMmBlock
      omega
    rw [translate_page page]
    decide
  kernel := by decide
  stocked := twoAreas_stocked

theorem twoAreas_given (stop : Nat) (near : stop ≤ 0x5000) : FramesGiven (twoAreas.blocks twoAreas.taken) 0x2000 stop := by
  intro k inside
  have few : k = 0 ∨ k = 1 ∨ k = 2 := by
    unfold physMmBlock at inside
    omega
  rcases few with rfl | rfl | rfl <;> decide

theorem brk_contract_iff_example : BrkContract twoAreas 0x1000 [0, 1] 0 0x3800 :=
  ((brk_contract_iff twoAreas_heap (by decide) (by decide) (twoAreas_given _ (by decide))).1 (by decide)).mpr
    (.inr ⟨⟨by decide, by decide⟩, by decide⟩)

/-- The heap grows over the other area, and a break near the end of the address space becomes zero. -/
theorem brk_runs_over_area : HeapSpace twoAreas 0x1000 [0, 1] 0 ∧ ¬BrkContract twoAreas 0x1000 [0, 1] 0 0x4800 ∧
    ¬BrkContract twoAreas 0x1000 [0, 1] 0 0xFFFFF800 := by
  refine ⟨twoAreas_heap, fun contract => ?_, fun contract => ?_⟩
  · rcases clear_of_contract twoAreas_heap (by decide) (by decide) contract with below | ⟨_, clear⟩
    · exact absurd below (by decide)
    · exact absurd (clear 1 (by decide) (by decide)) (by decide)
  · rcases clear_of_contract twoAreas_heap (by decide) (by decide) contract with below | ⟨fits, _⟩
    · exact absurd below (by decide)
    · exact absurd fits (by decide)

end YuzuOS.Proofs.BreakContract
