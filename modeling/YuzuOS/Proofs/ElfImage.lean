import YuzuOS.Proofs.ElfLoading

/-! The image of a well-formed executable: its bytes are in place, apart from heap
and stack, exactly when its segments keep to pages of their own. -/

namespace YuzuOS.Proofs.ElfImage
open YuzuOS.Library YuzuOS.Kernel YuzuOS.Proofs.MemoryAreas YuzuOS.Proofs.UserPages
open YuzuOS.Proofs.ElfSegments YuzuOS.Proofs.ElfAreas YuzuOS.Proofs.ElfLoading

variable {start process next final : UserProcess} {areas : List Nat} {segment earlier : Elf32Phdr}
  {done segs : List Elf32Phdr} {buffer length place len : Nat} {byte : BitVec 8} {reads writes : List (Nat × Nat)}

structure Tidy (segs : List Elf32Phdr) : Prop where
  whole : ∀ segment ∈ segs, segment.filesz ≤ segment.memsz
  below : ∀ segment ∈ segs, segment.vaddr + segment.memsz ≤ heapUserTop
  ascending : segs.Pairwise Elf32Phdr.Before

theorem WellFormed.tidy (formed : WellFormed start buffer length) : Tidy (segments start.memory buffer) :=
  ⟨fun segment member => (formed.inside segment member).whole, fun segment member => (formed.inside segment member).below,
    formed.ascending⟩

theorem Tidy.front {rest : List Elf32Phdr} (tidy : Tidy (done ++ rest)) : Tidy done :=
  ⟨fun segment member => tidy.whole segment (List.mem_append_left _ member),
    fun segment member => tidy.below segment (List.mem_append_left _ member), (List.pairwise_append.mp tidy.ascending).1⟩

theorem Tidy.before {rest : List Elf32Phdr} (tidy : Tidy (done ++ segment :: rest)) :
    ∀ earlier ∈ done, earlier.Before segment :=
  fun earlier member => (List.pairwise_append.mp tidy.ascending).2.2 earlier member segment List.mem_cons_self

theorem Tidy.ascends {rest : List Elf32Phdr} (tidy : Tidy (done ++ segment :: rest)) : Ascends done segment :=
  ⟨tidy.below segment (by simp), fun earlier member => (tidy.before earlier member).1⟩

theorem Tidy.small (tidy : Tidy segs) : ∀ segment ∈ segs, segment.memsz ≤ heapUserTop := by
  intro segment member
  have below := tidy.below segment member
  omega

structure Filled (buffer : Nat) (start process : UserProcess) (areas : List Nat) (done : List Elf32Phdr) : Prop where
  loading : Loading start process areas heapUserTop
  housed : Housed process areas done
  bytes : ∀ segment ∈ done, ∀ i < segment.memsz,
    process.memory (segment.vaddr + i) = ElfLoading.fileByte start.memory buffer segment i

theorem Fresh.filled (fresh : Fresh start) : Filled buffer start start [] [] :=
  ⟨(Fresh.loading fresh).atTop, Fresh.housed fresh, by simp⟩

/-- The bytes of a segment end in front of the pages of one that is clear of it. -/
theorem Covered.inside {i : Nat} (covered : Covered earlier) (clear : Clear earlier segment)
    (below : earlier.vaddr ≤ heapUserTop) (inside : i < earlier.memsz) : earlier.vaddr + i < baseOf segment.vaddr := by
  obtain ⟨_, enough⟩ := covered.resolve_left (by omega)
  have behind := clear.resolve_left (by omega)
  have base : baseOf earlier.vaddr = earlier.vaddr / physMmBlock * physMmBlock := baseOf_eq below
  unfold physMmBlock at *
  omega

theorem Filled.load {rest : List Elf32Phdr} (filled : Filled buffer start process areas done)
    (kernel : kernelVirtAddr ≤ buffer) (tidy : Tidy (done ++ segment :: rest)) (separate : Separate done)
    (follows : Follows done segment) :
    ∃ next areas, loadSegment buffer process segment = some next ∧
      Filled buffer start next areas (done ++ [segment]) := by
  have ascends := tidy.ascends
  have whole := tidy.whole segment (by simp)
  obtain ⟨result, mapped, areas, ran, loading, housed, kept⟩ :=
    filled.housed.place filled.loading ascends follows.clear follows.alone tidy.front.small
  have present := housed.present loading (by simp) follows.covered ascends.below
  refine ⟨written buffer mapped segment, areas, by rw [loadSegment_eq ran, if_pos present], ?_⟩
  refine ⟨(loading.written whole ascends.below).atTop, housed.written, fun other member i inside => ?_⟩
  rcases List.mem_append.mp member with known | last
  · have small := tidy.front.below other known
    have front := Covered.inside (separate.covered other known) (follows.clear other known) (by omega) inside
    have base : baseOf segment.vaddr = segment.vaddr / physMmBlock * physMmBlock := baseOf_eq ascends.small
    have lower := Nat.div_mul_le_self segment.vaddr physMmBlock
    rw [written_outside whole (.inl (by omega)), kept _ front]
    exact filled.bytes other known i inside
  · rw [List.mem_singleton.mp last] at inside ⊢
    exact written_inside loading.steady kernel inside

theorem Filled.run (filled : Filled buffer start process areas done) (kernel : kernelVirtAddr ≤ buffer)
    (tidy : Tidy (done ++ segs)) (separate : Separate (done ++ segs)) :
    ∃ final areas, Library.run (loadSegment buffer) process segs = some final ∧
      Filled buffer start final areas (done ++ segs) := by
  induction segs generalizing process areas done with
  | nil => exact ⟨process, areas, rfl, by simpa using filled⟩
  | cons segment rest ih =>
    have split : done ++ segment :: rest = done ++ [segment] ++ rest := by simp
    have follows := separate.follows
    have front : Separate done := by
      refine ⟨fun other member => separate.covered other (List.mem_append_left _ member),
        (List.pairwise_append.mp separate.clear).1, ?_⟩
      exact FirstAlone.front separate.alone
    obtain ⟨next, grown, loaded, later⟩ := filled.load kernel tidy front follows
    rw [split] at tidy separate ⊢
    obtain ⟨final, last, ran, ended⟩ := ih later tidy separate
    exact ⟨final, last, run_cons.mpr ⟨next, loaded, ran⟩, ended⟩

/-- A byte that was replaced by what every frame holds. -/
structure Spoiled (process : UserProcess) (place : Nat) (byte : BitVec 8) : Prop where
  backed : Backed process
  frames : ∀ frame offset, process.frames frame offset = byte
  memory : process.memory place = byte

theorem Spoiled.mapped {vaddr memsz result : Nat} (spoiled : Spoiled process place byte) (small : vaddr < 2 ^ 32)
    (ran : process.mmapMap vaddr memsz = some (result, next)) : Spoiled next place byte := by
  obtain ⟨vm, _, _, backed, maps⟩ := userMmapMap_spec spoiled.backed small ran
  refine ⟨backed, fun frame offset => by rw [maps.frames]; exact spoiled.frames frame offset, ?_⟩
  by_cases inside : (next.mm.vms vm).start ≤ place ∧ place < (next.mm.vms vm).stop
  · obtain ⟨frame, content⟩ := maps.fresh place inside.1 inside.2
    exact content.trans (spoiled.frames frame _)
  · exact (maps.kept place (by omega)).trans spoiled.memory

theorem Spoiled.written (spoiled : Spoiled process place byte) (whole : segment.filesz ≤ segment.memsz)
    (apart : place < segment.vaddr ∨ segment.vaddr + segment.memsz ≤ place) :
    Spoiled (written buffer process segment) place byte :=
  ⟨spoiled.backed.memory, spoiled.frames, (written_outside whole apart).trans spoiled.memory⟩

theorem Spoiled.load (spoiled : Spoiled process place byte) (whole : segment.filesz ≤ segment.memsz)
    (small : segment.vaddr < 2 ^ 32) (apart : place < segment.vaddr ∨ segment.vaddr + segment.memsz ≤ place)
    (loaded : loadSegment buffer process segment = some next) : Spoiled next place byte := by
  obtain ⟨result, mapped, ran, _, rfl⟩ := loadSegment_some loaded
  exact (spoiled.mapped small ran).written whole apart

/-- A segment on the pages of an earlier one gets the whole area mapped again. -/
theorem Filled.spoil {rest : List Elf32Phdr} (filled : Filled buffer start process areas done)
    (tidy : Tidy (done ++ segment :: rest)) (separate : Separate done) (member : earlier ∈ done)
    (shared : ¬Clear earlier segment) (frames : ∀ frame offset, start.frames frame offset = byte)
    (loaded : loadSegment buffer process segment = some next) :
    Spoiled next earlier.vaddr byte := by
  have ascends := tidy.ascends
  have small := ascends.small
  have before := tidy.before earlier member
  unfold Clear at shared
  push Not at shared
  obtain ⟨filledUp, overlap⟩ := shared
  obtain ⟨high, enough⟩ := (separate.covered earlier member).resolve_left filledUp
  obtain ⟨vm, listed, content⟩ := filled.housed.area earlier member
  have base : baseOf earlier.vaddr = earlier.vaddr / physMmBlock * physMmBlock := baseOf_eq (before.1.trans small)
  have begins : (process.mm.vms vm).start = baseOf earlier.vaddr := by rw [content, placedVm_start]
  have ends : (process.mm.vms vm).stop = baseOf earlier.vaddr + pageAlign earlier.memsz := by
    rw [content, placedVm_stop]
    unfold physMmBlock at *
    omega
  have order := baseOf_mono before.1 small
  have holds : Holds process.mm (baseOf segment.vaddr) vm := ⟨by omega, by omega⟩
  obtain ⟨result, mapped, ran, loading, larger, maps⟩ :=
    (filled.housed.lower filled.loading ascends).share ascends.below le_rfl listed holds
  obtain ⟨again, other, same, _, rfl⟩ := loadSegment_some loaded
  rw [ran] at same
  cases same
  have inside : (process.mm.vms vm).start ≤ earlier.vaddr ∧ earlier.vaddr < (mapped.mm.vms vm).stop := by
    unfold physMmBlock at *
    omega
  obtain ⟨frame, fresh⟩ := maps.fresh earlier.vaddr inside.1 inside.2
  have supplied (frame offset : Nat) : mapped.frames frame offset = byte := by
    rw [loading.frames]
    exact frames frame offset
  have stored : mapped.memory earlier.vaddr = byte := by
    have held := supplied frame (earlier.vaddr % physMmBlock)
    rw [maps.frames] at held
    exact fresh.trans held
  refine Spoiled.written ⟨loading.backed, supplied, stored⟩ (tidy.whole segment (by simp)) ?_
  have first := before.1
  have apart := before.2
  have filledSegment := filledUp
  omega

theorem Spoiled.run (spoiled : Spoiled process earlier.vaddr byte) (filled : earlier.memsz ≠ 0)
    (tidy : Tidy (earlier :: segs)) (ran : Library.run (loadSegment buffer) process segs = some final) :
    Spoiled final earlier.vaddr byte := by
  induction segs generalizing process with
  | nil =>
    cases ran
    exact spoiled
  | cons segment rest ih =>
    obtain ⟨next, loaded, ran⟩ := run_cons.mp ran
    obtain ⟨before, later⟩ := List.pairwise_cons.mp tidy.ascending
    have here := before segment List.mem_cons_self
    have first := here.1
    have apart := here.2
    have below := tidy.below segment (by simp)
    have small : segment.vaddr < 2 ^ 32 := by
      unfold heapUserTop at below
      omega
    have more : Spoiled next earlier.vaddr byte := spoiled.load (tidy.whole segment (by simp)) small (by omega) loaded
    refine ih more ⟨fun other member => tidy.whole other ?_, fun other member => tidy.below other ?_, ?_⟩ ran
    · simp only [List.mem_cons] at member ⊢
      tauto
    · simp only [List.mem_cons] at member ⊢
      tauto
    · exact List.pairwise_cons.mpr
        ⟨fun other member => before other (List.mem_cons_of_mem _ member), (List.pairwise_cons.mp later).2⟩

/-- An empty segment on the page of an empty first one breaks the list. -/
theorem Filled.stick {rest : List Elf32Phdr} (filled : Filled buffer start process areas done)
    (tidy : Tidy (done ++ segment :: rest)) (alone : FirstAlone done)
    (clear : ∀ earlier ∈ done, Clear earlier segment) (beside : ¬FirstAlone (done ++ [segment]))
    (loaded : loadSegment buffer process segment = some next) : Stuck next.mm := by
  have ascends := tidy.ascends
  have unheld := filled.housed.unheld ascends clear
  cases done with
  | nil => exact absurd (fun _ other member => absurd member List.not_mem_nil) beside
  | cons first others =>
    have same : first.memsz = 0 ∧ segment.memsz = 0 ∧ baseOf segment.vaddr = baseOf first.vaddr := by
      by_contra different
      refine beside fun none other member empty => ?_
      rcases List.mem_append.mp member with old | last
      · exact alone none other old empty
      · rw [List.mem_singleton.mp last] at empty ⊢
        exact fun equal => different ⟨none, empty, equal⟩
    obtain ⟨none, empty, equal⟩ := same
    cases areas with
    | nil =>
      obtain ⟨vm, member, _⟩ := filled.housed.area first List.mem_cons_self
      exact absurd member List.not_mem_nil
    | cons vm listed =>
      obtain ⟨known, _, split, begins⟩ := filled.housed.head
      cases split
      obtain ⟨result, mapped, ran, stuck, _⟩ := (filled.housed.lower filled.loading ascends).stick ascends.below le_rfl rfl unheld
        (by rw [empty]; exact pageAlign_zero) (begins.trans equal.symm)
      obtain ⟨again, other, same, _, rfl⟩ := loadSegment_some loaded
      rw [ran] at same
      cases same
      exact stuck

theorem Stuck.run (stuck : Stuck process.mm) (ran : Library.run (loadSegment buffer) process segs = some final) :
    Stuck final.mm := by
  cases segs with
  | nil =>
    cases ran
    exact stuck
  | cons segment rest =>
    obtain ⟨next, loaded, _⟩ := run_cons.mp ran
    rw [loadSegment, Stuck.mapsNothing stuck] at loaded
    cases loaded

section Layout

/-- Two stretches of memory without a common byte. -/
def Apart (first firstLen second secondLen : Nat) : Prop :=
  ∀ place, first ≤ place → place < first + firstLen → ¬(second ≤ place ∧ place < second + secondLen)

/-- The image in place: the bytes of the segments, and heap and stack beside them. -/
structure Imaged (memory : Memory) (buffer : Nat) (segs : List Elf32Phdr) (layout : Elf32Layout)
    (process : UserProcess) : Prop where
  bytes : ∀ segment ∈ segs, ∀ i < segment.memsz, process.mapped ((segment.vaddr + i) / physMmBlock) = true ∧
    process.memory (segment.vaddr + i) = if i < segment.filesz then memory (buffer + segment.offset + i) else 0
  heap : ∀ segment ∈ segs, Apart segment.vaddr segment.memsz process.brkStart schedHeapSize
  stack : ∀ segment ∈ segs, Apart segment.vaddr segment.memsz (layout.stack - schedStackSize) schedStackSize
  apart : Apart process.brkStart schedHeapSize (layout.stack - schedStackSize) schedStackSize

/-- The process when the heap has been mapped. -/
def started (heap : Nat) (process : UserProcess) : UserProcess :=
  { process with mm.brk := heap, mm.brkEnd := heapUserTop, brkStart := heap }

theorem Backed.started {heap : Nat} (backed : Backed process) : Backed (started heap process) := by
  have paged := backed.paged
  have top : OnPage heapUserTop := ⟨rfl, by decide⟩
  exact ⟨⟨paged.closed, paged.start, paged.stop, paged.null, paged.cache, top⟩, backed.backed⟩

theorem elf32LoadLayout_eq {heap : Nat} (formed : WellFormed start buffer length) (steady : Steady start next)
    (ran : process.mmapMap 0 schedHeapSize = some (heap, next)) :
    elf32LoadLayout buffer ⟨process, reads, writes⟩ =
      ((started heap next).mmapMap 0 schedStackSize).map fun (stack, final) =>
      ({ stack := (stack + schedStackSize) % 2 ^ 32, entry := start.memory.load32 (buffer + 24) },
        ⟨final, (buffer + 24, 4) :: reads, writes⟩) := by
  have header := formed.header
  have same : Steady start (started heap next) := ⟨steady.memory, steady.pages⟩
  have loaded : Elf32Load.mmapMap 0 schedHeapSize ⟨process, reads, writes⟩ = some (heap, ⟨next, reads, writes⟩) := by
    rw [Elf32Load.mmapMap, ran]
    rfl
  rw [elf32LoadLayout, loaded, Option.bind_some]
  change (Elf32Load.read32 (buffer + 24) ⟨started heap next, reads, writes⟩).bind _ = _
  rw [read32_eq formed same (by omega) (by omega), Option.bind_some]
  change (Elf32Load.mmapMap 0 schedStackSize ⟨started heap next, (buffer + 24, 4) :: reads, writes⟩).map _ = _
  rw [Elf32Load.mmapMap, Option.map_map]
  rfl

theorem Stuck.layout (stuck : Stuck process.mm) : elf32LoadLayout buffer ⟨process, reads, writes⟩ = none := by
  rw [elf32LoadLayout, Elf32Load.mmapMap, Stuck.mapsNothing stuck]
  rfl

theorem layout_trace {layout : Elf32Layout} {load : Elf32Load}
    (ran : elf32LoadLayout buffer ⟨process, reads, writes⟩ = some (layout, load)) :
    ∃ heap next stack final, process.mmapMap 0 schedHeapSize = some (heap, next) ∧
      (started heap next).mmapMap 0 schedStackSize = some (stack, final) ∧
        load = ⟨final, (buffer + 24, 4) :: reads, writes⟩ := by
  obtain ⟨⟨heap, first⟩, mapping, ran⟩ := Option.bind_eq_some_iff.mp ran
  obtain ⟨⟨entry, second⟩, reading, ran⟩ := Option.bind_eq_some_iff.mp ran
  obtain ⟨⟨stack, third⟩, last, same⟩ := Option.map_eq_some_iff.mp ran
  have ends : third = load := congrArg Prod.snd same
  subst ends
  obtain ⟨⟨_, next⟩, heapMap, content⟩ := Option.map_eq_some_iff.mp mapping
  obtain ⟨⟨_, final⟩, stackMap, content'⟩ := Option.map_eq_some_iff.mp last
  cases content
  cases content'
  obtain ⟨_, took, value⟩ := Option.map_eq_some_iff.mp reading
  obtain ⟨_, logged⟩ := Option.ite_none_right_eq_some.mp took
  cases logged
  cases value
  exact ⟨heap, next, stack, final, heapMap, stackMap, rfl⟩

theorem Spoiled.layout {layout : Elf32Layout} {load : Elf32Load} (spoiled : Spoiled process place byte)
    (ran : elf32LoadLayout buffer ⟨process, reads, writes⟩ = some (layout, load)) :
    Spoiled load.process place byte := by
  obtain ⟨heap, next, stack, final, heapMap, stackMap, rfl⟩ := layout_trace ran
  have middle := spoiled.mapped (by decide) heapMap
  have begun : Spoiled (started heap next) place byte := ⟨Backed.started middle.backed, middle.frames, middle.memory⟩
  exact begun.mapped (by decide) stackMap

/-- Heap and stack behind the segments: the requests that are made, the areas they
get and the pages they map. -/
structure LaidOut (process first final : UserProcess) (before after stackBefore stackAfter : List Nat) : Prop where
  heapRan : process.mmapMap 0 schedHeapSize = some (process.mm.cache, first)
  heapArea : Inserts process.mm first.mm process.mm.cache schedHeapSize before after
  heapMaps : MapsPages { process with mm := first.mm } first process.mm.cache (placedVm process.mm.cache schedHeapSize).stop
  lined : Lined first.mm (before ++ process.mm.vmCount :: after)
  behind : ∀ vm ∈ before ++ process.mm.vmCount :: after, (first.mm.vms vm).stop ≤ max first.mm.cache heapUserTop
  moved : first.mm.cache = if process.mm.cache = 0 then process.mm.cache else process.mm.cache + 0x20000
  stackRan : (started process.mm.cache first).mmapMap 0 schedStackSize = some (max first.mm.cache heapUserTop, final)
  split : before ++ process.mm.vmCount :: after = stackBefore ++ stackAfter
  stackArea : Inserts (started process.mm.cache first).mm final.mm (max first.mm.cache heapUserTop) schedStackSize stackBefore stackAfter
  backed : Backed final
  stackMaps : MapsPages { started process.mm.cache first with mm := final.mm } final (max first.mm.cache heapUserTop)
    (placedVm (max first.mm.cache heapUserTop) schedStackSize).stop

theorem LaidOut.steady {first : UserProcess} {before after stackBefore stackAfter : List Nat}
    (laid : LaidOut process first final before after stackBefore stackAfter) (steady : Steady start process)
    (below : process.mm.cache ≤ heapUserTop) : Steady start first := by
  have top : heapUserTop = 0x40000000 := rfl
  have heapSize : pageAlign schedHeapSize = 0x20000 := by decide
  have bounds : (placedVm process.mm.cache schedHeapSize).stop ≤ _ := placedVm_bounds.2
  refine ⟨fun place high => ?_, fun page old => laid.heapMaps.extends.pages page (steady.pages page old)⟩
  have kernel : kernelVirtAddr = 0xC0000000 := rfl
  rw [laid.heapMaps.kept place (.inr (by omega))]
  exact steady.memory place high

theorem Filled.laidOut (filled : Filled buffer start process areas segs) :
    ∃ first final before after stackBefore stackAfter, areas = before ++ after ∧
      LaidOut process first final before after stackBefore stackAfter := by
  have ordered := filled.loading.ordered
  have reach := filled.housed.reach
  have cache : process.mm.cache ≤ 0x40000000 := ordered.cache
  have top : heapUserTop = 0x40000000 := rfl
  have heapSize : pageAlign schedHeapSize = 0x20000 := by decide
  have stackSize : pageAlign schedStackSize = 0x2000 := by decide
  have begins : mmapFindAddr process.mm 0 = process.mm.cache := by
    rw [mmapFindAddr, ordered.brkEnd]
    simp
  obtain ⟨first, before, after, heapRan, split, inserts, backed, heapMaps⟩ :=
    userMmapMap_anywhere filled.loading.backed ordered.toLined (by rwa [begins]) (by rw [heapSize]; decide)
      (by rw [begins, heapSize]; omega)
  rw [begins] at heapRan inserts heapMaps
  subst split
  have lined := inserts.lined ordered.toLined reach
  have search : mmapFindAddr (started process.mm.cache first).mm 0 = max first.mm.cache heapUserTop := by
    rw [mmapFindAddr, if_pos (.inl rfl)]
    rfl
  have moved : first.mm.cache = if process.mm.cache = 0 then process.mm.cache else process.mm.cache + 0x20000 := by
    rw [← heapSize]
    exact inserts.fills.cache
  have small : first.mm.cache ≤ 0x40020000 := by
    rw [moved]
    split <;> omega
  have later : process.mm.cache ≤ first.mm.cache := by
    rw [moved]
    split <;> omega
  have behind : ∀ vm ∈ before ++ process.mm.vmCount :: after, (first.mm.vms vm).stop ≤ first.mm.cache := by
    intro vm member
    rcases mem_inserted.mp member with rfl | known
    · rw [inserts.fills.area, moved, placedVm]
      split
      next => exact Nat.zero_le _
      next => exact le_rfl
    · rw [inserts.old ordered.toLined known]
      exact (reach vm known).trans later
  have begun : Backed (started process.mm.cache first) := Backed.started backed
  obtain ⟨final, stackBefore, stackAfter, stackRan, split, stackArea, last, stackMaps⟩ := userMmapMap_anywhere begun
    ⟨lined.listed, lined.allocated, lined.sorted, lined.ordered⟩
    (fun vm member => by rw [search]; exact (behind vm member).trans (le_max_left _ _)) (by rw [stackSize]; decide)
    (by rw [search, stackSize]; omega)
  rw [search] at stackRan stackArea stackMaps
  exact ⟨first, final, before, after, stackBefore, stackAfter, rfl, heapRan, inserts, heapMaps, lined,
    fun vm member => (behind vm member).trans (le_max_left _ _), moved, stackRan, split, stackArea, last, stackMaps⟩

theorem Filled.layout (filled : Filled buffer start process areas segs) (formed : WellFormed start buffer length)
    (tidy : Tidy segs) (covered : ∀ segment ∈ segs, Covered segment) :
    ∃ layout final, elf32LoadLayout buffer ⟨process, reads, writes⟩ =
      some (layout, ⟨final, (buffer + 24, 4) :: reads, writes⟩) ∧
      Imaged start.memory buffer segs layout final := by
  have ordered := filled.loading.ordered
  have reach := filled.housed.reach
  have cache : process.mm.cache ≤ 0x40000000 := ordered.cache
  have top : heapUserTop = 0x40000000 := rfl
  have heapSize : pageAlign schedHeapSize = 0x20000 := by decide
  obtain ⟨first, final, before, after, _, _, split, laid⟩ := filled.laidOut
  subst split
  have heapMaps := laid.heapMaps
  have stackMaps := laid.stackMaps
  have moved := laid.moved
  have steady := laid.steady filled.loading.steady ordered.cache
  have small : first.mm.cache ≤ 0x40020000 := by
    rw [moved]
    split <;> omega
  have stack : (max first.mm.cache heapUserTop + schedStackSize) % 2 ^ 32 - schedStackSize = max first.mm.cache heapUserTop := by
    unfold schedStackSize
    omega
  have brkStart : final.brkStart = process.mm.cache := stackMaps.brkStart
  have low (segment : Elf32Phdr) (member : segment ∈ segs) (i : Nat) (inside : i < segment.memsz) :
      segment.vaddr + i < process.mm.cache ∧ process.mapped ((segment.vaddr + i) / physMmBlock) = true := by
    obtain ⟨vm, known, lower, upper⟩ := filled.housed.holds member (covered segment member) (tidy.below segment member) inside
    exact ⟨upper.trans_le (reach vm known), filled.loading.backed.backed vm (ordered.allocated vm known) _ lower upper⟩
  have below (segment : Elf32Phdr) (member : segment ∈ segs) (place : Nat) (lower : segment.vaddr ≤ place)
      (upper : place < segment.vaddr + segment.memsz) : place < process.mm.cache := by
    have index : segment.vaddr + (place - segment.vaddr) = place := by omega
    have bound := (low segment member (place - segment.vaddr) (by omega)).1
    omega
  refine ⟨_, final, by rw [elf32LoadLayout_eq formed steady laid.heapRan, laid.stackRan]; rfl, ⟨fun segment member i inside => ?_,
    fun segment member place lower upper => ?_, fun segment member place lower upper => ?_, fun place lower upper => ?_⟩⟩
  · obtain ⟨front, mapped⟩ := low segment member i inside
    refine ⟨stackMaps.extends.pages _ (heapMaps.extends.pages _ mapped), ?_⟩
    have kept := stackMaps.kept (segment.vaddr + i) (.inl (by omega))
    exact kept.trans ((heapMaps.kept (segment.vaddr + i) (.inl front)).trans (filled.bytes segment member i inside))
  · have front := below segment member place lower upper
    omega
  · have front := below segment member place lower upper
    simp only [stack]
    omega
  · rw [brkStart] at lower upper
    simp only [stack]
    have size : schedHeapSize = 0x20000 := rfl
    split at moved <;> omega

end Layout

section Images

variable {layout : Elf32Layout} {load : Elf32Load}

theorem load_calm (fresh : Fresh start) (formed : WellFormed start buffer length) :
    Calm start buffer start (segments start.memory buffer) := by
  have tidy := WellFormed.tidy formed
  refine (Fresh.loading fresh).calm (fun segment member => ⟨tidy.whole segment member, tidy.below segment member⟩) ?_
    fun _ _ => Nat.zero_le _
  exact tidy.ascending.imp fun before => before.1

/-- A load that returns runs through all segments and then lays out heap and stack. -/
theorem load_trace (fresh : Fresh start) (formed : WellFormed start buffer length)
    (ran : elf32Load buffer start = some (some layout, load)) :
    ∃ final reads writes, Library.run (loadSegment buffer) start (segments start.memory buffer) = some final ∧
      elf32LoadLayout buffer ⟨final, reads, writes⟩ = some (layout, load) := by
  obtain ⟨reads, writes, same, _⟩ := elf32Load_eq formed (load_calm fresh formed)
  rw [same] at ran
  obtain ⟨final, segments, finish⟩ := Option.bind_eq_some_iff.mp ran
  obtain ⟨⟨_, _⟩, laid, content⟩ := Option.map_eq_some_iff.mp finish
  cases content
  exact ⟨final, reads, writes, segments, laid⟩

theorem Separate.nil : Separate [] := ⟨by simp, List.Pairwise.nil, trivial⟩

theorem load_imaged (fresh : Fresh start) (formed : WellFormed start buffer length)
    (separate : Separate (segments start.memory buffer)) :
    ∃ layout load, elf32Load buffer start = some (some layout, load) ∧
      Imaged start.memory buffer (segments start.memory buffer) layout load.process := by
  have tidy : Tidy ([] ++ segments start.memory buffer) := WellFormed.tidy formed
  have whole : Separate ([] ++ segments start.memory buffer) := separate
  obtain ⟨reads, writes, same, _⟩ := elf32Load_eq formed (load_calm fresh formed)
  obtain ⟨final, areas, ran, filled⟩ := (Fresh.filled fresh).run formed.kernel tidy whole
  have laid : ∃ layout last,
      elf32LoadLayout buffer ⟨final, reads, writes⟩ = some (layout, ⟨last, (buffer + 24, 4) :: reads, writes⟩) ∧
      Imaged start.memory buffer (segments start.memory buffer) layout last := filled.layout formed tidy separate.covered
  obtain ⟨layout, last, laid, imaged⟩ := laid
  refine ⟨layout, ⟨last, (buffer + 24, 4) :: reads, writes⟩, ?_, imaged⟩
  rw [same, ran, Option.bind_some, laid]
  rfl

section Intruding

variable {early late : List Elf32Phdr} (fresh : Fresh start) (kernel : kernelVirtAddr ≤ buffer)
  (tidy : Tidy (early ++ segment :: late)) (separate : Separate early)
  (ran : Library.run (loadSegment buffer) start (early ++ segment :: late) = some final)

include fresh kernel tidy separate ran

theorem intruder_trace : ∃ middle areas next, Filled buffer start middle areas early ∧
    loadSegment buffer middle segment = some next ∧ Library.run (loadSegment buffer) next late = some final := by
  obtain ⟨middle, first, rest⟩ := run_append.mp ran
  obtain ⟨next, loaded, later⟩ := run_cons.mp rest
  have front : Tidy ([] ++ early) := tidy.front
  have whole : Separate ([] ++ early) := separate
  obtain ⟨other, areas, again, filled⟩ := (Fresh.filled fresh).run kernel front whole
  have same : middle = other := Option.some.inj (first.symm.trans again)
  subst same
  exact ⟨middle, areas, next, filled, loaded, later⟩

variable (laid : elf32LoadLayout buffer ⟨final, reads, writes⟩ = some (layout, load))

include laid

/-- A segment with pages of its own that are too few, or that breaks the list: the
load does not return. -/
theorem intruder_faults (clear : ∀ earlier ∈ early, Clear earlier segment) (intrudes : ¬Follows early segment) :
    False := by
  obtain ⟨middle, areas, next, filled, loaded, later⟩ := intruder_trace fresh kernel tidy separate ran
  by_cases alone : FirstAlone (early ++ [segment])
  · have ascends := tidy.ascends
    obtain ⟨_, mapped, _, mapping, _, housed, _⟩ := filled.housed.place filled.loading ascends clear alone tidy.front.small
    have absent := housed.absent ascends clear fun covered => intrudes ⟨covered, clear, alone⟩
    rw [loadSegment_eq mapping, if_neg absent] at loaded
    cases loaded
  · have stuck := filled.stick tidy separate.alone clear alone loaded
    rw [Stuck.layout (Stuck.run stuck later)] at laid
    cases laid

theorem intruder_spoils (member : earlier ∈ early) (shared : ¬Clear earlier segment)
    (frames : ∀ frame offset, start.frames frame offset = byte) : load.process.memory earlier.vaddr = byte := by
  obtain ⟨middle, areas, next, filled, loaded, later⟩ := intruder_trace fresh kernel tidy separate ran
  have spoiled := filled.spoil tidy separate member shared frames loaded
  have sublist : (earlier :: late).Sublist (early ++ segment :: late) :=
    (List.singleton_sublist.mpr member).append (List.sublist_cons_self segment late)
  have onward : Tidy (earlier :: late) :=
    ⟨fun segment inside => tidy.whole segment (sublist.subset inside), fun segment inside => tidy.below segment (sublist.subset inside),
      tidy.ascending.sublist sublist⟩
  exact ((spoiled.run (fun empty => shared (.inl empty)) onward later).layout laid).memory

end Intruding

theorem Fresh.retake (fresh : Fresh process) (frames : Nat → Nat → BitVec 8) : Fresh { process with frames } :=
  ⟨fresh.brk, fresh.brkEnd, fresh.cache, fresh.vmCount, fresh.next, fresh.prev, fresh.unmapped⟩

/-- If the image is loaded whatever new frames hold, the segments are separate. -/
theorem separate_of_images (fresh : Fresh process) (formed : WellFormed process buffer length)
    (loads : ∀ frames, ∃ layout load, elf32Load buffer { process with frames } = some (some layout, load) ∧
      Imaged process.memory buffer (segments process.memory buffer) layout load.process) : Separate (segments process.memory buffer) := by
  by_contra shared
  have whole : ¬Separate ([] ++ segments process.memory buffer) := shared
  obtain ⟨early, segment, late, split, separate, intrudes⟩ := exists_intruder Separate.nil whole
  rw [List.nil_append] at split
  have tidy := WellFormed.tidy formed
  have traced (frames : Nat → Nat → BitVec 8) {layout : Elf32Layout} {load : Elf32Load}
      (ran : elf32Load buffer { process with frames } = some (some layout, load)) :
      ∃ final reads writes, Library.run (loadSegment buffer) { process with frames } (early ++ segment :: late) = some final ∧
        elf32LoadLayout buffer ⟨final, reads, writes⟩ = some (layout, load) := by
    rw [← split]
    exact load_trace (Fresh.retake fresh frames) (formed.retake frames) ran
  rw [split] at tidy
  by_cases clear : ∀ earlier ∈ early, Clear earlier segment
  · obtain ⟨layout, load, ran, _⟩ := loads process.frames
    obtain ⟨final, reads, writes, ran, laid⟩ := traced _ ran
    exact intruder_faults fresh formed.kernel tidy separate ran laid clear intrudes
  · push Not at clear
    obtain ⟨earlier, member, overlap⟩ := clear
    -- New frames hold another byte than the one that the earlier segment starts with.
    obtain ⟨layout, load, ran, imaged⟩ := loads fun _ _ => ElfLoading.fileByte process.memory buffer earlier 0 + 1
    obtain ⟨final, reads, writes, ran, laid⟩ := traced _ ran
    have spoiled := intruder_spoils (Fresh.retake fresh _) formed.kernel tidy separate ran laid member overlap fun _ _ => rfl
    have filled : 0 < earlier.memsz := Nat.pos_of_ne_zero fun empty => overlap (.inl empty)
    have known : earlier ∈ segments process.memory buffer := by
      rw [split]
      exact List.mem_append_left _ member
    have stored : load.process.memory earlier.vaddr = ElfLoading.fileByte process.memory buffer earlier 0 :=
      (imaged.bytes earlier known 0 filled).2
    have differs (byte : BitVec 8) : byte + 1 ≠ byte := by
      revert byte
      decide
    exact differs _ (spoiled.symm.trans stored)

/-- Loading returns the image of a well-formed executable, whatever new frames hold,
if and only if the segments keep to pages of their own. -/
theorem image_loaded_iff (fresh : Fresh process) (formed : WellFormed process buffer length) :
    (∀ frames, ∃ layout load, elf32Load buffer { process with frames } = some (some layout, load) ∧
      Imaged process.memory buffer (segments process.memory buffer) layout load.process) ↔ Separate (segments process.memory buffer) :=
  ⟨separate_of_images fresh formed, fun separate frames => load_imaged (Fresh.retake fresh frames) (formed.retake frames) separate⟩

/-- An executable with a segment on the second page and another one of three bytes. -/
def twoSegments (page : BitVec 8) : List (BitVec 8) :=
  [0x7F, 0x45, 0x4C, 0x46, 1, 1, 1, 0, 0, 0, 0, 0, 0, 0, 0, 0, 2, 0, 3, 0, 1, 0, 0, 0, 4, 0x10, 0, 0, 52, 0, 0, 0,
    0, 0, 0, 0, 0, 0, 0, 0, 52, 0, 32, 0, 2, 0, 0, 0, 0, 0, 0, 0,
    1, 0, 0, 0, 116, 0, 0, 0, 0, 0x10, 0, 0, 0, 0x10, 0, 0, 4, 0, 0, 0, 16, 0, 0, 0, 5, 0, 0, 0, 0, 0, 0, 0,
    1, 0, 0, 0, 120, 0, 0, 0, 8, page, 0, 0, 8, page, 0, 0, 1, 0, 0, 0, 3, 0, 0, 0, 6, 0, 0, 0, 0, 0, 0, 0, 9, 8, 7, 6, 5]

theorem twoSegments_listed {page : BitVec 8} (kind : page = 0x18 ∨ page = 0x20) :
    segments (elfProcess 0xD0001000 (twoSegments page)).memory 0xD0001000 =
      [⟨1, 116, 0x1000, 4, 16⟩, ⟨1, 120, 8 + 256 * page.toNat, 1, 3⟩] := by
  rcases kind with rfl | rfl <;> decide +kernel

theorem twoSegments_separate : Separate [⟨1, 116, 0x1000, 4, 16⟩, ⟨1, 120, 0x2008, 1, 3⟩] :=
  ⟨by decide +kernel, by decide +kernel, by decide +kernel⟩

theorem twoSegments_formed {page : BitVec 8} (kind : page = 0x18 ∨ page = 0x20) :
    WellFormed (elfProcess 0xD0001000 (twoSegments page)) 0xD0001000 121 := by
  have listed := twoSegments_listed kind
  refine ⟨by decide, by decide, ?_, by decide, ?_, ?_, ?_, ?_, ?_, ?_⟩
  · rcases kind with rfl | rfl <;> decide +kernel
  · rcases kind with rfl | rfl <;> decide +kernel
  · rcases kind with rfl | rfl <;> decide +kernel
  · rcases kind with rfl | rfl <;> decide +kernel
  · rcases kind with rfl | rfl <;> decide +kernel
  · rw [listed]
    intro segment member
    simp only [List.mem_cons, List.not_mem_nil, or_false] at member
    rcases member with rfl | rfl
    · exact ⟨by decide, by decide, by decide⟩
    · rcases kind with rfl | rfl <;> exact ⟨by decide, by decide, by decide⟩
  · rw [listed]
    rcases kind with rfl | rfl <;> decide

theorem image_loaded_iff_example : ∃ layout load,
    elf32Load 0xD0001000 { elfProcess 0xD0001000 (twoSegments 0x20) with frames := fun _ offset => offset } =
        some (some layout, load) ∧
      Imaged (elfProcess 0xD0001000 (twoSegments 0x20)).memory 0xD0001000 [⟨1, 116, 0x1000, 4, 16⟩, ⟨1, 120, 0x2008, 1, 3⟩]
        layout load.process := by
  have listed : segments (elfProcess 0xD0001000 (twoSegments 0x20)).memory 0xD0001000 =
      [⟨1, 116, 0x1000, 4, 16⟩, ⟨1, 120, 0x2008, 1, 3⟩] := twoSegments_listed (.inr rfl)
  have images := (image_loaded_iff (elfProcess_fresh 0xD0001000 (twoSegments 0x20)) (twoSegments_formed (.inr rfl))).mpr
    (by rw [listed]; exact twoSegments_separate) fun _ offset => offset
  rw [listed] at images
  exact images

/-- Two segments on one page: the page is mapped again for the second, and the first
loses its bytes. -/
theorem shared_page_replaced : Fresh (elfProcess 0xD0001000 (twoSegments 0x18)) ∧
    WellFormed (elfProcess 0xD0001000 (twoSegments 0x18)) 0xD0001000 121 ∧
    ∃ layout load, elf32Load 0xD0001000 (elfProcess 0xD0001000 (twoSegments 0x18)) = some (some layout, load) ∧
      load.process.memory 0x1000 = 0xAA ∧
      ¬Imaged (elfProcess 0xD0001000 (twoSegments 0x18)).memory 0xD0001000
        (segments (elfProcess 0xD0001000 (twoSegments 0x18)).memory 0xD0001000) layout load.process := by
  refine ⟨elfProcess_fresh _ _, twoSegments_formed (.inl rfl), ?_⟩
  have ends : (elf32Load 0xD0001000 (elfProcess 0xD0001000 (twoSegments 0x18))).map (fun result =>
      (result.1.isSome, result.2.process.memory 0x1000)) = some (true, 0xAA) := by decide +kernel
  obtain ⟨⟨returned, load⟩, loaded, same⟩ := Option.map_eq_some_iff.mp ends
  simp only [Prod.mk.injEq] at same
  obtain ⟨filled, replaced⟩ := same
  obtain ⟨layout, rfl⟩ := Option.isSome_iff_exists.mp filled
  refine ⟨layout, load, loaded, replaced, fun imaged => ?_⟩
  rw [twoSegments_listed (.inl rfl)] at imaged
  have stored := (imaged.bytes ⟨1, 116, 0x1000, 4, 16⟩ List.mem_cons_self 0 (by decide)).2
  rw [Nat.add_zero, replaced] at stored
  exact absurd stored (by decide +kernel)

end Images

end YuzuOS.Proofs.ElfImage
