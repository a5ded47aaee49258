import YuzuOS.Proofs.ElfAreas

/-! What loading segment after segment does to a process: what is mapped, which
bytes arrive, and when a later segment spoils an earlier one. -/

namespace YuzuOS.Proofs.ElfLoading
open YuzuOS.Library YuzuOS.Kernel YuzuOS.Proofs.MemoryAreas YuzuOS.Proofs.UserPages YuzuOS.Proofs.UserBreak
open YuzuOS.Proofs.ElfSegments YuzuOS.Proofs.ElfAreas

variable {start process next : UserProcess} {mm : ProcessMm} {areas : List Nat} {segment : Elf32Phdr}
  {segs : List Elf32Phdr} {buffer vaddr memsz top first last vm : Nat}

/-- Between two segments: the areas are in order and the kernel half is as it was. -/
structure Loading (start process : UserProcess) (areas : List Nat) (top : Nat) : Prop where
  backed : Backed process
  steady : Steady start process
  frames : process.frames = start.frames
  ordered : Ordered process.mm areas top

theorem Fresh.loading (fresh : Fresh start) : Loading start start [] 0 := by
  have unlisted (vm : Nat) (member : vm ∈ ([] : List Nat)) : False := List.not_mem_nil member
  refine ⟨fresh.backed, .refl _, rfl, ⟨⟨?_, fun vm member => (unlisted vm member).elim, List.Pairwise.nil,
    fun vm member => (unlisted vm member).elim⟩, fun vm member => (unlisted vm member).elim, fun vm member => (unlisted vm member).elim,
    fresh.brkEnd, fresh.cache ▸ Nat.zero_le _, fun _ => fresh.cache⟩⟩
  exact Ring.nil_iff.mpr ⟨fresh.next, fresh.prev⟩

theorem Loading.atTop (loading : Loading start process areas top) : Loading start process areas heapUserTop :=
  ⟨loading.backed, loading.steady, loading.frames, { loading.ordered with
    low := fun vm member => (loading.ordered.ordered vm member).trans (loading.ordered.bounded vm member) }⟩

theorem userMmapMap_served (backed : Backed process) (small : vaddr < 2 ^ 32)
    (requested : (mmapMap vaddr memsz process.mm).map (fun result => result.2) = some (vm, mm)) :
    ∃ result next, process.mmapMap vaddr memsz = some (result, next) ∧ next.mm = mm ∧ Backed next ∧
      result = (if vaddr ≠ 0 then vaddr else (mm.vms vm).start) ∧
      MapsPages { process with mm } next (mm.vms vm).start (mm.vms vm).stop := by
  obtain ⟨⟨result, served, areas⟩, mapping, same⟩ := Option.map_eq_some_iff.mp requested
  cases same
  obtain ⟨next, ran, content⟩ := userMmapMap_returns backed small mapping
  obtain ⟨other, again, serves, kept, maps⟩ := userMmapMap_spec backed small ran
  have unique := Option.some.inj (mapping.symm.trans again)
  cases unique
  exact ⟨result, next, ran, rfl, kept, (mmapMap_serves backed.paged small again).2, maps⟩

/-- Mapping pages below the user top leaves the kernel half. -/
theorem Steady.maps (steady : Steady start process) (maps : MapsPages { process with mm } next first last)
    (bounded : last ≤ heapUserTop) : Steady start next := by
  have below : heapUserTop ≤ kernelVirtAddr := by decide
  refine ⟨fun place high => ?_, fun page old => maps.extends.pages page (steady.pages page old)⟩
  rw [maps.kept place (.inr (bounded.trans (below.trans high)))]
  exact steady.memory place high

theorem userMmapMap_anywhere {len : Nat} (backed : Backed process) (lined : Lined process.mm areas)
    (behind : ∀ vm ∈ areas, (process.mm.vms vm).stop ≤ mmapFindAddr process.mm 0) (positive : 0 < pageAlign len)
    (fits : mmapFindAddr process.mm 0 + pageAlign len < 2 ^ 32) :
    ∃ next before after, process.mmapMap 0 len = some (mmapFindAddr process.mm 0, next) ∧ areas = before ++ after ∧
      Inserts process.mm next.mm (mmapFindAddr process.mm 0) len before after ∧ Backed next ∧
      MapsPages { process with mm := next.mm } next (mmapFindAddr process.mm 0) (placedVm (mmapFindAddr process.mm 0) len).stop := by
  have null : alignDown 0 physMmBlock = 0 := by decide
  have unheld : ∀ vm ∈ areas, ¬Holds process.mm (alignDown 0 physMmBlock) vm := by
    intro vm member holds
    rw [null] at holds
    exact backed.paged.placed (lined.allocated vm member) holds (Nat.le_zero.mp holds.1)
  obtain ⟨mm, before, after, split, _, ran, inserts⟩ := findUnmappedVm_inserts lined behind fits fun _ _ _ => .inl positive
  have requested : (mmapMap 0 len process.mm).map (fun result => result.2) = some (process.mm.vmCount, mm) := by
    rw [mmapMap_unmapped (lined.findVm_none unheld), null, ran]
  obtain ⟨result, next, mapped, content, kept, same, maps⟩ := userMmapMap_served backed (by decide) requested
  subst content
  rw [inserts.fills.area, placedVm_start] at maps
  have found : result = mmapFindAddr process.mm 0 := by
    rw [same, inserts.fills.area, placedVm_start]
    rfl
  exact ⟨next, before, after, found ▸ mapped, split, inserts, kept, maps⟩

section Mapping

variable (loading : Loading start process areas top) (below : vaddr + memsz ≤ heapUserTop) (above : top ≤ baseOf vaddr)

include loading below above

theorem Loading.share (member : vm ∈ areas) (holds : Holds process.mm (baseOf vaddr) vm) :
    ∃ result next, process.mmapMap vaddr memsz = some (result, next) ∧ Loading start next areas (baseOf vaddr) ∧
      (process.mm.vms vm).stop ≤ (next.mm.vms vm).stop ∧
      MapsPages { process with mm := next.mm } next (process.mm.vms vm).start (next.mm.vms vm).stop := by
  obtain ⟨mm, requested, ordered, begins, larger⟩ := mmapMap_shared loading.ordered below above member holds
  have small : vaddr < 2 ^ 32 := by
    unfold heapUserTop at below
    omega
  obtain ⟨result, next, ran, content, backed, _, maps⟩ := userMmapMap_served loading.backed small requested
  subst content
  have steady := Steady.maps loading.steady maps (ordered.bounded vm member)
  rw [begins] at maps
  exact ⟨result, next, ran, ⟨backed, steady, maps.frames.trans loading.frames, ordered⟩, larger, maps⟩

theorem Loading.place (unheld : ∀ vm ∈ areas, ¬Holds process.mm (baseOf vaddr) vm)
    (distinct : ∀ first rest, areas = first :: rest → 0 < pageAlign memsz ∨ (process.mm.vms first).start < baseOf vaddr) :
    ∃ result next before after, process.mmapMap vaddr memsz = some (result, next) ∧ areas = before ++ after ∧
      (areas ≠ [] → before ≠ []) ∧ Inserts process.mm next.mm (baseOf vaddr) memsz before after ∧
      Loading start next (before ++ process.mm.vmCount :: after) (baseOf vaddr) ∧
      MapsPages { process with mm := next.mm } next (baseOf vaddr) (placedVm (baseOf vaddr) memsz).stop := by
  obtain ⟨mm, before, after, split, kept, requested, inserts, ordered⟩ :=
    mmapMap_placed loading.ordered below above unheld distinct
  have small : vaddr < 2 ^ 32 := by
    unfold heapUserTop at below
    omega
  obtain ⟨result, next, ran, content, backed, _, maps⟩ := userMmapMap_served loading.backed small requested
  subst content
  have steady := Steady.maps loading.steady maps (ordered.bounded process.mm.vmCount (by simp))
  rw [inserts.fills.area, placedVm_start] at maps
  exact ⟨result, next, before, after, ran, split, kept, inserts,
    ⟨backed, steady, maps.frames.trans loading.frames, ordered⟩, maps⟩

theorem Loading.stick {rest : List Nat} (split : areas = first :: rest)
    (unheld : ∀ vm ∈ areas, ¬Holds process.mm (baseOf vaddr) vm) (empty : pageAlign memsz = 0)
    (same : (process.mm.vms first).start = baseOf vaddr) :
    ∃ result next, process.mmapMap vaddr memsz = some (result, next) ∧ Stuck next.mm ∧ Steady start next := by
  subst split
  obtain ⟨mm, requested, stuck, _, bounded⟩ := mmapMap_stuck loading.ordered below above unheld empty same
  have small : vaddr < 2 ^ 32 := by
    unfold heapUserTop at below
    omega
  obtain ⟨result, next, ran, content, _, _, maps⟩ := userMmapMap_served loading.backed small requested
  subst content
  exact ⟨result, next, ran, stuck, Steady.maps loading.steady maps bounded⟩

/-- Every segment in front of which all areas start is mapped, unless the list breaks. -/
theorem Loading.mmapMap : ∃ result next, process.mmapMap vaddr memsz = some (result, next) ∧ Steady start next ∧
    ((∃ areas, Loading start next areas (baseOf vaddr)) ∨ Stuck next.mm) := by
  by_cases held : ∃ vm ∈ areas, Holds process.mm (baseOf vaddr) vm
  · obtain ⟨vm, member, holds⟩ := held
    obtain ⟨result, next, ran, later, _⟩ := loading.share below above member holds
    exact ⟨result, next, ran, later.steady, .inl ⟨areas, later⟩⟩
  · have unheld (vm : Nat) (member : vm ∈ areas) (holds : Holds process.mm (baseOf vaddr) vm) : False := held ⟨vm, member, holds⟩
    by_cases distinct : ∀ first rest, areas = first :: rest → 0 < pageAlign memsz ∨ (process.mm.vms first).start < baseOf vaddr
    · obtain ⟨result, next, _, _, ran, _, _, _, later, _⟩ := loading.place below above unheld distinct
      exact ⟨result, next, ran, later.steady, .inl ⟨_, later⟩⟩
    · push Not at distinct
      obtain ⟨first, rest, split, empty, late⟩ := distinct
      have low := loading.ordered.low first (by simp [split])
      obtain ⟨result, next, ran, stuck, steady⟩ := loading.stick below above split unheld (Nat.le_zero.mp empty) (by omega)
      exact ⟨result, next, ran, steady, .inr stuck⟩

end Mapping

def written (buffer : Nat) (process : UserProcess) (segment : Elf32Phdr) : UserProcess :=
  { process with
    memory := (process.memory.fill segment.vaddr segment.memsz 0).write segment.vaddr segment.filesz fun i =>
      process.memory (buffer + segment.offset + i) }

theorem loadSegment_eq {result : Nat} (ran : process.mmapMap segment.vaddr segment.memsz = some (result, next)) :
    loadSegment buffer process segment =
      if next.Present segment.vaddr segment.memsz then some (written buffer next segment) else none := by
  rw [loadSegment, ran]
  rfl

theorem loadSegment_some {after : UserProcess} (ran : loadSegment buffer process segment = some after) :
    ∃ result next, process.mmapMap segment.vaddr segment.memsz = some (result, next) ∧
      next.Present segment.vaddr segment.memsz ∧ after = written buffer next segment := by
  obtain ⟨⟨result, next⟩, mapped, finish⟩ := Option.bind_eq_some_iff.mp ran
  obtain ⟨present, same⟩ := Option.ite_none_right_eq_some.mp finish
  exact ⟨result, next, mapped, present, (Option.some.inj same).symm⟩

theorem written_memory : (written buffer process segment).memory =
    (process.memory.fill segment.vaddr segment.memsz 0).write segment.vaddr segment.filesz fun i =>
      process.memory (buffer + segment.offset + i) := rfl

def fileByte (memory : Memory) (buffer : Nat) (segment : Elf32Phdr) (i : Nat) : BitVec 8 :=
  if i < segment.filesz then memory (buffer + segment.offset + i) else 0

/-- The source of the bytes is in the kernel half, which is as it was. -/
theorem written_inside {i : Nat} (steady : Steady start process) (kernel : kernelVirtAddr ≤ buffer)
    (inside : i < segment.memsz) :
    (written buffer process segment).memory (segment.vaddr + i) = fileByte start.memory buffer segment i := by
  rw [written_memory, fileByte]
  split
  next copied =>
    rw [Memory.write_inside (Nat.le_add_right _ _) (by omega), Nat.add_sub_cancel_left]
    exact steady.memory _ (by omega)
  next cleared =>
    rw [Memory.write_outside (by omega), Memory.fill, Memory.write_inside (Nat.le_add_right _ _) (by omega)]

theorem written_outside {place : Nat} (whole : segment.filesz ≤ segment.memsz)
    (apart : place < segment.vaddr ∨ segment.vaddr + segment.memsz ≤ place) :
    (written buffer process segment).memory place = process.memory place := by
  have cleared : process.memory.fill segment.vaddr segment.memsz 0 place = process.memory place := Memory.write_outside apart
  rw [written_memory, Memory.write_outside (by omega), cleared]

theorem written_steady (steady : Steady start process) (whole : segment.filesz ≤ segment.memsz)
    (below : segment.vaddr + segment.memsz ≤ heapUserTop) : Steady start (written buffer process segment) := by
  have top : heapUserTop ≤ kernelVirtAddr := by decide
  refine ⟨fun place high => ?_, steady.pages⟩
  rw [written_outside whole (by omega)]
  exact steady.memory place high

theorem Loading.written (loading : Loading start process areas top) (whole : segment.filesz ≤ segment.memsz)
    (below : segment.vaddr + segment.memsz ≤ heapUserTop) : Loading start (written buffer process segment) areas top :=
  ⟨loading.backed.memory, written_steady loading.steady whole below, loading.frames, loading.ordered⟩

theorem Stuck.mapsNothing (stuck : Stuck process.mm) : process.mmapMap vaddr memsz = none := by
  rw [UserProcess.mmapMap, stuck.mmapMap]
  rfl

theorem Stuck.calm (stuck : Stuck process.mm) (steady : Steady start process) : Calm start buffer process segs := by
  cases segs with
  | nil => exact steady
  | cons segment rest =>
    have nothing : process.mmapMap segment.vaddr segment.memsz = none := Stuck.mapsNothing stuck
    refine ⟨steady, fun result next mapped => ?_, fun next loaded => ?_⟩
    · rw [nothing] at mapped
      cases mapped
    · rw [loadSegment, nothing] at loaded
      cases loaded

theorem baseOf_mono {other : Nat} (order : vaddr ≤ other) (small : other ≤ heapUserTop) :
    baseOf vaddr ≤ baseOf other := by
  rw [baseOf_eq (order.trans small), baseOf_eq small]
  exact Nat.mul_le_mul_right _ (Nat.div_le_div_right order)

/-- Segments in ascending order leave the kernel half alone, whatever they share. -/
theorem Loading.calm (loading : Loading start process areas top)
    (inside : ∀ segment ∈ segs, segment.filesz ≤ segment.memsz ∧ segment.vaddr + segment.memsz ≤ heapUserTop)
    (ascending : segs.Pairwise fun first second => first.vaddr ≤ second.vaddr)
    (above : ∀ segment ∈ segs, top ≤ baseOf segment.vaddr) :
    Calm start buffer process segs := by
  induction segs generalizing process areas top with
  | nil => exact loading.steady
  | cons segment rest ih =>
    obtain ⟨whole, below⟩ := inside segment List.mem_cons_self
    obtain ⟨later, ascending⟩ := List.pairwise_cons.mp ascending
    obtain ⟨result, next, mapped, steady, shape⟩ := loading.mmapMap below (above segment List.mem_cons_self)
    refine ⟨loading.steady, fun result other again => ?_, fun after loaded => ?_⟩
    · rw [mapped] at again
      cases again
      exact steady
    · obtain ⟨result, other, again, _, rfl⟩ := loadSegment_some loaded
      rw [mapped] at again
      cases again
      rcases shape with ⟨areas, onward⟩ | stuck
      · refine ih (onward.written whole below) (fun other member => inside other (List.mem_cons_of_mem _ member)) ascending
          fun other member => baseOf_mono (later other member) ?_
        have fits := (inside other (List.mem_cons_of_mem _ member)).2
        omega
      · exact Stuck.calm stuck (written_steady steady whole below)

/-- The pages mapped for a segment hold all its bytes: it is not on the page of
`NULL`, and as many pages as its size needs are enough where it starts. -/
def Covered (segment : Elf32Phdr) : Prop :=
  segment.memsz = 0 ∨ (physMmBlock ≤ segment.vaddr ∧ segment.vaddr % physMmBlock + segment.memsz ≤ pageAlign segment.memsz)

def Clear (first second : Elf32Phdr) : Prop :=
  first.memsz = 0 ∨ baseOf first.vaddr + pageAlign first.memsz ≤ baseOf second.vaddr

/-- No segment without bytes starts on the page of a first one without bytes. -/
def FirstAlone : List Elf32Phdr → Prop
  | [] => True
  | first :: rest => first.memsz = 0 → ∀ segment ∈ rest, segment.memsz = 0 → baseOf segment.vaddr ≠ baseOf first.vaddr

instance (segment : Elf32Phdr) : Decidable (Covered segment) := by unfold Covered; infer_instance

instance (first second : Elf32Phdr) : Decidable (Clear first second) := by unfold Clear; infer_instance

instance : (segs : List Elf32Phdr) → Decidable (FirstAlone segs)
  | [] => isTrue trivial
  | first :: rest => inferInstanceAs
    (Decidable (first.memsz = 0 → ∀ segment ∈ rest, segment.memsz = 0 → baseOf segment.vaddr ≠ baseOf first.vaddr))

/-- Segments that keep to pages of their own. -/
structure Separate (segs : List Elf32Phdr) : Prop where
  covered : ∀ segment ∈ segs, Covered segment
  clear : segs.Pairwise Clear
  alone : FirstAlone segs

structure Follows (done : List Elf32Phdr) (segment : Elf32Phdr) : Prop where
  covered : Covered segment
  clear : ∀ earlier ∈ done, Clear earlier segment
  alone : FirstAlone (done ++ [segment])

variable {done : List Elf32Phdr}

theorem FirstAlone.front {rest : List Elf32Phdr} (alone : FirstAlone (segs ++ rest)) : FirstAlone segs := by
  cases segs with
  | nil => trivial
  | cons first others => exact fun empty segment member => alone empty segment (List.mem_append_left _ member)

theorem Separate.follows {rest : List Elf32Phdr} (separate : Separate (done ++ segment :: rest)) :
    Follows done segment := by
  refine ⟨separate.covered segment (by simp), fun earlier member => ?_, ?_⟩
  · exact (List.pairwise_append.mp separate.clear).2.2 earlier member segment List.mem_cons_self
  · have split : done ++ segment :: rest = done ++ [segment] ++ rest := by simp
    exact FirstAlone.front (split ▸ separate.alone)

theorem Separate.append (separate : Separate done) (follows : Follows done segment) : Separate (done ++ [segment]) := by
  refine ⟨fun other member => ?_,
    List.pairwise_append.mpr ⟨separate.clear, List.pairwise_singleton _ _, fun earlier member other last => ?_⟩,
    follows.alone⟩
  · rcases List.mem_append.mp member with old | last
    · exact separate.covered other old
    · exact List.mem_singleton.mp last ▸ follows.covered
  · exact List.mem_singleton.mp last ▸ follows.clear earlier member

/-- Segments that are not separate have a first one that does not follow the others. -/
theorem exists_intruder (separate : Separate done) (shared : ¬Separate (done ++ segs)) :
    ∃ early segment late, done ++ segs = early ++ segment :: late ∧ Separate early ∧ ¬Follows early segment := by
  induction segs generalizing done with
  | nil => exact absurd (by simpa using separate) shared
  | cons segment rest ih =>
    by_cases follows : Follows done segment
    · have split : done ++ segment :: rest = done ++ [segment] ++ rest := by simp
      rw [split] at shared ⊢
      exact ih (separate.append follows) shared
    · exact ⟨done, segment, rest, rfl, separate, follows⟩

theorem pageAlign_zero : pageAlign 0 = 0 := by decide

/-- The area of a segment ends in front of a later one that is clear of it. -/
theorem Clear.stop_le {other : Elf32Phdr} (clear : Clear segment other) (order : segment.vaddr ≤ other.vaddr)
    (small : other.vaddr ≤ heapUserTop) :
    (placedVm (baseOf segment.vaddr) segment.memsz).stop ≤ baseOf other.vaddr := by
  have bound : (placedVm (baseOf segment.vaddr) segment.memsz).stop ≤ baseOf segment.vaddr + pageAlign segment.memsz :=
    placedVm_bounds.2
  rcases clear with empty | behind
  · rw [empty, pageAlign_zero, Nat.add_zero] at bound
    exact empty ▸ bound.trans (baseOf_mono order small)
  · exact bound.trans behind

/-- Each segment so far has an area, and there are no other areas and pages. -/
structure Housed (process : UserProcess) (areas : List Nat) (done : List Elf32Phdr) : Prop where
  area : ∀ segment ∈ done, ∃ vm ∈ areas, process.mm.vms vm = placedVm (baseOf segment.vaddr) segment.memsz
  owner : ∀ vm ∈ areas, ∃ segment ∈ done, process.mm.vms vm = placedVm (baseOf segment.vaddr) segment.memsz
  first : (areas.head?.map fun vm => (process.mm.vms vm).start) = done.head?.map fun segment => baseOf segment.vaddr
  reach : ∀ vm ∈ areas, (process.mm.vms vm).stop ≤ process.mm.cache
  pages : ∀ page, page * physMmBlock < kernelVirtAddr → process.mapped page = true →
    ∃ vm ∈ areas, Holds process.mm (page * physMmBlock) vm

theorem Housed.written (housed : Housed process areas done) : Housed (written buffer process segment) areas done :=
  ⟨housed.area, housed.owner, housed.first, housed.reach, housed.pages⟩

theorem Fresh.housed (fresh : Fresh start) : Housed start [] [] := by
  refine ⟨by simp, by simp, rfl, by simp, fun page below mapped => ?_⟩
  rw [fresh.unmapped page below] at mapped
  cases mapped

structure Ascends (done : List Elf32Phdr) (segment : Elf32Phdr) : Prop where
  below : segment.vaddr + segment.memsz ≤ heapUserTop
  order : ∀ earlier ∈ done, earlier.vaddr ≤ segment.vaddr

theorem Ascends.small (ascends : Ascends done segment) : segment.vaddr ≤ heapUserTop := by
  have below := ascends.below
  omega

theorem Housed.behind (housed : Housed process areas done) (ascends : Ascends done segment)
    (clear : ∀ earlier ∈ done, Clear earlier segment) :
    ∀ vm ∈ areas, (process.mm.vms vm).stop ≤ baseOf segment.vaddr := by
  intro vm member
  obtain ⟨earlier, known, content⟩ := housed.owner vm member
  rw [content]
  exact Clear.stop_le (clear earlier known) (ascends.order earlier known) ascends.small

theorem Housed.unheld (housed : Housed process areas done) (ascends : Ascends done segment)
    (clear : ∀ earlier ∈ done, Clear earlier segment) : ∀ vm ∈ areas, ¬Holds process.mm (baseOf segment.vaddr) vm := by
  intro vm member holds
  have behind := housed.behind ascends clear vm member
  have inside := holds.2
  omega

theorem Housed.lower (housed : Housed process areas done) (loading : Loading start process areas top)
    (ascends : Ascends done segment) :
    Loading start process areas (baseOf segment.vaddr) := by
  refine ⟨loading.backed, loading.steady, loading.frames, { loading.ordered with low := fun vm member => ?_ }⟩
  obtain ⟨earlier, known, content⟩ := housed.owner vm member
  rw [content, placedVm_start]
  exact baseOf_mono (ascends.order earlier known) ascends.small

theorem Housed.head {rest : List Nat} (housed : Housed process (vm :: rest) done) :
    ∃ segment later, done = segment :: later ∧ (process.mm.vms vm).start = baseOf segment.vaddr := by
  have first := housed.first
  cases done with
  | nil => simp at first
  | cons segment later => exact ⟨segment, later, rfl, by simpa using first⟩

/-- The new segment does not break the list. -/
theorem Housed.distinct (housed : Housed process areas done) (ascends : Ascends done segment)
    (clear : ∀ earlier ∈ done, Clear earlier segment) (alone : FirstAlone (done ++ [segment]))
    (small : ∀ earlier ∈ done, earlier.memsz ≤ heapUserTop) :
    ∀ first rest, areas = first :: rest →
      0 < pageAlign segment.memsz ∨ (process.mm.vms first).start < baseOf segment.vaddr := by
  rintro vm rest rfl
  obtain ⟨first, later, rfl, begins⟩ := housed.head
  have below := ascends.below
  have size : segment.memsz ≤ heapUserTop := by omega
  have known : first ∈ first :: later := List.mem_cons_self
  have upper := (pageAlign_top size).1
  have lower := (pageAlign_top (small first known)).1
  have order := baseOf_mono (ascends.order first known) ascends.small
  rw [begins]
  rcases Nat.eq_zero_or_pos segment.memsz with empty | positive
  · rcases clear first known with none | behind
    · have apart := alone none segment (by simp) empty
      omega
    · by_cases none : first.memsz = 0
      · have apart := alone none segment (by simp) empty
        omega
      · omega
  · omega

theorem Housed.insert {before after : List Nat} (housed : Housed process (before ++ after) done)
    (ordered : Ordered process.mm (before ++ after) top) (kept : before ++ after ≠ [] → before ≠ [])
    (behind : ∀ vm ∈ before ++ after, (process.mm.vms vm).stop ≤ baseOf segment.vaddr)
    (inserts : Inserts process.mm next.mm (baseOf segment.vaddr) segment.memsz before after)
    (maps : MapsPages { process with mm } next (baseOf segment.vaddr) (placedVm (baseOf segment.vaddr) segment.memsz).stop) :
    Housed next (before ++ process.mm.vmCount :: after) (done ++ [segment]) := by
  have fills := inserts.fills
  have old (vm : Nat) (member : vm ∈ before ++ after) := inserts.old ordered.toLined member
  refine ⟨fun other member => ?_, fun vm member => ?_, ?_, fun vm member => ?_, fun page below mapped => ?_⟩
  · rcases List.mem_append.mp member with known | last
    · obtain ⟨vm, inside, content⟩ := housed.area other known
      exact ⟨vm, mem_inserted.mpr (.inr inside), (old vm inside).trans content⟩
    · rw [List.mem_singleton.mp last]
      exact ⟨process.mm.vmCount, mem_inserted.mpr (.inl rfl), fills.area⟩
  · rcases mem_inserted.mp member with rfl | inside
    · exact ⟨segment, by simp, fills.area⟩
    · obtain ⟨earlier, known, content⟩ := housed.owner vm inside
      exact ⟨earlier, List.mem_append_left _ known, (old vm inside).trans content⟩
  · cases before with
    | nil =>
      have none : after = [] := by
        by_contra some
        exact kept some rfl
      subst none
      have first := housed.first
      cases done with
      | nil => simp [fills.area]
      | cons segment rest => simp at first
    | cons vm rest =>
      obtain ⟨first, later, rfl, begins⟩ := housed.head
      have same := old vm (by simp)
      simp [same, begins]
  · rw [fills.cache]
    rcases mem_inserted.mp member with rfl | inside
    · rw [fills.area]
      unfold placedVm
      split
      next null => exact Nat.zero_le _
      next => exact le_rfl
    · have stop := behind vm inside
      rw [old vm inside]
      split
      next => exact housed.reach vm inside
      next => exact stop.trans (Nat.le_add_right _ _)
  · rcases (maps.pages page).mp mapped with earlier | here
    · obtain ⟨vm, inside, holds⟩ := housed.pages page below earlier
      refine ⟨vm, mem_inserted.mpr (.inr inside), ?_⟩
      unfold Holds
      rwa [old vm inside]
    · refine ⟨process.mm.vmCount, mem_inserted.mpr (.inl rfl), ?_⟩
      unfold Holds
      rwa [fills.area, placedVm_start]

theorem Housed.place (housed : Housed process areas done) (loading : Loading start process areas top)
    (ascends : Ascends done segment) (clear : ∀ earlier ∈ done, Clear earlier segment)
    (alone : FirstAlone (done ++ [segment])) (small : ∀ earlier ∈ done, earlier.memsz ≤ heapUserTop) :
    ∃ result next areas, process.mmapMap segment.vaddr segment.memsz = some (result, next) ∧
      Loading start next areas (baseOf segment.vaddr) ∧ Housed next areas (done ++ [segment]) ∧
      ∀ place < baseOf segment.vaddr, next.memory place = process.memory place := by
  have lower := housed.lower loading ascends
  have behind := housed.behind ascends clear
  obtain ⟨result, next, before, after, ran, rfl, kept, inserts, later, maps⟩ :=
    lower.place ascends.below le_rfl (housed.unheld ascends clear) (housed.distinct ascends clear alone small)
  exact ⟨result, next, _, ran, later, housed.insert lower.ordered kept behind inserts maps,
    fun place front => maps.kept place (.inl front)⟩

theorem Housed.holds {i : Nat} (housed : Housed process areas done) (member : segment ∈ done)
    (covered : Covered segment) (below : segment.vaddr + segment.memsz ≤ heapUserTop) (inside : i < segment.memsz) :
    ∃ vm ∈ areas, Holds process.mm (segment.vaddr + i) vm := by
  obtain ⟨vm, known, content⟩ := housed.area segment member
  have base : baseOf segment.vaddr = segment.vaddr / physMmBlock * physMmBlock := baseOf_eq (by omega)
  obtain ⟨high, enough⟩ := covered.resolve_left (by omega)
  have start : (process.mm.vms vm).start = baseOf segment.vaddr := by rw [content, placedVm_start]
  have stop : (process.mm.vms vm).stop = baseOf segment.vaddr + pageAlign segment.memsz := by
    rw [content, placedVm_stop]
    unfold physMmBlock at *
    omega
  refine ⟨vm, known, ?_, ?_⟩
  · rw [start]
    unfold physMmBlock at *
    omega
  · rw [stop]
    unfold physMmBlock at *
    omega

theorem Housed.present (housed : Housed process areas done) (loading : Loading start process areas top)
    (member : segment ∈ done) (covered : Covered segment) (below : segment.vaddr + segment.memsz ≤ heapUserTop) :
    process.Present segment.vaddr segment.memsz := by
  refine ⟨below.trans (by decide), fun i inside => ?_⟩
  obtain ⟨vm, known, lower, upper⟩ := housed.holds member covered below inside
  exact loading.backed.backed vm (loading.ordered.allocated vm known) _ lower upper

/-- A byte that no page holds, so that clearing the segment faults. -/
theorem Housed.absent (housed : Housed process areas (done ++ [segment])) (ascends : Ascends done segment)
    (clear : ∀ earlier ∈ done, Clear earlier segment) (uncovered : ¬Covered segment) :
    ¬process.Present segment.vaddr segment.memsz := by
  intro present
  unfold Covered at uncovered
  push Not at uncovered
  obtain ⟨filled, outside⟩ := uncovered
  have below := ascends.below
  have base : baseOf segment.vaddr = segment.vaddr / physMmBlock * physMmBlock := baseOf_eq (by omega)
  have size : segment.memsz ≤ heapUserTop := by omega
  obtain ⟨upper, _⟩ := pageAlign_top size
  have aligned := (pageAlign_aligned segment.memsz).1
  have pages := base_pages below
  have unmapped (page : Nat) (kernel : page * physMmBlock < kernelVirtAddr)
      (free : ∀ other ∈ done ++ [segment], ¬((placedVm (baseOf other.vaddr) other.memsz).start ≤ page * physMmBlock ∧
        page * physMmBlock < (placedVm (baseOf other.vaddr) other.memsz).stop)) (mapped : process.mapped page = true) : False := by
    obtain ⟨vm, known, holds⟩ := housed.pages page kernel mapped
    obtain ⟨other, member, content⟩ := housed.owner vm known
    unfold Holds at holds
    rw [content] at holds
    exact free other member holds
  by_cases low : segment.vaddr < physMmBlock
  · have here := present.2 0 (by omega)
    have page : (segment.vaddr + 0) / physMmBlock = 0 := Nat.div_eq_of_lt low
    rw [page] at here
    refine unmapped 0 (by decide) (fun other _ holds => ?_) here
    rw [placedVm_start] at holds
    have null : baseOf other.vaddr = 0 := by omega
    have stop := holds.2
    rw [null] at stop
    exact Nat.not_lt_zero _ stop
  · have more := outside (Nat.le_of_not_lt low)
    have here := present.2 (baseOf segment.vaddr + pageAlign segment.memsz - segment.vaddr) (by unfold physMmBlock at *; omega)
    have place : segment.vaddr + (baseOf segment.vaddr + pageAlign segment.memsz - segment.vaddr) =
        baseOf segment.vaddr + pageAlign segment.memsz := by
      unfold physMmBlock at *
      omega
    have page : (baseOf segment.vaddr + pageAlign segment.memsz) / physMmBlock * physMmBlock =
        baseOf segment.vaddr + pageAlign segment.memsz := by
      unfold physMmBlock at *
      omega
    have top : heapUserTop < kernelVirtAddr := by decide
    rw [place] at here
    refine unmapped _ (by omega) (fun other member holds => ?_) here
    have bound : (placedVm (baseOf segment.vaddr) segment.memsz).stop ≤ baseOf segment.vaddr + pageAlign segment.memsz :=
      placedVm_bounds.2
    rcases List.mem_append.mp member with known | last
    · have stop := Clear.stop_le (clear other known) (ascends.order other known) ascends.small
      have inside := holds.2
      omega
    · rw [List.mem_singleton.mp last] at holds
      have inside := holds.2
      omega

end YuzuOS.Proofs.ElfLoading
