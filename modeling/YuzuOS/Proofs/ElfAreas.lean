import YuzuOS.Proofs.UserBreak
import YuzuOS.Proofs.ElfSegments

/-! The areas of segments that are mapped in ascending order. A segment on a page
of its own gets an area behind the others, one that shares a page is served by
the last area, and one case links the first area to itself. -/

namespace YuzuOS.Proofs.ElfAreas
open YuzuOS.Library YuzuOS.Kernel YuzuOS.Proofs.MemoryAreas YuzuOS.Proofs.UserPages YuzuOS.Proofs.UserBreak
open YuzuOS.Proofs.ElfSegments

variable {mm next : ProcessMm} {links : Links VmNode} {areas early rest before after : List Nat}
  {vm first addr len top : Nat}

/-- Areas in order, possibly empty ones. -/
structure Lined (mm : ProcessMm) (areas : List Nat) : Prop where
  listed : Listed mm.links areas
  allocated : ∀ vm ∈ areas, vm < mm.vmCount
  sorted : areas.Pairwise fun first second => (mm.vms first).stop ≤ (mm.vms second).start
  ordered : ∀ vm ∈ areas, (mm.vms vm).start ≤ (mm.vms vm).stop

/-- While segments are mapped no area starts behind `top`. -/
structure Ordered (mm : ProcessMm) (areas : List Nat) (top : Nat) : Prop extends Lined mm areas where
  low : ∀ vm ∈ areas, (mm.vms vm).start ≤ top
  bounded : ∀ vm ∈ areas, (mm.vms vm).stop ≤ heapUserTop
  brkEnd : mm.brkEnd = 0
  cache : mm.cache ≤ heapUserTop
  unplaced : (∀ vm ∈ areas, (mm.vms vm).start = 0) → mm.cache = 0

/-- A search from an address behind all areas links the new area at the end, or in
front of empty areas at that address. -/
theorem findUnmappedLoop_behind (vma turns : Nat) (listed : Listed mm.links (early ++ first :: rest))
    (fits : addr + len < 2 ^ 32)
    (sorted : (first :: rest).Pairwise fun first second => (mm.vms first).stop ≤ (mm.vms second).start)
    (ordered : ∀ vm ∈ first :: rest, (mm.vms vm).start ≤ (mm.vms vm).stop)
    (behind : ∀ vm ∈ first :: rest, (mm.vms vm).stop ≤ addr) (distinct : 0 < len ∨ (mm.vms first).start < addr)
    (enough : rest.length < turns) :
    ∃ before vm after, first :: rest = before ++ vm :: after ∧
      mmapFindUnmappedLoop mm vma addr len turns (.vm first) = some (dlistAdd (.vm vma) (.vm vm) mm.links, addr) ∧
      ∀ other ∈ after, addr + len ≤ (mm.vms other).start := by
  induction rest generalizing early first turns with
  | nil =>
    obtain ⟨turns, rfl⟩ := Nat.exists_eq_succ_of_ne_zero (Nat.ne_of_gt enough)
    have here := behind first List.mem_cons_self
    have start := ordered first List.mem_cons_self
    refine ⟨[], first, [], rfl, ?_, fun _ member => absurd member List.not_mem_nil⟩
    rw [mmapFindUnmappedLoop, Nat.mod_eq_of_lt fits, if_neg (by omega), listed_after listed]
    exact if_pos here
  | cons second rest ih =>
    obtain ⟨turns, rfl⟩ := Nat.exists_eq_succ_of_ne_zero (Nat.ne_of_gt (Nat.zero_lt_of_lt enough))
    have here := behind first List.mem_cons_self
    have start := ordered first List.mem_cons_self
    have next := behind second (by simp)
    have nextStart := ordered second (by simp)
    obtain ⟨_, later⟩ := List.pairwise_cons.mp sorted
    rw [mmapFindUnmappedLoop, Nat.mod_eq_of_lt fits, if_neg (by omega), listed_after listed]
    simp only [follower]
    split
    next fitting =>
      refine ⟨[], first, second :: rest, rfl, rfl, fun other member => ?_⟩
      rcases List.mem_cons.mp member with rfl | further
      · exact fitting.2
      · have order := (List.pairwise_cons.mp later).1 other further
        omega
    next crossing =>
      rw [if_neg (by omega)]
      have onward : Listed mm.links ((early ++ [first]) ++ second :: rest) := by simpa using listed
      obtain ⟨before, vm, after, split, found, above⟩ :=
        ih turns onward later (fun vm member => ordered vm (List.mem_cons_of_mem _ member))
        (fun vm member => behind vm (List.mem_cons_of_mem _ member)) (by omega) (Nat.lt_of_succ_lt_succ enough)
      exact ⟨first :: before, vm, after, by rw [split, List.cons_append], found, above⟩

/-- The area that a search places: none at `NULL`. -/
def placedVm (addr len : Nat) : ProcessVm := if addr = 0 then ⟨0, 0⟩ else ⟨addr, addr + pageAlign len⟩

@[simp] theorem placedVm_start : (placedVm addr len).start = addr := by
  unfold placedVm
  split
  next null => exact null.symm
  next => rfl

theorem placedVm_stop (placed : addr ≠ 0) : (placedVm addr len).stop = addr + pageAlign len := by
  rw [placedVm, if_neg placed]

theorem placedVm_bounds : addr ≤ (placedVm addr len).stop ∧ (placedVm addr len).stop ≤ addr + pageAlign len := by
  unfold placedVm
  split
  next null => exact ⟨Nat.le_of_eq null, Nat.zero_le _⟩
  next => exact ⟨Nat.le_add_right _ _, le_rfl⟩

structure Fills (mm next : ProcessMm) (links : Links VmNode) (addr len : Nat) : Prop where
  links : next.links = links
  area : next.vms mm.vmCount = placedVm addr len
  others : ∀ other < mm.vmCount, next.vms other = mm.vms other
  vmCount : next.vmCount = mm.vmCount + 1
  cache : next.cache = if addr = 0 then mm.cache else addr + pageAlign len
  brkEnd : next.brkEnd = mm.brkEnd

theorem findUnmappedVm_fills {found : Nat} (placed : Placed mm addr len links found)
    (fits : found + pageAlign len < 2 ^ 32) :
    ∃ next, mmapFindUnmappedVm addr len mm = some (mm.vmCount, next) ∧ Fills mm next links found len := by
  have kept (other : Nat) (old : other < mm.vmCount) : mm.allocVm.2.vms other = mm.vms other :=
    Function.update_of_ne (Nat.ne_of_lt old) _ _
  rcases eq_or_ne found 0 with rfl | stored
  · refine ⟨{ mm.allocVm.2 with links }, ?_, rfl, Function.update_self _ _ _, kept, rfl, rfl, rfl⟩
    have unfolded : mmapFindUnmappedVm addr len mm = (some (links, 0)).map fun result =>
        if result.2 ≠ 0 then (mm.vmCount, { { mm.allocVm.2 with links := result.1 }.setVm mm.vmCount
          ⟨result.2, (result.2 + pageAlign len) % 2 ^ 32⟩ with cache := (result.2 + pageAlign len) % 2 ^ 32 })
        else (mm.vmCount, { mm.allocVm.2 with links := result.1 }) := by
      rw [← placed]
      rfl
    rw [unfolded]
    rfl
  · refine ⟨_, findUnmapped_eq placed stored fits, rfl, ?_, fun other old => ?_, rfl, ?_, rfl⟩
    · rw [placedVm, if_neg stored]
      exact Function.update_self _ _ _
    · exact (Function.update_of_ne (Nat.ne_of_lt old) _ _).trans (kept other old)
    · rw [if_neg stored]

theorem mem_inserted {new : Nat} : vm ∈ before ++ new :: after ↔ vm = new ∨ vm ∈ before ++ after := by
  simp only [List.mem_append, List.mem_cons]
  tauto

structure Inserts (mm next : ProcessMm) (addr len : Nat) (before after : List Nat) : Prop where
  fills : Fills mm next next.links addr len
  listed : Listed next.links (before ++ mm.vmCount :: after)
  above : ∀ other ∈ after, addr + pageAlign len ≤ (mm.vms other).start

theorem Fills.inserts (fills : Fills mm next links addr len) (listed : Listed links (before ++ mm.vmCount :: after))
    (above : ∀ other ∈ after, addr + pageAlign len ≤ (mm.vms other).start) : Inserts mm next addr len before after := by
  have same := fills.links
  subst same
  exact ⟨fills, listed, above⟩

section Inserted

variable (inserts : Inserts mm next addr len before after)

include inserts

theorem Inserts.old (lined : Lined mm (before ++ after)) (member : vm ∈ before ++ after) : next.vms vm = mm.vms vm :=
  inserts.fills.others vm (lined.allocated vm member)

theorem Inserts.placed : (next.vms mm.vmCount).start = addr ∧ addr ≤ (next.vms mm.vmCount).stop ∧
    (next.vms mm.vmCount).stop ≤ addr + pageAlign len := by
  rw [inserts.fills.area]
  exact ⟨placedVm_start, placedVm_bounds⟩

theorem Inserts.lined (lined : Lined mm (before ++ after)) (behind : ∀ vm ∈ before ++ after, (mm.vms vm).stop ≤ addr) :
    Lined next (before ++ mm.vmCount :: after) := by
  have early (vm : Nat) (member : vm ∈ before) := inserts.old lined (List.mem_append_left _ member)
  have late (vm : Nat) (member : vm ∈ after) := inserts.old lined (List.mem_append_right _ member)
  obtain ⟨start, stop⟩ := inserts.placed
  obtain ⟨front, rear, across⟩ := List.pairwise_append.mp lined.sorted
  refine ⟨inserts.listed, fun vm member => ?_, List.pairwise_append.mpr ⟨?_, List.pairwise_cons.mpr ⟨fun vm member => ?_, ?_⟩, ?_⟩,
    fun vm member => ?_⟩
  · rw [inserts.fills.vmCount]
    rcases mem_inserted.mp member with rfl | known
    · exact Nat.lt_succ_self _
    · exact Nat.lt_succ_of_lt (lined.allocated vm known)
  · refine front.imp_of_mem fun {first second} here there order => ?_
    rwa [early first here, early second there]
  · rw [late vm member]
    exact stop.2.trans (inserts.above vm member)
  · refine rear.imp_of_mem fun {first second} here there order => ?_
    rwa [late first here, late second there]
  · intro vm member other further
    rw [early vm member]
    rcases List.mem_cons.mp further with rfl | later
    · rw [start]
      exact behind vm (List.mem_append_left _ member)
    · rw [late other later]
      exact across vm member other later
  · rcases mem_inserted.mp member with rfl | known
    · rw [start]
      exact stop.1
    · rw [inserts.old lined known]
      exact lined.ordered vm known

theorem Inserts.ordered (ordered : Ordered mm (before ++ after) top) (above : top ≤ addr)
    (behind : ∀ vm ∈ before ++ after, (mm.vms vm).stop ≤ addr) (bounded : addr + pageAlign len ≤ heapUserTop) :
    Ordered next (before ++ mm.vmCount :: after) addr := by
  have fills := inserts.fills
  have lined := ordered.toLined
  obtain ⟨start, stop⟩ := inserts.placed
  refine ⟨inserts.lined lined behind, fun vm member => ?_, fun vm member => ?_, fills.brkEnd.trans ordered.brkEnd, ?_, fun zero => ?_⟩
  · rcases mem_inserted.mp member with rfl | known
    · exact Nat.le_of_eq start
    · rw [inserts.old lined known]
      exact (ordered.low vm known).trans above
  · rcases mem_inserted.mp member with rfl | known
    · exact stop.2.trans bounded
    · rw [inserts.old lined known]
      exact ordered.bounded vm known
  · rw [fills.cache]
    split
    · exact ordered.cache
    · exact bounded
  · have null : addr = 0 := start.symm.trans (zero _ (mem_inserted.mpr (.inl rfl)))
    rw [fills.cache, if_pos null]
    exact ordered.unplaced fun vm member => inserts.old lined member ▸ zero vm (mem_inserted.mpr (.inr member))

end Inserted

/-- What the list holds does not change by the allocation of an area. -/
theorem Lined.allocVm (lined : Lined mm areas) : Listed mm.allocVm.2.links areas ∧
    ∀ vm ∈ areas, mm.allocVm.2.vms vm = mm.vms vm := by
  have fresh : mm.vmCount ∉ areas := fun member => Nat.lt_irrefl _ (lined.allocated _ member)
  exact ⟨listed_other lined.listed fresh, fun _ member => update_kept fresh member⟩

theorem Lined.length_le (lined : Lined mm areas) : areas.length ≤ mm.vmCount := lined.listed.length_le lined.allocated

/-- A search behind all areas inserts, and the first area stays the first. -/
theorem findUnmappedVm_inserts (lined : Lined mm areas) (behind : ∀ vm ∈ areas, (mm.vms vm).stop ≤ mmapFindAddr mm addr)
    (fits : mmapFindAddr mm addr + pageAlign len < 2 ^ 32)
    (distinct : ∀ first rest, areas = first :: rest → 0 < pageAlign len ∨ (mm.vms first).start < mmapFindAddr mm addr) :
    ∃ next before after, areas = before ++ after ∧ (areas ≠ [] → before ≠ []) ∧
      mmapFindUnmappedVm addr len mm = some (mm.vmCount, next) ∧
        Inserts mm next (mmapFindAddr mm addr) len before after := by
  obtain ⟨listed, kept⟩ := lined.allocVm
  have fresh : mm.vmCount ∉ areas := fun member => Nat.lt_irrefl _ (lined.allocated _ member)
  have few := lined.length_le
  have empty : dlistIsEmpty .head mm.allocVm.2.links = areas.isEmpty := by
    unfold dlistIsEmpty
    rw [listed_first listed]
    cases areas <;> rfl
  cases areas with
  | nil =>
    have placed : Placed mm addr len (dlistAdd (.vm mm.vmCount) .head mm.allocVm.2.links) (mmapFindAddr mm addr) := by
      unfold Placed
      rw [empty]
      rfl
    have single : Listed (dlistAdd (.vm mm.vmCount) .head mm.allocVm.2.links) ([] ++ mm.vmCount :: []) := listed_single listed
    obtain ⟨next, ran, fills⟩ := findUnmappedVm_fills placed fits
    exact ⟨next, [], [], rfl, fun filled => absurd rfl filled, ran,
      fills.inserts single fun _ member => absurd member List.not_mem_nil⟩
  | cons first rest =>
    have start (vm : Nat) (member : vm ∈ first :: rest) := kept vm member
    have sorted : (first :: rest).Pairwise fun first second => (mm.allocVm.2.vms first).stop ≤ (mm.allocVm.2.vms second).start := by
      refine lined.sorted.imp_of_mem fun here there order => ?_
      rwa [kept _ here, kept _ there]
    have whole : Listed mm.allocVm.2.links ([] ++ first :: rest) := listed
    obtain ⟨before, vm, after, split, found, above⟩ := findUnmappedLoop_behind mm.vmCount (mm.vmCount + 2) whole fits sorted
      (fun vm member => by rw [kept vm member]; exact lined.ordered vm member)
      (fun vm member => by rw [kept vm member]; exact behind vm member)
      (by rw [kept first List.mem_cons_self]; exact distinct first rest rfl)
      (by rw [List.length_cons] at few; omega)
    have placed : Placed mm addr len (dlistAdd (.vm mm.vmCount) (.vm vm) mm.allocVm.2.links) (mmapFindAddr mm addr) := by
      unfold Placed
      rw [empty, listed_first listed]
      exact found
    rw [split] at listed fresh kept
    have added : Listed (dlistAdd (.vm mm.vmCount) (.vm vm) mm.allocVm.2.links) ((before ++ [vm]) ++ mm.vmCount :: after) := by
      simpa using listed_insert listed fresh
    obtain ⟨next, ran, fills⟩ := findUnmappedVm_fills placed fits
    refine ⟨next, before ++ [vm], after, by simp [split], fun _ => by simp, ran, fills.inserts added fun other member => ?_⟩
    have higher := above other member
    rwa [kept other (by simp [member])] at higher

theorem Lined.findVm (lined : Lined mm areas) (addr : Nat) :
    mmapFindVm addr mm = some (areas.find? fun vm => (mm.vms vm).start ≤ addr ∧ addr < (mm.vms vm).stop) := by
  have whole : Listed mm.links ([] ++ areas) := lined.listed
  rw [mmapFindVm, listed_first lined.listed]
  exact findVmLoop_spec whole (Nat.lt_succ_of_le lined.length_le)

theorem Lined.findVm_none (lined : Lined mm areas) (unheld : ∀ vm ∈ areas, ¬Holds mm addr vm) :
    mmapFindVm addr mm = some none := by
  rw [lined.findVm, List.find?_eq_none.mpr fun vm member => by simpa [Holds] using unheld vm member]

theorem Lined.unique {other : Nat} (lined : Lined mm areas) (here : vm ∈ areas) (there : other ∈ areas)
    (holds : Holds mm addr vm) (also : Holds mm addr other) : vm = other := by
  by_contra different
  have apart := sorted_apart lined.sorted here there different
  unfold Holds at holds also
  omega

theorem Lined.findVm_some (lined : Lined mm areas) (member : vm ∈ areas) (holds : Holds mm addr vm) :
    mmapFindVm addr mm = some (some vm) := by
  rw [lined.findVm]
  cases found : areas.find? fun vm => (mm.vms vm).start ≤ addr ∧ addr < (mm.vms vm).stop with
  | none =>
    have unheld := List.find?_eq_none.mp found vm member
    simp only [decide_eq_true_eq] at unheld
    exact absurd holds unheld
  | some other =>
    have also := List.find?_some found
    rw [lined.unique member (List.mem_of_find?_eq_some found) holds (by simpa [Holds] using also)]

theorem Ordered.last (ordered : Ordered mm areas top) (member : vm ∈ areas) (holds : Holds mm addr vm)
    (above : top ≤ addr) :
    ∃ front, areas = front ++ [vm] := by
  obtain ⟨front, after, rfl⟩ := List.append_of_mem member
  refine ⟨front, ?_⟩
  cases after with
  | nil => rfl
  | cons second rest =>
    have order := (List.pairwise_cons.mp (List.pairwise_append.mp ordered.sorted).2.1).1 second List.mem_cons_self
    have low := ordered.low second (by simp)
    have stop := holds.2
    omega

theorem Ordered.grow {front : List Nat} {stop : Nat} (ordered : Ordered mm (front ++ [vm]) top)
    (larger : (mm.vms vm).stop ≤ stop) (bounded : stop ≤ heapUserTop) :
    Ordered (mm.setStop vm stop) (front ++ [vm]) top := by
  have member : vm ∈ front ++ [vm] := by simp
  have absent : vm ∉ front := fun inside => (List.nodup_append.mp ordered.listed.nodup).2.2 vm inside vm List.mem_cons_self rfl
  have here : (mm.setStop vm stop).vms vm = { mm.vms vm with stop } := Function.update_self _ _ _
  have others (other : Nat) (different : other ≠ vm) : (mm.setStop vm stop).vms other = mm.vms other :=
    Function.update_of_ne different _ _
  have starts (other : Nat) : ((mm.setStop vm stop).vms other).start = (mm.vms other).start := by
    rcases eq_or_ne other vm with rfl | different
    · rw [here]
    · rw [others other different]
  have stops (other : Nat) : ((mm.setStop vm stop).vms other).stop = if other = vm then stop else (mm.vms other).stop := by
    split
    next same => rw [same, here]
    next different => rw [others other different]
  obtain ⟨lower, _, across⟩ := List.pairwise_append.mp ordered.sorted
  refine ⟨⟨ordered.listed, ordered.allocated,
    List.pairwise_append.mpr ⟨?_, List.pairwise_singleton _ _, fun first early second last => ?_⟩, fun other inside => ?_⟩,
    fun other inside => starts other ▸ ordered.low other inside, fun other inside => ?_, ordered.brkEnd,
    ordered.cache, fun all => ordered.unplaced fun other inside => starts other ▸ all other inside⟩
  · refine lower.imp_of_mem fun {first second} early _ order => ?_
    rwa [starts, others first fun same => absent (same ▸ early)]
  · rw [starts, others first fun same => absent (same ▸ early)]
    exact across first early second last
  · have order := ordered.ordered other inside
    rw [starts, stops]
    split
    next same =>
      subst same
      omega
    next => exact order
  · rw [stops]
    split
    next => exact bounded
    next => exact ordered.bounded other inside

theorem Ordered.higher {more : Nat} (ordered : Ordered mm areas top) (above : top ≤ more) : Ordered mm areas more :=
  { ordered with low := fun vm member => (ordered.low vm member).trans above }

section Mapping

variable {vaddr memsz result : Nat}

abbrev baseOf (vaddr : Nat) : Nat := alignDown vaddr physMmBlock

theorem baseOf_eq (small : vaddr ≤ heapUserTop) : baseOf vaddr = vaddr / physMmBlock * physMmBlock := by
  unfold heapUserTop at small
  exact alignDown_page (by omega)

theorem pageAlign_top {addr : Nat} (small : addr ≤ heapUserTop) :
    addr ≤ pageAlign addr ∧ pageAlign addr < addr + physMmBlock ∧
    pageAlign addr ≤ heapUserTop := by
  have page : addr + physMmBlock ≤ 2 ^ 32 := by
    unfold heapUserTop at small
    unfold physMmBlock
    omega
  obtain ⟨lower, upper⟩ := pageAlign_bounds page
  have aligned := (pageAlign_aligned addr).1
  refine ⟨lower, upper, ?_⟩
  unfold heapUserTop physMmBlock at *
  omega

theorem base_pages (below : vaddr + memsz ≤ heapUserTop) : baseOf vaddr + pageAlign memsz ≤ heapUserTop := by
  have small : memsz ≤ heapUserTop := by omega
  obtain ⟨lower, upper, _⟩ := pageAlign_top small
  have aligned := (pageAlign_aligned memsz).1
  rw [baseOf_eq (by omega)]
  unfold heapUserTop physMmBlock at *
  omega

/-- A segment that shares a page with the last area is served by it. -/
theorem mmapMap_shared (ordered : Ordered mm areas top) (below : vaddr + memsz ≤ heapUserTop)
    (above : top ≤ baseOf vaddr) (member : vm ∈ areas) (holds : Holds mm (baseOf vaddr) vm) :
    ∃ next, (mmapMap vaddr memsz mm).map (fun result => result.2) = some (vm, next) ∧
      Ordered next areas (baseOf vaddr) ∧
      (next.vms vm).start = (mm.vms vm).start ∧ (mm.vms vm).stop ≤ (next.vms vm).stop := by
  obtain ⟨front, rfl⟩ := ordered.last member holds above
  have found := ordered.findVm_some member holds
  have fits : vaddr + memsz < 2 ^ 32 := by
    unfold heapUserTop at below
    omega
  obtain ⟨lower, _, bounded⟩ := pageAlign_top below
  rw [mmapMap_found fits found]
  split
  next short =>
    have ends : mm.links.next (.vm vm) = .head := listed_after ordered.listed
    have larger : (mm.vms vm).stop ≤ pageAlign (vaddr + memsz) := by omega
    have grown := ordered.grow larger bounded
    have content : (mm.setStop vm (pageAlign (vaddr + memsz))).vms vm = { mm.vms vm with stop := pageAlign (vaddr + memsz) } :=
      Function.update_self _ _ _
    refine ⟨_, ?_, grown.higher above, by rw [content], by rw [content]; exact larger⟩
    rw [mmapExpandVm, if_neg (by omega), ends]
    rfl
  next => exact ⟨mm, rfl, ordered.higher above, rfl, le_rfl⟩

/-- The page of the first segment decides where a search starts. -/
theorem Ordered.findAddr (ordered : Ordered mm areas top) (above : top ≤ baseOf vaddr) :
    mmapFindAddr mm (baseOf vaddr) = baseOf vaddr := by
  unfold mmapFindAddr
  rw [ordered.brkEnd]
  split
  next zero =>
    have null : baseOf vaddr = 0 := by omega
    have cache := ordered.unplaced fun vm member => by
      have low := ordered.low vm member
      omega
    rw [null, cache]
    rfl
  next => rfl

/-- Areas that do not hold an address in front of which they start lie in front of it. -/
theorem Ordered.behind (ordered : Ordered mm areas top) (above : top ≤ addr)
    (unheld : ∀ vm ∈ areas, ¬Holds mm addr vm) :
    ∀ vm ∈ areas, (mm.vms vm).stop ≤ addr := by
  intro vm member
  have low := ordered.low vm member
  have not := unheld vm member
  unfold Holds at not
  omega

theorem mmapMap_placed (ordered : Ordered mm areas top) (below : vaddr + memsz ≤ heapUserTop)
    (above : top ≤ baseOf vaddr) (unheld : ∀ vm ∈ areas, ¬Holds mm (baseOf vaddr) vm)
    (distinct : ∀ first rest, areas = first :: rest → 0 < pageAlign memsz ∨ (mm.vms first).start < baseOf vaddr) :
    ∃ next before after, areas = before ++ after ∧ (areas ≠ [] → before ≠ []) ∧
      (mmapMap vaddr memsz mm).map (fun result => result.2) = some (mm.vmCount, next) ∧
      Inserts mm next (baseOf vaddr) memsz before after ∧
        Ordered next (before ++ mm.vmCount :: after) (baseOf vaddr) := by
  have address := ordered.findAddr above
  have behind := ordered.behind above unheld
  have pages := base_pages below
  have fits : mmapFindAddr mm (baseOf vaddr) + pageAlign memsz < 2 ^ 32 := by
    rw [address]
    unfold heapUserTop at pages
    omega
  obtain ⟨next, before, after, rfl, kept, ran, inserts⟩ := findUnmappedVm_inserts ordered.toLined (by rw [address]; exact behind) fits
    (by rw [address]; exact distinct)
  rw [address] at inserts
  refine ⟨next, before, after, rfl, kept, ?_, inserts, inserts.ordered ordered above behind pages⟩
  rw [mmapMap_unmapped (ordered.findVm_none unheld), ran]

/-- An empty first area that follows itself: every search goes round. -/
def Stuck (mm : ProcessMm) : Prop :=
  ∃ vm, mm.links.next .head = .vm vm ∧ mm.links.next (.vm vm) = .vm vm ∧ (mm.vms vm).stop ≤ (mm.vms vm).start

theorem Stuck.mmapMap (stuck : Stuck mm) : mmapMap vaddr memsz mm = none := by
  obtain ⟨vm, first, again, empty⟩ := stuck
  have round (addr turns : Nat) : mmapFindVmLoop mm addr turns (.vm vm) = none := by
    induction turns with
    | zero => rfl
    | succ turns ih =>
      rw [mmapFindVmLoop, if_neg (by omega), again]
      exact ih
  rw [Kernel.mmapMap, mmapFindVm, first, round]
  rfl

/-- An empty segment on the page of an empty first area links that area to itself. -/
theorem mmapMap_stuck (ordered : Ordered mm (first :: rest) top) (below : vaddr + memsz ≤ heapUserTop)
    (above : top ≤ baseOf vaddr) (unheld : ∀ vm ∈ first :: rest, ¬Holds mm (baseOf vaddr) vm)
    (empty : pageAlign memsz = 0) (same : (mm.vms first).start = baseOf vaddr) :
    ∃ next, (mmapMap vaddr memsz mm).map (fun result => result.2) = some (mm.vmCount, next) ∧ Stuck next ∧
      (next.vms mm.vmCount).stop ≤ (next.vms mm.vmCount).start ∧ (next.vms mm.vmCount).stop ≤ heapUserTop := by
  obtain ⟨listed, kept⟩ := ordered.allocVm
  have address := ordered.findAddr above
  have pages := base_pages below
  have behind := ordered.behind above unheld first List.mem_cons_self
  have begins := listed_first listed
  have filled : dlistIsEmpty .head mm.allocVm.2.links = false := by
    unfold dlistIsEmpty
    rw [begins]
    rfl
  have placed : Placed mm (baseOf vaddr) memsz (dlistAdd (.vm first) .head mm.allocVm.2.links) (baseOf vaddr) := by
    unfold Placed
    rw [filled, begins, address]
    simp only [Bool.false_eq_true, if_false, follower]
    rw [mmapFindUnmappedLoop, empty, kept first List.mem_cons_self, same]
    exact if_pos (Nat.mod_le _ _)
  have fits : baseOf vaddr + pageAlign memsz < 2 ^ 32 := by
    unfold heapUserTop at pages
    omega
  obtain ⟨next, ran, fills⟩ := findUnmappedVm_fills placed fits
  have old : next.vms first = mm.vms first := fills.others first (ordered.allocated first List.mem_cons_self)
  have bounds : (next.vms mm.vmCount).stop ≤ baseOf vaddr ∧ (next.vms mm.vmCount).start = baseOf vaddr := by
    rw [fills.area]
    have stop : (placedVm (baseOf vaddr) memsz).stop ≤ baseOf vaddr + pageAlign memsz := placedVm_bounds.2
    rw [empty] at stop
    exact ⟨stop, placedVm_start⟩
  refine ⟨next, by rw [mmapMap_unmapped (ordered.findVm_none unheld), ran], ⟨first, ?_, ?_, ?_⟩, by omega, by omega⟩
  · rw [fills.links]
    simp [dlistAdd, dlistAddInternal]
  · rw [fills.links]
    simp [dlistAdd, dlistAddInternal, begins, follower]
  · rw [old, same]
    exact behind

end Mapping

end YuzuOS.Proofs.ElfAreas
