import YuzuOS.Proofs.BreakContract

/-! What a request for memory does to the pages of a process. The area that serves
the request is mapped from its start, whatever was mapped there before. -/

namespace YuzuOS.Proofs.MmapPages
open YuzuOS.Library YuzuOS.Kernel YuzuOS.Proofs.MemoryAreas YuzuOS.Proofs.PageTables YuzuOS.Proofs.UserBreak
  YuzuOS.Proofs.BreakContract YuzuOS.Proofs.FramePages

variable {space : MappedSpace} {virtual start stop turns pages count : Nat}

/-- The frame of a page that the call maps, up to the bit that the old entry may keep. -/
def Given (space after : MappedSpace) (count virtual : Nat) : Prop :=
  ∃ frame i, after.paging.translate virtual = some frame ∧ Next space count i ∧
    frame % 2 ^ 19 = frameNumber (space.blocks i) % 2 ^ 19

theorem mapBlock_eq (space : MappedSpace) (virtual : Nat) :
    space.mapBlock virtual = space.takeBlock.2.mapAddr (space.blocks space.taken) virtual pageTblFlags := rfl

theorem mapBlock_spec (stocked : Stocked space (count + 2)) (low : virtual < pageTblBase) :
    ∃ after, space.mapBlock virtual = some after ∧ Stocked after count ∧ after.blocks = space.blocks ∧
      after.mm = space.mm ∧
      (space.taken ≤ after.taken ∧ after.taken ≤ space.taken + 2) ∧ Given space after (count + 2) virtual ∧
      Keeps space after fun page => page / physMmBlock ≠ virtual / physMmBlock := by
  have few : newTables { space with taken := space.taken + 1 } virtual ≤ 1 := by
    unfold newTables
    split <;> decide
  obtain ⟨after, call, mapped, left⟩ := mapAddr_stocked (space.blocks space.taken) (Stocked.skip stocked) low
    (by decide : pageIsEnabled pageTblFlags = true) (by decide) (few.trans (Nat.le_add_left _ _))
  have taken : after.taken = space.taken + 1 + newTables { space with taken := space.taken + 1 } virtual := mapped.taken
  exact ⟨after, call, left.fewer (Nat.le_sub_of_add_le (Nat.add_le_add_left few count)), mapped.blocks, mapped.mm, ⟨by omega, by omega⟩,
    ⟨_, space.taken, mapped.page, ⟨le_rfl, by omega⟩, frameSet_low⟩, mapped.keeps stocked.tables⟩

theorem Given.kept {middle after : MappedSpace} {pages : Nat → Prop} (given : Given space middle count virtual)
    (keeps : Keeps middle after pages) (inside : virtual < 2 ^ 32) (outside : pages virtual) :
    Given space after count virtual := by
  obtain ⟨frame, i, mapped, later, low⟩ := given
  exact ⟨frame, i, keeps virtual inside outside frame mapped, later, low⟩

/-- Two blocks are enough for a page. -/
theorem mapBlocks_spec (stocked : Stocked space (2 * pages)) (aligned : start % physMmBlock = 0)
    (whole : stop = start + pages * physMmBlock) (below : stop ≤ pageTblBase) (enough : pages < turns) :
    ∃ after, MappedSpace.mapBlocks stop turns start space = some after ∧ after.mm = space.mm ∧
      (∀ virtual, start ≤ virtual → virtual < stop → Given space after (2 * pages) virtual) ∧
      Keeps space after fun virtual => ¬(start ≤ virtual ∧ virtual < stop) := by
  induction pages generalizing start space turns with
  | zero =>
    obtain ⟨turns, rfl⟩ := Nat.exists_eq_succ_of_ne_zero (Nat.ne_of_gt enough)
    rw [Nat.zero_mul, Nat.add_zero] at whole
    refine ⟨space, if_neg (Nat.not_lt.mpr whole.le), rfl, fun virtual lower upper => ?_, fun _ _ _ _ mapped => mapped⟩
    exact absurd (lower.trans_lt upper) (Nat.not_lt.mpr whole.le)
  | succ pages ih =>
    obtain ⟨turns, rfl⟩ := Nat.exists_eq_succ_of_ne_zero (Nat.ne_of_gt (Nat.zero_lt_of_lt enough))
    rw [Nat.succ_mul, Nat.add_comm (pages * _), ← Nat.add_assoc] at whole
    have more : start + physMmBlock ≤ stop := by
      rw [whole]
      exact Nat.le_add_right _ _
    have size : 0 < physMmBlock := by decide
    have low : start < pageTblBase := by omega
    have stock : Stocked space (2 * pages + 2) := stocked
    obtain ⟨middle, mapped, stocked', blocks, mm, taken, given, keeps⟩ := mapBlock_spec stock low
    have fits : start + physMmBlock < 2 ^ 32 := (more.trans below).trans_lt (by decide)
    have onward : (start + physMmBlock) % physMmBlock = 0 := by rw [Nat.add_mod_right, aligned]
    obtain ⟨after, loop, areas, rest, others⟩ := ih stocked' onward whole (Nat.lt_of_succ_lt_succ enough)
    refine ⟨after, ?_, areas.trans mm, fun virtual lower upper => ?_, fun virtual inside outside frame held => ?_⟩
    · rw [MappedSpace.mapBlocks, if_pos (by omega), mapped, Option.bind_some, Nat.mod_eq_of_lt fits, loop]
    · by_cases first : virtual < start + physMmBlock
      · have page : virtual / physMmBlock = start / physMmBlock := by
          unfold physMmBlock at *
          omega
        have here : Given space middle (2 * (pages + 1)) virtual := by
          obtain ⟨frame, i, held, free, low⟩ := given
          exact ⟨frame, i, (translate_page page).trans held, free, low⟩
        refine here.kept others ((upper.trans_le below).trans (by decide)) fun both => ?_
        exact absurd first (Nat.not_lt.mpr both.1)
      · obtain ⟨frame, i, held, ⟨free, last⟩, low⟩ := rest virtual (Nat.not_lt.mp first) upper
        exact ⟨frame, i, held, ⟨by omega, by omega⟩, blocks ▸ low⟩
    · refine others virtual inside (fun both => outside ⟨(Nat.le_add_right _ _).trans both.1, both.2⟩) frame ?_
      refine keeps virtual inside (fun page => outside ?_) frame held
      unfold physMmBlock at *
      omega

/-! ### The area that serves a request -/

/-- From the start of the area that holds the page of the address to the page that the request
ends in, or, when there is no such area, the first place from the address that the search starts from. -/
def servedRange (mm : ProcessMm) (areas : List Nat) (addr len : Nat) : Nat × Nat :=
  let page := alignDown addr physMmBlock
  match areas.find? fun vm => (mm.vms vm).start ≤ page ∧ page < (mm.vms vm).stop with
  | some vm => ((mm.vms vm).start, max (mm.vms vm).stop (pageAlign (addr + len)))
  | none =>
    let start := placeStart mm (mmapFindAddr mm page) (pageAlign len) (areas.filter fun vm => mmapFindAddr mm page < (mm.vms vm).start)
    (start, start + pageAlign len)

structure Served (mm next : ProcessMm) (areas grown : List Nat) (request : MmapRequest) (vm : Nat) : Prop where
  sound : Sound next grown
  member : vm ∈ grown
  range : next.vms vm = ⟨(servedRange mm areas request.addr request.len).1, (servedRange mm areas request.addr request.len).2⟩
  others : ∀ other ∈ grown, other = vm ∨ other ∈ areas ∧ next.vms other = mm.vms other
  holder : ∀ other ∈ areas, Holds mm (alignDown request.addr physMmBlock) other → other = vm
  fresh : (∀ other ∈ areas, ¬Holds mm (alignDown request.addr physMmBlock) other) → vm ∉ areas

variable {mm : ProcessMm} {areas before after : List Nat} {vm addr len : Nat}

theorem pageAlign_le (aligned : stop % physMmBlock = 0) (small : stop < 2 ^ 32) (inside : addr ≤ stop) :
    pageAlign addr ≤ stop := by
  have fits : addr + physMmBlock ≤ 2 ^ 32 := by
    unfold physMmBlock at *
    omega
  have bounds := pageAlign_bounds fits
  have whole := (pageAlign_aligned addr).1
  unfold physMmBlock at *
  omega

theorem unheld {page : Nat} (none : ∀ vm ∈ areas, ¬Holds mm page vm) :
    areas.find? (fun vm => (mm.vms vm).start ≤ page ∧ page < (mm.vms vm).stop) = Option.none := by
  apply List.find?_eq_none.mpr
  intro vm member
  simpa [Holds] using none vm member

theorem served_holder (sound : Sound mm areas) (request : MmapRequest) (good : GoodCall ⟨mm, areas⟩ (.map request))
    (member : vm ∈ areas) (holds : Holds mm (alignDown request.addr physMmBlock) vm) :
    ∃ next, mmapMap request.addr request.len mm =
      some (if request.addr ≠ 0 then request.addr else (next.vms vm).start, vm, next) ∧
      Served mm next areas areas request vm := by
  have unique : ∀ other ∈ areas, Holds mm (alignDown request.addr physMmBlock) other → other = vm := by
    intro other there also
    by_contra different
    have apart := sorted_apart sound.sorted there member different
    unfold Holds at holds also
    omega
  have found : areas.find? (fun vm => (mm.vms vm).start ≤ alignDown request.addr physMmBlock ∧
      alignDown request.addr physMmBlock < (mm.vms vm).stop) = some vm := by
    cases found : areas.find? (fun vm => (mm.vms vm).start ≤ alignDown request.addr physMmBlock ∧
        alignDown request.addr physMmBlock < (mm.vms vm).stop) with
    | none =>
      have unheld := List.find?_eq_none.mp found vm member
      exact absurd holds (by simpa [Holds] using unheld)
    | some other =>
      have also : Holds mm (alignDown request.addr physMmBlock) other := by simpa [Holds] using List.find?_some found
      rw [unique other (List.mem_of_find?_eq_some found) also]
  have search := (findVm_spec sound (alignDown request.addr physMmBlock)).trans (congrArg some found)
  have regular := sound.regular vm member
  have range : servedRange mm areas request.addr request.len =
      ((mm.vms vm).start, max (mm.vms vm).stop (pageAlign (request.addr + request.len))) := by
    simp only [servedRange, found]
  rw [mmapMap, search, Option.bind_some]
  simp only [Nat.mod_eq_of_lt request.fits]
  by_cases short : (mm.vms vm).stop < request.addr + request.len
  · have free := (good.1 vm member holds).resolve_left (Nat.not_le.mpr short)
    obtain ⟨before, after, rfl⟩ := List.append_of_mem member
    obtain ⟨next, grown, later, content, rest⟩ := expandVm_sound sound (sound.room (fun _ => Iff.rfl) free)
    refine ⟨next, by rw [if_pos short, grown]; rfl, later, member, by rw [content, range], fun other there => ?_, unique,
      fun none => absurd holds (none vm member)⟩
    by_cases same : other = vm
    · exact .inl same
    · exact .inr ⟨there, rest other same⟩
  · refine ⟨mm, by rw [if_neg short]; rfl, sound, member, ?_, fun other there => .inr ⟨there, rfl⟩, unique,
      fun none => absurd holds (none vm member)⟩
    rw [range, max_eq_left (pageAlign_le regular.stopAligned regular.bounded (Nat.not_lt.mp short))]

theorem served_place (sound : Sound mm areas) (request : MmapRequest) (good : GoodCall ⟨mm, areas⟩ (.map request))
    (none : ∀ vm ∈ areas, ¬Holds mm (alignDown request.addr physMmBlock) vm) :
    ∃ next grown, mmapMap request.addr request.len mm =
      some (if request.addr ≠ 0 then request.addr else (next.vms mm.vmCount).start, mm.vmCount, next) ∧
      Served mm next areas grown request mm.vmCount := by
  have unfound := unheld none
  have search := (findVm_spec sound (alignDown request.addr physMmBlock)).trans (congrArg some unfound)
  have small : request.addr < 2 ^ 32 := Nat.lt_of_le_of_lt (Nat.le_add_right _ _) request.fits
  have aligned := alignDown_aligned small
  obtain ⟨positive, nonzero, fits, place⟩ := good.2 none
  have serves {next : ProcessMm} {before after : List Nat} (split : areas = before ++ after)
      (behind : areas.filter (fun vm => mmapFindAddr mm (alignDown request.addr physMmBlock) < (mm.vms vm).start) = after)
      (result : mmapFindUnmappedVm (alignDown request.addr physMmBlock) request.len mm = some (mm.vmCount, next))
      (later : Sound next (before ++ mm.vmCount :: after))
      (new : next.vms mm.vmCount = ⟨placeStart mm (mmapFindAddr mm (alignDown request.addr physMmBlock)) (pageAlign request.len) after,
        placeStart mm (mmapFindAddr mm (alignDown request.addr physMmBlock)) (pageAlign request.len) after + pageAlign request.len⟩)
      (old : ∀ vm ∈ areas, next.vms vm = mm.vms vm) :
      ∃ next grown, mmapMap request.addr request.len mm =
        some (if request.addr ≠ 0 then request.addr else (next.vms mm.vmCount).start, mm.vmCount, next) ∧
        Served mm next areas grown request mm.vmCount := by
    refine ⟨next, _, ?_, later, by simp, ?_, fun other there => ?_, fun other there holds => absurd holds (none other there),
      fun _ => sound.fresh⟩
    · rw [mmapMap, search, Option.bind_some]
      simp only [result]
      rfl
    · simp only [new, servedRange, unfound, behind]
    · have kinds : other = mm.vmCount ∨ other ∈ areas := by
        rw [split]
        simp only [List.mem_append, List.mem_cons] at there ⊢
        tauto
      exact kinds.imp_right fun old' => ⟨old', old other old'⟩
  rcases place with empty | ⟨vm, member, above, room⟩
  · obtain rfl : areas = [] := empty
    obtain ⟨next, result, later, new, old⟩ := findUnmapped_first sound positive nonzero fits aligned
    exact @serves next [] [] rfl rfl result later new old
  · obtain ⟨before, after, rfl⟩ := List.append_of_mem member
    have above : (mm.vms vm).stop ≤ mmapFindAddr mm (alignDown request.addr physMmBlock) := above
    have inside : Room mm vm (mmapFindAddr mm (alignDown request.addr physMmBlock)) (pageAlign request.len) after := fun second later =>
      (room second (by simp [later])).resolve_left (Nat.not_le.mpr (sound.behind later))
    obtain ⟨next, result, later, new, old⟩ := findUnmapped_behind sound positive above fits aligned inside
    have grouped : before ++ vm :: after = (before ++ [vm]) ++ after := by simp
    refine serves grouped ?_ result (by simpa using later) new old
    have low : ∀ other ∈ before ++ [vm], ¬mmapFindAddr mm (alignDown request.addr physMmBlock) < (mm.vms other).start := by
      intro other early
      have ordered := (sound.regular other (by rw [grouped]; exact List.mem_append_left _ early)).ordered
      rcases List.mem_append.mp early with earlier | last
      · have order := (List.pairwise_append.mp sound.sorted).2.2 other earlier vm List.mem_cons_self
        have mine := (sound.regular vm member).ordered
        omega
      · obtain rfl := List.mem_singleton.mp last
        omega
    rw [grouped, List.filter_append, List.filter_eq_nil_iff.mpr (by simpa using low), List.nil_append]
    apply List.filter_eq_self.mpr
    intro other later
    simpa using (inside other later).1

theorem mmapMap_served (sound : Sound mm areas) (request : MmapRequest) (good : GoodCall ⟨mm, areas⟩ (.map request)) :
    ∃ vm next grown, mmapMap request.addr request.len mm =
      some (if request.addr ≠ 0 then request.addr else (next.vms vm).start, vm, next) ∧ Served mm next areas grown request vm := by
  rcases findVm_cases sound (alignDown request.addr physMmBlock) with ⟨vm, member, holds, _⟩ | ⟨none, _⟩
  · obtain ⟨next, call, served⟩ := served_holder sound request good member holds
    exact ⟨vm, next, areas, call, served⟩
  · obtain ⟨next, grown, call, served⟩ := served_place sound request good none
    exact ⟨mm.vmCount, next, grown, call, served⟩

/-! ### The pages of a request -/

/-- The request is answered by one area of the list, all of whose pages for it are mapped,
and every page that was mapped is in the frame it was in. -/
def Answered (space : MappedSpace) (areas : List Nat) (request : MmapRequest) : Prop :=
  ∃ result after grown vm, space.mmapMap request.addr request.len = some (result, after) ∧
    Listed after.mm.links grown ∧ vm ∈ grown ∧
    (∀ virtual, result ≤ virtual → virtual < result + request.len →
      after.paging.translate virtual ≠ none ∧ Holds after.mm virtual vm) ∧
    (request.addr ≠ 0 → result = request.addr) ∧
    (request.addr = 0 → vm ∉ areas ∧ (after.mm.vms vm).start = result ∧ ∀ other ∈ grown, other ≠ vm →
      (after.mm.vms vm).stop ≤ (after.mm.vms other).start ∨ (after.mm.vms other).stop ≤ (after.mm.vms vm).start) ∧
    Keeps space after fun _ => True

/-- The area that serves the request covers it, is a new one where no address was given, and
has no page yet. -/
structure Unspoiled (space : MappedSpace) (areas : List Nat) (request : MmapRequest) : Prop where
  covers : request.addr ≠ 0 → (servedRange space.mm areas request.addr request.len).1 ≤ request.addr ∧
    request.addr + request.len ≤ (servedRange space.mm areas request.addr request.len).2
  new : request.addr = 0 → ∀ vm ∈ areas, ¬Holds space.mm (alignDown request.addr physMmBlock) vm
  unmapped : ∀ virtual, (servedRange space.mm areas request.addr request.len).1 ≤ virtual →
    virtual < (servedRange space.mm areas request.addr request.len).2 → space.paging.translate virtual = none

/-- The blocks that a request may take, one for a page and one for its table. -/
def blocksFor (mm : ProcessMm) (areas : List Nat) (request : MmapRequest) : Nat :=
  2 * (((servedRange mm areas request.addr request.len).2 - (servedRange mm areas request.addr request.len).1) / physMmBlock)

/-- The blocks to come are in no page, also when a remapping keeps the last bit of a frame. -/
def Unused (space : MappedSpace) (count : Nat) : Prop :=
  ∀ i, Next space count i → ∀ virtual frame, space.paging.translate virtual = some frame →
    frame % 2 ^ 19 ≠ frameNumber (space.blocks i) % 2 ^ 19

theorem mappedSpace_spec (sound : Sound space.mm areas) (request : MmapRequest)
    (stocked : Stocked space (blocksFor space.mm areas request)) (good : GoodCall ⟨space.mm, areas⟩ (.map request))
    (below : (servedRange space.mm areas request.addr request.len).2 ≤ pageTblBase) :
    ∃ vm after grown, space.mmapMap request.addr request.len =
        some (if request.addr ≠ 0 then request.addr else (after.mm.vms vm).start, after) ∧
      Served space.mm after.mm areas grown request vm ∧
      (∀ virtual, (after.mm.vms vm).start ≤ virtual → virtual < (after.mm.vms vm).stop →
        Given space after (blocksFor space.mm areas request) virtual) ∧
      Keeps space after fun virtual => ¬((after.mm.vms vm).start ≤ virtual ∧ virtual < (after.mm.vms vm).stop) := by
  obtain ⟨vm, next, grown, call, served⟩ := mmapMap_served sound request good
  have regular := served.sound.regular vm served.member
  have top : (next.vms vm).stop ≤ pageTblBase := by
    rw [served.range]
    exact below
  obtain ⟨pages, whole, number⟩ : ∃ pages, (next.vms vm).stop = (next.vms vm).start + pages * physMmBlock ∧
      blocksFor space.mm areas request = 2 * pages := by
    have aligned := regular.startAligned
    have stopAligned := regular.stopAligned
    have ordered := regular.ordered
    refine ⟨((next.vms vm).stop - (next.vms vm).start) / physMmBlock, ?_, ?_⟩
    · unfold physMmBlock at *
      omega
    · rw [served.range]
      rfl
  have enough : pages < 2 ^ 20 + 1 := by
    unfold pageTblBase at top
    unfold physMmBlock at whole
    omega
  rw [number] at stocked ⊢
  have ready : Stocked { space with mm := next } (2 * pages) := ⟨stocked.tables, stocked.clear, stocked.fresh, stocked.distinct⟩
  obtain ⟨after, loop, mm, given, keeps⟩ := mapBlocks_spec ready regular.startAligned whole top enough
  have same : after.mm = next := mm
  refine ⟨vm, after, grown, ?_, ?_, ?_, ?_⟩
  · rw [MappedSpace.mmapMap, call, Option.bind_some]
    simp only [loop, same]
    rfl
  · rw [same]
    exact served
  · rw [same]
    exact given
  · rw [same]
    exact keeps

/-- An old area that answers is the one that holds the page of the address. -/
theorem Served.only {next : ProcessMm} {grown : List Nat} {request : MmapRequest} {area : Nat}
    (served : Served mm next areas grown request vm) (sound : Sound mm areas) (member : area ∈ grown)
    (holds : Holds next request.addr area) : area = vm := by
  rcases served.others area member with same | ⟨old, content⟩
  · exact same
  · have regular := sound.regular area old
    have aligned := regular.startAligned
    have small : request.addr < 2 ^ 32 := Nat.lt_of_le_of_lt (Nat.le_add_right _ _) request.fits
    unfold Holds at holds
    rw [content] at holds
    apply served.holder area old
    unfold Holds
    rw [alignDown_page small]
    unfold physMmBlock at *
    omega

theorem servedRange_place (request : MmapRequest) (good : GoodCall ⟨mm, areas⟩ (.map request))
    (none : ∀ vm ∈ areas, ¬Holds mm (alignDown request.addr physMmBlock) vm) :
    (servedRange mm areas request.addr request.len).1 + request.len ≤ (servedRange mm areas request.addr request.len).2 := by
  have unfound := unheld none
  have positive := (good.2 none).1
  have large : request.len ≤ pageAlign request.len := by
    by_cases fits : request.len + physMmBlock ≤ 2 ^ 32
    · exact (pageAlign_bounds fits).1
    · have small : request.len < 2 ^ 32 := Nat.lt_of_le_of_lt (Nat.le_add_left _ _) request.fits
      rw [pageAlign_wraps small fits] at positive
      exact absurd positive (Nat.lt_irrefl _)
  simp only [servedRange, unfound]
  exact Nat.add_le_add_left large _

theorem mmap_map_answers_iff (sound : Sound space.mm areas) (request : MmapRequest)
    (stocked : Stocked space (blocksFor space.mm areas request))
    (unused : Unused space (blocksFor space.mm areas request)) (good : GoodCall ⟨space.mm, areas⟩ (.map request))
    (below : (servedRange space.mm areas request.addr request.len).2 ≤ pageTblBase) :
    Answered space areas request ↔ Unspoiled space areas request := by
  obtain ⟨vm, after, grown, call, served, given, keeps⟩ := mappedSpace_spec sound request stocked good below
  have range := served.range
  have first := congrArg ProcessVm.start range
  have last := congrArg ProcessVm.stop range
  simp only at first last
  constructor
  · rintro ⟨result, final, listed, area, again, list, member, pages, fixed, fresh, kept⟩
    obtain ⟨rfl, rfl⟩ := Prod.mk.inj (Option.some.inj (again.symm.trans call))
    obtain rfl : listed = grown := List.map_injective_iff.mpr (fun _ _ same => VmNode.vm.inj same) (list.unique served.sound.listed)
    refine ⟨fun address => ?_, fun zero other there holds => ?_, fun virtual lower upper => ?_⟩
    · rw [fixed address] at pages
      have positive := request.positive
      have begin := (pages request.addr (Nat.le_refl _) (Nat.lt_add_of_pos_right positive)).2
      have ending := (pages (request.addr + request.len - 1) (by omega) (by omega)).2
      obtain rfl := served.only sound member begin
      unfold Holds at begin ending
      omega
    · have outside := (fresh zero).1
      obtain rfl : area = vm := (served.others area member).resolve_right fun old => outside old.1
      exact outside (served.holder other there holds ▸ there)
    · rw [← first] at lower
      rw [← last] at upper
      cases held : space.paging.translate virtual with
      | none => rfl
      | some frame =>
        have inside : virtual < 2 ^ 32 := upper.trans (served.sound.regular vm served.member).bounded
        obtain ⟨moved, i, there, free, low⟩ := given virtual lower upper
        obtain rfl : moved = frame := Option.some.inj (there.symm.trans (kept virtual inside trivial frame held))
        exact absurd low (unused i free virtual moved held)
  · intro unspoiled
    have covered : ∀ virtual, (if request.addr ≠ 0 then request.addr else (after.mm.vms vm).start) ≤ virtual →
        virtual < (if request.addr ≠ 0 then request.addr else (after.mm.vms vm).start) + request.len →
        (after.mm.vms vm).start ≤ virtual ∧ virtual < (after.mm.vms vm).stop := by
      intro virtual lower upper
      by_cases address : request.addr ≠ 0
      · rw [if_pos address] at lower upper
        have covers := unspoiled.covers address
        omega
      · rw [if_neg address] at lower upper
        have place := servedRange_place request good (unspoiled.new (not_not.mp address))
        omega
    refine ⟨_, after, grown, vm, call, served.sound.listed, served.member, fun virtual lower upper => ?_, fun address => if_pos address,
      fun zero => ⟨served.fresh (unspoiled.new zero), ?_, fun other there different => ?_⟩, fun virtual inside _ frame held => ?_⟩
    · obtain ⟨low, high⟩ := covered virtual lower upper
      obtain ⟨frame, i, held, -⟩ := given virtual low high
      rw [held]
      exact ⟨nofun, low, high⟩
    · exact (if_neg (not_not.mpr zero)).symm
    · exact sorted_apart served.sound.sorted served.member there different.symm
    · refine keeps virtual inside (fun both => ?_) frame held
      rw [first, last] at both
      rw [unspoiled.unmapped virtual both.1 both.2] at held
      cases held

/-- A process with an area of one page, which is in frame 1024, and the blocks from the sixteenth on. -/
def exampleSpace : MappedSpace where
  mm :=
    { brk := 0, brkEnd := 0, cache := 0x4000
      links := dlistAdd (.vm 0) .head (dlistHeadInit .head ⟨fun _ => .null, fun _ => .null⟩)
      vms := fun _ => ⟨0x1000, 0x2000⟩
      vmCount := 1 }
  paging := (onePage 0).setWord 2 1 0x400007
  blocks := fun i => BitVec.ofNat 32 ((i + 16) * physMmBlock)
  taken := 0

theorem exampleSpace_sound : Sound exampleSpace.mm [0] where
  listed := listed_single (Ring.nil_iff.mpr (by decide))
  allocated := by decide
  regular := List.forall_mem_singleton.mpr ⟨by decide, by decide, by decide, by decide⟩
  sorted := List.pairwise_singleton _ _
  cacheAligned := by decide
  brkAligned := by decide
  bounded := by decide

theorem exampleSpace_frame (f index : Nat) :
    frameNumber (exampleSpace.paging.words f index) ≤ 2 ∨ frameNumber (exampleSpace.paging.words f index) = 1024 := by
  have inner : frameNumber ((onePage 0).words f index) ≤ 2 := by
    unfold onePage
    simp only
    split
    · decide
    · split
      · decide
      · split <;> decide
  simp only [exampleSpace, Paging.setWord, Function.update_apply]
  split
  next same =>
    rw [Function.update_apply]
    split
    · exact .inr (by decide)
    · exact .inl (same ▸ inner)
  next => exact .inl inner

theorem exampleSpace_stocked : Stocked exampleSpace 2 ∧ Unused exampleSpace 2 := by
  have entries (i : Nat) : exampleSpace.paging.entry i = (onePage 0).entry i :=
    entry_setWord (show 2 ≠ (onePage 0).dir by decide) 1 i
  have number {i : Nat} (next : Next exampleSpace 2 i) : frameNumber (exampleSpace.blocks i) = i + 16 ∧ i < 2 := by
    have bound : i < 2 := next.2
    have cases : i = 0 ∨ i = 1 := by omega
    rcases cases with rfl | rfl <;> decide
  refine ⟨⟨setWord_proper (onePage_proper 0) (show 0 < 1023 by decide) (by decide) 1, ?_, ?_, ?_⟩, ?_⟩
  · intro i low absent
    rw [entries] at absent ⊢
    have other : ¬i = 0 := by
      rintro rfl
      exact absent (by decide)
    have last : ¬i = 1023 := by omega
    simp only [Paging.entry, onePage, last, other, and_false, if_false]
  · intro i next
    refine ⟨?_, fun j low enabled => ?_⟩
    · rw [(number next).1]
      exact (show i + 16 ≠ 1 by omega)
    · rw [entries] at enabled ⊢
      obtain rfl := onePage_enabled 0 low enabled
      rw [(number next).1]
      exact (show 2 ≠ i + 16 by omega)
  · intro i next j later same
    rw [(number next).1, (number later).1] at same
    omega
  · intro i next virtual frame held
    rw [translate_eq] at held
    have used : frame ≤ 2 ∨ frame = 1024 := by
      split at held
      next =>
        unfold lookup at held
        split at held
        next =>
          rw [← Option.some.inj held]
          exact exampleSpace_frame ..
        next => cases held
      next => cases held
    have block := number next
    rw [block.1]
    omega

/-- The mapped page stays in its frame. -/
theorem mmap_map_answers_example : Answered exampleSpace [0] ⟨0x3000, 0x1000, by decide, by decide⟩ := by
  have two : blocksFor exampleSpace.mm [0] ⟨0x3000, 0x1000, by decide, by decide⟩ = 2 := by decide +kernel
  have range : servedRange exampleSpace.mm [0] 0x3000 0x1000 = (0x3000, 0x4000) := by decide +kernel
  refine (mmap_map_answers_iff exampleSpace_sound _ ?_ ?_ (by decide +kernel) (by decide +kernel)).mpr ?_
  · rw [two]
    exact exampleSpace_stocked.1
  · rw [two]
    exact exampleSpace_stocked.2
  · refine ⟨fun _ => by rw [range]; decide, fun zero => absurd zero (by decide), fun virtual lower upper => ?_⟩
    rw [range] at lower upper
    have page : virtual / physMmBlock = 0x3000 / physMmBlock := by
      unfold physMmBlock
      omega
    rw [translate_page page]
    decide +kernel

/-- The page of the area was in another frame. -/
theorem mmap_map_spoils : ¬Answered exampleSpace [0] ⟨0x1000, 0x1000, by decide, by decide⟩ := by
  rintro ⟨result, after, grown, vm, call, -, -, -, -, -, keeps⟩
  have run : (exampleSpace.mmapMap 0x1000 0x1000).map (fun ends => ends.2.paging.translate 0x1000) = some (some 16) := by
    decide +kernel
  have before : exampleSpace.paging.translate 0x1000 = some 0x400 := by decide +kernel
  obtain ⟨ends, ran, moved⟩ := Option.map_eq_some_iff.mp run
  have held := keeps 0x1000 (by decide) trivial 0x400 before
  obtain rfl : ends = (result, after) := Option.some.inj (ran.symm.trans call)
  rw [moved] at held
  exact absurd held (by decide)

end YuzuOS.Proofs.MmapPages
