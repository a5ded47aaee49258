import YuzuOS.Library.Counting
import YuzuOS.Library.Run
import YuzuOS.Kernel.Mmap

/-! Runs of `mmap_map` and `mmap_brk`: in good steps the areas of a process stay
on one ring, in order and apart. -/

namespace YuzuOS.Proofs.MemoryAreas
open YuzuOS.Library YuzuOS.Kernel

def Listed (links : Links VmNode) (areas : List Nat) : Prop := Ring links .head (areas.map .vm)

structure Regular (vm : ProcessVm) : Prop where
  startAligned : vm.start % physMmBlock = 0
  stopAligned : vm.stop % physMmBlock = 0
  ordered : vm.start < vm.stop
  bounded : vm.stop < 2 ^ 32

structure Sound (mm : ProcessMm) (areas : List Nat) : Prop where
  listed : Listed mm.links areas
  allocated : ∀ vm ∈ areas, vm < mm.vmCount
  regular : ∀ vm ∈ areas, Regular (mm.vms vm)
  sorted : areas.Pairwise fun first second => (mm.vms first).stop ≤ (mm.vms second).start
  cacheAligned : mm.cache % physMmBlock = 0
  brkAligned : mm.brkEnd % physMmBlock = 0
  bounded : max mm.cache mm.brkEnd < 2 ^ 32

variable {mm next : ProcessMm} {links : Links VmNode} {areas early before after : List Nat}
  {vm other addr len turns : Nat}

def follower : List Nat → VmNode
  | [] => .head
  | vm :: _ => .vm vm

theorem Listed.nodup (listed : Listed links areas) : areas.Nodup :=
  (List.nodup_cons.mp (Ring.nodup listed)).2.of_map _

theorem listed_first (listed : Listed links areas) : links.next .head = follower areas := by
  refine (Ring.next_first listed).trans ?_
  cases areas with
  | nil => rfl
  | cons vm rest => rfl

theorem listed_after (listed : Listed links (before ++ vm :: after)) : links.next (.vm vm) = follower after := by
  rw [Listed, List.map_append] at listed
  refine (Ring.next_member listed).trans ?_
  cases after with
  | nil => rfl
  | cons second rest => rfl

theorem Sound.fresh (sound : Sound mm areas) : mm.vmCount ∉ areas :=
  fun member => Nat.lt_irrefl _ (sound.allocated _ member)

/-- Two areas of an ascending list, in either order. -/
theorem sorted_apart (sorted : areas.Pairwise fun first second => (mm.vms first).stop ≤ (mm.vms second).start)
    (here : vm ∈ areas) (there : other ∈ areas) (different : vm ≠ other) :
    (mm.vms vm).stop ≤ (mm.vms other).start ∨ (mm.vms other).stop ≤ (mm.vms vm).start := by
  have symmetric : Std.Symm fun first second =>
      (mm.vms first).stop ≤ (mm.vms second).start ∨ (mm.vms second).stop ≤ (mm.vms first).start := ⟨fun _ _ => Or.symm⟩
  have either : areas.Pairwise fun first second =>
      (mm.vms first).stop ≤ (mm.vms second).start ∨ (mm.vms second).stop ≤ (mm.vms first).start := sorted.imp .inl
  exact either.forall here there different

/-- A ring of distinct allocated areas is not longer than their number. -/
theorem Listed.length_le {count : Nat} (listed : Listed links areas) (allocated : ∀ vm ∈ areas, vm < count) :
    areas.length ≤ count :=
  length_le_of_below listed.nodup allocated

theorem Sound.length_le (sound : Sound mm areas) : areas.length ≤ mm.vmCount := sound.listed.length_le sound.allocated

theorem findVmLoop_spec (listed : Listed mm.links (before ++ after)) (enough : after.length < turns) :
    mmapFindVmLoop mm addr turns (follower after) =
      some (after.find? fun vm => (mm.vms vm).start ≤ addr ∧ addr < (mm.vms vm).stop) := by
  induction after generalizing before turns with
  | nil =>
    obtain ⟨turns, rfl⟩ := Nat.exists_eq_succ_of_ne_zero (Nat.ne_of_gt enough)
    rfl
  | cons vm rest ih =>
    obtain ⟨turns, rfl⟩ := Nat.exists_eq_succ_of_ne_zero (Nat.ne_of_gt (Nat.zero_lt_of_lt enough))
    rw [follower, mmapFindVmLoop, (listed_after listed), List.find?_cons]
    split
    next inside => simp [inside]
    next outside =>
      have onward : Listed mm.links ((before ++ [vm]) ++ rest) := by simpa using listed
      simp [outside, ih onward (Nat.lt_of_succ_lt_succ enough)]

theorem findVm_spec (sound : Sound mm areas) (addr : Nat) :
    mmapFindVm addr mm = some (areas.find? fun vm => (mm.vms vm).start ≤ addr ∧ addr < (mm.vms vm).stop) := by
  have whole : Listed mm.links ([] ++ areas) := sound.listed
  rw [mmapFindVm, listed_first sound.listed]
  exact findVmLoop_spec whole (Nat.lt_succ_of_le sound.length_le)

theorem page_bits : physMmBlock = 2 ^ 12 := rfl

theorem alignDown_page {addr : Nat} (small : addr < 2 ^ 32) :
    alignDown addr physMmBlock = addr / physMmBlock * physMmBlock := by
  rw [page_bits]
  exact alignDown_eq small (by decide)

theorem pageAlign_aligned (addr : Nat) : pageAlign addr % physMmBlock = 0 ∧ pageAlign addr < 2 ^ 32 := by
  have small : (addr + physMmBlock - 1) % 2 ^ 32 < 2 ^ 32 := Nat.mod_lt _ (by decide)
  rw [pageAlign, alignUp, alignDown_page small]
  exact ⟨Nat.mul_mod_left _ _, (Nat.div_mul_le_self _ _).trans_lt small⟩

theorem listed_congr {changed : Links VmNode} (listed : Listed links areas)
    (same : ∀ node, node = .head ∨ (∃ vm ∈ areas, node = .vm vm) →
      changed.next node = links.next node ∧ changed.prev node = links.prev node) : Listed changed areas := by
  refine Ring.congr listed fun node member => same node ?_
  cases List.mem_cons.mp member with
  | inl head => exact .inl head
  | inr inside =>
    obtain ⟨vm, linked, rfl⟩ := List.mem_map.mp inside
    exact .inr ⟨vm, linked, rfl⟩

/-- Writing the links of an area that is not listed leaves the list. -/
theorem listed_other {next prev : VmNode} (listed : Listed links areas) (outside : other ∉ areas) :
    Listed ((links.setNext (.vm other) next).setPrev (.vm other) prev) areas := by
  refine listed_congr listed fun node kind => ?_
  have different : node ≠ .vm other := by
    rcases kind with head | ⟨vm, member, rfl⟩
    · rw [head]
      exact VmNode.noConfusion
    · intro same
      cases same
      exact outside member
  simp [different]

/-- The listed areas are read, so only what they hold matters. -/
theorem Sound.congr (sound : Sound mm areas) (listed : Listed next.links areas) (more : mm.vmCount ≤ next.vmCount)
    (kept : ∀ vm ∈ areas, next.vms vm = mm.vms vm) (cache : next.cache = mm.cache) (brkEnd : next.brkEnd = mm.brkEnd) :
    Sound next areas where
  listed := listed
  allocated vm member := (sound.allocated vm member).trans_le more
  regular vm member := by
    rw [kept vm member]
    exact sound.regular vm member
  sorted := by
    refine sound.sorted.imp_of_mem fun first second before => ?_
    rwa [kept _ first, kept _ second]
  cacheAligned := by rw [cache]; exact sound.cacheAligned
  brkAligned := by rw [brkEnd]; exact sound.brkAligned
  bounded := by rw [cache, brkEnd]; exact sound.bounded

theorem update_kept {content : ProcessVm} (outside : other ∉ areas) (member : vm ∈ areas) :
    Function.update mm.vms other content vm = mm.vms vm := by
  have different : vm ≠ other := by
    intro same
    subst same
    exact outside member
  exact Function.update_of_ne different _ _

theorem allocVm_sound (sound : Sound mm areas) : Sound mm.allocVm.2 areas :=
  sound.congr (listed_other sound.listed sound.fresh) (Nat.le_succ _)
    (fun _ member => update_kept sound.fresh member) rfl rfl

theorem insert_sound {vma start stop : Nat} (sound : Sound mm (before ++ after)) (fresh : vma ∉ before ++ after)
    (allocated : vma < mm.vmCount) (listed : Listed links (before ++ vma :: after)) (regular : Regular ⟨start, stop⟩)
    (low : ∀ vm ∈ before, (mm.vms vm).stop ≤ start) (high : ∀ vm ∈ after, stop ≤ (mm.vms vm).start)
    (content : next.vms = Function.update mm.vms vma ⟨start, stop⟩) (linked : next.links = links)
    (count : next.vmCount = mm.vmCount) (cache : next.cache = stop) (brkEnd : next.brkEnd = mm.brkEnd) :
    Sound next (before ++ vma :: after) := by
  have kept {vm : Nat} (member : vm ∈ before ++ after) : next.vms vm = mm.vms vm := by
    rw [content]
    exact update_kept fresh member
  have new : next.vms vma = ⟨start, stop⟩ := by
    rw [content]
    exact Function.update_self _ _ _
  have around {vm : Nat} (member : vm ∈ before ++ vma :: after) : vm = vma ∨ vm ∈ before ++ after := by
    simp only [List.mem_append, List.mem_cons] at member ⊢
    tauto
  refine ⟨linked ▸ listed, fun vm member => ?_, fun vm member => ?_, ?_, ?_, brkEnd ▸ sound.brkAligned, ?_⟩
  · rw [count]
    cases around member with
    | inl same => exact same ▸ allocated
    | inr old => exact sound.allocated vm old
  · cases around member with
    | inl same =>
      rw [same, new]
      exact regular
    | inr old =>
      rw [kept old]
      exact sound.regular vm old
  · obtain ⟨lower, upper, across⟩ := List.pairwise_append.mp sound.sorted
    refine List.pairwise_append.mpr ⟨?_, List.pairwise_cons.mpr ⟨fun vm member => ?_, ?_⟩, fun first early second late => ?_⟩
    · refine lower.imp_of_mem fun first second order => ?_
      rwa [kept (List.mem_append_left _ first), kept (List.mem_append_left _ second)]
    · rw [new, kept (List.mem_append_right _ member)]
      exact high vm member
    · refine upper.imp_of_mem fun first second order => ?_
      rwa [kept (List.mem_append_right _ first), kept (List.mem_append_right _ second)]
    · rw [kept (List.mem_append_left _ early)]
      cases List.mem_cons.mp late with
      | inl same =>
        rw [same, new]
        exact low first early
      | inr late =>
        rw [kept (List.mem_append_right _ late)]
        exact across first early second late
  · rw [cache]
    exact regular.stopAligned
  · have stopSmall : stop < 2 ^ 32 := regular.bounded
    have brk := sound.bounded
    rw [cache, brkEnd]
    omega

theorem grow_sound {stop : Nat} (sound : Sound mm (before ++ vm :: after)) (aligned : stop % physMmBlock = 0)
    (small : stop < 2 ^ 32) (larger : (mm.vms vm).stop ≤ stop) (room : ∀ second ∈ after, stop ≤ (mm.vms second).start) :
    Sound (mm.setStop vm stop) (before ++ vm :: after) := by
  have distinct := sound.listed.nodup
  have kept {other : Nat} (different : other ≠ vm) : (mm.setStop vm stop).vms other = mm.vms other :=
    Function.update_of_ne different _ _
  have new : (mm.setStop vm stop).vms vm = { mm.vms vm with stop } := Function.update_self _ _ _
  have starts (other : Nat) : ((mm.setStop vm stop).vms other).start = (mm.vms other).start := by
    rcases eq_or_ne other vm with rfl | different
    · rw [new]
    · rw [kept different]
  refine ⟨sound.listed, sound.allocated, fun other member => ?_, ?_, sound.cacheAligned, sound.brkAligned, sound.bounded⟩
  · have regular := sound.regular other member
    rcases eq_or_ne other vm with rfl | different
    · rw [new]
      exact ⟨regular.startAligned, aligned, regular.ordered.trans_le larger, small⟩
    · rw [kept different]
      exact regular
  · obtain ⟨lower, upper, across⟩ := List.pairwise_append.mp sound.sorted
    obtain ⟨_, rest, apart⟩ := List.nodup_append.mp distinct
    have absent := (List.nodup_cons.mp rest).1
    refine List.pairwise_append.mpr ⟨?_, List.pairwise_cons.mpr ⟨fun second member => ?_, ?_⟩, fun first early second late => ?_⟩
    · refine lower.imp_of_mem fun first second order => ?_
      rwa [kept (apart _ first vm List.mem_cons_self), starts]
    · rw [new, starts]
      exact room second member
    · refine (List.pairwise_cons.mp upper).2.imp_of_mem fun first second order => ?_
      rwa [kept (fun same => absent (same ▸ first)), starts]
    · rw [kept (apart _ early vm List.mem_cons_self), starts]
      exact across first early second late

/-- What an address that lies behind one area needs of the areas behind that one. -/
def Room (mm : ProcessMm) (vm addr len : Nat) (after : List Nat) : Prop :=
  ∀ second ∈ after, addr < (mm.vms second).start ∧ len ≤ (mm.vms second).start - (mm.vms vm).stop

structure Place (mm : ProcessMm) (vm len : Nat) (after : List Nat) (start : Nat) : Prop where
  low : (mm.vms vm).stop ≤ start
  high : ∀ second ∈ after, start + len ≤ (mm.vms second).start
  fits : start + len < 2 ^ 32
  aligned : start % physMmBlock = 0

/-- The place at the address, or at the end of the hole when it is too close to the next area. -/
def placeStart (mm : ProcessMm) (addr len : Nat) : List Nat → Nat
  | [] => addr
  | second :: _ => if addr + len ≤ (mm.vms second).start then addr else (mm.vms second).start - len

/-- At the last area in front of the address, in a hole or at the end. -/
theorem findUnmappedLoop_here {vma : Nat} (sound : Sound mm (before ++ vm :: after)) (above : (mm.vms vm).stop ≤ addr)
    (room : Room mm vm addr len after) (fits : addr + len < 2 ^ 32) (aligned : addr % physMmBlock = 0)
    (whole : len % physMmBlock = 0) :
    mmapFindUnmappedLoop mm vma addr len (turns + 1) (.vm vm) =
      some (dlistAdd (.vm vma) (.vm vm) mm.links, placeStart mm addr len after) ∧
        Place mm vm len after (placeStart mm addr len after) := by
  have ordered := (sound.regular vm (List.mem_append_right _ List.mem_cons_self)).ordered
  rw [mmapFindUnmappedLoop, Nat.mod_eq_of_lt fits, if_neg (by omega), listed_after sound.listed]
  cases after with
  | nil =>
    refine ⟨?_, above, fun _ member => absurd member List.not_mem_nil, fits, aligned⟩
    simp only [follower, placeStart]
    rw [if_pos above]
  | cons second rest =>
    have regular := sound.regular second (List.mem_append_right _ (List.mem_cons_of_mem _ List.mem_cons_self))
    have hole := room second List.mem_cons_self
    have sorted := (List.pairwise_cons.mp (List.pairwise_append.mp sound.sorted).2.1).2
    have further : ∀ third ∈ second :: rest, (mm.vms second).start ≤ (mm.vms third).start := by
      intro third member
      cases List.mem_cons.mp member with
      | inl same => rw [same]
      | inr later => exact regular.ordered.le.trans ((List.pairwise_cons.mp sorted).1 third later)
    simp only [follower, placeStart]
    split
    next fitting =>
      rw [if_pos fitting.2]
      exact ⟨rfl, above, fun third member => fitting.2.trans (further third member), fits, aligned⟩
    next crossing =>
      have bounded := regular.bounded
      have startAligned := regular.startAligned
      have shifted : ((mm.vms second).start + 2 ^ 32 - len) % 2 ^ 32 = (mm.vms second).start - len := by omega
      have gap : ((mm.vms second).start + 2 ^ 32 - (mm.vms vm).stop) % 2 ^ 32 = (mm.vms second).start - (mm.vms vm).stop := by
        omega
      rw [if_pos ⟨⟨above, hole.1⟩, gap ▸ hole.2⟩, shifted, if_neg fun fitting => crossing ⟨above, fitting⟩]
      refine ⟨rfl, by omega, fun third member => ?_, by omega, ?_⟩
      · have behind := further third member
        omega
      · unfold physMmBlock at *
        omega

/-- The areas in front of that one are passed over. -/
theorem findUnmappedLoop_spec (vma : Nat) (sound : Sound mm areas) (split : areas = early ++ (before ++ vm :: after))
    (above : (mm.vms vm).stop ≤ addr) (positive : 0 < len)
    (room : Room mm vm addr len after) (fits : addr + len < 2 ^ 32) (aligned : addr % physMmBlock = 0)
    (whole : len % physMmBlock = 0) (enough : before.length < turns) :
    mmapFindUnmappedLoop mm vma addr len turns (follower (before ++ vm :: after)) =
      some (dlistAdd (.vm vma) (.vm vm) mm.links, placeStart mm addr len after) ∧
        Place mm vm len after (placeStart mm addr len after) := by
  induction before generalizing early turns with
  | nil =>
    obtain ⟨turns, rfl⟩ := Nat.exists_eq_succ_of_ne_zero (Nat.ne_of_gt enough)
    subst split
    exact findUnmappedLoop_here sound above room fits aligned whole
  | cons first rest ih =>
    obtain ⟨turns, rfl⟩ := Nat.exists_eq_succ_of_ne_zero (Nat.ne_of_gt (Nat.zero_lt_of_lt enough))
    have onward : areas = (early ++ [first]) ++ (rest ++ vm :: after) := by simp [split]
    have result := ih onward (Nat.lt_of_succ_lt_succ enough)
    refine ⟨?_, result.2⟩
    rw [← result.1]
    subst split
    obtain ⟨low, rising⟩ := List.pairwise_cons.mp (List.pairwise_append.mp sound.sorted).2.1
    have regular {other : Nat} (member : other ∈ first :: (rest ++ vm :: after)) :=
      sound.regular other (List.mem_append_right early member)
    have start := (regular List.mem_cons_self).ordered
    have behind := low vm (by simp)
    have stop := (regular (by simp) : Regular (mm.vms vm)).ordered
    have linked : mm.links.next (.vm first) = follower (rest ++ vm :: after) := listed_after sound.listed
    rw [List.cons_append, follower, mmapFindUnmappedLoop, Nat.mod_eq_of_lt fits, if_neg (by omega), linked]
    cases rest with
    | nil =>
      simp only [List.nil_append, follower]
      rw [if_neg (by omega), if_neg (by omega)]
    | cons second rest =>
      have upto : (mm.vms second).start ≤ (mm.vms vm).start := by
        have order := (List.pairwise_cons.mp rising).1 vm (by simp)
        have ordered := (regular (by simp) : Regular (mm.vms second)).ordered
        omega
      simp only [List.cons_append, follower]
      rw [if_neg (by omega), if_neg (by omega)]

theorem listed_insert {vma : Nat} (listed : Listed links (before ++ vm :: after))
    (fresh : vma ∉ before ++ vm :: after) :
    Listed (dlistAdd (.vm vma) (.vm vm) links) (before ++ vm :: vma :: after) := by
  have cycle : Cycle links ((.head :: before.map .vm) ++ .vm vm :: after.map .vm) := by
    unfold Listed at listed
    rw [List.map_append, List.map_cons] at listed
    exact listed
  have absent : VmNode.vm vma ∉ (.head :: before.map .vm) ++ .vm vm :: after.map .vm := by
    simpa using fresh
  have added := dlistAdd_cycle cycle absent
  unfold Listed
  rw [List.map_append, List.map_cons, List.map_cons]
  exact added

theorem listed_single {vma : Nat} (listed : Listed links []) : Listed (dlistAdd (.vm vma) .head links) [vma] := by
  have cycle : Cycle links ([] ++ VmNode.head :: []) := listed
  have added : Cycle (dlistAdd (.vm vma) .head links) ([] ++ VmNode.head :: .vm vma :: []) := dlistAdd_cycle cycle (by simp)
  exact added

/-- The areas that a search for a new place does not go wrong with. -/
def Placeable (mm : ProcessMm) (listed : List Nat) (addr len : Nat) : Prop :=
  0 < pageAlign len ∧ 0 < mmapFindAddr mm addr ∧ mmapFindAddr mm addr + pageAlign len < 2 ^ 32 ∧
    (listed = [] ∨ ∃ vm ∈ listed, (mm.vms vm).stop ≤ mmapFindAddr mm addr ∧ ∀ other ∈ listed,
      (mm.vms other).start ≤ (mm.vms vm).start ∨ (mmapFindAddr mm addr < (mm.vms other).start ∧
        pageAlign len ≤ (mm.vms other).start - (mm.vms vm).stop))

theorem findAddr_aligned (sound : Sound mm areas) (aligned : addr % physMmBlock = 0) :
    mmapFindAddr mm addr % physMmBlock = 0 := by
  have cache := sound.cacheAligned
  have brk := sound.brkAligned
  unfold mmapFindAddr
  split
  · rw [Nat.max_def]
    split
    · exact brk
    · exact cache
  · exact aligned

theorem Sound.behind {second : Nat} (sound : Sound mm (before ++ vm :: after)) (member : second ∈ after) :
    (mm.vms vm).start < (mm.vms second).start := by
  have ordered := (sound.regular vm (by simp)).ordered
  have sorted := (List.pairwise_append.mp sound.sorted).2.1
  exact ordered.trans_le ((List.pairwise_cons.mp sorted).1 second member)

def Placed (mm : ProcessMm) (addr len : Nat) (links : Links VmNode) (found : Nat) : Prop :=
  (if dlistIsEmpty .head mm.allocVm.2.links then some (dlistAdd (.vm mm.vmCount) .head mm.allocVm.2.links, mmapFindAddr mm addr)
    else mmapFindUnmappedLoop mm.allocVm.2 mm.vmCount (mmapFindAddr mm addr) (pageAlign len) (mm.vmCount + 2)
      (mm.allocVm.2.links.next .head)) = some (links, found)

theorem findUnmapped_eq {found : Nat} (placed : Placed mm addr len links found) (nonzero : found ≠ 0)
    (fits : found + pageAlign len < 2 ^ 32) :
    mmapFindUnmappedVm addr len mm = some (mm.vmCount,
      { { mm.allocVm.2 with links }.setVm mm.vmCount ⟨found, found + pageAlign len⟩ with cache := found + pageAlign len }) := by
  have unfolded : mmapFindUnmappedVm addr len mm = (some (links, found)).map fun result =>
      if result.2 ≠ 0 then (mm.vmCount, { { mm.allocVm.2 with links := result.1 }.setVm mm.vmCount
        ⟨result.2, (result.2 + pageAlign len) % 2 ^ 32⟩ with cache := (result.2 + pageAlign len) % 2 ^ 32 })
      else (mm.vmCount, { mm.allocVm.2 with links := result.1 }) := by
    rw [← placed]
    rfl
  rw [unfolded, Option.map_some]
  simp only [Nat.mod_eq_of_lt fits, if_pos nonzero]

theorem findUnmapped_insert {found : Nat} (sound : Sound mm (before ++ after)) (placed : Placed mm addr len links found)
    (listed : Listed links (before ++ mm.vmCount :: after)) (positive : 0 < pageAlign len) (nonzero : found ≠ 0)
    (fits : found + pageAlign len < 2 ^ 32) (aligned : found % physMmBlock = 0)
    (low : ∀ vm ∈ before, (mm.vms vm).stop ≤ found) (high : ∀ vm ∈ after, found + pageAlign len ≤ (mm.vms vm).start) :
    ∃ next, mmapFindUnmappedVm addr len mm = some (mm.vmCount, next) ∧ Sound next (before ++ mm.vmCount :: after) ∧
      next.vms mm.vmCount = ⟨found, found + pageAlign len⟩ ∧ ∀ vm ∈ before ++ after, next.vms vm = mm.vms vm := by
  have fresh := sound.fresh
  have kept {other : Nat} (member : other ∈ before ++ after) : mm.allocVm.2.vms other = mm.vms other :=
    update_kept fresh member
  have whole := (pageAlign_aligned len).1
  have regular : Regular ⟨found, found + pageAlign len⟩ :=
    ⟨aligned, by simp [Nat.add_mod, aligned, whole], Nat.lt_add_of_pos_right positive, fits⟩
  refine ⟨_, findUnmapped_eq placed nonzero fits, ?_, Function.update_self _ _ _,
    fun vm member => (update_kept fresh member).trans (kept member)⟩
  refine insert_sound (allocVm_sound sound) fresh (Nat.lt_succ_self _) listed regular (fun vm member => ?_)
    (fun vm member => ?_) rfl rfl rfl rfl rfl
  · rw [kept (List.mem_append_left _ member)]
    exact low vm member
  · rw [kept (List.mem_append_right _ member)]
    exact high vm member

theorem findUnmapped_behind (sound : Sound mm (before ++ vm :: after)) (positive : 0 < pageAlign len)
    (above : (mm.vms vm).stop ≤ mmapFindAddr mm addr) (fits : mmapFindAddr mm addr + pageAlign len < 2 ^ 32)
    (aligned : addr % physMmBlock = 0) (room : Room mm vm (mmapFindAddr mm addr) (pageAlign len) after) :
    ∃ next, mmapFindUnmappedVm addr len mm = some (mm.vmCount, next) ∧
      Sound next (before ++ vm :: mm.vmCount :: after) ∧
      next.vms mm.vmCount = ⟨placeStart mm (mmapFindAddr mm addr) (pageAlign len) after,
        placeStart mm (mmapFindAddr mm addr) (pageAlign len) after + pageAlign len⟩ ∧
      ∀ other ∈ before ++ vm :: after, next.vms other = mm.vms other := by
  have fresh := sound.fresh
  have allocated := allocVm_sound sound
  have kept {other : Nat} (member : other ∈ before ++ vm :: after) : mm.allocVm.2.vms other = mm.vms other :=
    update_kept fresh member
  have this : mm.allocVm.2.vms vm = mm.vms vm := kept (by simp)
  have roomLater : Room mm.allocVm.2 vm (mmapFindAddr mm addr) (pageAlign len) after := by
    intro second member
    rw [this, kept (by simp [member])]
    exact room second member
  have short : before.length < mm.vmCount + 2 := by
    have length := sound.length_le
    simp only [List.length_append, List.length_cons] at length
    omega
  obtain ⟨loop, place⟩ := findUnmappedLoop_spec mm.vmCount allocated (List.nil_append _).symm
    (this ▸ above) positive roomLater fits (findAddr_aligned sound aligned) (pageAlign_aligned len).1 short
  have same : placeStart mm.allocVm.2 (mmapFindAddr mm addr) (pageAlign len) after =
      placeStart mm (mmapFindAddr mm addr) (pageAlign len) after := by
    cases after with
    | nil => rfl
    | cons second rest => rw [placeStart, placeStart, kept (by simp)]
  rw [same] at loop place
  generalize placeStart mm (mmapFindAddr mm addr) (pageAlign len) after = found at loop place ⊢
  have filled : dlistIsEmpty .head mm.allocVm.2.links = false := by
    unfold dlistIsEmpty
    rw [listed_first allocated.listed]
    cases before with
    | nil => rfl
    | cons first rest => rfl
  have placed : Placed mm addr len (dlistAdd (.vm mm.vmCount) (.vm vm) mm.allocVm.2.links) found := by
    unfold Placed
    rw [filled, if_neg Bool.false_ne_true, listed_first allocated.listed, loop]
  have start := (sound.regular vm (by simp)).ordered
  have low := this ▸ place.low
  have grouped : before ++ vm :: after = (before ++ [vm]) ++ after := by simp
  have listed := listed_insert allocated.listed fresh
  have below : ∀ other ∈ before ++ [vm], (mm.vms other).stop ≤ found := by
    intro other member
    cases List.mem_append.mp member with
    | inl earlier =>
      have sorted := (List.pairwise_append.mp sound.sorted).2.2 other earlier vm List.mem_cons_self
      omega
    | inr same =>
      rw [List.mem_singleton.mp same]
      exact low
  have above : ∀ other ∈ after, found + pageAlign len ≤ (mm.vms other).start := by
    intro other member
    have high := place.high other member
    rwa [kept (by simp [member])] at high
  rw [grouped] at sound
  obtain ⟨next, result, later, new, old⟩ := findUnmapped_insert sound placed (by simpa using listed) positive (by omega)
    place.fits place.aligned below above
  exact ⟨next, result, by simpa using later, new, by simpa using old⟩

theorem findUnmapped_first (sound : Sound mm []) (positive : 0 < pageAlign len) (nonzero : 0 < mmapFindAddr mm addr)
    (fits : mmapFindAddr mm addr + pageAlign len < 2 ^ 32) (aligned : addr % physMmBlock = 0) :
    ∃ next, mmapFindUnmappedVm addr len mm = some (mm.vmCount, next) ∧ Sound next [mm.vmCount] ∧
      next.vms mm.vmCount = ⟨mmapFindAddr mm addr, mmapFindAddr mm addr + pageAlign len⟩ ∧
      ∀ vm ∈ ([] : List Nat), next.vms vm = mm.vms vm := by
  have allocated := allocVm_sound sound
  have empty : dlistIsEmpty .head mm.allocVm.2.links = true := by
    unfold dlistIsEmpty
    rw [listed_first allocated.listed]
    rfl
  have placed : Placed mm addr len (dlistAdd (.vm mm.vmCount) .head mm.allocVm.2.links) (mmapFindAddr mm addr) := by
    unfold Placed
    rw [if_pos empty]
  have whole : Sound mm ([] ++ []) := sound
  exact findUnmapped_insert whole placed (listed_single allocated.listed) positive (Nat.ne_of_gt nonzero) fits
    (findAddr_aligned sound aligned) (fun _ member => absurd member List.not_mem_nil)
    (fun _ member => absurd member List.not_mem_nil)

theorem findUnmapped_sound {served : List Nat} (sound : Sound mm areas) (same : ∀ vm, vm ∈ areas ↔ vm ∈ served)
    (aligned : addr % physMmBlock = 0) (placeable : Placeable mm served addr len) :
    ∃ next grown, mmapFindUnmappedVm addr len mm = some (mm.vmCount, next) ∧ Sound next grown ∧
      ∀ vm, vm ∈ grown ↔ vm ∈ mm.vmCount :: served := by
  obtain ⟨positive, nonzero, fits, place⟩ := placeable
  cases place with
  | inl none =>
    have empty : areas = [] := List.eq_nil_iff_forall_not_mem.mpr fun vm member => by
      have impossible := (same vm).mp member
      rw [none] at impossible
      exact List.not_mem_nil impossible
    subst empty
    obtain ⟨next, result, later, -⟩ := findUnmapped_first sound positive nonzero fits aligned
    exact ⟨next, _, result, later, fun vm => by rw [none]⟩
  | inr behind =>
    obtain ⟨vm, member, above, room⟩ := behind
    obtain ⟨before, after, rfl⟩ := List.append_of_mem ((same vm).mpr member)
    have inside : Room mm vm (mmapFindAddr mm addr) (pageAlign len) after := by
      intro second later
      have higher := sound.behind later
      have listed := (same second).mp (by simp [later])
      exact (room second listed).resolve_left (Nat.not_le.mpr higher)
    obtain ⟨next, result, later, -⟩ := findUnmapped_behind sound positive above fits aligned inside
    refine ⟨next, _, result, later, fun other => ?_⟩
    have before := same other
    simp only [List.mem_append, List.mem_cons] at before ⊢
    tauto

theorem setStop_self (mm : ProcessMm) (vm stop : Nat) : (mm.setStop vm stop).vms vm = { mm.vms vm with stop } :=
  Function.update_self _ _ _

/-- No area lies between one area and the address it is to reach to. -/
def Free (mm : ProcessMm) (listed : List Nat) (vm stop : Nat) : Prop :=
  ∀ other ∈ listed, (mm.vms other).start ≤ (mm.vms vm).start ∨ stop ≤ (mm.vms other).start

theorem Sound.room {served : List Nat} {stop : Nat} (sound : Sound mm (before ++ vm :: after))
    (same : ∀ other, other ∈ before ++ vm :: after ↔ other ∈ served) (free : Free mm served vm stop) :
    ∀ second ∈ after, stop ≤ (mm.vms second).start := by
  intro second later
  have higher := sound.behind later
  have listed := (same second).mp (by simp [later])
  exact (free second listed).resolve_left (Nat.not_le.mpr higher)

theorem expandVm_sound (sound : Sound mm (before ++ vm :: after))
    (room : ∀ second ∈ after, pageAlign addr ≤ (mm.vms second).start) :
    ∃ next, mmapExpandVm vm addr mm = some next ∧ Sound next (before ++ vm :: after) ∧
      next.vms vm = ⟨(mm.vms vm).start, max (mm.vms vm).stop (pageAlign addr)⟩ ∧ ∀ other, other ≠ vm →
        next.vms other = mm.vms other := by
  have aligned := pageAlign_aligned addr
  rw [mmapExpandVm]
  split
  next enough =>
    refine ⟨mm, rfl, sound, ?_, fun _ _ => rfl⟩
    rw [max_eq_left enough]
  next larger =>
    have grown := grow_sound sound aligned.1 aligned.2 (Nat.le_of_not_le larger) room
    refine ⟨mm.setStop vm (pageAlign addr), ?_, grown, ?_, fun other different => Function.update_of_ne different _ _⟩
    rotate_left
    · rw [max_eq_right (Nat.le_of_not_le larger)]
      exact setStop_self ..
    rw [listed_after sound.listed]
    cases after with
    | nil => rfl
    | cons second rest =>
      simp only [follower]
      rw [if_pos (room second List.mem_cons_self)]

/-- The area after `mmap_brk`: a copy is grown and copied back. -/
theorem brkCopy_sound {stop : Nat} (sound : Sound mm (before ++ vm :: after)) (aligned : stop % physMmBlock = 0)
    (small : stop < 2 ^ 32) (larger : (mm.vms vm).stop ≤ stop) (room : ∀ second ∈ after, stop ≤ (mm.vms second).start) :
    Sound (((mm.allocVm.2.copyVm mm.vmCount vm).setStop mm.vmCount stop).copyVm vm mm.vmCount) (before ++ vm :: after) := by
  have fresh := sound.fresh
  have member : vm ∈ before ++ vm :: after := by simp
  have different : vm ≠ mm.vmCount := by
    intro same
    exact fresh (same ▸ member)
  refine (grow_sound sound aligned small larger room).congr ?_ (Nat.le_succ _) (fun other inside => ?_) rfl rfl
  · refine listed_congr sound.listed fun node kind => ?_
    have old : node ≠ .vm mm.vmCount := by
      intro same
      rcases kind with head | ⟨other, inside, name⟩
      · rw [same] at head
        cases head
      · rw [same] at name
        cases name
        exact fresh inside
    by_cases self : node = .vm vm
    · simp [self, ProcessMm.copyVm, ProcessMm.setStop, ProcessMm.setVm, ProcessMm.allocVm, different]
    · simp [self, old, ProcessMm.copyVm, ProcessMm.setStop, ProcessMm.setVm, ProcessMm.allocVm]
  · have old : other ≠ mm.vmCount := by
      intro same
      exact fresh (same ▸ inside)
    by_cases self : other = vm
    · simp [self, ProcessMm.copyVm, ProcessMm.setStop, ProcessMm.setVm, ProcessMm.allocVm, different]
    · simp [self, old, ProcessMm.copyVm, ProcessMm.setStop, ProcessMm.setVm, ProcessMm.allocVm]

def Holds (mm : ProcessMm) (addr vm : Nat) : Prop := (mm.vms vm).start ≤ addr ∧ addr < (mm.vms vm).stop

instance (mm : ProcessMm) (addr vm : Nat) : Decidable (Holds mm addr vm) := by unfold Holds; infer_instance

instance (mm : ProcessMm) (listed : List Nat) (vm stop : Nat) : Decidable (Free mm listed vm stop) := by
  unfold Free; infer_instance

instance (mm : ProcessMm) (listed : List Nat) (addr len : Nat) : Decidable (Placeable mm listed addr len) := by
  unfold Placeable; infer_instance

theorem findVm_cases (sound : Sound mm areas) (addr : Nat) :
    (∃ vm ∈ areas, Holds mm addr vm ∧ mmapFindVm addr mm = some (some vm)) ∨
      ((∀ vm ∈ areas, ¬ Holds mm addr vm) ∧ mmapFindVm addr mm = some none) := by
  have spec := findVm_spec sound addr
  cases found : areas.find? fun vm => (mm.vms vm).start ≤ addr ∧ addr < (mm.vms vm).stop with
  | none =>
    refine .inr ⟨fun vm member => ?_, spec.trans (congrArg some found)⟩
    have not := List.find?_eq_none.mp found vm member
    simpa [Holds] using not
  | some vm =>
    have holds := List.find?_some found
    exact .inl ⟨vm, List.mem_of_find?_eq_some found, by simpa [Holds] using holds, spec.trans (congrArg some found)⟩

/-- A request of one of the two calls: a positive length without overflow. -/
structure MmapRequest where
  addr : Nat
  len : Nat
  positive : 0 < len
  fits : addr + len < 2 ^ 32

inductive MmapCall
  | map (request : MmapRequest)
  | brk (request : MmapRequest)

/-- The areas of a process and the log of those that served requests. -/
structure MmapState where
  mm : ProcessMm
  served : List Nat

def mmapStep (state : MmapState) : MmapCall → Option MmapState
  | .map request => (mmapMap request.addr request.len state.mm).map fun (_, vm, mm) => ⟨mm, vm :: state.served⟩
  | .brk request => (mmapBrk request.addr request.len state.mm).map fun (_, vm, mm) => ⟨mm, vm.toList ++ state.served⟩

/-- An area grows only into free addresses, and a new one finds a place behind
another area or is the first. -/
def GoodCall (state : MmapState) : MmapCall → Prop
  | .map ⟨addr, len, _, _⟩ =>
    (∀ vm ∈ state.served, Holds state.mm (alignDown addr physMmBlock) vm →
      addr + len ≤ (state.mm.vms vm).stop ∨ Free state.mm state.served vm (pageAlign (addr + len))) ∧
    ((∀ vm ∈ state.served, ¬ Holds state.mm (alignDown addr physMmBlock) vm) →
      Placeable state.mm state.served (alignDown addr physMmBlock) len)
  | .brk ⟨addr, len, _, _⟩ => ∀ vm ∈ state.served, Holds state.mm addr vm →
      pageAlign (addr + len) ≤ (state.mm.vms vm).stop ∨ Free state.mm state.served vm (pageAlign (addr + len))

instance (state : MmapState) (call : MmapCall) : Decidable (GoodCall state call) := by
  unfold GoodCall; cases call <;> infer_instance

/-- The list holds the areas that served requests, and no others. -/
def MmapState.Kept (state : MmapState) : Prop :=
  ∃ areas, Sound state.mm areas ∧ ∀ vm, vm ∈ areas ↔ vm ∈ state.served

theorem alignDown_aligned {addr : Nat} (small : addr < 2 ^ 32) : alignDown addr physMmBlock % physMmBlock = 0 := by
  rw [alignDown_page small]
  exact Nat.mul_mod_left _ _

theorem mmapMap_found {addr len : Nat} (fits : addr + len < 2 ^ 32)
    (found : mmapFindVm (alignDown addr physMmBlock) mm = some (some vm)) :
    (mmapMap addr len mm).map (fun result => result.2) = if (mm.vms vm).stop < addr + len then
      (mmapExpandVm vm (addr + len) mm).map fun mm => (vm, mm) else some (vm, mm) := by
  rw [mmapMap, found]
  simp only [Option.bind_some, Option.map_map, Nat.mod_eq_of_lt fits, Function.comp_def, Option.map_id']

theorem mmapMap_unmapped {addr len : Nat} (found : mmapFindVm (alignDown addr physMmBlock) mm = some none) :
    (mmapMap addr len mm).map (fun result => result.2) = mmapFindUnmappedVm (alignDown addr physMmBlock) len mm := by
  rw [mmapMap, found]
  simp only [Option.bind_some, Option.map_map, Function.comp_def, Option.map_id']

theorem mmapStep_map (state : MmapState) (request : MmapRequest) : mmapStep state (.map request) =
    ((mmapMap request.addr request.len state.mm).map fun result => result.2).map fun (vm, mm) => ⟨mm, vm :: state.served⟩ := by
  rw [Option.map_map]
  rfl

theorem served_again {served : List Nat} (same : ∀ other, other ∈ areas ↔ other ∈ served) (member : vm ∈ areas)
    (other : Nat) :
    other ∈ areas ↔ other ∈ vm :: served := by
  rw [same, List.mem_cons, or_iff_right_of_imp]
  rintro rfl
  exact (same _).mp member

theorem mmapMap_kept {state : MmapState} {request : MmapRequest} (kept : state.Kept)
    (good : GoodCall state (.map request)) :
    ∃ next, mmapStep state (.map request) = some next ∧ next.Kept := by
  obtain ⟨areas, sound, same⟩ := kept
  obtain ⟨addr, len, positive, fits⟩ := request
  obtain ⟨expand, place⟩ := good
  have small : addr < 2 ^ 32 := by omega
  rw [mmapStep_map]
  rcases findVm_cases sound (alignDown addr physMmBlock) with ⟨vm, member, holds, found⟩ | ⟨none, found⟩
  · have members := served_again same member
    rw [mmapMap_found fits found]
    split
    next short =>
      have free := (expand vm ((same vm).mp member) holds).resolve_left (Nat.not_le.mpr short)
      obtain ⟨before, after, rfl⟩ := List.append_of_mem member
      obtain ⟨next, grown, later, -⟩ := expandVm_sound sound (sound.room same free)
      rw [grown]
      exact ⟨⟨next, vm :: state.served⟩, rfl, _, later, members⟩
    next enough => exact ⟨⟨state.mm, vm :: state.served⟩, rfl, _, sound, members⟩
  · have placeable := place fun vm served => none vm ((same vm).mpr served)
    obtain ⟨next, grown, result, later, members⟩ := findUnmapped_sound sound same (alignDown_aligned small) placeable
    rw [mmapMap_unmapped found, result]
    exact ⟨⟨next, state.mm.vmCount :: state.served⟩, rfl, grown, later, members⟩

theorem mmapBrk_found {addr len : Nat} (fits : addr + len < 2 ^ 32) (found : mmapFindVm addr mm = some (some vm)) :
    mmapBrk addr len mm = some (0, some vm,
      if pageAlign (addr + len) ≤ (mm.vms vm).stop then { mm with brk := pageAlign (addr + len) }
      else (((ProcessMm.allocVm { mm with brk := pageAlign (addr + len) }).2.copyVm mm.vmCount vm).setStop mm.vmCount
        (pageAlign (addr + len))).copyVm vm mm.vmCount) := by
  rw [mmapBrk, found]
  simp only [Option.bind_some, Nat.mod_eq_of_lt fits]
  split
  next enough => rfl
  next short =>
    -- The break was just set, so it is never below itself.
    have reached : ¬ (ProcessMm.copyVm (ProcessMm.allocVm { mm with brk := pageAlign (addr + len) }).2
      mm.vmCount vm).brk < pageAlign (addr + len) := Nat.lt_irrefl _
    exact congrArg (Option.map _) (if_neg reached)

theorem mmapBrk_kept {state : MmapState} {request : MmapRequest} (kept : state.Kept)
    (good : GoodCall state (.brk request)) :
    ∃ next, mmapStep state (.brk request) = some next ∧ next.Kept := by
  obtain ⟨areas, sound, same⟩ := kept
  obtain ⟨addr, len, positive, fits⟩ := request
  have moved (brk : Nat) : Sound { state.mm with brk } areas := sound.congr sound.listed le_rfl (fun _ _ => rfl) rfl rfl
  unfold mmapStep
  rcases findVm_cases sound addr with ⟨vm, member, holds, found⟩ | ⟨none, found⟩
  · have members := served_again same member
    refine ⟨_, congrArg (Option.map _) (mmapBrk_found fits found), areas, ?_, members⟩
    split
    next enough => exact moved _
    next short =>
      have aligned := pageAlign_aligned (addr + len)
      have free := (good vm ((same vm).mp member) holds).resolve_left short
      obtain ⟨before, after, rfl⟩ := List.append_of_mem member
      exact brkCopy_sound (moved (pageAlign (addr + len))) aligned.1 aligned.2 (Nat.le_of_not_le short)
        (sound.room same free)
  · simp only [mmapBrk, found, Option.bind_some]
    exact ⟨⟨_, state.served⟩, rfl, areas, moved _, same⟩

def mmapStart (brk brkEnd cache vmCount : Nat) (links : Links VmNode) (vms : Nat → ProcessVm) : MmapState :=
  ⟨⟨brk, brkEnd, cache, links, vms, vmCount⟩, []⟩

/-- In a run of good calls the list is a ring of regular, ascending and disjoint
areas, and each area that served a request is on it once, to the end. -/
theorem areas_stay_in_order {brk brkEnd cache vmCount : Nat} {vms : Nat → ProcessVm} {calls : List MmapCall}
    (empty : links.next .head = .head ∧ links.prev .head = .head) (cacheAligned : cache % physMmBlock = 0)
    (brkAligned : brkEnd % physMmBlock = 0) (bounded : max cache brkEnd < 2 ^ 32)
    (met : Meets mmapStep GoodCall (mmapStart brk brkEnd cache vmCount links vms) calls) :
    ∃ final areas, run mmapStep (mmapStart brk brkEnd cache vmCount links vms) calls = some final ∧
      Listed final.mm.links areas ∧ (∀ vm ∈ areas, Regular (final.mm.vms vm)) ∧
      areas.Pairwise (fun first second => (final.mm.vms first).stop ≤ (final.mm.vms second).start) ∧
      ∀ vm, vm ∈ areas ↔ vm ∈ final.served := by
  have start : (mmapStart brk brkEnd cache vmCount links vms).Kept := by
    refine ⟨[], ⟨Ring.nil_iff.mpr empty, ?_, ?_, List.Pairwise.nil, cacheAligned, brkAligned, bounded⟩, fun vm => Iff.rfl⟩
    · exact fun _ member => absurd member List.not_mem_nil
    · exact fun _ member => absurd member List.not_mem_nil
  have returns : ∀ before call, MmapState.Kept before → GoodCall before call →
      ∃ after, mmapStep before call = some after ∧ MmapState.Kept after := by
    intro before call kept good
    cases call with
    | map request => exact mmapMap_kept kept good
    | brk request => exact mmapBrk_kept kept good
  obtain ⟨final, ran, areas, sound, same⟩ := run_returns MmapState.Kept returns start met
  exact ⟨final, areas, ran, sound.listed, sound.regular, sound.sorted, same⟩

def mmapExample : MmapState := mmapStart 0 0 0 0 (dlistHeadInit .head ⟨fun _ => .null, fun _ => .null⟩) fun _ => ⟨0, 0⟩

def mmapExampleCalls : List MmapCall :=
  [.map ⟨0x8048123, 0x2345, by decide, by decide⟩, .map ⟨0x8060000, 1, by decide, by decide⟩,
    .map ⟨0x804A800, 0x1000, by decide, by decide⟩, .map ⟨0, 0x3000, by decide, by decide⟩,
    .brk ⟨0x804A800, 0x8001, by decide, by decide⟩, .map ⟨0x805E000, 0x9000, by decide, by decide⟩]

theorem areas_stay_in_order_example : ∃ final areas, run mmapStep mmapExample mmapExampleCalls = some final ∧
    Listed final.mm.links areas ∧ (∀ vm ∈ areas, Regular (final.mm.vms vm)) ∧
    areas.Pairwise (fun first second => (final.mm.vms first).stop ≤ (final.mm.vms second).start) ∧
    ∀ vm, vm ∈ areas ↔ vm ∈ final.served :=
  areas_stay_in_order (by decide) (by decide) (by decide) (by decide) (by decide +kernel)

/-- A second area in front of the first: the first one is linked to itself, and
the area that serves the request is not linked. -/
theorem area_in_front_breaks_list : ∃ final, run mmapStep mmapExample
      [.map ⟨0x2000, 0x1000, by decide, by decide⟩, .map ⟨0x1000, 0x1000, by decide, by decide⟩] = some final ∧
    final.served = [1, 0] ∧ (¬ ∃ areas, Listed final.mm.links areas ∧ ∀ vm, vm ∈ areas ↔ vm ∈ final.served) ∧
    ∀ turns, mmapFindVmLoop final.mm 0x5000 turns (final.mm.links.next .head) = none := by
  have ends : (run mmapStep mmapExample
      [.map ⟨0x2000, 0x1000, by decide, by decide⟩, .map ⟨0x1000, 0x1000, by decide, by decide⟩]).map (fun final =>
        (final.served, final.mm.links.next .head, final.mm.links.next (.vm 0), (final.mm.vms 0).start, (final.mm.vms 0).stop)) =
      some ([1, 0], .vm 0, .vm 0, 0x2000, 0x3000) := by decide +kernel
  obtain ⟨final, ran, same⟩ := Option.map_eq_some_iff.mp ends
  simp only [Prod.mk.injEq] at same
  obtain ⟨served, first, loop, start, stop⟩ := same
  refine ⟨final, ran, served, ?_, fun turns => ?_⟩
  · rintro ⟨areas, listed, members⟩
    have member : 0 ∈ areas := (members 0).mpr (by simp [served])
    obtain ⟨before, after, rfl⟩ := List.append_of_mem member
    have nodup := listed.nodup
    have onward := listed_after listed
    rw [loop] at onward
    cases after with
    | nil => cases onward
    | cons second rest =>
      cases onward
      exact (List.nodup_cons.mp (List.nodup_append.mp nodup).2.1).1 List.mem_cons_self
  · rw [first]
    induction turns with
    | zero => rfl
    | succ turns ih =>
      rw [mmapFindVmLoop, if_neg (by omega), loop]
      exact ih

end YuzuOS.Proofs.MemoryAreas
