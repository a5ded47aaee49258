import YuzuOS.Proofs.MemoryAreas
import YuzuOS.Kernel.Elf32

/-! The pages of a process: its areas are made of whole pages, every page of an
area is mapped, and the list leads only to areas that were allocated. This holds
for every order of requests, also for lists that have lost areas. -/

namespace YuzuOS.Proofs.UserPages
open YuzuOS.Library YuzuOS.Kernel YuzuOS.Proofs.MemoryAreas

structure OnPage (addr : Nat) : Prop where
  aligned : addr % physMmBlock = 0
  fits : addr < 2 ^ 32

def Allocated (vmCount : Nat) : VmNode → Prop
  | .vm vm => vm < vmCount
  | _ => True

def Closed (vmCount : Nat) (links : Links VmNode) : Prop :=
  ∀ node, node ≠ .null → Allocated vmCount node → Allocated vmCount (links.next node)

structure Paged (mm : ProcessMm) : Prop where
  closed : Closed mm.vmCount mm.links
  start : ∀ vm < mm.vmCount, OnPage (mm.vms vm).start
  stop : ∀ vm < mm.vmCount, OnPage (mm.vms vm).stop
  null : ∀ vm < mm.vmCount, (mm.vms vm).start = 0 → (mm.vms vm).stop = 0
  cache : OnPage mm.cache
  brkEnd : OnPage mm.brkEnd

variable {mm next : ProcessMm} {links : Links VmNode} {node entry value : VmNode}
  {vm vma other addr len turns found vmCount : Nat}

theorem OnPage.add {first second : Nat} (onPage : OnPage first) (whole : OnPage second) :
    OnPage ((first + second) % 2 ^ 32) := by
  have here := onPage.aligned
  have there := whole.aligned
  unfold physMmBlock at here there
  exact ⟨by unfold physMmBlock; omega, Nat.mod_lt _ (by decide)⟩

theorem OnPage.sub {first second : Nat} (onPage : OnPage first) (whole : OnPage second) :
    OnPage ((first + 2 ^ 32 - second) % 2 ^ 32) := by
  have here := onPage.aligned
  have there := whole.aligned
  have small := whole.fits
  unfold physMmBlock at here there
  exact ⟨by unfold physMmBlock; omega, Nat.mod_lt _ (by decide)⟩

theorem pageAlign_onPage (addr : Nat) : OnPage (pageAlign addr) :=
  ⟨(pageAlign_aligned addr).1, (pageAlign_aligned addr).2⟩

theorem alignDown_onPage (small : addr < 2 ^ 32) : OnPage (alignDown addr physMmBlock) := by
  refine ⟨alignDown_aligned small, ?_⟩
  rw [alignDown_page small]
  exact (Nat.div_mul_le_self _ _).trans_lt small

theorem Allocated.mono {more : Nat} (allocated : Allocated vmCount node) (larger : vmCount ≤ more) :
    Allocated more node := by
  cases node with
  | null => trivial
  | head => trivial
  | vm vm => exact Nat.lt_of_lt_of_le allocated larger

theorem allocated_null : Allocated vmCount .null := trivial

theorem allocated_head : Allocated vmCount .head := trivial

theorem Closed.setNext (closed : Closed vmCount links) (allocated : Allocated vmCount value) :
    Closed vmCount (links.setNext entry value) := by
  intro node real old
  rcases eq_or_ne node entry with rfl | different
  · simpa using allocated
  · simpa [different] using closed node real old

theorem Closed.setPrev (closed : Closed vmCount links) : Closed vmCount (links.setPrev entry value) := closed

theorem Closed.dlistAdd {new : VmNode} (closed : Closed vmCount links) (real : entry ≠ .null)
    (old : Allocated vmCount entry) (allocated : Allocated vmCount new) : Closed vmCount (dlistAdd new entry links) :=
  (closed.setPrev.setNext (closed entry real old)).setPrev.setNext allocated

theorem Closed.dlistRemove (closed : Closed vmCount links) (real : entry ≠ .null) (old : Allocated vmCount entry) :
    Closed vmCount (dlistRemove .null entry links) :=
  ((closed.setPrev.setNext (closed entry real old)).setNext allocated_null).setPrev

theorem allocVm_paged (paged : Paged mm) : Paged mm.allocVm.2 := by
  have zero : OnPage 0 := ⟨rfl, by decide⟩
  have content (vm : Nat) (small : vm < mm.vmCount + 1) :
      OnPage (mm.allocVm.2.vms vm).start ∧ OnPage (mm.allocVm.2.vms vm).stop ∧
        ((mm.allocVm.2.vms vm).start = 0 → (mm.allocVm.2.vms vm).stop = 0) := by
    rcases eq_or_ne vm mm.vmCount with rfl | different
    · simpa [ProcessMm.allocVm, ProcessMm.setVm] using zero
    · have old : vm < mm.vmCount := by omega
      simpa [ProcessMm.allocVm, ProcessMm.setVm, different] using ⟨paged.start vm old, paged.stop vm old, paged.null vm old⟩
  refine ⟨fun node real allocated => ?_, fun vm small => (content vm small).1, fun vm small => (content vm small).2.1,
    fun vm small => (content vm small).2.2, paged.cache, paged.brkEnd⟩
  rcases eq_or_ne node (.vm mm.vmCount) with rfl | different
  · simp [ProcessMm.allocVm, Allocated]
  · have old : Allocated mm.vmCount node := by
      cases node with
      | null => trivial
      | head => trivial
      | vm vm =>
        have other : vm ≠ mm.vmCount := fun same => different (same ▸ rfl)
        have small : vm < mm.vmCount + 1 := allocated
        exact Nat.lt_of_le_of_ne (Nat.le_of_lt_succ small) other
    have later := (paged.closed node real old).mono (Nat.le_succ _)
    simpa [ProcessMm.allocVm, different] using later

theorem setVm_paged {content : ProcessVm} (paged : Paged mm) (start : OnPage content.start) (stop : OnPage content.stop)
    (null : content.start = 0 → content.stop = 0) : Paged (mm.setVm vm content) := by
  refine ⟨paged.closed, fun other small => ?_, fun other small => ?_, fun other small => ?_, paged.cache, paged.brkEnd⟩
  · rcases eq_or_ne other vm with rfl | different
    · simpa [ProcessMm.setVm] using start
    · simpa [ProcessMm.setVm, different] using paged.start other small
  · rcases eq_or_ne other vm with rfl | different
    · simpa [ProcessMm.setVm] using stop
    · simpa [ProcessMm.setVm, different] using paged.stop other small
  · rcases eq_or_ne other vm with rfl | different
    · simpa [ProcessMm.setVm] using null
    · simpa [ProcessMm.setVm, different] using paged.null other small

theorem links_paged (paged : Paged mm) (closed : Closed mm.vmCount links) : Paged { mm with links } :=
  ⟨closed, paged.start, paged.stop, paged.null, paged.cache, paged.brkEnd⟩

theorem copyVm_paged {dest source : Nat} (paged : Paged mm) (small : source < mm.vmCount) :
    Paged (mm.copyVm dest source) := by
  have copied : Paged (mm.setVm dest (mm.vms source)) := setVm_paged paged (paged.start _ small) (paged.stop _ small) (paged.null _ small)
  exact links_paged copied (paged.closed.setNext (paged.closed (.vm source) VmNode.noConfusion small)).setPrev

theorem findUnmappedLoop_paged (paged : Paged mm) (new : vma < mm.vmCount) (onPage : OnPage addr) (whole : OnPage len)
    (allocated : Allocated mm.vmCount node)
    (placed : mmapFindUnmappedLoop mm vma addr len turns node = some (links, found)) :
    Closed mm.vmCount links ∧ OnPage found := by
  induction turns generalizing node with
  | zero => cases placed
  | succ turns ih =>
    cases node with
    | null => cases placed
    | head =>
      cases placed
      exact ⟨paged.closed, onPage⟩
    | vm iter =>
      have onward := paged.closed (.vm iter) VmNode.noConfusion allocated
      have behind : Closed mm.vmCount (dlistAdd (.vm vma) (.vm iter) mm.links) :=
        paged.closed.dlistAdd VmNode.noConfusion allocated new
      rw [mmapFindUnmappedLoop] at placed
      split at placed
      next =>
        cases placed
        exact ⟨paged.closed.dlistAdd VmNode.noConfusion allocated_head allocated, onPage⟩
      next =>
        split at placed
        next => cases placed
        next =>
          split at placed
          next =>
            cases placed
            exact ⟨behind, onPage⟩
          next => exact ih allocated_head placed
        next second follows =>
          rw [follows] at onward
          split at placed
          next =>
            cases placed
            exact ⟨behind, onPage⟩
          next =>
            split at placed
            next =>
              cases placed
              exact ⟨behind, (paged.start second onward).sub whole⟩
            next => exact ih onward placed

theorem findAddr_onPage (paged : Paged mm) (onPage : OnPage addr) : OnPage (mmapFindAddr mm addr) := by
  unfold mmapFindAddr
  split
  · rw [Nat.max_def]
    split
    · exact paged.brkEnd
    · exact paged.cache
  · exact onPage

/-- What a request leaves of the other areas: each keeps what it holds or holds
what the area holds that serves the request. -/
structure Serves (mm next : ProcessMm) (vm : Nat) : Prop where
  paged : Paged next
  served : vm < next.vmCount
  more : mm.vmCount ≤ next.vmCount
  others : ∀ other < next.vmCount, (other < mm.vmCount ∧ next.vms other = mm.vms other) ∨ next.vms other = next.vms vm
  brk : next.brk = mm.brk

theorem findUnmappedVm_serves (paged : Paged mm) (onPage : OnPage addr)
    (ran : mmapFindUnmappedVm addr len mm = some (vm, next)) :
    vm = mm.vmCount ∧ Serves mm next vm ∧ ∀ other < mm.vmCount, next.vms other = mm.vms other := by
  have whole := pageAlign_onPage len
  have start := findAddr_onPage paged onPage
  have allocated := allocVm_paged paged
  have new : mm.vmCount < mm.allocVm.2.vmCount := Nat.lt_succ_self _
  have linked (links : Links VmNode) (found : Nat) (placed : Placed mm addr len links found) :
      Closed mm.allocVm.2.vmCount links ∧ OnPage found := by
    unfold Placed at placed
    split at placed
    next =>
      cases placed
      exact ⟨allocated.closed.dlistAdd VmNode.noConfusion allocated_head new, start⟩
    next =>
      have first := allocated.closed .head VmNode.noConfusion allocated_head
      exact findUnmappedLoop_paged allocated new start whole first placed
  obtain ⟨⟨links, found⟩, placed, result⟩ := Option.map_eq_some_iff.mp ran
  obtain ⟨closed, place⟩ := linked links found placed
  have unchanged (other : Nat) (old : other < mm.vmCount) : mm.allocVm.2.vms other = mm.vms other :=
    Function.update_of_ne (Nat.ne_of_lt old) _ _
  have inserted := links_paged allocated closed
  simp only at result
  split at result
  next stored =>
    cases result
    have filled : Paged ({ mm.allocVm.2 with links }.setVm mm.vmCount ⟨found, (found + pageAlign len) % 2 ^ 32⟩) :=
      setVm_paged inserted place (place.add whole) fun zero => absurd zero stored
    have kept (other : Nat) (old : other < mm.vmCount) :
        ({ mm.allocVm.2 with links }.setVm mm.vmCount ⟨found, (found + pageAlign len) % 2 ^ 32⟩).vms other = mm.vms other :=
      (Function.update_of_ne (Nat.ne_of_lt old) _ _).trans (unchanged other old)
    refine ⟨rfl, ⟨⟨filled.closed, filled.start, filled.stop, filled.null, place.add whole, filled.brkEnd⟩, new, Nat.le_succ _,
      fun other small => ?_, rfl⟩, kept⟩
    rcases Nat.lt_or_eq_of_le (Nat.le_of_lt_succ small) with old | rfl
    · exact .inl ⟨old, kept other old⟩
    · exact .inr rfl
  next =>
    cases result
    refine ⟨rfl, ⟨inserted, new, Nat.le_succ _, fun other small => ?_, rfl⟩, unchanged⟩
    rcases Nat.lt_or_eq_of_le (Nat.le_of_lt_succ small) with old | rfl
    · exact .inl ⟨old, unchanged other old⟩
    · exact .inr rfl

theorem setStop_paged {stop : Nat} (paged : Paged mm) (small : vm < mm.vmCount) (onPage : OnPage stop)
    (placed : (mm.vms vm).start ≠ 0) : Paged (mm.setStop vm stop) :=
  setVm_paged paged (paged.start vm small) onPage fun zero => absurd zero placed

theorem setStop_serves {stop : Nat} (paged : Paged mm) (small : vm < mm.vmCount) (onPage : OnPage stop)
    (placed : (mm.vms vm).start ≠ 0) : Serves mm (mm.setStop vm stop) vm := by
  refine ⟨setStop_paged paged small onPage placed, small, le_rfl, fun other old => ?_, rfl⟩
  rcases eq_or_ne other vm with rfl | different
  · exact .inr rfl
  · exact .inl ⟨old, Function.update_of_ne different _ _⟩

theorem Serves.refl (paged : Paged mm) (small : vm < mm.vmCount) : Serves mm mm vm :=
  ⟨paged, small, le_rfl, fun _ old => .inl ⟨old, rfl⟩, rfl⟩

theorem mmapExpandVm_serves (paged : Paged mm) (small : vm < mm.vmCount) (placed : (mm.vms vm).start ≠ 0)
    (ran : mmapExpandVm vm addr mm = some next) : Serves mm next vm := by
  have onPage := pageAlign_onPage addr
  unfold mmapExpandVm at ran
  simp only at ran
  split at ran
  next =>
    cases ran
    exact .refl paged small
  next =>
    split at ran
    next => cases ran
    next =>
      cases ran
      exact setStop_serves paged small onPage placed
    next second follows =>
      split at ran
      next =>
        cases ran
        exact setStop_serves paged small onPage placed
      next =>
        obtain ⟨⟨vmExpand, after⟩, found, copied⟩ := Option.map_eq_some_iff.mp ran
        have removed : Paged { mm with links := dlistRemove .null (.vm vm) mm.links } :=
          links_paged paged (paged.closed.dlistRemove VmNode.noConfusion small)
        obtain ⟨new, serves, kept⟩ := findUnmappedVm_serves removed ⟨rfl, by decide⟩ found
        cases copied
        have same : (after.copyVm vm vmExpand).vms vm = after.vms vmExpand := Function.update_self _ _ _
        refine ⟨copyVm_paged serves.paged serves.served, Nat.lt_of_lt_of_le small serves.more, serves.more,
          fun other old => ?_, serves.brk⟩
        rw [same]
        rcases eq_or_ne other vm with rfl | different
        · exact .inr same
        · have outside : (after.copyVm vm vmExpand).vms other = after.vms other := Function.update_of_ne different _ _
          rw [outside]
          exact serves.others other old

theorem mmapFindVmLoop_holds (paged : Paged mm) (allocated : Allocated mm.vmCount node)
    (ran : mmapFindVmLoop mm addr turns node = some (some vm)) : vm < mm.vmCount ∧ Holds mm addr vm := by
  induction turns generalizing node with
  | zero => cases ran
  | succ turns ih =>
    cases node with
    | null => cases ran
    | head => cases ran
    | vm iter =>
      rw [mmapFindVmLoop] at ran
      split at ran
      next inside =>
        cases ran
        exact ⟨allocated, inside⟩
      next => exact ih (paged.closed (.vm iter) VmNode.noConfusion allocated) ran

theorem mmapFindVm_holds (paged : Paged mm) (ran : mmapFindVm addr mm = some (some vm)) :
    vm < mm.vmCount ∧ Holds mm addr vm :=
  mmapFindVmLoop_holds paged (paged.closed .head VmNode.noConfusion allocated_head) ran

/-- An area that holds an address does not start at `NULL`. -/
theorem Paged.placed (paged : Paged mm) (small : vm < mm.vmCount) (holds : Holds mm addr vm) :
    (mm.vms vm).start ≠ 0 := by
  intro zero
  have stop := paged.null vm small zero
  have inside := holds.2
  omega

theorem mmapMap_serves {result : Nat} (paged : Paged mm) (small : addr < 2 ^ 32)
    (ran : mmapMap addr len mm = some (result, vm, next)) :
    Serves mm next vm ∧ result = if addr ≠ 0 then addr else (next.vms vm).start := by
  obtain ⟨found, search, served⟩ := Option.bind_eq_some_iff.mp ran
  obtain ⟨⟨place, after⟩, serving, same⟩ := Option.map_eq_some_iff.mp served
  cases same
  refine ⟨?_, rfl⟩
  cases found with
  | none => exact (findUnmappedVm_serves paged (alignDown_onPage small) serving).2.1
  | some area =>
    obtain ⟨old, holds⟩ := mmapFindVm_holds paged search
    simp only at serving
    split at serving
    next =>
      obtain ⟨grown, expanded, same⟩ := Option.map_eq_some_iff.mp serving
      cases same
      exact mmapExpandVm_serves paged old (paged.placed old holds) expanded
    next =>
      cases serving
      exact .refl paged old

/-- The pages of a stretch are mapped to frames that were not taken, and nothing
else changes. -/
structure MapsPages (process after : UserProcess) (start stop : Nat) : Prop where
  mm : after.mm = process.mm
  brkStart : after.brkStart = process.brkStart
  frames : after.frames = process.frames
  pages : ∀ page, after.mapped page = true ↔
    process.mapped page = true ∨ (start ≤ page * physMmBlock ∧ page * physMmBlock < stop)
  fresh : ∀ place, start ≤ place → place < stop →
    ∃ frame, after.memory place = process.frames frame (place % physMmBlock)
  kept : ∀ place, place < start ∨ stop ≤ place → after.memory place = process.memory place

variable {process after : UserProcess} {start stop : Nat}

theorem MapsPages.refl (none : stop ≤ start) : MapsPages process process start stop :=
  ⟨rfl, rfl, rfl, fun page => (or_iff_left fun inside => by omega).symm, fun place above below => by omega, fun _ _ => rfl⟩

theorem MapsPages.step (aligned : OnPage start) (below : start + physMmBlock ≤ stop)
    (later : MapsPages (process.mapAddr start) after (start + physMmBlock) stop) :
    MapsPages process after start stop := by
  have page : start / physMmBlock * physMmBlock = start := Nat.div_mul_cancel (Nat.dvd_of_mod_eq_zero aligned.aligned)
  have size : physMmBlock = 4096 := rfl
  have memory : (process.mapAddr start).memory = process.memory.write start physMmBlock (process.frames process.taken) := by
    rw [UserProcess.mapAddr, page]
  refine ⟨later.mm, later.brkStart, later.frames, fun other => ?_, fun place lower upper => ?_, fun place apart => ?_⟩
  · rw [later.pages]
    rcases eq_or_ne other (start / physMmBlock) with rfl | different
    · have here : (process.mapAddr start).mapped (start / physMmBlock) = true := Function.update_self _ _ _
      rw [page]
      exact iff_of_true (.inl here) (.inr ⟨le_rfl, by omega⟩)
    · have same : (process.mapAddr start).mapped other = process.mapped other := Function.update_of_ne different _ _
      have bounds : (start + physMmBlock ≤ other * physMmBlock ∧ other * physMmBlock < stop) ↔
          start ≤ other * physMmBlock ∧ other * physMmBlock < stop := by
        rw [size] at page different ⊢
        omega
      rw [same, bounds]
  · rcases Nat.lt_or_ge place (start + physMmBlock) with here | behind
    · have offset : place - start = place % physMmBlock := by
        rw [size] at page here ⊢
        omega
      rw [later.kept place (.inl here), memory, Memory.write_inside lower here, offset]
      exact ⟨process.taken, rfl⟩
    · exact later.fresh place behind upper
  · rw [later.kept place (by omega), memory, Memory.write_outside (by omega)]

theorem mapPages_none {turns : Nat} (none : stop ≤ start) :
    UserProcess.mapPages (turns + 1) stop start process = some process := by
  rw [UserProcess.mapPages, if_neg (Nat.not_lt.mpr none)]

theorem mapPages_spec (process : UserProcess) (turns : Nat) (aligned : OnPage start) (whole : OnPage stop)
    (enough : stop ≤ start + turns * physMmBlock) :
    ∃ after, UserProcess.mapPages (turns + 1) stop start process = some after ∧ MapsPages process after start stop := by
  induction turns generalizing start process with
  | zero =>
    have none : stop ≤ start := by omega
    exact ⟨process, mapPages_none none, .refl none⟩
  | succ turns ih =>
    rw [UserProcess.mapPages]
    split
    next below =>
      have here := aligned.aligned
      have there := whole.aligned
      have small := whole.fits
      have inside : start + physMmBlock ≤ stop := by
        unfold physMmBlock at *
        omega
      have next : OnPage (start + physMmBlock) := ⟨by simp [here], by unfold physMmBlock at *; omega⟩
      have left : stop ≤ start + physMmBlock + turns * physMmBlock := by
        rw [Nat.succ_mul] at enough
        omega
      obtain ⟨after, ran, later⟩ := ih (process.mapAddr start) next left
      rw [Nat.mod_eq_of_lt next.fits]
      exact ⟨after, ran, .step aligned inside later⟩
    next none => exact ⟨process, rfl, .refl (Nat.not_lt.mp none)⟩

structure Backed (process : UserProcess) : Prop where
  paged : Paged process.mm
  backed : ∀ vm < process.mm.vmCount, ∀ place, (process.mm.vms vm).start ≤ place → place < (process.mm.vms vm).stop →
    process.mapped (place / physMmBlock) = true

structure Extends (process after : UserProcess) : Prop where
  brkStart : after.brkStart = process.brkStart
  frames : after.frames = process.frames
  pages : ∀ page, process.mapped page = true → after.mapped page = true

theorem MapsPages.extends (maps : MapsPages process after start stop) : Extends process after :=
  ⟨maps.brkStart, maps.frames, fun page old => (maps.pages page).mpr (.inl old)⟩

theorem MapsPages.inside {place : Nat} (maps : MapsPages process after start stop) (aligned : OnPage start)
    (lower : start ≤ place) (upper : place < stop) :
    after.mapped (place / physMmBlock) = true := by
  have here := aligned.aligned
  unfold physMmBlock at here
  have place : start ≤ place / 4096 * 4096 ∧ place / 4096 * 4096 < stop := by omega
  exact (maps.pages _).mpr (.inr place)

theorem Serves.backed {vm : Nat} (serves : Serves process.mm next vm) (backed : Backed process)
    (served : ∀ place, (next.vms vm).start ≤ place → place < (next.vms vm).stop → after.mapped (place / physMmBlock) = true)
    (kept : ∀ page, process.mapped page = true → after.mapped page = true) (mm : after.mm = next) : Backed after := by
  subst mm
  refine ⟨serves.paged, fun other small place lower upper => ?_⟩
  rcases serves.others other small with ⟨old, same⟩ | same
  · rw [same] at lower upper
    exact kept _ (backed.backed other old place lower upper)
  · rw [same] at lower upper
    exact served place lower upper

theorem userMmapMap_spec {result : Nat} (backed : Backed process) (small : addr < 2 ^ 32)
    (ran : process.mmapMap addr len = some (result, after)) :
    ∃ vm, mmapMap addr len process.mm = some (result, vm, after.mm) ∧ Serves process.mm after.mm vm ∧ Backed after ∧
      MapsPages { process with mm := after.mm } after (after.mm.vms vm).start (after.mm.vms vm).stop := by
  obtain ⟨⟨address, vm, mm⟩, requested, mapping⟩ := Option.bind_eq_some_iff.mp ran
  have serves := (mmapMap_serves backed.paged small requested).1
  have aligned := serves.paged.start vm serves.served
  have whole := serves.paged.stop vm serves.served
  obtain ⟨grown, mapped, maps⟩ := mapPages_spec { process with mm } (2 ^ 20) aligned whole
    (by have fits := whole.fits; unfold physMmBlock; omega)
  obtain ⟨other, mappedAgain, same⟩ := Option.map_eq_some_iff.mp mapping
  have unique : grown = other := Option.some.inj (mapped.symm.trans mappedAgain)
  cases same
  subst unique
  have content : grown.mm = mm := maps.mm
  have restored := serves.backed backed (fun place lower upper => maps.inside aligned lower upper)
    (fun page old => maps.extends.pages page old) content
  subst content
  exact ⟨vm, requested, serves, restored, maps⟩

/-- A request that returns the areas makes the process return. -/
theorem userMmapMap_returns {result : Nat} {vm : Nat} (backed : Backed process) (small : addr < 2 ^ 32)
    (requested : mmapMap addr len process.mm = some (result, vm, next)) :
    ∃ after, process.mmapMap addr len = some (result, after) ∧ after.mm = next := by
  have serves := (mmapMap_serves backed.paged small requested).1
  have whole := serves.paged.stop vm serves.served
  obtain ⟨grown, mapped, maps⟩ := mapPages_spec { process with mm := next } (2 ^ 20)
    (serves.paged.start vm serves.served) whole (by have fits := whole.fits; unfold physMmBlock; omega)
  refine ⟨grown, ?_, maps.mm⟩
  rw [UserProcess.mmapMap, requested, Option.bind_some]
  exact congrArg (Option.map _) mapped

section Loading

variable {load after : Elf32Load} {buffer pheader len : Nat}

theorem Backed.memory {memory : Memory} (backed : Backed process) : Backed { process with memory } :=
  ⟨backed.paged, backed.backed⟩

theorem read_process (ran : load.read addr len = some after) : after.process = load.process := by
  obtain ⟨_, same⟩ := Option.ite_none_right_eq_some.mp ran
  cases same
  rfl

theorem read8_spec {value : Nat} (ran : load.read8 addr = some (value, after)) :
    value = (load.process.memory addr).toNat ∧ after.process = load.process := by
  obtain ⟨next, reading, same⟩ := Option.map_eq_some_iff.mp ran
  cases same
  exact ⟨by rw [read_process reading], read_process reading⟩

theorem read16_spec {value : Nat} (ran : load.read16 addr = some (value, after)) :
    value = load.process.memory.load16 addr ∧ after.process = load.process := by
  obtain ⟨next, reading, same⟩ := Option.map_eq_some_iff.mp ran
  cases same
  exact ⟨by rw [read_process reading], read_process reading⟩

theorem read32_spec {value : Nat} (ran : load.read32 addr = some (value, after)) :
    value = load.process.memory.load32 addr ∧ after.process = load.process := by
  obtain ⟨next, reading, same⟩ := Option.map_eq_some_iff.mp ran
  cases same
  exact ⟨by rw [read_process reading], read_process reading⟩

theorem memset_backed {byte : BitVec 8} (backed : Backed load.process) (ran : load.memset addr byte len = some after) :
    Backed after.process := by
  obtain ⟨next, writing, same⟩ := Option.map_eq_some_iff.mp ran
  obtain ⟨_, content⟩ := Option.ite_none_right_eq_some.mp writing
  cases content
  cases same
  exact backed.memory

theorem memcpy_backed {source : Nat} (backed : Backed load.process) (ran : load.memcpy addr source len = some after) :
    Backed after.process := by
  obtain ⟨middle, reading, copying⟩ := Option.bind_eq_some_iff.mp ran
  obtain ⟨next, writing, same⟩ := Option.map_eq_some_iff.mp copying
  obtain ⟨_, content⟩ := Option.ite_none_right_eq_some.mp writing
  have kept := read_process reading
  cases content
  cases same
  rw [← kept] at backed
  exact backed.memory

theorem loadMmap_backed {result : Nat} (backed : Backed load.process) (small : addr < 2 ^ 32)
    (ran : load.mmapMap addr len = some (result, after)) : Backed after.process := by
  obtain ⟨⟨place, process⟩, mapping, same⟩ := Option.map_eq_some_iff.mp ran
  cases same
  obtain ⟨_, _, _, kept, _⟩ := userMmapMap_spec backed small mapping
  exact kept

theorem elf32LoadSegment_backed (backed : Backed load.process)
    (ran : elf32LoadSegment buffer pheader load = some after) :
    Backed after.process := by
  obtain ⟨⟨type, first⟩, reading, ran⟩ := Option.bind_eq_some_iff.mp ran
  rw [← (read32_spec reading).2] at backed
  simp only at ran
  split at ran
  next =>
    cases ran
    exact backed
  next =>
    obtain ⟨⟨_, l1⟩, r1, ran⟩ := Option.bind_eq_some_iff.mp ran
    obtain ⟨⟨vaddr, l2⟩, r2, ran⟩ := Option.bind_eq_some_iff.mp ran
    obtain ⟨⟨memsz, l3⟩, r3, ran⟩ := Option.bind_eq_some_iff.mp ran
    obtain ⟨⟨_, l4⟩, mapping, ran⟩ := Option.bind_eq_some_iff.mp ran
    obtain ⟨⟨_, l5⟩, r5, ran⟩ := Option.bind_eq_some_iff.mp ran
    obtain ⟨⟨_, l6⟩, r6, ran⟩ := Option.bind_eq_some_iff.mp ran
    obtain ⟨l7, clearing, ran⟩ := Option.bind_eq_some_iff.mp ran
    obtain ⟨⟨_, l8⟩, r8, ran⟩ := Option.bind_eq_some_iff.mp ran
    obtain ⟨⟨_, l9⟩, r9, ran⟩ := Option.bind_eq_some_iff.mp ran
    obtain ⟨⟨_, l10⟩, r10, copying⟩ := Option.bind_eq_some_iff.mp ran
    have small : vaddr < 2 ^ 32 := by
      rw [(read32_spec r2).1]
      exact Memory.load32_lt
    rw [← (read32_spec r1).2, ← (read32_spec r2).2, ← (read32_spec r3).2] at backed
    have mapped := loadMmap_backed backed small mapping
    rw [← (read32_spec r5).2, ← (read32_spec r6).2] at mapped
    have cleared := memset_backed mapped clearing
    rw [← (read32_spec r8).2, ← (read32_spec r9).2, ← (read32_spec r10).2] at cleared
    exact memcpy_backed cleared copying

theorem elf32LoadStop_process {stop : Nat} (ran : elf32LoadStop buffer load = some (stop, after)) :
    after.process = load.process := by
  obtain ⟨⟨_, l1⟩, r1, ran⟩ := Option.bind_eq_some_iff.mp ran
  obtain ⟨⟨_, l2⟩, r2, ran⟩ := Option.bind_eq_some_iff.mp ran
  obtain ⟨⟨_, l3⟩, r3, same⟩ := Option.map_eq_some_iff.mp ran
  cases same
  rw [(read16_spec r3).2, (read16_spec r2).2, (read32_spec r1).2]

theorem elf32LoadLoop_backed (backed : Backed load.process)
    (ran : elf32LoadLoop buffer turns pheader load = some after) :
    Backed after.process := by
  induction turns generalizing pheader load with
  | zero => cases ran
  | succ turns ih =>
    rw [elf32LoadLoop] at ran
    split at ran
    next =>
      cases ran
      exact backed
    next =>
      obtain ⟨⟨stop, next⟩, reading, ran⟩ := Option.bind_eq_some_iff.mp ran
      rw [← elf32LoadStop_process reading] at backed
      simp only at ran
      split at ran
      next =>
        obtain ⟨loaded, segment, onward⟩ := Option.bind_eq_some_iff.mp ran
        exact ih (elf32LoadSegment_backed backed segment) onward
      next =>
        cases ran
        exact backed

theorem elf32LoadLayout_backed {layout : Elf32Layout} (backed : Backed load.process)
    (ran : elf32LoadLayout buffer load = some (layout, after)) :
    Backed after.process ∧ after.process.mm.brk = after.process.brkStart ∧ OnPage after.process.brkStart := by
  obtain ⟨⟨heap, l1⟩, mapping, ran⟩ := Option.bind_eq_some_iff.mp ran
  obtain ⟨⟨entry, l2⟩, r2, ran⟩ := Option.bind_eq_some_iff.mp ran
  obtain ⟨⟨stack, l3⟩, last, same⟩ := Option.map_eq_some_iff.mp ran
  have ends : l3 = after := congrArg Prod.snd same
  subst ends
  obtain ⟨⟨_, first⟩, heapMap, content⟩ := Option.map_eq_some_iff.mp mapping
  obtain ⟨⟨_, second⟩, stackMap, content'⟩ := Option.map_eq_some_iff.mp last
  cases content
  cases content'
  obtain ⟨vm, requested, serves, kept, _⟩ := userMmapMap_spec backed (by decide) heapMap
  have result := (mmapMap_serves backed.paged (by decide) requested).2
  have place : OnPage heap := by
    rw [result]
    exact serves.paged.start vm serves.served
  have top : OnPage heapUserTop := ⟨rfl, by decide⟩
  have started : Backed { first with mm.brk := heap, mm.brkEnd := heapUserTop, brkStart := heap } :=
    ⟨⟨kept.paged.closed, kept.paged.start, kept.paged.stop, kept.paged.null, kept.paged.cache, top⟩, kept.backed⟩
  rw [(read32_spec r2).2] at stackMap
  obtain ⟨_, _, later, final, maps⟩ := userMmapMap_spec started (by decide) stackMap
  exact ⟨final, later.brk.trans maps.brkStart.symm, maps.brkStart ▸ place⟩

structure Fresh (process : UserProcess) : Prop where
  brk : process.mm.brk = 0
  brkEnd : process.mm.brkEnd = 0
  cache : process.mm.cache = 0
  vmCount : process.mm.vmCount = 0
  next : process.mm.links.next .head = .head
  prev : process.mm.links.prev .head = .head
  unmapped : ∀ page, page * physMmBlock < kernelVirtAddr → process.mapped page = false

theorem Fresh.backed (fresh : Fresh process) : Backed process := by
  have zero : OnPage 0 := ⟨rfl, by decide⟩
  have none (vm : Nat) (small : vm < process.mm.vmCount) : False := Nat.not_lt_zero vm (fresh.vmCount ▸ small)
  refine ⟨⟨fun node real allocated => ?_, fun vm small => (none vm small).elim, fun vm small => (none vm small).elim,
    fun vm small => (none vm small).elim, fresh.cache ▸ zero, fresh.brkEnd ▸ zero⟩, fun vm small => (none vm small).elim⟩
  cases node with
  | null => exact absurd rfl real
  | head =>
    rw [fresh.next]
    trivial
  | vm vm => exact (none vm allocated).elim

theorem elfVerifyIdent_process {checks : List (Nat × Nat × Int)} {result : Int}
    (ran : elfVerifyIdent buffer checks load = some (result, after)) : after.process = load.process := by
  induction checks generalizing load with
  | nil =>
    cases ran
    rfl
  | cons check rest ih =>
    obtain ⟨⟨byte, next⟩, reading, ran⟩ := Option.bind_eq_some_iff.mp ran
    simp only at ran
    split at ran
    next => exact (ih ran).trans (read8_spec reading).2
    next =>
      cases ran
      exact (read8_spec reading).2

theorem elfVerify_process {result : Int} (ran : elfVerify buffer load = some (result, after)) :
    after.process = load.process := by
  obtain ⟨⟨_, first⟩, ident, ran⟩ := Option.bind_eq_some_iff.mp ran
  have kept := elfVerifyIdent_process ident
  simp only at ran
  split at ran
  next =>
    cases ran
    exact kept
  next =>
    obtain ⟨⟨_, second⟩, machine, ran⟩ := Option.bind_eq_some_iff.mp ran
    have same := (read16_spec machine).2.trans kept
    simp only at ran
    split at ran
    next =>
      cases ran
      exact same
    next =>
      obtain ⟨⟨_, third⟩, type, ran⟩ := Option.bind_eq_some_iff.mp ran
      have last := (read16_spec type).2.trans same
      simp only at ran
      split at ran <;> cases ran <;> exact last

/-- A process that was loaded: its areas are backed and its break is at the start. -/
theorem elf32Load_backed {layout : Elf32Layout} (backed : Backed process)
    (ran : elf32Load buffer process = some (some layout, after)) :
    Backed after.process ∧ after.process.mm.brk = after.process.brkStart ∧ OnPage after.process.brkStart := by
  unfold elf32Load at ran
  split at ran
  next => cases ran
  next =>
    obtain ⟨⟨result, first⟩, verified, ran⟩ := Option.bind_eq_some_iff.mp ran
    have same := elfVerify_process verified
    simp only at ran
    split at ran
    next => cases ran
    next =>
      obtain ⟨⟨_, second⟩, r2, ran⟩ := Option.bind_eq_some_iff.mp ran
      simp only at ran
      split at ran
      next => cases ran
      next =>
        obtain ⟨⟨_, third⟩, r3, ran⟩ := Option.bind_eq_some_iff.mp ran
        obtain ⟨looped, loop, ran⟩ := Option.bind_eq_some_iff.mp ran
        obtain ⟨⟨_, final⟩, finish, content⟩ := Option.map_eq_some_iff.mp ran
        cases content
        have started : Backed third.process := by
          rw [(read32_spec r3).2, (read32_spec r2).2, same]
          exact backed
        exact elf32LoadLayout_backed (elf32LoadLoop_backed started loop) finish

def elfProcess (buffer : Nat) (file : List (BitVec 8)) : UserProcess where
  mm := ⟨0, 0, 0, ⟨fun _ => .head, fun _ => .head⟩, fun _ => ⟨0, 0⟩, 0⟩
  brkStart := 0
  memory place := file.getD (place - buffer) 0
  mapped page := decide (kernelVirtAddr ≤ page * physMmBlock)
  frames _ _ := 0xAA
  taken := 0

theorem elfProcess_fresh (buffer : Nat) (file : List (BitVec 8)) : Fresh (elfProcess buffer file) :=
  ⟨rfl, rfl, rfl, rfl, rfl, rfl, fun _ below => decide_eq_false (Nat.not_le.mpr below)⟩

end Loading

end YuzuOS.Proofs.UserPages
