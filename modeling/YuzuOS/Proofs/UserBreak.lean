import YuzuOS.Proofs.UserPages

/-! The break of a process. A heap area that `brk` finds grows with the break,
and everything below the break is mapped. -/

namespace YuzuOS.Proofs.UserBreak
open YuzuOS.Library YuzuOS.Kernel YuzuOS.Proofs.MemoryAreas YuzuOS.Proofs.UserPages

variable {mm next : ProcessMm} {process after : UserProcess} {node : VmNode} {vm addr turns : Nat}

theorem pageAlign_eq (fits : addr + physMmBlock ≤ 2 ^ 32) :
    pageAlign addr = (addr + physMmBlock - 1) / physMmBlock * physMmBlock := by
  have positive : 0 < physMmBlock := by decide
  have small : addr + physMmBlock - 1 < 2 ^ 32 := by omega
  rw [pageAlign, alignUp, Nat.mod_eq_of_lt small, alignDown_page small]

theorem pageAlign_bounds (fits : addr + physMmBlock ≤ 2 ^ 32) :
    addr ≤ pageAlign addr ∧ pageAlign addr < addr + physMmBlock := by
  rw [pageAlign_eq fits]
  unfold physMmBlock
  omega

structure HeapArea (process : UserProcess) (vm : Nat) : Prop where
  backed : Backed process
  found : mmapFindVm process.brkStart process.mm = some (some vm)
  onPage : OnPage process.mm.brk
  above : process.brkStart ≤ process.mm.brk
  below : process.mm.brk ≤ (process.mm.vms vm).stop

theorem HeapArea.mapped {place : Nat} (area : HeapArea process vm) (lower : process.brkStart ≤ place)
    (upper : place < process.mm.brk) : process.mapped (place / physMmBlock) = true := by
  obtain ⟨small, start, _⟩ := mmapFindVm_holds area.backed.paged area.found
  exact area.backed.backed vm small place (start.trans lower) (upper.trans_le area.below)

/-- A search goes on as before where the areas in front of the one found, and the
links to them, are as before. -/
theorem mmapFindVmLoop_kept {more : Nat} (closed : Closed mm.vmCount mm.links) (allocated : Allocated mm.vmCount node)
    (links : ∀ node, node ≠ .null → Allocated mm.vmCount node → next.links.next node = mm.links.next node)
    (others : ∀ other < mm.vmCount, other ≠ vm → next.vms other = mm.vms other) (holds : Holds next addr vm)
    (enough : turns ≤ more) (ran : mmapFindVmLoop mm addr turns node = some (some vm)) :
    mmapFindVmLoop next addr more node = some (some vm) := by
  induction turns generalizing node more with
  | zero => cases ran
  | succ turns ih =>
    obtain ⟨more, rfl⟩ := Nat.exists_eq_succ_of_ne_zero (Nat.ne_of_gt (Nat.zero_lt_of_lt enough))
    cases node with
    | null => cases ran
    | head => cases ran
    | vm iter =>
      rw [mmapFindVmLoop] at ran ⊢
      rcases eq_or_ne iter vm with rfl | different
      · exact if_pos holds
      · rw [others iter allocated different, links _ VmNode.noConfusion allocated]
        split at ran
        next =>
          cases ran
          exact absurd rfl different
        next outside =>
          rw [if_neg outside]
          exact ih (closed _ VmNode.noConfusion allocated) (Nat.le_of_succ_le_succ enough) ran

theorem moved_found {brk : Nat} (paged : Paged mm) (found : mmapFindVm addr mm = some (some vm)) :
    mmapFindVm addr { mm with brk } = some (some vm) :=
  mmapFindVmLoop_kept paged.closed (paged.closed .head VmNode.noConfusion allocated_head) (fun _ _ _ => rfl)
    (fun _ _ _ => rfl) (mmapFindVm_holds paged found).2 le_rfl found

def grown (mm : ProcessMm) (vm brk : Nat) : ProcessMm :=
  (((ProcessMm.allocVm { mm with brk }).2.copyVm mm.vmCount vm).setStop mm.vmCount brk).copyVm vm mm.vmCount

theorem grown_paged {brk : Nat} (paged : Paged mm) (small : vm < mm.vmCount) (onPage : OnPage brk)
    (placed : (mm.vms vm).start ≠ 0) : Paged (grown mm vm brk) := by
  have moved : Paged { mm with brk } := ⟨paged.closed, paged.start, paged.stop, paged.null, paged.cache, paged.brkEnd⟩
  have old : vm < (ProcessMm.allocVm { mm with brk }).2.vmCount := Nat.lt_succ_of_lt small
  have new : mm.vmCount < (ProcessMm.allocVm { mm with brk }).2.vmCount := Nat.lt_succ_self _
  have copied : ((ProcessMm.allocVm { mm with brk }).2.copyVm mm.vmCount vm).vms mm.vmCount = mm.vms vm :=
    (Function.update_self _ _ _).trans (Function.update_of_ne (Nat.ne_of_lt small) _ _)
  exact copyVm_paged (setStop_paged (copyVm_paged (allocVm_paged moved) old) new onPage (copied ▸ placed)) new

theorem grown_vms {brk : Nat} (small : vm < mm.vmCount) : (grown mm vm brk).vms vm = { mm.vms vm with stop := brk } ∧
    (grown mm vm brk).vms mm.vmCount = { mm.vms vm with stop := brk } ∧
    ∀ other < mm.vmCount, other ≠ vm → (grown mm vm brk).vms other = mm.vms other := by
  have different : vm ≠ mm.vmCount := Nat.ne_of_lt small
  refine ⟨?_, ?_, fun other old apart => ?_⟩
  · simp [grown, ProcessMm.copyVm, ProcessMm.setStop, ProcessMm.setVm, ProcessMm.allocVm, different]
  · simp [grown, ProcessMm.copyVm, ProcessMm.setStop, ProcessMm.setVm, ProcessMm.allocVm, different, different.symm]
  · have fresh : other ≠ mm.vmCount := Nat.ne_of_lt old
    simp [grown, ProcessMm.copyVm, ProcessMm.setStop, ProcessMm.setVm, ProcessMm.allocVm, fresh, apart]

theorem grown_links {brk : Nat} (small : vm < mm.vmCount) (allocated : Allocated mm.vmCount node) :
    (grown mm vm brk).links.next node = mm.links.next node := by
  have different : vm ≠ mm.vmCount := Nat.ne_of_lt small
  have fresh : node ≠ .vm mm.vmCount := by
    rintro rfl
    exact Nat.lt_irrefl _ allocated
  by_cases self : node = .vm vm
  · simp [self, grown, ProcessMm.copyVm, ProcessMm.setStop, ProcessMm.setVm, ProcessMm.allocVm, different]
  · simp [self, fresh, grown, ProcessMm.copyVm, ProcessMm.setStop, ProcessMm.setVm, ProcessMm.allocVm]

theorem grown_found {brk : Nat} (paged : Paged mm) (larger : (mm.vms vm).stop ≤ brk)
    (found : mmapFindVm addr mm = some (some vm)) : mmapFindVm addr (grown mm vm brk) = some (some vm) := by
  obtain ⟨small, start, stop⟩ := mmapFindVm_holds paged found
  have holds : Holds (grown mm vm brk) addr vm := by
    unfold Holds
    rw [(grown_vms small).1]
    exact ⟨start, stop.trans_le larger⟩
  rw [mmapFindVm, grown_links small allocated_head]
  exact mmapFindVmLoop_kept paged.closed (paged.closed .head VmNode.noConfusion allocated_head)
    (fun node _ allocated => grown_links small allocated) (grown_vms small).2.2 holds (Nat.le_succ _) found

structure Grows (mm next : ProcessMm) (vm addr newBrk : Nat) : Prop where
  paged : Paged next
  found : mmapFindVm addr next = some (some vm)
  brk : next.brk = newBrk
  start : (next.vms vm).start = (mm.vms vm).start
  larger : (mm.vms vm).stop ≤ (next.vms vm).stop
  reached : newBrk ≤ (next.vms vm).stop
  others : ∀ other < next.vmCount, (other < mm.vmCount ∧ next.vms other = mm.vms other) ∨ next.vms other = next.vms vm

theorem mmapBrk_grows {len : Nat} (paged : Paged mm) (found : mmapFindVm addr mm = some (some vm))
    (fits : addr + len < 2 ^ 32) :
    ∃ next, mmapBrk addr len mm = some (0, some vm, next) ∧ Grows mm next vm addr (pageAlign (addr + len)) := by
  obtain ⟨small, holds⟩ := mmapFindVm_holds paged found
  refine ⟨_, mmapBrk_found fits found, ?_⟩
  split
  next enough =>
    exact ⟨⟨paged.closed, paged.start, paged.stop, paged.null, paged.cache, paged.brkEnd⟩, moved_found paged found, rfl, rfl, le_rfl,
      enough, fun other old => .inl ⟨old, rfl⟩⟩
  next short =>
    have onPage := pageAlign_onPage (addr + len)
    have result : Grows mm (grown mm vm (pageAlign (addr + len))) vm addr (pageAlign (addr + len)) := by
      obtain ⟨here, copy, others⟩ := grown_vms small
      refine ⟨grown_paged paged small onPage (paged.placed small holds), grown_found paged (Nat.le_of_not_le short) found, rfl, ?_, ?_, ?_,
        fun other allocated => ?_⟩
      · rw [here]
      · rw [here]
        exact Nat.le_of_not_le short
      · rw [here]
      · rw [here]
        rcases Nat.lt_or_eq_of_le (Nat.le_of_lt_succ allocated) with old | rfl
        · rcases eq_or_ne other vm with rfl | different
          · exact .inr here
          · exact .inl ⟨old, others other old different⟩
        · exact .inr copy
    exact result

/-- The break moves to the end of the page of an address, and the memory below
the old break stays. -/
structure Moves (process after : UserProcess) (vm addr : Nat) : Prop where
  area : HeapArea after vm
  brk : after.mm.brk = pageAlign addr
  extended : Extends process after
  memory : ∀ place < process.mm.brk, after.memory place = process.memory place

structure MapsHeap (process after : UserProcess) (vm addr : Nat) : Prop where
  backed : Backed after
  found : mmapFindVm process.brkStart after.mm = some (some vm)
  brk : after.mm.brk = pageAlign addr
  larger : (process.mm.vms vm).stop ≤ (after.mm.vms vm).stop
  reached : pageAlign addr ≤ (after.mm.vms vm).stop
  maps : MapsPages { process with mm := after.mm } after (process.mm.vms vm).stop (after.mm.vms vm).stop
  ran : UserProcess.mapPages UserProcess.pageTurns (after.mm.vms vm).stop (process.mm.vms vm).stop
    { process with mm := after.mm } = some after

theorem mmapBrk_maps (backed : Backed process) (found : mmapFindVm process.brkStart process.mm = some (some vm))
    (start : process.brkStart ≤ addr) (small : addr < 2 ^ 32) :
    ∃ after, process.mmapBrk process.brkStart (addr - process.brkStart) = some (0, after) ∧
      MapsHeap process after vm addr := by
  have sum : process.brkStart + (addr - process.brkStart) = addr := by omega
  obtain ⟨mm, requested, grows⟩ := mmapBrk_grows backed.paged found (sum.trans_lt small)
  rw [sum] at grows
  obtain ⟨allocated, _, _⟩ := mmapFindVm_holds backed.paged found
  obtain ⟨served, _, _⟩ := mmapFindVm_holds grows.paged grows.found
  have aligned := backed.paged.stop vm allocated
  have whole := grows.paged.stop vm served
  obtain ⟨after, mapped, maps⟩ := mapPages_spec { process with mm } (2 ^ 20) aligned whole
    (by have bound := whole.fits; unfold physMmBlock; omega)
  have content : after.mm = mm := maps.mm
  subst content
  refine ⟨after, ?_, ⟨grows.paged, fun other old place lower upper => ?_⟩, grows.found, grows.brk, grows.larger, grows.reached, maps,
    mapped⟩
  · rw [UserProcess.mmapBrk, requested, Option.bind_some]
    exact congrArg (Option.map _) mapped
  · rcases grows.others other old with ⟨earlier, same⟩ | same
    · rw [same] at lower upper
      exact maps.extends.pages _ (backed.backed other earlier place lower upper)
    · rw [same] at lower upper
      rw [grows.start] at lower
      rcases Nat.lt_or_ge place (process.mm.vms vm).stop with low | high
      · exact maps.extends.pages _ (backed.backed vm allocated place lower low)
      · exact maps.inside aligned high upper

theorem mmapBrk_moves (area : HeapArea process vm) (start : process.brkStart ≤ addr)
    (fits : addr + physMmBlock ≤ 2 ^ 32) :
    ∃ after, process.mmapBrk process.brkStart (addr - process.brkStart) = some (0, after) ∧
      Moves process after vm addr := by
  have small : addr < 2 ^ 32 := by
    unfold physMmBlock at fits
    omega
  obtain ⟨after, ran, heap⟩ := mmapBrk_maps area.backed area.found start small
  have maps := heap.maps
  have brkStart : after.brkStart = process.brkStart := maps.brkStart
  refine ⟨after, ran, ⟨heap.backed, ?_, ?_, ?_, ?_⟩, heap.brk, ⟨brkStart, maps.frames, maps.extends.pages⟩, fun place below => ?_⟩
  · rw [brkStart]
    exact heap.found
  · rw [heap.brk]
    exact pageAlign_onPage addr
  · rw [heap.brk, brkStart]
    exact start.trans (pageAlign_bounds fits).1
  · rw [heap.brk]
    exact heap.reached
  · exact maps.kept place (.inl (below.trans_le area.below))

theorem syscallBrk_moves (area : HeapArea process vm) (start : process.brkStart ≤ addr) (positive : 0 < addr)
    (fits : addr + physMmBlock ≤ 2 ^ 32) :
    ∃ after, process.syscallBrk addr = some (0, after) ∧ Moves process after vm addr := by
  rw [UserProcess.syscallBrk, if_neg (Nat.ne_of_gt positive), if_neg (Nat.not_lt.mpr start)]
  exact mmapBrk_moves area start fits

/-- A call that does not reach behind the heap area changes no page. -/
theorem syscallBrk_within (found : mmapFindVm process.brkStart process.mm = some (some vm))
    (small : addr < 2 ^ 32) (within : pageAlign addr ≤ (process.mm.vms vm).stop) :
    ∃ result brk, process.syscallBrk addr = some (result, { process with mm.brk := brk }) ∧
      (brk = process.mm.brk ∨ brk = pageAlign addr) := by
  unfold UserProcess.syscallBrk
  split
  next => exact ⟨_, process.mm.brk, rfl, .inl rfl⟩
  next =>
    split
    next => exact ⟨_, process.mm.brk, rfl, .inl rfl⟩
    next above =>
      have sum : process.brkStart + (addr - process.brkStart) = addr := by omega
      have requested := mmapBrk_found (sum.trans_lt small) found
      rw [sum, if_pos within] at requested
      refine ⟨0, pageAlign addr, ?_, .inr rfl⟩
      rw [UserProcess.mmapBrk, requested, Option.bind_some]
      exact congrArg (Option.map _) (mapPages_none le_rfl)

end YuzuOS.Proofs.UserBreak
