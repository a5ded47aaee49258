import YuzuOS.Proofs.ElfImage
import YuzuOS.Proofs.ExecveFailure
import YuzuOS.Proofs.ExecveArguments

/-! `execve` of a well-formed executable that is loaded: the old program leaves no
page, the new one gets heap and stack, and its arguments are delivered exactly
when the frames of the heap held the zeros that the call does not write. -/

namespace YuzuOS.Proofs.ExecveLaunch
open YuzuOS.Library YuzuOS.Kernel YuzuOS.Proofs.MemoryAreas YuzuOS.Proofs.UserPages YuzuOS.Proofs.UserBreak
open YuzuOS.Proofs.ElfSegments YuzuOS.Proofs.ElfAreas YuzuOS.Proofs.ElfLoading YuzuOS.Proofs.ElfImage YuzuOS.Proofs.ExecveFailure
open YuzuOS.Proofs.ExecveHeap YuzuOS.Proofs.ExecveCopies YuzuOS.Proofs.ExecveArguments

variable {start process first final unloaded : UserProcess} {areas before after stackBefore stackAfter : List Nat}
  {segs : List Elf32Phdr} {buffer length : Nat}

structure Owned (process : UserProcess) (areas : List Nat) : Prop where
  sound : Sound process.mm areas
  pages : ∀ page, page * physMmBlock < kernelVirtAddr → process.mapped page = true →
    ∃ vm ∈ areas, Holds process.mm (page * physMmBlock) vm

/-- The pages that are left after the old program is gone were in no area. -/
theorem unload_kept (sound : Sound process.mm areas) (ran : elf32Unload process = some unloaded) :
    ∀ page, unloaded.mapped page = true →
      process.mapped page = true ∧ ∀ vm ∈ areas, ¬Holds process.mm (page * physMmBlock) vm := by
  unfold elf32Unload at ran
  simp only at ran
  split at ran
  next => cases ran
  next =>
    obtain ⟨unmapped, loop, content⟩ := Option.map_eq_some_iff.mp ran
    cases content
    have first := listed_first sound.listed
    have ahead : ∀ vm others, areas = vm :: others → process.mm.links.next (process.mm.links.next .head) = follower others := by
      rintro vm others rfl
      rw [first]
      exact listed_after (show Listed _ ([] ++ vm :: others) from sound.listed)
    exact (elf32UnloadLoop_spec sound.listed sound.regular first ahead loop).2

theorem unload_fresh (owned : Owned process areas) (ran : elf32Unload process = some unloaded) : Fresh unloaded := by
  have gone := elf32Unload_takesDown ran
  have kept := unload_kept owned.sound ran
  obtain ⟨next, prev⟩ := Ring.nil_iff.mp gone.listed
  have counts : unloaded.mm.cache = 0 ∧ unloaded.mm.vmCount = 0 := by
    unfold elf32Unload at ran
    simp only at ran
    split at ran
    next => cases ran
    next =>
      obtain ⟨unmapped, _, content⟩ := Option.map_eq_some_iff.mp ran
      cases content
      exact ⟨rfl, rfl⟩
  refine ⟨gone.brk.1, gone.brk.2.1, counts.1, counts.2, next, prev, fun page below => ?_⟩
  apply Bool.eq_false_iff.mpr
  intro mapped
  obtain ⟨old, outside⟩ := kept page mapped
  obtain ⟨vm, member, holds⟩ := owned.pages page below old
  exact outside vm member holds

theorem Filled.null (filled : Filled buffer start process areas segs) : process.mapped 0 = false := by
  apply Bool.eq_false_iff.mpr
  intro mapped
  obtain ⟨vm, member, holds⟩ := filled.housed.pages 0 (by decide) mapped
  have placed := filled.loading.backed.paged.placed (filled.loading.ordered.allocated vm member) holds
  have lower := holds.1
  omega

theorem LaidOut.launched (laid : LaidOut process first final before after stackBefore stackAfter)
    (null : process.mapped 0 = false) (below : process.mm.cache ≤ heapUserTop) (brk : final.mm.brk = final.brkStart)
    (base : OnPage final.brkStart) :
    Launched final ((max first.mm.cache heapUserTop + schedStackSize) % 2 ^ 32) := by
  have top : heapUserTop = 0x40000000 := rfl
  have heapSize : schedHeapSize = 0x20000 := rfl
  have stackSize : schedStackSize = 0x2000 := rfl
  have heapPages : pageAlign schedHeapSize = 0x20000 := by decide
  have stackPages : pageAlign schedStackSize = 0x2000 := by decide
  have brkStart : final.brkStart = process.mm.cache := laid.stackMaps.brkStart
  have small : first.mm.cache ≤ 0x40020000 := by
    rw [laid.moved]
    split <;> omega
  have word : (max first.mm.cache heapUserTop + schedStackSize) % 2 ^ 32 = max first.mm.cache heapUserTop + 0x2000 := by omega
  have stop : (placedVm (max first.mm.cache heapUserTop) schedStackSize).stop = max first.mm.cache heapUserTop + 0x2000 := by
    rw [placedVm_stop (by omega), stackPages]
  have linedStarted : Lined (started process.mm.cache first).mm (stackBefore ++ stackAfter) := by
    rw [← laid.split]
    exact ⟨laid.lined.listed, laid.lined.allocated, laid.lined.sorted, laid.lined.ordered⟩
  rw [word]
  refine ⟨laid.backed, brk, base, brkStart ▸ below, ?_, fun placed => ?_, by omega, by omega, fun place lower upper => ?_⟩
  · apply Bool.eq_false_iff.mpr
    intro mapped
    rcases (laid.stackMaps.pages 0).mp mapped with old | ⟨lower, _⟩
    · rcases (laid.heapMaps.pages 0).mp old with older | ⟨lower, upper⟩
      · exact Bool.false_ne_true (null.symm.trans older)
      · have zero : process.mm.cache = 0 := by omega
        rw [zero, placedVm, if_pos rfl] at upper
        exact absurd upper (Nat.not_lt_zero _)
    · omega
  · have cache : process.mm.cache ≠ 0 := brkStart ▸ placed
    have member : process.mm.vmCount ∈ stackBefore ++ stackAfter := by
      rw [← laid.split]
      simp
    have area : final.mm.vms process.mm.vmCount = placedVm process.mm.cache schedHeapSize :=
      (laid.stackArea.old linedStarted member).trans laid.heapArea.fills.area
    have lined := laid.stackArea.lined linedStarted fun vm known => laid.behind vm (laid.split ▸ known)
    have ends : (final.mm.vms process.mm.vmCount).stop = process.mm.cache + schedHeapSize := by
      rw [area, placedVm_stop cache, heapPages, heapSize]
    refine ⟨process.mm.vmCount, lined.findVm_some (mem_inserted.mpr (.inr member)) ⟨?_, ?_⟩, brkStart ▸ ends⟩
    · rw [area, placedVm_start, brkStart]
    · rw [ends, brkStart]
      omega
  · have listed : (started process.mm.cache first).mm.vmCount < final.mm.vmCount := by
      rw [laid.stackArea.fills.vmCount]
      exact Nat.lt_succ_self _
    have aligned := laid.backed.paged.start _ listed
    rw [laid.stackArea.placed.1] at aligned
    exact laid.stackMaps.inside aligned (by omega) (by omega)

theorem load_launched (fresh : Fresh start) (formed : WellFormed start buffer length)
    (separate : Separate (segments start.memory buffer)) :
    ∃ layout load, elf32Load buffer start = some (some layout, load) ∧ Launched load.process layout.stack := by
  have tidy : Tidy ([] ++ segments start.memory buffer) := WellFormed.tidy formed
  have whole : Separate ([] ++ segments start.memory buffer) := separate
  obtain ⟨reads, writes, same, _⟩ := elf32Load_eq formed (load_calm fresh formed)
  obtain ⟨middle, areas, ran, filled⟩ := (Fresh.filled fresh).run formed.kernel tidy whole
  obtain ⟨first, final, before, after, stackBefore, stackAfter, _, laid⟩ := filled.laidOut
  have finish : elf32LoadLayout buffer ⟨middle, reads, writes⟩ = _ :=
    elf32LoadLayout_eq formed (laid.steady filled.loading.steady filled.loading.ordered.cache) laid.heapRan
  rw [ran, Option.bind_some, finish, laid.stackRan] at same
  obtain ⟨_, brk, base⟩ := elf32Load_backed fresh.backed same
  exact ⟨_, _, same, LaidOut.launched laid (Filled.null filled) filled.loading.ordered.cache brk base⟩

/-- Whatever strings it is given, a program finds them exactly when its heap begins
behind address zero, everything fits in the user heap, each array fits on a page, and
the frames of the heap hold zeros in the places that the call leaves as they are. -/
theorem execve_delivers_iff {exec : Exec} (owned : Owned exec.process areas)
    (unload : elf32Unload exec.process = some unloaded) (formed : WellFormed unloaded buffer length)
    (separate : Separate (segments unloaded.memory buffer)) (path : List (BitVec 8))
    (argv envp : List (List (BitVec 8))) :
    ∃ elf loaded, execveLoad path buffer exec = some (some elf, loaded) ∧
      (Delivered path argv envp buffer exec ↔ Deliverable argv envp loaded.process) := by
  obtain ⟨elf, load, ran, launched⟩ := load_launched (unload_fresh owned unload) formed separate
  have loaded : execveLoad path buffer exec = some (some elf, { exec with name := path, process := load.process }) := by
    simp only [execveLoad, unload, Option.bind_some, ran, Option.map_some]
  exact ⟨elf, _, loaded, launched_delivered_iff loaded launched⟩

section Example

variable (buffer : Nat) (file : List (BitVec 8)) (frames : Nat → Nat → BitVec 8)

theorem elfProcess_unload :
    elf32Unload { elfProcess buffer file with frames := frames } = some { elfProcess buffer file with frames := frames } := by
  have links : dlistHeadInit VmNode.head (⟨fun _ => .head, fun _ => .head⟩ : Links VmNode) = ⟨fun _ => .head, fun _ => .head⟩ := by
    have same : Function.update (fun _ : VmNode => VmNode.head) .head .head = fun _ => .head := Function.update_eq_self _ _
    simp only [dlistHeadInit, Links.setNext, Links.setPrev, same]
  unfold elf32Unload
  simp only [elfProcess, elf32UnloadLoop, Option.map_some, links, reduceCtorEq, if_false]

theorem elfProcess_owned : Owned { elfProcess buffer file with frames := frames } [] := by
  have fresh := elfProcess_fresh buffer file
  have none (vm : Nat) (member : vm ∈ ([] : List Nat)) : False := List.not_mem_nil member
  refine ⟨⟨Ring.nil_iff.mpr ⟨rfl, rfl⟩, fun vm member => (none vm member).elim, fun vm member => (none vm member).elim, .nil, rfl, rfl,
    show max 0 0 < 2 ^ 32 by decide⟩, fun page below mapped => ?_⟩
  rw [fresh.unmapped page below] at mapped
  cases mapped

end Example

/-- A new process that is to run the sample program. -/
def launching : Exec where
  process := elfProcess 0xD0001000 (twoSegments 0x20)
  name := []
  stackUser := 0
  entered := none

/-- The same, when all frames hold zeros. -/
def clearLaunching : Exec := { launching with
  process := { elfProcess 0xD0001000 (twoSegments 0x20) with frames := fun _ _ => 0 } }

theorem execve_delivers_iff_example : Delivered [0x78] [[0x78]] [] 0xD0001000 clearLaunching := by
  have kind : (0x20 : BitVec 8) = 0x18 ∨ (0x20 : BitVec 8) = 0x20 := .inr rfl
  have listed := twoSegments_listed kind
  have separate : Separate (segments clearLaunching.process.memory 0xD0001000) := by
    have same : clearLaunching.process.memory = (elfProcess 0xD0001000 (twoSegments 0x20)).memory := by
      simp only [clearLaunching]
    rw [same, listed]
    exact twoSegments_separate
  have formed : WellFormed clearLaunching.process 0xD0001000 121 := (twoSegments_formed kind).retake fun _ _ => 0
  have unload : elf32Unload clearLaunching.process = some clearLaunching.process := elfProcess_unload _ _ _
  have owned : Owned clearLaunching.process [] := elfProcess_owned _ _ _
  obtain ⟨elf, loaded, ran, delivered⟩ := execve_delivers_iff owned unload formed separate [0x78] [[0x78]] []
  have places : (execveLoad [0x78] 0xD0001000 clearLaunching).map (fun outcome =>
      (outcome.2.process.brkStart, (unwritten outcome.2.process.brkStart [[0x78]] ++
        unwritten (outcome.2.process.brkStart + arrayRoom [[0x78]]) []).all fun place =>
          stale outcome.2.process place = 0)) = some (0x3000, true) := by decide +kernel
  rw [ran] at places
  obtain ⟨heap, zeros⟩ := Prod.mk.inj (Option.some.inj places)
  refine delivered.mpr ⟨?_, ?_, by decide, by decide, fun place member => ?_⟩
  · exact heap ▸ by decide
  · rw [show loaded.process.brkStart = 0x3000 from heap]
    decide
  · exact of_decide_eq_true (List.all_eq_true.mp zeros place member)

/-- The frames held 0xAA, so that the only argument is not terminated. -/
theorem argument_unterminated :
    (∃ result after, schedProcessExecve [0x78] [[0x78]] [] 0xD0001000 launching = some (result, after) ∧
    after.entered.isSome = true) ∧ ¬Delivered [0x78] [[0x78]] [] 0xD0001000 launching := by
  have ends : (schedProcessExecve [0x78] [[0x78]] [] 0xD0001000 launching).map (fun outcome =>
      outcome.2.entered.map fun entered =>
        (outcome.2.process.memory.load32 (outcome.2.process.memory.load32 (entered.1 + 4)),
          outcome.2.process.memory (outcome.2.process.memory.load32 (outcome.2.process.memory.load32 (entered.1 + 4)) + 1))) =
      some (some (0x4000, 0xAA)) := by decide +kernel
  obtain ⟨⟨result, after⟩, ran, content⟩ := Option.map_eq_some_iff.mp ends
  obtain ⟨⟨stack, entry⟩, entered, values⟩ := Option.map_eq_some_iff.mp content
  obtain ⟨pointer, terminator⟩ := Prod.mk.inj values
  refine ⟨⟨result, after, ran, by rw [entered]; rfl⟩, ?_⟩
  rintro ⟨_, other, stack', entry', argvAt, envpAt, again, entered', arguments⟩
  cases ran.symm.trans again
  cases entered.symm.trans entered'
  have copied := arguments.arguments.1
  rw [← arguments.argvAt] at copied
  have zero : after.process.memory (after.process.memory.load32 (after.process.memory.load32 (stack + 4)) + 1) = 0 := copied.2.1
  rw [terminator] at zero
  exact absurd zero (by decide)

end YuzuOS.Proofs.ExecveLaunch
