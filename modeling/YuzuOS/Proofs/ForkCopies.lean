import YuzuOS.Kernel.Fork
import YuzuOS.Proofs.SchedulerFiles

/-! What a fork leaves: a child whose memory areas, descriptors, file system and
registers are copies of the parent's, and a parent that is as it was. -/

namespace YuzuOS.Proofs.ForkCopies
open YuzuOS.Library YuzuOS.Kernel YuzuOS.Proofs.SchedulerQueue YuzuOS.Proofs.SchedulerSteps
  YuzuOS.Proofs.SchedulerFiles

def Areas (links : Links MmNode) (mm : Nat) (areas : List Nat) : Prop := Ring links (.head mm) (areas.map .vm)

/-- A parent that may fork: a process with a thread, a list of areas of its own, and a queue
of threads that is in order. -/
structure Forkable (state : ProcessState) (parent thread : Nat) (areas nodes : List Nat) : Prop where
  known : parent < state.sched.schedPid
  owned : (state.sched.processes parent).thread = some thread
  older : thread < state.sched.schedTid
  numbered : ∀ process < state.sched.schedPid, (state.sched.processes process).pid = process
  queued : Queued state.sched.schedList.links state.sched.schedList.prio state.sched.schedTid nodes
  list : Areas state.links (state.processes parent).mm areas
  allocated : ∀ vm ∈ areas, vm < state.vmCount
  space : (state.processes parent).mm < state.mmCount
  root : (state.processes parent).fs < state.fsCount

def copyOf (mm : Nat) (source : VmFields) : VmFields := { source with mm := some mm }

variable {state next : ProcessState} {links : Links MmNode} {parent thread mm source vm : Nat}
  {areas nodes done rest copies : List Nat}

theorem Areas.congr {changed : Links MmNode} (list : Areas links mm areas)
    (same : ∀ node, node = .head mm ∨ (∃ vm ∈ areas, node = .vm vm) →
      changed.next node = links.next node ∧ changed.prev node = links.prev node) :
    Areas changed mm areas := by
  refine Ring.congr list fun node member => same node ?_
  rcases List.mem_cons.mp member with head | inside
  · exact .inl head
  · obtain ⟨vm, listed, rfl⟩ := List.mem_map.mp inside
    exact .inr ⟨vm, listed, rfl⟩

def follower (mm : Nat) : List Nat → MmNode
  | [] => .head mm
  | vm :: _ => .vm vm

theorem Areas.first (list : Areas links mm areas) : links.next (.head mm) = follower mm areas := by
  refine (Ring.next_first list).trans ?_
  cases areas with
  | nil => rfl
  | cons vm rest => rfl

theorem Areas.after (list : Areas links mm (done ++ vm :: rest)) : links.next (.vm vm) = follower mm rest := by
  rw [Areas, List.map_append] at list
  refine (Ring.next_member list).trans ?_
  cases rest with
  | nil => rfl
  | cons next rest => rfl

theorem Areas.length_le {count : Nat} (list : Areas links mm areas) (allocated : ∀ vm ∈ areas, vm < count) :
    areas.length ≤ count :=
  length_le_of_below (List.nodup_cons.mp list.nodup).2.of_map allocated

section Cloning

theorem cloneVm_areas (parents : Areas state.links source areas) (children : Areas state.links mm copies)
    (apart : source ≠ mm) (allocated : ∀ vm ∈ areas, vm < state.vmCount) (made : ∀ vm ∈ copies, vm < state.vmCount)
    (disjoint : ∀ vm ∈ areas, vm ∉ copies) (iter : Nat) :
    Areas (cloneVm mm iter state).links source areas ∧
      Areas (cloneVm mm iter state).links mm (copies ++ [state.vmCount]) := by
  have cleared {mm : Nat} {areas : List Nat} (list : Areas state.links mm areas) (older : ∀ vm ∈ areas, vm < state.vmCount) :
      Areas ((state.links.setNext (.vm state.vmCount) .null).setPrev (.vm state.vmCount) .null) mm areas := by
    refine list.congr fun node member => ?_
    have different : node ≠ .vm state.vmCount := by
      rcases member with rfl | ⟨vm, listed, rfl⟩
      · exact nofun
      · exact fun same => (older vm listed).ne (MmNode.vm.inj same)
    simp [different]
  have children' : Cycle _ (MmNode.head mm :: copies.map MmNode.vm) := cleared children made
  have parents' : Cycle _ (MmNode.head source :: areas.map MmNode.vm) := cleared parents allocated
  have fresh : MmNode.vm state.vmCount ∉ MmNode.head mm :: copies.map MmNode.vm := by
    simp only [List.mem_cons, List.mem_map, not_or, not_exists, not_and, reduceCtorEq, not_false_eq_true, true_and]
    exact fun vm listed same => (made vm listed).ne (MmNode.vm.inj same)
  constructor
  · refine dlistAddTail_others children' List.mem_cons_self parents' fun node member => ?_
    rcases List.mem_cons.mp member with rfl | inside
    · exact ⟨nofun, by simpa using apart⟩
    · obtain ⟨vm, listed, rfl⟩ := List.mem_map.mp inside
      refine ⟨fun same => (allocated vm listed).ne (MmNode.vm.inj same), ?_⟩
      simpa using disjoint vm listed
  · have grown : Cycle (cloneVm mm iter state).links ((MmNode.head mm :: copies.map MmNode.vm) ++ MmNode.vm state.vmCount :: []) :=
      dlistAddTail_cycle (by simpa using children') (by simpa using fresh)
        (show [] ++ MmNode.head mm :: copies.map MmNode.vm = MmNode.head mm :: copies.map MmNode.vm from rfl)
    rw [Areas, List.map_append]
    exact grown

/-- What the loop leaves: the areas that were there, and a copy of each in order. -/
structure Cloned (state next : ProcessState) (mm : Nat) (areas copies : List Nat) : Prop where
  only : next = { state with vms := next.vms, vmCount := next.vmCount, links := next.links }
  kept : ∀ vm < state.vmCount, next.vms vm = state.vms vm
  copied : copies.map next.vms = areas.map fun vm => copyOf mm (state.vms vm)
  fresh : ∀ vm ∈ copies, state.vmCount ≤ vm

theorem cloneMmLoop_spec (turns : Nat) (start : ProcessState) (done copies : List Nat) (apart : source ≠ mm)
    (parents : Areas state.links source (done ++ rest)) (children : Areas state.links mm copies)
    (allocated : ∀ vm ∈ done ++ rest, vm < start.vmCount) (made : ∀ vm ∈ copies, vm < state.vmCount)
    (cloned : Cloned start state mm done copies) (later : start.vmCount ≤ state.vmCount)
    (enough : rest.length < turns) :
    ∃ next copies, cloneMmLoop source mm turns (follower source rest) state = some next ∧
      Cloned start next mm (done ++ rest) copies ∧ Areas next.links source (done ++ rest) ∧
        Areas next.links mm copies := by
  induction rest generalizing turns state done copies with
  | nil =>
    obtain ⟨turns, rfl⟩ := Nat.exists_eq_succ_of_ne_zero (Nat.ne_of_gt enough)
    refine ⟨state, copies, if_pos rfl, ?_, parents, children⟩
    rwa [List.append_nil]
  | cons iter rest ih =>
    obtain ⟨turns, rfl⟩ := Nat.exists_eq_succ_of_ne_zero (Nat.ne_of_gt (Nat.zero_lt_of_lt enough))
    have older : iter < start.vmCount := allocated iter (by simp)
    have disjoint : ∀ vm ∈ done ++ iter :: rest, vm ∉ copies := fun vm listed again =>
      absurd (cloned.fresh vm again) (Nat.not_le.mpr (allocated vm listed))
    obtain ⟨parents', children'⟩ := cloneVm_areas parents children apart
      (fun vm listed => (allocated vm listed).trans_le later) made disjoint iter
    have split : done ++ iter :: rest = done ++ [iter] ++ rest := by simp
    have follows := parents'.after
    have source' : state.vms iter = start.vms iter := cloned.kept iter older
    have only := cloned.only
    have turn : cloneMmLoop source mm (turns + 1) (follower source (iter :: rest)) state =
        cloneMmLoop source mm turns ((cloneVm mm iter state).links.next (.vm iter)) (cloneVm mm iter state) := rfl
    rw [turn, follows, split]
    rw [split] at parents' allocated
    refine ih turns _ _ parents' children' allocated ?_ ⟨?_, ?_, ?_, ?_⟩ (Nat.le_succ_of_le later) (Nat.lt_of_succ_lt_succ enough)
    · intro vm listed
      rcases List.mem_append.mp listed with old | last
      · exact Nat.lt_succ_of_lt (made vm old)
      · cases List.mem_singleton.mp last
        exact Nat.lt_succ_self _
    · rw [only]
      rfl
    · intro vm old
      have different : vm ≠ state.vmCount := (old.trans_le later).ne
      exact (Function.update_of_ne different _ _).trans (cloned.kept vm old)
    · have unmade : ∀ vm ∈ copies, (cloneVm mm iter state).vms vm = state.vms vm := fun vm listed =>
        Function.update_of_ne (made vm listed).ne _ _
      have last : (cloneVm mm iter state).vms state.vmCount = copyOf mm (start.vms iter) := by
        rw [← source']
        exact Function.update_self _ _ _
      rw [List.map_append, List.map_append, List.map_congr_left unmade, cloned.copied, List.map_singleton, last, List.map_singleton]
    · intro vm listed
      rcases List.mem_append.mp listed with old | last
      · exact cloned.fresh vm old
      · cases List.mem_singleton.mp last
        exact later

theorem cloneMmHead_areas (parents : Areas state.links source areas) (older : source < state.mmCount) :
    Areas (cloneMmHead source state).links source areas ∧ Areas (cloneMmHead source state).links state.mmCount [] := by
  refine ⟨parents.congr fun node member => ?_, Ring.nil_iff.mpr dlistHeadInit_alone⟩
  have different : node ≠ .head state.mmCount := by
    rcases member with rfl | ⟨vm, _, rfl⟩
    · exact fun same => older.ne (MmNode.head.inj same)
    · exact nofun
  simp [cloneMmHead, dlistHeadInit, different]

/-- `sched_process_clone_mm`: the areas of the parent are copied, and the other objects stay. -/
theorem cloneMm_spec (forkable : Forkable state parent thread areas nodes) :
    ∃ next copies, schedProcessCloneMm parent state = some (state.mmCount, next) ∧
      Cloned (cloneMmHead (state.processes parent).mm state) next state.mmCount areas copies ∧
      Areas next.links (state.processes parent).mm areas ∧ Areas next.links state.mmCount copies := by
  obtain ⟨parents, children⟩ := cloneMmHead_areas forkable.list forkable.space
  have short : areas.length ≤ state.vmCount := forkable.list.length_le forkable.allocated
  obtain ⟨next, copies, looped, cloned, kept, made⟩ := cloneMmLoop_spec (state.vmCount + 1)
    (cloneMmHead (state.processes parent).mm state) [] [] forkable.space.ne parents children forkable.allocated nofun
    ⟨rfl, fun _ _ => rfl, rfl, nofun⟩ (Nat.le_refl _) (Nat.lt_succ_of_le short)
  refine ⟨next, copies, ?_, cloned, kept, made⟩
  rw [schedProcessCloneMm, parents.first, looped]
  rfl

end Cloning

structure Copies (state : ProcessState) (parent thread : Nat) (areas : List Nat) (next : ProcessState) (child : Nat) :
    Prop where
  fresh : ∀ process < state.sched.schedPid, (state.sched.processes process).pid ≠ child
  pid : (next.sched.processes child).pid = child
  list : ∃ copies, Areas next.links (next.processes child).mm copies ∧
    copies.map next.vms = areas.map fun vm => copyOf (next.processes child).mm (state.vms vm)
  own : (next.processes child).mm ≠ (state.processes parent).mm
  breaks : next.mms (next.processes child).mm = state.mms (state.processes parent).mm
  fs : next.fss (next.processes child).fs = state.fss (state.processes parent).fs
  table : ∀ fd : Int, 0 ≤ fd → fd < fdMax → (next.sched.processes child).files.fd fd = (state.sched.processes parent).files.fd fd
  counts : ∀ file, next.sched.files file = { state.sched.files file with
    count := (state.sched.files file).count + fileSlots (state.sched.processes parent).files file }
  registers : ∃ created, (next.sched.processes child).thread = some created ∧
    (next.threads created).registers = { (state.threads thread).registers with eax := 0 }

structure Framed (state : ProcessState) (parent thread : Nat) (areas : List Nat) (next : ProcessState) : Prop where
  process : next.sched.processes parent = state.sched.processes parent
  fields : next.processes parent = state.processes parent
  list : Areas next.links (state.processes parent).mm areas
  areas : ∀ vm ∈ areas, next.vms vm = state.vms vm
  breaks : next.mms (state.processes parent).mm = state.mms (state.processes parent).mm
  fs : next.fss (state.processes parent).fs = state.fss (state.processes parent).fs
  scheduled : next.sched.threads thread = state.sched.threads thread
  registers : next.threads thread = state.threads thread

theorem schedProcessFork_spawned (forkable : Forkable state parent thread areas nodes) (stackKernel pageDir : Nat) :
    ∃ links, schedProcessFork parent stackKernel pageDir state.sched = some (state.sched.schedPid,
      { spawned parent stackKernel pageDir state.sched with
        schedList := ⟨links, Function.update state.sched.schedList.prio state.sched.schedTid 0⟩
        queued := state.sched.schedTid :: state.sched.queued }) := by
  obtain ⟨links, queued, _⟩ := spawned_queued parent stackKernel pageDir forkable.queued
  rw [← schedProcessFork_eq forkable.known] at queued
  obtain ⟨⟨pid, sched⟩, forked, same⟩ := Option.map_eq_some_iff.mp queued
  cases same
  have number : pid = state.sched.schedPid := by
    simp only [schedProcessFork, forkable.known, if_true, Option.bind_eq_bind] at forked
    obtain ⟨_, _, back⟩ := Option.bind_eq_some_iff.mp forked
    cases back
    rfl
  exact ⟨links, number ▸ forked⟩

/-- A fork of any process returns the number of a child that has a copy of everything of
its parent, and leaves the parent as it was. -/
theorem process_fork_copies (forkable : Forkable state parent thread areas nodes) (stackKernel pageDir : Nat) :
    ∃ child next, processFork parent stackKernel pageDir state = some (child, next) ∧
      Copies state parent thread areas next child ∧ Framed state parent thread areas next := by
  obtain ⟨cloned, copies, cloning, clones, kept, made⟩ := cloneMm_spec forkable
  obtain ⟨links, forked⟩ := schedProcessFork_spawned forkable stackKernel pageDir
  have only := clones.only
  have sched : cloned.sched = state.sched := by
    rw [only]
    rfl
  have processes : cloned.processes = state.processes := by
    rw [only]
    rfl
  have threads : cloned.threads = state.threads := by
    rw [only]
    rfl
  have fss : cloned.fss = state.fss := by
    rw [only]
    rfl
  have fsCount : cloned.fsCount = state.fsCount := by
    rw [only]
    rfl
  have mms : cloned.mms = Function.update state.mms state.mmCount (state.mms (state.processes parent).mm) := by
    rw [only]
    rfl
  have ran : processFork parent stackKernel pageDir state = some (state.sched.schedPid, { cloned with
      sched := { spawned parent stackKernel pageDir state.sched with
        schedList := ⟨links, Function.update state.sched.schedList.prio state.sched.schedTid 0⟩
        queued := state.sched.schedTid :: state.sched.queued }
      fss := Function.update state.fss state.fsCount (state.fss (state.processes parent).fs)
      fsCount := state.fsCount + 1
      processes := Function.update state.processes state.sched.schedPid
        { name := (state.processes parent).name, mm := state.mmCount, fs := state.fsCount }
      threads := Function.update state.threads state.sched.schedTid
        { state.threads thread with registers := { (state.threads thread).registers with eax := 0 } } }) := by
    simp only [processFork, cloning, schedProcessCloneFs, sched, processes, threads, fss, fsCount, forkable.owned, forked,
      Option.bind_eq_bind, Option.bind_some]
  have apart : parent ≠ state.sched.schedPid := forkable.known.ne
  have different : thread ≠ state.sched.schedTid := forkable.older.ne
  refine ⟨_, _, ran, ⟨?_, ?_, ⟨copies, ?_, ?_⟩, ?_, ?_, ?_, ?_, ?_, ⟨state.sched.schedTid, ?_, ?_⟩⟩,
    ⟨?_, ?_, kept, ?_, ?_, ?_, ?_, ?_⟩⟩
  · intro process earlier
    rw [forkable.numbered process earlier]
    exact earlier.ne
  · simp [spawned]
  · simpa using made
  · simp only [Function.update_self]
    exact clones.copied
  · simpa using forkable.space.ne'
  · simp [mms]
  · simp
  · intro fd low high
    simp [spawned, schedProcessCloneFiles, low, high]
  · intro file
    simp only [spawned, schedProcessCloneFiles, fileSlots]
    exact cloned_count (List.range fdMax) state.sched.files
  · simp [spawned]
  · simp
  · simp [spawned, apart]
  · simp [apart]
  · exact fun vm listed => clones.kept vm (forkable.allocated vm listed)
  · simp [mms, forkable.space.ne]
  · simp [forkable.root.ne]
  · simp [spawned, different]
  · simp [different]

section Runs

/-- Processes are addressed by their numbers. -/
def Numbered (sched : Sched) : Prop := ∀ process < sched.schedPid, (sched.processes process).pid = process

theorem moves_numbered {sched after : Sched} {action : SchedAction} {nodes' : List Nat} (numbered : Numbered sched)
    (moves : Moves sched nodes action after nodes') : Numbered after := by
  cases moves with
  | served => exact numbered
  | unserved => exact numbered
  | counted => exact numbered
  | preempted => exact numbered
  | scheduled => exact numbered
  | spawned =>
    intro process bound
    by_cases new : process = sched.schedPid
    · simp [spawned, new]
    · have old : process < sched.schedPid := by
        simp only [spawned] at bound
        omega
      simpa [spawned, new] using numbered process old
  | exited =>
    intro process bound
    by_cases same : process = sched.schedProcess
    · subst same
      simpa [dispatched, updated, closed] using numbered sched.schedProcess bound
    · simpa [dispatched, updated, closed, same] using numbered process bound
  | opened =>
    obtain ⟨processes, _, _, _, _, frame, same⟩ := virtFsOpen_frame _ _ sched
    rw [frame]
    exact fun process bound => (same process).2.trans (numbered process bound)

/-- What a fork needs of the scheduler holds after every run of it. -/
theorem run_numbered {stackKernel pageDir : Nat} {actions : List SchedAction} {sched : Sched}
    (ran : run schedStep (schedStart stackKernel pageDir) actions = some sched) :
    Numbered sched ∧ ∃ nodes, Queued sched.schedList.links sched.schedList.prio sched.schedTid nodes := by
  have both := run_always (fun sched => Numbered sched ∧ ∃ nodes, Settled sched nodes) ?_
    ⟨?_, [], schedStart_settled stackKernel pageDir⟩ ran
  · obtain ⟨numbered, nodes, settled⟩ := both
    exact ⟨numbered, nodes, settled.valid.queued⟩
  · rintro before action after ⟨numbered, nodes, settled⟩ stepped
    obtain ⟨nodes', moves, kept⟩ := schedStep_settled settled stepped
    exact ⟨moves_numbered numbered moves, nodes', kept⟩
  · intro process bound
    have first : (schedStart stackKernel pageDir).schedPid = 1 := rfl
    have zero : process = 0 := by omega
    rw [zero]
    rfl

end Runs

/-- The state of the first process, with two areas and a file descriptor. -/
def parentState : ProcessState where
  sched := (schedStart 0x1000 0x2000).setFd 0 3 (some 0)
  links := {
    next := fun node => match node with
      | .head 0 => .vm 0
      | .vm 0 => .vm 1
      | .vm 1 => .head 0
      | _ => .null
    prev := fun node => match node with
      | .head 0 => .vm 1
      | .vm 0 => .head 0
      | .vm 1 => .vm 0
      | _ => .null }
  vms := fun vm => if vm = 0 then ⟨0x1000, 0x3000, 0, none, some 0⟩ else ⟨0x8000, 0x9000, 0, some 0, some 0⟩
  vmCount := 2
  mms := fun _ => ⟨0x3000, 0x3000, 0x40000000, 0x9000⟩
  mmCount := 1
  fss := fun _ => ⟨some 0, some 0⟩
  fsCount := 1
  processes := fun _ => ⟨[105, 110, 105, 116], 0, 0⟩
  threads := fun _ => ⟨0x3FFFF000, ⟨0x23, 0x23, 0x23, 0x23, 1, 2, 3, 4, 5, 6, 7, 2, 127, 0, 0x100, 0x1B, 0x202, 0x3F000000, 0x23⟩⟩

theorem parentState_forkable : Forkable parentState 0 0 [0, 1] [] := by
  have list : Areas parentState.links 0 [0, 1] := by
    refine ⟨by decide, ?_⟩
    simp [Links.Joined, parentState]
  obtain ⟨numbered, _⟩ := run_numbered (show run schedStep (schedStart 0x1000 0x2000) [] = some _ from run_nil _)
  refine ⟨by decide, rfl, by decide, fun process bound => ?_, (schedStart_settled 0x1000 0x2000).valid.queued, list, by decide,
    by decide, by decide⟩
  have same : process = 0 := Nat.lt_one_iff.mp bound
  rw [same]
  exact numbered 0 Nat.one_pos

theorem process_fork_copies_example :
    ∃ child next, processFork 0 0x5000 0x6000 parentState = some (child, next) ∧ child ≠ 0 ∧
    (next.sched.processes child).files.fd 3 = some 0 ∧ next.sched.processes 0 = parentState.sched.processes 0 ∧
    ∃ copies, Areas next.links (next.processes child).mm copies ∧
      (copies.map next.vms).map VmFields.start = [0x1000, 0x8000] := by
  obtain ⟨child, next, ran, copies, framed⟩ := process_fork_copies parentState_forkable 0x5000 0x6000
  obtain ⟨areas, list, copied⟩ := copies.list
  have limit : (3 : Int) < fdMax := by
    unfold fdMax
    decide
  refine ⟨child, next, ran, (copies.fresh 0 Nat.one_pos).symm, ?_, framed.process, areas, list, ?_⟩
  · rw [copies.table 3 (by decide) limit]
    rfl
  · rw [copied]
    rfl

end YuzuOS.Proofs.ForkCopies
