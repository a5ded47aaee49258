import YuzuOS.Kernel.Teardown
import YuzuOS.Proofs.ForkCopies
import YuzuOS.Proofs.PageTables

/-! The memory of a process is taken down area by area, while the walk is already
one area ahead. The list shrinks from its front, so that what is ahead is always
still on it. -/

namespace YuzuOS.Proofs.Teardown
open YuzuOS.Library YuzuOS.Kernel YuzuOS.Proofs.ForkCopies YuzuOS.Proofs.PageTables

/-- The areas of a process: on its list, in memory, of whole pages below the window of the
page tables, and with nothing behind them that is shared. -/
structure Owned (space : AddressSpace) (mm : Nat) (areas : List Nat) : Prop where
  list : Areas space.state.links mm areas
  allocated : ∀ vm ∈ areas, vm < space.state.vmCount
  live : ∀ vm ∈ areas, vm ∉ space.removed
  anonymous : ∀ vm ∈ areas, (space.state.vms vm).file = none
  unshared : ∀ vm ∈ areas, (space.state.vms vm).flags &&& mapShared = 0
  aligned : ∀ vm ∈ areas, (space.state.vms vm).start % physMmBlock = 0
  below : ∀ vm ∈ areas, (space.state.vms vm).stop ≤ pageTblBase
  tables : Proper space.paging

def Pages (vms : Nat → VmFields) (areas : List Nat) (page : Nat) : Prop :=
  ∃ vm ∈ areas, Stepped (vms vm).start (vms vm).stop page

theorem pages_cons {vms : Nat → VmFields} {vm page : Nat} {rest : List Nat} :
    Stepped (vms vm).start (vms vm).stop page ∨ Pages vms rest page ↔ Pages vms (vm :: rest) page := by
  simp [Pages]

variable {space after : AddressSpace} {mm : Nat} {areas rest : List Nat}
  {body : Nat → AddressSpace → Option AddressSpace}

def Takes (body : Nat → AddressSpace → Option AddressSpace) : Prop :=
  ∀ {space mm iter rest}, Owned space mm (iter :: rest) → ∃ paging,
    body iter space = some (({ space with paging } : AddressSpace).removeVm iter) ∧ Proper paging ∧
      Unmapped space.paging paging (Stepped (space.state.vms iter).start (space.state.vms iter).stop)

theorem takes_unmapping
    (unmaps : ∀ {space mm iter rest}, Owned space mm (iter :: rest) → body iter space =
      (space.rangeUnmap (space.state.vms iter).start (space.state.vms iter).stop).map (AddressSpace.removeVm iter)) :
    Takes body := by
  intro space mm iter rest owned
  obtain ⟨paging, unmap, proper, gone⟩ := rangeUnmap_spec (space.state.vms iter).start owned.tables
    (owned.below iter List.mem_cons_self)
  refine ⟨paging, ?_, proper, gone⟩
  rw [unmaps owned, AddressSpace.rangeUnmap, unmap]
  rfl

theorem elf32UnloadVm_takes : Takes elf32UnloadVm := by
  refine takes_unmapping fun {space mm iter rest} owned => ?_
  exact if_pos ⟨owned.anonymous iter List.mem_cons_self, owned.unshared iter List.mem_cons_self⟩

theorem schedExitVm_takes : Takes schedExitVm := by
  refine takes_unmapping fun {space mm iter rest} owned => ?_
  exact congrArg (Option.map _) (if_pos (owned.anonymous iter List.mem_cons_self))

theorem areas_remove {links : Links MmNode} {vm : Nat} (list : Areas links mm (vm :: rest)) :
    Areas (dlistRemove .null (.vm vm) links) mm rest := by
  have cycle : Cycle links ([.head mm] ++ .vm vm :: rest.map .vm) := list
  exact dlistRemove_cycle .null cycle

/-- What is ahead is the head, or an area that was not taken off the list. -/
theorem entryNext_follower (owned : Owned space mm areas) :
    space.entryNext (follower mm areas) = some (space.state.links.next (follower mm areas)) := by
  cases areas with
  | nil => rfl
  | cons vm rest => exact if_neg (owned.live vm List.mem_cons_self)

theorem removeVm_owned {iter : Nat} {paging : Paging} (owned : Owned space mm (iter :: rest)) (proper : Proper paging) :
    Owned (({ space with paging } : AddressSpace).removeVm iter) mm rest := by
  have nodup : (iter :: rest).Nodup := (List.nodup_cons.mp owned.list.nodup).2.of_map
  have others {property : Nat → Prop} (all : ∀ vm ∈ iter :: rest, property vm) : ∀ vm ∈ rest, property vm :=
    fun vm member => all vm (List.mem_cons_of_mem _ member)
  refine ⟨areas_remove owned.list, others owned.allocated, fun vm member again => ?_, others owned.anonymous,
    others owned.unshared, others owned.aligned, others owned.below, proper⟩
  rcases List.mem_cons.mp again with rfl | before
  · exact (List.nodup_cons.mp nodup).1 member
  · exact owned.live vm (List.mem_cons_of_mem _ member) before

structure TornDown (space : AddressSpace) (mm : Nat) (areas : List Nat) (after : AddressSpace) : Prop where
  list : Areas after.state.links mm []
  removed : after.removed = areas.reverse ++ space.removed
  state : after.state = { space.state with links := after.state.links }
  tables : Proper after.paging
  pages : Unmapped space.paging after.paging (Pages space.state.vms areas)

theorem foreachVmLoop_spec (takes : Takes body) {turns : Nat} {next : MmNode} (owned : Owned space mm rest)
    (ahead : ∀ vm others, rest = vm :: others → next = follower mm others) (enough : rest.length < turns) :
    ∃ after, foreachVmLoop body mm turns (follower mm rest) next space = some (rest, after) ∧
      TornDown space mm rest after := by
  induction rest generalizing turns next space with
  | nil =>
    obtain ⟨turns, rfl⟩ := Nat.exists_eq_succ_of_ne_zero (Nat.ne_of_gt enough)
    refine ⟨space, if_pos rfl, owned.list, rfl, rfl, owned.tables, fun virtual _ => ⟨fun ⟨_, member, _⟩ => ?_, fun _ => rfl⟩⟩
    exact absurd member List.not_mem_nil
  | cons iter rest ih =>
    obtain ⟨turns, rfl⟩ := Nat.exists_eq_succ_of_ne_zero (Nat.ne_of_gt (Nat.zero_lt_of_lt enough))
    obtain ⟨paging, taken, proper, gone⟩ := takes owned
    obtain rfl := ahead iter rest rfl
    have remaining := removeVm_owned owned proper
    have onward : ∀ vm others, rest = vm :: others →
        (({ space with paging } : AddressSpace).removeVm iter).state.links.next (follower mm rest) = follower mm others := by
      rintro vm others rfl
      exact Areas.after (show Areas _ mm ([] ++ vm :: others) from remaining.list)
    obtain ⟨after, walk, torn⟩ := ih remaining onward (Nat.lt_of_succ_lt_succ enough)
    refine ⟨after, ?_, torn.list, ?_, torn.state, torn.tables, ?_⟩
    · rw [follower, foreachVmLoop, if_neg (owned.live iter List.mem_cons_self), taken, Option.bind_some,
        entryNext_follower remaining, Option.bind_some, walk]
      rfl
    · rw [torn.removed, List.reverse_cons, List.append_assoc]
      rfl
    · exact (gone.trans torn.pages).congr fun page => pages_cons

theorem foreachVm_spec (takes : Takes body) (owned : Owned space mm areas) :
    ∃ after, foreachVm body mm space = some (areas, after) ∧ TornDown space mm areas after := by
  have short : areas.length ≤ space.state.vmCount := owned.list.length_le owned.allocated
  have first : space.state.links.next (.head mm) = follower mm areas := owned.list.first
  have ahead : ∀ vm others, areas = vm :: others → space.state.links.next (follower mm areas) = follower mm others := by
    rintro vm others rfl
    exact Areas.after (show Areas _ mm ([] ++ vm :: others) from owned.list)
  obtain ⟨after, walk, torn⟩ := foreachVmLoop_spec takes owned ahead (Nat.lt_succ_of_le short)
  refine ⟨after, ?_, torn⟩
  rw [foreachVm, AddressSpace.entryNext, Option.bind_some, first, entryNext_follower owned, Option.bind_some, walk]

def InRange (start stop virtual : Nat) : Prop :=
  ∃ addr, start ≤ addr ∧ addr < stop ∧ addr / physMmBlock = virtual / physMmBlock

/-- The walk comes to every area once and in order, and ends with an empty list and with
the pages of the areas, and no others but those of `extra`, unmapped. -/
structure Unloads (space : AddressSpace) (mm : Nat) (areas : List Nat) (extra : Nat → Prop)
    (result : Option (List Nat × AddressSpace)) (after : AddressSpace) : Prop where
  returned : result = some (areas, after)
  list : Areas after.state.links mm []
  removed : after.removed = areas.reverse ++ space.removed
  gone : ∀ vm ∈ areas, ∀ virtual, (space.state.vms vm).start ≤ virtual → virtual < (space.state.vms vm).stop →
    after.paging.translate virtual = none
  kept : ∀ virtual < 2 ^ 32, (∀ vm ∈ areas, ¬InRange (space.state.vms vm).start (space.state.vms vm).stop virtual) →
    ¬extra virtual → after.paging.translate virtual = space.paging.translate virtual

theorem TornDown.gone (torn : TornDown space mm areas after) (owned : Owned space mm areas) {vm virtual : Nat}
    (member : vm ∈ areas) (lower : (space.state.vms vm).start ≤ virtual) (upper : virtual < (space.state.vms vm).stop) :
    after.paging.translate virtual = none := by
  have inside : virtual < 2 ^ 32 := (upper.trans_le (owned.below vm member)).trans (by decide)
  exact (torn.pages virtual inside).1 ⟨vm, member, stepped_of_inside (owned.aligned vm member) lower upper⟩

theorem TornDown.kept (torn : TornDown space mm areas after) {virtual : Nat} (inside : virtual < 2 ^ 32)
    (outside : ∀ vm ∈ areas, ¬InRange (space.state.vms vm).start (space.state.vms vm).stop virtual) :
    after.paging.translate virtual = space.paging.translate virtual := by
  refine (torn.pages virtual inside).2 ?_
  rintro ⟨vm, member, stepped⟩
  exact outside vm member (stepped_inside stepped)

theorem elf32UnloadMm_unloads (owned : Owned space mm areas) :
    ∃ after, Unloads space mm areas (fun _ => False) (elf32UnloadMm mm space) after := by
  obtain ⟨after, walk, torn⟩ := foreachVm_spec elf32UnloadVm_takes owned
  refine ⟨_, congrArg (Option.map _) walk, ?_, torn.removed, ?_, ?_⟩
  · exact Ring.nil_iff.mpr dlistHeadInit_alone
  · intro vm member virtual lower upper
    exact torn.gone owned member lower upper
  · intro virtual inside outside _
    exact torn.kept inside outside

/-- The stack range is the one that the thread was given, unless it would begin below zero:
then the loop comes to no page. -/
theorem schedExitMm_unloads {process thread : Nat} (owned : Owned space (space.state.processes process).mm areas)
    (user : (space.state.threads thread).stackUser ≤ pageTblBase) :
    ∃ after, Unloads space (space.state.processes process).mm areas
      (InRange ((space.state.threads thread).stackUser - schedStackSize) (space.state.threads thread).stackUser)
      (schedExitMm process thread space) after := by
  obtain ⟨torn, walk, down⟩ := foreachVm_spec schedExitVm_takes owned
  have same : torn.state.threads thread = space.state.threads thread := by rw [down.state]
  obtain ⟨start, bottom⟩ : ∃ start, start = ((space.state.threads thread).stackUser + 2 ^ 32 - schedStackSize) % 2 ^ 32 := ⟨_, rfl⟩
  obtain ⟨paging, unmap, -, stack⟩ := rangeUnmap_spec start down.tables user
  refine ⟨{ torn with paging }, ?_, down.list, down.removed, ?_, ?_⟩
  · rw [schedExitMm, walk, Option.bind_some]
    simp only [same]
    rw [← bottom, AddressSpace.rangeUnmap, unmap]
    rfl
  · intro vm member virtual lower upper
    have inside : virtual < 2 ^ 32 := (upper.trans_le (owned.below vm member)).trans (by decide)
    have gone := down.gone owned member lower upper
    by_cases again : Stepped start (space.state.threads thread).stackUser (virtual / physMmBlock)
    · exact (stack virtual inside).1 again
    · exact ((stack virtual inside).2 again).trans gone
  · intro virtual inside outside apart
    refine ((stack virtual inside).2 fun stepped => apart ?_).trans (down.kept inside outside)
    obtain ⟨addr, lower, upper, page⟩ := stepped_inside stepped
    unfold pageTblBase at user
    unfold schedStackSize at bottom ⊢
    exact ⟨addr, by omega, upper, page⟩

theorem process_teardown {process thread : Nat} (owned : Owned space (space.state.processes process).mm areas)
    (user : (space.state.threads thread).stackUser ≤ pageTblBase) :
    (∃ after, Unloads space (space.state.processes process).mm areas (fun _ => False)
      (elf32UnloadMm (space.state.processes process).mm space) after) ∧
    ∃ after, Unloads space (space.state.processes process).mm areas
      (InRange ((space.state.threads thread).stackUser - schedStackSize) (space.state.threads thread).stackUser)
      (schedExitMm process thread space) after :=
  ⟨elf32UnloadMm_unloads owned, schedExitMm_unloads owned user⟩

/-- Two areas whose pages are in one table, with the stack as the second one. -/
def endingSpace : AddressSpace where
  state := { parentState with
    vms := fun vm => if vm = 0 then ⟨0, 0x2000, 0, none, some 0⟩ else ⟨0x8000, 0xA000, 0, none, some 0⟩
    threads := fun _ => ⟨0xA000, (parentState.threads 0).registers⟩ }
  paging := onePage 0x400007
  removed := []

theorem process_teardown_example :
    (∃ after, elf32UnloadMm 0 endingSpace = some ([0, 1], after) ∧ after.paging.translate 0 = none) ∧
    ∃ after, schedExitMm 0 0 endingSpace = some ([0, 1], after) ∧ after.paging.translate 0 = none ∧
      after.removed = [1, 0] := by
  have list : Areas endingSpace.state.links 0 [0, 1] := by
    refine ⟨by decide, ?_⟩
    simp [Links.Joined, endingSpace, parentState]
  have owned : Owned endingSpace (endingSpace.state.processes 0).mm [0, 1] :=
    ⟨list, by decide, by decide, by decide, by decide, by decide, by decide, onePage_proper _⟩
  obtain ⟨⟨unloaded, unload⟩, ended, exit⟩ := @process_teardown _ _ 0 0 owned (by decide)
  exact ⟨⟨unloaded, unload.returned, unload.gone 0 (by decide) 0 (by decide) (by decide)⟩,
    ended, exit.returned, exit.gone 0 (by decide) 0 (by decide) (by decide), exit.removed⟩

end YuzuOS.Proofs.Teardown
