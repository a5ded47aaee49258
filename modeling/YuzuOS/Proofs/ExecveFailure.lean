import YuzuOS.Kernel.Execve
import YuzuOS.Proofs.UserPages

/-! What is lost of a process when the program that is to replace its own cannot
be loaded: the loader is asked only after the old program has been taken down. -/

namespace YuzuOS.Proofs.ExecveFailure
open YuzuOS.Library YuzuOS.Kernel YuzuOS.Proofs.MemoryAreas YuzuOS.Proofs.UserPages

variable {process after : UserProcess} {start stop turns : Nat} {areas : List Nat}

structure UnmapsPages (process after : UserProcess) (start stop : Nat) : Prop where
  mm : after.mm = process.mm
  memory : after.memory = process.memory
  pages : ∀ page, after.mapped page = true ↔
    process.mapped page = true ∧ ¬(start ≤ page * physMmBlock ∧ page * physMmBlock < stop)

theorem UnmapsPages.refl (none : stop ≤ start) : UnmapsPages process process start stop :=
  ⟨rfl, rfl, fun page => (and_iff_left fun inside => by omega).symm⟩

theorem UnmapsPages.step (aligned : OnPage start) (below : start + physMmBlock ≤ stop)
    (later : UnmapsPages (process.unmapAddr start) after (start + physMmBlock) stop) :
    UnmapsPages process after start stop := by
  have page : start / physMmBlock * physMmBlock = start := Nat.div_mul_cancel (Nat.dvd_of_mod_eq_zero aligned.aligned)
  have size : physMmBlock = 4096 := rfl
  refine ⟨later.mm, later.memory, fun other => ?_⟩
  rw [later.pages]
  rcases eq_or_ne other (start / physMmBlock) with rfl | different
  · have here : (process.unmapAddr start).mapped (start / physMmBlock) = false := Function.update_self _ _ _
    rw [page, here]
    exact iff_of_false (fun both => Bool.false_ne_true both.1) fun both => both.2 ⟨le_rfl, by omega⟩
  · have same : (process.unmapAddr start).mapped other = process.mapped other := Function.update_of_ne different _ _
    have bounds : (start + physMmBlock ≤ other * physMmBlock ∧ other * physMmBlock < stop) ↔
        start ≤ other * physMmBlock ∧ other * physMmBlock < stop := by
      rw [size] at page different ⊢
      omega
    rw [same, bounds]

theorem unmapRange_spec (aligned : OnPage start) (whole : OnPage stop)
    (ran : UserProcess.unmapRange turns stop start process = some after) : UnmapsPages process after start stop := by
  induction turns generalizing start process with
  | zero => cases ran
  | succ turns ih =>
    rw [UserProcess.unmapRange] at ran
    split at ran
    next below =>
      have here := aligned.aligned
      have there := whole.aligned
      have small := whole.fits
      have inside : start + physMmBlock ≤ stop := by
        unfold physMmBlock at *
        omega
      have next : OnPage (start + physMmBlock) := ⟨by simp [here], by omega⟩
      rw [Nat.mod_eq_of_lt next.fits] at ran
      exact .step aligned inside (ih next ran)
    next none =>
      cases ran
      exact .refl (Nat.not_lt.mp none)

theorem listed_remove {links : Links VmNode} {vm : Nat} {rest : List Nat} (listed : Listed links (vm :: rest)) :
    Listed (dlistRemove .null (.vm vm) links) rest := by
  have cycle : Cycle links ([.head] ++ .vm vm :: rest.map .vm) := listed
  exact dlistRemove_cycle .null cycle

theorem elf32UnloadLoop_spec {iter next : VmNode} {rest : List Nat} (listed : Listed process.mm.links rest)
    (regular : ∀ vm ∈ rest, Regular (process.mm.vms vm)) (here : iter = follower rest)
    (ahead : ∀ vm others, rest = vm :: others → next = follower others)
    (ran : elf32UnloadLoop turns iter next process = some after) :
    Listed after.mm.links [] ∧ ∀ page, after.mapped page = true → process.mapped page = true ∧
      ∀ vm ∈ rest, ¬((process.mm.vms vm).start ≤ page * physMmBlock ∧ page * physMmBlock < (process.mm.vms vm).stop) := by
  induction turns generalizing rest iter next process with
  | zero => cases ran
  | succ turns ih =>
    cases rest with
    | nil =>
      subst here
      cases ran
      exact ⟨listed, fun page mapped => ⟨mapped, fun vm member => absurd member List.not_mem_nil⟩⟩
    | cons area rest =>
      subst here
      have whole := regular area List.mem_cons_self
      have second := ahead area rest rfl
      obtain ⟨unmapped, range, ran⟩ := Option.bind_eq_some_iff.mp ran
      have pages := unmapRange_spec ⟨whole.startAligned, whole.ordered.trans whole.bounded⟩ ⟨whole.stopAligned, whole.bounded⟩ range
      simp only at ran
      split at ran
      next => cases ran
      next =>
        obtain ⟨relinked, shape⟩ : ∃ relinked : UserProcess,
          relinked = { unmapped with mm.links := dlistRemove .null (.vm area) unmapped.mm.links } := ⟨_, rfl⟩
        rw [← shape] at ran
        have vms : relinked.mm.vms = process.mm.vms := by rw [shape, pages.mm]
        have shorter : Listed relinked.mm.links rest := by
          rw [shape, pages.mm]
          exact listed_remove listed
        have onward : ∀ vm others, rest = vm :: others → relinked.mm.links.next next = follower others := by
          rintro vm others rfl
          rw [second]
          exact listed_after (show Listed _ ([] ++ vm :: others) from shorter)
        have lookahead : (dlistRemove .null (.vm area) unmapped.mm.links).next next = relinked.mm.links.next next := by
          rw [shape]
        rw [lookahead] at ran
        obtain ⟨empty, kept⟩ := ih shorter (fun vm member => vms ▸ regular vm (List.mem_cons_of_mem _ member)) second onward ran
        refine ⟨empty, fun page mapped => ?_⟩
        obtain ⟨before, clear⟩ := kept page mapped
        rw [shape] at before
        obtain ⟨old, outside⟩ := (pages.pages page).mp before
        refine ⟨old, fun vm member => ?_⟩
        cases member with
        | head => exact outside
        | tail _ member => exact vms ▸ clear vm member

structure TakenDown (process after : UserProcess) : Prop where
  listed : Listed after.mm.links []
  brk : after.mm.brk = 0 ∧ after.mm.brkEnd = 0 ∧ after.brkStart = 0
  pages : ∀ areas, Sound process.mm areas → ∀ vm ∈ areas, ∀ page,
    (process.mm.vms vm).start ≤ page * physMmBlock → page * physMmBlock < (process.mm.vms vm).stop → after.mapped page = false

theorem elf32Unload_takesDown (ran : elf32Unload process = some after) : TakenDown process after := by
  unfold elf32Unload at ran
  simp only at ran
  split at ran
  next => cases ran
  next =>
    obtain ⟨unmapped, loop, content⟩ := Option.map_eq_some_iff.mp ran
    cases content
    refine ⟨Ring.nil_iff.mpr dlistHeadInit_alone, ⟨rfl, rfl, rfl⟩, fun areas sound vm member page lower upper => ?_⟩
    have first := listed_first sound.listed
    have ahead : ∀ vm others, areas = vm :: others → process.mm.links.next (process.mm.links.next .head) = follower others := by
      rintro vm others rfl
      rw [first]
      exact listed_after (show Listed _ ([] ++ vm :: others) from sound.listed)
    obtain ⟨_, kept⟩ := elf32UnloadLoop_spec sound.listed sound.regular first ahead loop
    apply Bool.eq_false_iff.mpr
    exact fun mapped => (kept page mapped).2 vm member ⟨lower, upper⟩

theorem elf32Load_missing {buffer : Nat} {load : Elf32Load} (missing : elf32Load buffer process = some (none, load)) :
    load.process = process := by
  unfold elf32Load at missing
  split at missing
  next =>
    cases missing
    rfl
  next =>
    obtain ⟨⟨result, verified⟩, verify, ran⟩ := Option.bind_eq_some_iff.mp missing
    have same := elfVerify_process verify
    simp only at ran
    split at ran
    next =>
      cases ran
      exact same
    next =>
      obtain ⟨⟨phoff, header⟩, reading, ran⟩ := Option.bind_eq_some_iff.mp ran
      have kept := (read32_spec reading).2.trans same
      simp only at ran
      split at ran
      next =>
        cases ran
        exact kept
      next =>
        obtain ⟨⟨_, again⟩, _, ran⟩ := Option.bind_eq_some_iff.mp ran
        obtain ⟨looped, _, ran⟩ := Option.bind_eq_some_iff.mp ran
        obtain ⟨⟨layout, final⟩, _, content⟩ := Option.map_eq_some_iff.mp ran
        cases content

section Execve
variable {path : List (BitVec 8)} {argv envp : List (List (BitVec 8))} {buffer : Nat} {exec failed : Exec}

theorem execveLoad_missing (missing : execveLoad path buffer exec = some (none, failed)) :
    failed.name = path ∧ TakenDown exec.process failed.process := by
  obtain ⟨unloaded, unload, ran⟩ := Option.bind_eq_some_iff.mp missing
  obtain ⟨⟨elf, load⟩, loaded, content⟩ := Option.map_eq_some_iff.mp ran
  cases content
  refine ⟨rfl, ?_⟩
  simp only [elf32Load_missing loaded]
  exact elf32Unload_takesDown unload

/-- The missing layout is used, or the call has died before that. -/
theorem schedProcessExecve_missing (missing : execveLoad path buffer exec = some (none, failed)) :
    schedProcessExecve path argv envp buffer exec = none := by
  rw [schedProcessExecve, missing, Option.bind_some]
  apply Option.eq_none_iff_forall_ne_some.mpr
  intro result ran
  obtain ⟨⟨userArgv, arguments⟩, _, ran⟩ := Option.bind_eq_some_iff.mp ran
  obtain ⟨⟨userEnvp, environment⟩, _, ran⟩ := Option.bind_eq_some_iff.mp ran
  cases ran

/-- A failed call that gives the caller its error and everything as it was. -/
def RolledBack (path : List (BitVec 8)) (argv envp : List (List (BitVec 8))) (buffer : Nat) (exec : Exec) : Prop :=
  ∃ result, result < 0 ∧ schedProcessExecve path argv envp buffer exec = some (result, exec)

theorem failed_execve_never_rolls_back (missing : execveLoad path buffer exec = some (none, failed)) :
    ¬RolledBack path argv envp buffer exec ∧ failed.name = path ∧ TakenDown exec.process failed.process := by
  refine ⟨?_, execveLoad_missing missing⟩
  rintro ⟨result, _, ran⟩
  rw [schedProcessExecve_missing missing] at ran
  cases ran

/-- A shell with one page of program, started from `sh`. -/
def shell : Exec where
  process :=
    { mm := ⟨0x5000, 0x40000000, 0x2000, (⟨fun _ => .null, fun _ => .null⟩ : Links VmNode) |> dlistHeadInit .head |>
        dlistAddTail (.vm 0) .head, fun _ => ⟨0x1000, 0x2000⟩, 1⟩
      brkStart := 0x4000
      memory := fun _ => 0
      mapped := fun page => page = 1
      frames := fun _ _ => 0xAA
      taken := 1 }
  name := [0x73, 0x68]
  stackUser := 0x9000
  entered := none

theorem shell_missing : ∃ failed, execveLoad [0x78] 0 shell = some (none, failed) ∧ failed.process.mapped 1 = false ∧
    failed.name = [0x78] := by
  have ran : (execveLoad [0x78] 0 shell).map (fun result => (result.1.isNone, result.2.process.mapped 1, result.2.name)) =
      some (true, false, [0x78]) := by decide +kernel
  obtain ⟨⟨elf, failed⟩, load, content⟩ := Option.map_eq_some_iff.mp ran
  simp only [Prod.mk.injEq, Option.isNone_iff_eq_none] at content
  obtain ⟨rfl, gone, name⟩ := content
  exact ⟨failed, load, gone, name⟩

theorem failed_execve_never_rolls_back_example : ∃ failed, execveLoad [0x78] 0 shell = some (none, failed) ∧
    ¬RolledBack [0x78] [[0x78]] [] 0 shell := by
  obtain ⟨failed, load, _⟩ := shell_missing
  exact ⟨failed, load, (failed_execve_never_rolls_back load).1⟩

/-- A file that does not exist takes the page of the shell with it. -/
theorem missing_file_takes_program_down : ∃ failed, execveLoad [0x78] 0 shell = some (none, failed) ∧
    shell.process.mapped 1 = true ∧ failed.process.mapped 1 = false ∧ shell.name ≠ failed.name ∧
      ¬RolledBack [0x78] [] [] 0 shell := by
  obtain ⟨failed, load, gone, name⟩ := shell_missing
  refine ⟨failed, load, rfl, gone, name ▸ by decide, ?_⟩
  rintro ⟨result, _, ran⟩
  rw [schedProcessExecve_missing load] at ran
  cases ran

end Execve

end YuzuOS.Proofs.ExecveFailure
