import YuzuOS.Libc.Unistd
import Mathlib.Data.List.Basic

/-! The argument lists that `execl`, `execlp` and `execle` pass on. Both helpers walk the
list with cursors of their own, so that `execle` takes its `envp` from the start of the list. -/

namespace YuzuOS.Proofs.ExecLists
open YuzuOS.Library YuzuOS.Libc

variable {memory : Memory} {ap argc i turns environ envp path arg : Nat} {words rest args : List Nat}

theorem argcLoop_eq (laid : memory.Words ap (words ++ 0 :: rest)) (nonzero : 0 ∉ words)
    (enough : words.length < turns) :
    execlArgcLoop memory turns ap argc = some (argc + words.length) := by
  induction words generalizing ap argc turns with
  | nil =>
    obtain ⟨turns, rfl⟩ := Nat.exists_eq_succ_of_ne_zero (Nat.ne_of_gt enough)
    have stop : memory.load32 ap = 0 := laid.1
    simp [execlArgcLoop, vaArg, stop]
  | cons word words ih =>
    obtain ⟨turns, rfl⟩ := Nat.exists_eq_succ_of_ne_zero (Nat.ne_of_gt (Nat.zero_lt_of_lt enough))
    simp only [List.mem_cons, not_or] at nonzero
    have here : memory.load32 ap ≠ 0 := fun zero => nonzero.1 (zero.symm.trans laid.1)
    have later : execlArgcLoop memory turns (ap + 4) (argc + 1) = some (argc + 1 + words.length) :=
      ih laid.2 nonzero.2 (Nat.lt_of_succ_lt_succ enough)
    simp only [execlArgcLoop, vaArg, if_pos here, later, List.length_cons, Nat.add_assoc, Nat.add_comm 1]

theorem argcGet_eq (laid : memory.Words ap (words ++ 0 :: rest)) (first : arg ≠ 0) (nonzero : 0 ∉ words)
    (small : words.length < 2 ^ 32) : execlArgcGet memory ap arg = some (words.length + 1) := by
  have counted : execlArgcLoop memory (2 ^ 32) ap 1 = some (1 + words.length) := argcLoop_eq laid nonzero small
  simp only [execlArgcGet, if_pos first, counted, Nat.add_comm]

theorem argvLoop_eq (entries : List Nat) (laid : memory.Words ap (words ++ rest)) :
    execlArgvLoop memory words.length ap entries.length (entries ++ List.replicate words.length 0 ++ [0]) =
      entries ++ words ++ [0] := by
  induction words generalizing ap entries with
  | nil => simp [execlArgvLoop]
  | cons word words ih =>
    have entry : (entries ++ List.replicate (words.length + 1) 0 ++ [0]).set entries.length word =
        entries ++ [word] ++ List.replicate words.length 0 ++ [0] := by
      simp [List.replicate_succ]
    have later := ih (entries ++ [word]) laid.2
    rw [List.length_append, List.length_singleton] at later
    simp only [execlArgvLoop, vaArg, List.length_cons, laid.1, entry, later]
    simp

theorem argvGet_eq (laid : memory.Words ap (words ++ rest)) :
    execlArgvGet memory ap (words.length + 1) arg = arg :: words ++ [0] := by
  have start : (List.replicate (words.length + 1 + 1) 0).set 0 arg = [arg] ++ List.replicate words.length 0 ++ [0] := by
    rw [List.replicate_succ, List.set_cons_zero, List.replicate_succ', List.append_assoc]
    rfl
  have filled := argvLoop_eq [arg] laid
  rw [List.length_singleton] at filled
  have last : ([arg] ++ words ++ [0]).set (words.length + 1) 0 = arg :: words ++ [0] := by
    simp
  simp only [execlArgvGet, start, Nat.add_sub_cancel, filled, last]

theorem argvGet_none : execlArgvGet memory ap 0 0 = [0] := rfl

/-- What is on the stack behind the first argument of a call with `args`, `NULL` and `envp`. -/
def variadics (args : List Nat) (envp : Nat) : List Nat := (args ++ [0]).tail ++ [envp]

/-- A call counts and collects the whole list. -/
theorem list_collected (nonzero : 0 ∉ args) (laid : memory.Words ap (variadics args envp))
    (small : args.length < 2 ^ 32) :
    ∃ argc, execlArgcGet memory ap (args.headD 0) = some argc ∧
      execlArgvGet memory ap argc (args.headD 0) = args ++ [0] := by
  cases args with
  | nil => exact ⟨0, rfl, argvGet_none⟩
  | cons arg words =>
    simp only [List.mem_cons, not_or] at nonzero
    have behind : variadics (arg :: words) envp = words ++ 0 :: [envp] := by simp [variadics]
    rw [behind] at laid
    refine ⟨words.length + 1, argcGet_eq laid (Ne.symm nonzero.1) nonzero.2 (Nat.lt_of_succ_lt small), ?_⟩
    exact argvGet_eq laid

theorem first_variadic (laid : memory.Words ap (variadics args envp)) :
    memory.load32 ap = envp ↔ args = [] ∨ (args ++ [0])[1]? = some envp := by
  cases args with
  | nil =>
    have here : memory.load32 ap = envp := laid.1
    simp [here]
  | cons arg words =>
    cases words with
    | nil =>
      have here : memory.load32 ap = 0 := laid.1
      simp [here]
    | cons second words =>
      have here : memory.load32 ap = second := laid.1
      simp [here]

/-- The three functions pass on the list of every call, and `execle` the `envp` behind it, if and only if
there is no argument or the word behind the first argument is `envp`. -/
theorem exec_lists_passed_iff (nonzero : 0 ∉ args) (laid : memory.Words ap (variadics args envp))
    (fits : ap + 4 * (args.length + 1) ≤ 2 ^ 32) :
    (execl memory environ ap path (args.headD 0) = some ⟨.execve, path, args ++ [0], environ⟩ ∧
      execlp memory environ ap path (args.headD 0) = some ⟨.execvpe, path, args ++ [0], environ⟩ ∧
      execle memory ap path (args.headD 0) = some ⟨.execve, path, args ++ [0], envp⟩) ↔
      args = [] ∨ (args ++ [0])[1]? = some envp := by
  have small : args.length < 2 ^ 32 := by omega
  obtain ⟨argc, counted, collected⟩ := list_collected nonzero laid small
  have list : execl memory environ ap path (args.headD 0) = some ⟨.execve, path, args ++ [0], environ⟩ := by
    simp only [execl, counted, Option.map_some, collected]
  have pathList : execlp memory environ ap path (args.headD 0) = some ⟨.execvpe, path, args ++ [0], environ⟩ := by
    simp only [execlp, counted, Option.map_some, collected]
  have environment : execle memory ap path (args.headD 0) = some ⟨.execve, path, args ++ [0], memory.load32 ap⟩ := by
    simp only [execle, vaArg, counted, Option.map_some, collected]
  rw [← first_variadic laid, environment]
  constructor
  · intro passed
    exact (ExecCall.mk.injEq .. ▸ Option.some.inj passed.2.2).2.2.2
  · intro taken
    exact ⟨list, pathList, by rw [taken]⟩

/-- One argument, with the terminator at 64 as the word that is taken for the environment. -/
theorem exec_lists_passed_iff_example :
    execl (fun _ => 0) 1024 64 128 256 = some ⟨.execve, 128, [256, 0], 1024⟩ ∧
      execlp (fun _ => 0) 1024 64 128 256 = some ⟨.execvpe, 128, [256, 0], 1024⟩ ∧
      execle (fun _ => 0) 64 128 256 = some ⟨.execve, 128, [256, 0], 0⟩ := by
  have laid : Memory.Words (fun _ => 0) 64 (variadics [256] 0) := ⟨rfl, rfl, trivial⟩
  exact (exec_lists_passed_iff (by decide : 0 ∉ [256]) laid (by decide)).mpr (.inr rfl)

/-- The stack from 64 on: a second argument at 512, the terminator, and 768 for the environment. -/
def exampleStack : Memory := fun place =>
  (((Memory.store32 (fun _ => 0) 64 512).store32 68 0).store32 72 768) place

theorem exampleStack_laid : exampleStack.Words 64 (variadics [256, 512] 768) := by
  refine ⟨?_, ?_, ?_, trivial⟩ <;> decide

/-- With two arguments the second one is taken for the environment. -/
theorem execle_takes_second_argument : ¬∀ (memory : Memory) (ap path envp : Nat) (args : List Nat), 0 ∉ args →
    memory.Words ap (variadics args envp) → ap + 4 * (args.length + 1) ≤ 2 ^ 32 →
    execle memory ap path (args.headD 0) = some ⟨.execve, path, args ++ [0], envp⟩ := by
  intro right
  have passed := right exampleStack 64 128 768 [256, 512] (by decide) exampleStack_laid (by decide)
  have laid : exampleStack.Words 64 ([512] ++ 0 :: [768]) := exampleStack_laid
  have counted : execlArgcGet exampleStack 64 256 = some 2 := argcGet_eq laid (by decide) (by decide) (by decide)
  have taken : execle exampleStack 64 128 256 = some ⟨.execve, 128, [256, 512, 0], 512⟩ := by
    rw [execle, counted]
    decide
  have wrong := Option.some.inj (taken.symm.trans passed)
  exact absurd wrong (by decide)

end YuzuOS.Proofs.ExecLists
