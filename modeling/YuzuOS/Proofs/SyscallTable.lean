import YuzuOS.Kernel.Syscall

/-! The dispatch of system calls. The number of a call is an index into a table with
holes; a hole answers nothing, and a number beside the table is looked up all the same. -/

namespace YuzuOS.Proofs.SyscallTable
open YuzuOS.Kernel

variable {σ : Type u} (handler : Syscall → List (BitVec 32) → SyscallState σ → Option (BitVec 32 × SyscallState σ))
  {registers : ItrRegisters} {state : SyscallState σ} {syscall : Syscall} {index : Nat}

def Names (registers : ItrRegisters) (syscall : Syscall) : Prop := registers.eax = BitVec.ofNat 32 syscall.number

instance (registers : ItrRegisters) (syscall : Syscall) : Decidable (Names registers syscall) :=
  inferInstanceAs (Decidable (_ = _))

/-- A call with an entry goes to its handler, with the argument registers, and the result of
the handler, if it returns, is in the `eax` of the caller. -/
def Delivers (registers : ItrRegisters) (state : SyscallState σ) (syscall : Syscall) (run : SyscallRun σ) : Prop :=
  run.called = [(syscall, registers.arguments)] ∧
    run.returned.map (fun back => back.2) = (handler syscall registers.arguments { state with threadRegisters := registers }).map
      fun answer => ({ registers with eax := answer.1 }, answer.2)

/-- Any other call comes back to its caller as an error, and calls nothing. -/
def Refuses (run : SyscallRun σ) : Prop :=
  run.called = [] ∧ ∃ code registers state, run.returned = some (code, registers, state) ∧ registers.eax.toInt < 0 ∧
    ∀ errno, syscallReturn registers.eax.toInt errno = (-1, -registers.eax.toInt)

/-- What `syscall_handler` promises for its registers. -/
def Handles (registers : ItrRegisters) (state : SyscallState σ) : Prop :=
  ∃ run, syscallHandler handler registers state = some run ∧
    (∀ syscall, Names registers syscall → Delivers handler registers state syscall run) ∧
    ((∀ syscall, ¬Names registers syscall) → Refuses run)

theorem named_index (named : Names registers syscall) : registers.eax.toInt = syscall.number := by
  rw [named]
  cases syscall <;> rfl

theorem index_named (entry : registers.eax.toInt = index) (found : syscalls index = some syscall) :
    Names registers syscall := by
  have number := syscalls_some.mp found
  rw [number] at entry
  refine BitVec.eq_of_toInt_eq (entry.trans ?_)
  cases syscall <;> rfl

theorem names_unique {other : Syscall} (named : Names registers syscall) (again : Names registers other) :
    syscall = other := by
  have same : syscall.number = other.number := Int.ofNat_inj.mp ((named_index named).symm.trans (named_index again))
  have found := syscalls_number syscall
  rw [same, syscalls_number other] at found
  exact (Option.some.inj found).symm

theorem handler_named (named : Names registers syscall) : syscallHandler handler registers state =
    some ⟨[(syscall, registers.arguments)],
      (handler syscall registers.arguments { state with threadRegisters := registers }).map fun (result, state) =>
        (itrContinue, { registers with eax := result }, state)⟩ := by
  have index := named_index named
  have inside : 0 ≤ registers.eax.toInt ∧ registers.eax.toInt < syscallsLength := by
    rw [index]
    exact ⟨Int.natCast_nonneg _, Int.ofNat_lt.mpr (number_inside syscall)⟩
  have entry : syscalls registers.eax.toInt.toNat = some syscall := by
    rw [index, Int.toNat_natCast, syscalls_number]
  simp only [syscallHandler, if_pos inside, entry]

/-- A hole of the table: the caller finds the number in `eax`. -/
theorem handler_unnamed {run : SyscallRun σ} (unnamed : ∀ syscall, ¬Names registers syscall)
    (ran : syscallHandler handler registers state = some run) :
    run = ⟨[], some (itrStop, registers, state)⟩ ∧ 0 ≤ registers.eax.toInt := by
  unfold syscallHandler at ran
  simp only at ran
  split at ran
  next inside =>
    have entry : registers.eax.toInt = (registers.eax.toInt.toNat : Int) := (Int.toNat_of_nonneg inside.1).symm
    cases found : syscalls registers.eax.toInt.toNat with
    | none =>
      rw [found] at ran
      cases ran
      exact ⟨rfl, inside.1⟩
    | some syscall => exact absurd (index_named entry found) (unnamed syscall)
  next => cases ran

/-- The promise is kept for the numbers of the table and for no other one. -/
theorem syscall_handler_iff (registers : ItrRegisters) (state : SyscallState σ) :
    Handles handler registers state ↔ ∃ syscall, Names registers syscall := by
  constructor
  · rintro ⟨run, ran, _, refused⟩
    by_contra none
    have unnamed := not_exists.mp none
    obtain ⟨rfl, positive⟩ := handler_unnamed handler unnamed ran
    obtain ⟨_, code, after, _, same, negative, _⟩ := refused unnamed
    cases same
    omega
  · rintro ⟨syscall, named⟩
    refine ⟨_, handler_named handler named, fun other again => ?_, fun unnamed => absurd named (unnamed syscall)⟩
    cases names_unique named again
    exact ⟨rfl, by rw [Option.map_map]; rfl⟩

def statRegisters : ItrRegisters :=
  ⟨0x23, 0x23, 0x23, 0x23, 0, 0, 0, 0, 0x1000, 0, 0x2000, 106, 127, 0, 0x100, 0x1B, 0x202, 0x3F000000, 0x23⟩

/-- A call of `stat` comes back with its own number, which `stat` of the C library returns
as a success, and the number -1 reads in front of the table. -/
theorem stat_not_refused :
    ¬Handles (fun _ _ state => some (0, state)) statRegisters (⟨(), statRegisters⟩ : SyscallState Unit) ∧
    (syscallHandler (fun _ _ state => some (0, state)) statRegisters (⟨(), statRegisters⟩ : SyscallState Unit)).map
      (fun run => run.returned.map fun back => syscallReturn back.2.1.eax.toInt 0) = some (some (106, 0)) ∧
    (syscallHandler (fun _ _ state => some (0, state)) { statRegisters with eax := BitVec.ofInt 32 (-1) }
      (⟨(), statRegisters⟩ : SyscallState Unit)).isNone = true := by
  refine ⟨?_, rfl, rfl⟩
  rintro ⟨run, ran, _, refused⟩
  have unnamed : ∀ syscall, ¬Names statRegisters syscall := by
    intro syscall
    cases syscall <;> decide
  obtain ⟨_, code, after, _, same, negative, _⟩ := refused unnamed
  obtain ⟨rfl, positive⟩ := handler_unnamed _ unnamed ran
  cases same
  omega

end YuzuOS.Proofs.SyscallTable
