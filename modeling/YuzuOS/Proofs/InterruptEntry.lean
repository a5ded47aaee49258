import YuzuOS.Kernel.Interrupts

/-! The entry code of interrupts. What it saves comes back, and a handler sees the program that was interrupted, if the
label pushes an error code exactly where the processor does not; for four exceptions both do or neither does. -/

namespace YuzuOS.Proofs.InterruptEntry
open YuzuOS.Kernel YuzuOS.Kernel.Interrupts

variable {H : Type u} {σ : Type v}

/-- The structure that a handler is given. In the ring of the kernel its last words are those of the interrupted stack. -/
def seen (layout : EntryLayout) (cpu : Processor) (number : Nat) (error : BitVec 32) : ItrRegisters :=
  let inner := cpu.ring = 0
  ⟨cpu.gs, cpu.fs, cpu.es, cpu.ds, cpu.edi, cpu.esi, cpu.ebp, if inner then cpu.esp - 20 else layout.esp0 - 28, cpu.ebx,
    cpu.edx, cpu.ecx, cpu.eax, BitVec.ofNat 32 number, error, cpu.eip, cpu.cs, cpu.eflags,
    if inner then cpu.stack.getD 0 0 else cpu.esp, if inner then cpu.stack.getD 1 0 else cpu.ss⟩

section Frame

variable {layout : EntryLayout} {cpu : Processor} {gate : IdtEntry} {code : EntryCode} {error : Option (BitVec 32)}
  {ss0 esp0 : BitVec 32}

/-- The word that `pusha` pushes for the stack pointer, seven or five words below where the processor began. -/
def innerEsp (layout : EntryLayout) (cpu : Processor) : BitVec 32 :=
  if cpu.ring = 0#2 then cpu.esp - 20 else layout.esp0 - 28

theorem push_push (esp a b : BitVec 32) : esp - a - b = esp - (a + b) := by bv_omega

/-- The processor in the kernel at the call of the handler, when the label pushes an error code exactly if the processor
does not. -/
theorem enter_eq (layout : EntryLayout) (cpu : Processor) (gate : IdtEntry)
    (matched : code.errorPushed = error.isSome) :
    (code.enter (cpu.enter layout.ss0 layout.esp0 gate error)).stack =
        cpu.gs :: cpu.fs :: cpu.es :: cpu.ds :: cpu.edi :: cpu.esi :: cpu.ebp :: innerEsp layout cpu :: cpu.ebx ::
          cpu.edx :: cpu.ecx :: cpu.eax :: BitVec.ofNat 32 code.number :: error.getD 0 :: cpu.eip :: cpu.cs ::
          cpu.eflags :: (if cpu.ring = 0#2 then cpu.stack else cpu.esp :: cpu.ss :: cpu.stack) ∧
      (code.enter (cpu.enter layout.ss0 layout.esp0 gate error)).esp = innerEsp layout cpu - 48 ∧
      (cpu.ring = 0#2 → (code.enter (cpu.enter layout.ss0 layout.esp0 gate error)).ss = cpu.ss) := by
  unfold EntryCode.enter Processor.enter innerEsp
  rw [matched]
  by_cases inner : cpu.ring = 0#2 <;> cases error <;>
    simp [inner, Processor.pushRegisters, Processor.push, push_push]

theorem enter_registers (matched : code.errorPushed = error.isSome) :
    (code.enter (cpu.enter layout.ss0 layout.esp0 gate error)).registers =
      seen layout cpu code.number (error.getD 0) := by
  unfold Processor.registers seen
  rw [(enter_eq layout cpu gate matched).1]
  by_cases inner : cpu.ring = 0#2 <;> simp [inner, innerEsp]

/-- The program that was interrupted goes on with the answer of the handler. -/
theorem enter_leave (layout : EntryLayout) (cpu : Processor) (gate : IdtEntry)
    (matched : code.errorPushed = error.isSome) (eax : BitVec 32) :
    ((code.enter (cpu.enter layout.ss0 layout.esp0 gate error)).setRegisters
      { seen layout cpu code.number (error.getD 0) with eax := eax }).leave = some { cpu with eax := eax } := by
  obtain ⟨stack, esp, ss⟩ := enter_eq layout cpu gate matched
  generalize code.enter (cpu.enter layout.ss0 layout.esp0 gate error) = inside at stack esp ss
  by_cases inner : cpu.ring = 0#2
  · have back : innerEsp layout cpu - 48#32 + 56#32 + 12#32 = cpu.esp := by
      rw [innerEsp, if_pos inner]
      bv_omega
    have low : cpu.cs.setWidth 2 = 0#2 := inner
    rw [if_pos inner] at stack
    -- the handler is given two words that the interrupted stack may not have
    rcases below : cpu.stack with _ | ⟨first, _ | ⟨second, rest⟩⟩ <;> rw [below] at stack <;>
      simp [Processor.leave, Processor.iret, Processor.setRegisters, Processor.ring, seen, stack, esp, ss inner, low, back,
        below]
  · have low : ¬cpu.cs.setWidth 2 = 0#2 := inner
    rw [if_neg inner] at stack
    simp [Processor.leave, Processor.iret, Processor.setRegisters, Processor.ring, seen, stack, low]

end Frame

section Gates

variable {entry : EntryCode → BitVec 32} {idt : Nat → IdtEntry} {vector : Nat} {code : EntryCode} {flags : BitVec 8}

def lastGate (gates : List (Nat × EntryCode × BitVec 8)) (vector : Nat) : Option (Nat × EntryCode × BitVec 8) :=
  gates.reverse.find? fun gate => gate.1 == vector

def gateEntry (entry : EntryCode → BitVec 32) (gate : Nat × EntryCode × BitVec 8) : IdtEntry :=
  ⟨(entry gate.2.1).setWidth 16, 0x08, 0, gate.2.2, (entry gate.2.1 >>> 16).setWidth 16⟩

theorem foldl_gates (entry : EntryCode → BitVec 32) (gates : List (Nat × EntryCode × BitVec 8)) (idt : Nat → IdtEntry)
    (vector : Nat) :
    gates.foldl (fun idt gate => idtEntryAdd gate.1 (entry gate.2.1) 0x08 gate.2.2 idt) idt vector =
      (lastGate gates vector).elim (idt vector) (gateEntry entry) := by
  induction gates generalizing idt with
  | nil => rfl
  | cons gate gates ih =>
    rw [List.foldl_cons, ih, lastGate, lastGate, List.reverse_cons, List.find?_append]
    cases gates.reverse.find? fun gate => gate.1 == vector with
    | some last => rfl
    | none =>
      by_cases own : gate.1 = vector
      · subst own
        simp [idtEntryAdd, gateEntry]
      · simp [idtEntryAdd, own, Ne.symm own]

theorem gateEntry_base (entry : EntryCode → BitVec 32) (gate : Nat × EntryCode × BitVec 8) :
    (gateEntry entry gate).base = entry gate.2.1 := by
  generalize whole : entry gate.2.1 = address
  have words : (gateEntry entry gate).base = (address >>> 16).setWidth 16 ++ address.setWidth 16 := by
    rw [← whole]
    rfl
  rw [words]
  apply BitVec.eq_of_getLsbD_eq
  intro i inside
  rw [BitVec.getLsbD_append]
  by_cases low : i < 16
  · simp [low]
  · have high : i - 16 < 16 := by omega
    have back : 16 + (i - 16) = i := by omega
    simp [low, high, back]

theorem idtInit_last (last : lastGate idtGates vector = some (vector, code, flags)) :
    idtInit entry idt vector = gateEntry entry (vector, code, flags) := by
  rw [idtInit, foldl_gates, last]
  rfl

/-- The second call for 21 takes the place of the first, and 22 has none. -/
theorem lastGate_isr : ∀ vector < 32, vector ∉ [21, 22] →
    lastGate idtGates vector = some (vector, .isr vector, 0x8E) := by decide

theorem lastGate_irq : ∀ irq < 16, lastGate idtGates (32 + irq) = some (32 + irq, .irq irq, 0x8E) := by decide

theorem lastGate_syscall : lastGate idtGates 127 = some (127, .isr 127, 0xEE) := by decide

/-- Only the gate of the system calls is for programs. -/
theorem idtInit_dpl (other : vector ≠ 127) : (idtInit entry (fun _ => ⟨0, 0, 0, 0, 0⟩) vector).dpl = 0#2 := by
  have kernel : ∀ gate ∈ idtGates, gate.1 ≠ 127 → (gate.2.2 >>> 5).setWidth 2 = 0#2 := by decide
  have clear : ((0 : BitVec 8) >>> 5).setWidth 2 = 0#2 := by decide
  rw [idtInit, foldl_gates]
  cases last : lastGate idtGates vector with
  | none => exact clear
  | some gate =>
    have member := List.mem_reverse.mp (List.mem_of_find?_eq_some last)
    have own : gate.1 = vector := by simpa using List.find?_some last
    exact kernel gate member (own ▸ other)

theorem idtInit_syscall : (idtInit entry idt 127).dpl = 3#2 := by
  have flags : ((0xEE : BitVec 8) >>> 5).setWidth 2 = 3#2 := by decide
  rw [idtInit_last lastGate_syscall]
  exact flags

end Gates

/-- The addresses in the gates are those of the entry code. -/
def Placed (layout : EntryLayout) (entry : EntryCode → BitVec 32) : Prop :=
  ∀ gate ∈ idtGates, layout.code (entry gate.2.1) = some gate.2.1

section Service

variable {layout : EntryLayout} {entry : EntryCode → BitVec 32} {call : ItrCall H σ} {machine : InterruptMachine H σ}
  {vector index number : Nat} {code : EntryCode} {flags : BitVec 8} {error : Option (BitVec 32)}

theorem lastGate_found (last : lastGate idtGates vector = some (vector, code, flags)) (placed : Placed layout entry) :
    layout.code (entry code) = some code := by
  have member := List.mem_of_find?_eq_some last
  exact placed _ (List.mem_reverse.mp member)

theorem seen_number (cpu : Processor) (small : number < 256) (error : BitVec 32) :
    (seen layout cpu number error).intNo.toNat = number := by
  rw [seen, BitVec.toNat_ofNat]
  omega

theorem present_gate (ours : flags = 0x8E ∨ flags = 0xEE) : (gateEntry entry (vector, code, flags)).present = true := by
  have bits : (flags.getLsbD 7 && flags &&& 0x1F == 0x0E) = true := by rcases ours with rfl | rfl <;> decide
  exact bits

theorem throughGate_isr (call : ItrCall H σ) (error : Option (BitVec 32)) (placed : Placed layout entry)
    (gates : machine.idt = idtInit entry fun _ => ⟨0, 0, 0, 0, 0⟩)
    (last : lastGate idtGates vector = some (vector, .isr index, flags)) :
    ∃ gate, machine.throughGate layout call vector error =
      (isrHandler call machine.isr
        ((EntryCode.isr index).enter (machine.cpu.enter layout.ss0 layout.esp0 gate error)).registers
        machine.kernel).bind fun after =>
        (((EntryCode.isr index).enter (machine.cpu.enter layout.ss0 layout.esp0 gate error)).setRegisters
          after.1).leave.map fun cpu => { machine with cpu := cpu, kernel := after.2 } := by
  have gate : machine.idt vector = gateEntry entry (vector, .isr index, flags) := by rw [gates, idtInit_last last]
  refine ⟨gateEntry entry (vector, .isr index, flags), ?_⟩
  rw [InterruptMachine.throughGate, gate, gateEntry_base, lastGate_found last placed]
  rfl

theorem gate_present (gates : machine.idt = idtInit entry fun _ => ⟨0, 0, 0, 0, 0⟩)
    (last : lastGate idtGates vector = some (vector, code, flags)) (ours : flags = 0x8E ∨ flags = 0xEE) :
    (machine.idt vector).present = true := by
  rw [gates, idtInit_last last]
  exact present_gate ours

theorem interrupt_gate (gates : machine.idt = idtInit entry fun _ => ⟨0, 0, 0, 0, 0⟩)
    (last : lastGate idtGates vector = some (vector, code, flags)) (ours : flags = 0x8E ∨ flags = 0xEE) :
    machine.interrupt layout call vector error = machine.throughGate layout call vector error := by
  rw [InterruptMachine.interrupt, if_pos (gate_present gates last ours)]

/-- A vector without a gate comes through that of the general protection fault. -/
theorem interrupt_absent (gates : machine.idt = idtInit entry fun _ => ⟨0, 0, 0, 0, 0⟩)
    (absent : lastGate idtGates vector = none) :
    machine.interrupt layout call vector error =
      machine.throughGate layout call 13 (some (BitVec.ofNat 32 (8 * vector + 3))) := by
  have missing : ¬(machine.idt vector).present = true := by
    rw [gates, idtInit, foldl_gates, absent]
    simp [IdtEntry.present]
  have fault : (machine.idt 13).present = true := gate_present gates (lastGate_isr 13 (by decide) (by decide)) (.inl rfl)
  rw [InterruptMachine.interrupt, if_neg missing, if_pos fault]

theorem interruptProgram_gate (user : machine.cpu.ring ≠ 0)
    (gates : machine.idt = idtInit entry fun _ => ⟨0, 0, 0, 0, 0⟩) :
    machine.interruptProgram layout call 127 = machine.throughGate layout call 127 none := by
  have present : (machine.idt 127).present = true := gate_present gates lastGate_syscall (.inr rfl)
  have every : ¬(machine.idt 127).dpl < machine.cpu.ring := by
    rw [gates, idtInit_syscall]
    bv_omega
  rw [InterruptMachine.interruptProgram, if_neg user, if_neg (not_or.mpr ⟨not_not.mpr present, every⟩),
    interrupt_gate gates lastGate_syscall (.inr rfl)]

/-- The labels that push no zero are those of the exceptions with an error code, but for these five. -/
theorem errorPushed_eq : ∀ vector < 32, vector ∉ [17, 21, 22, 29, 30] →
    (EntryCode.isr vector).errorPushed = decide (vector ∈ errorVectors) ∧ vector ∉ [21, 22] := by decide

end Service

/-- Labels of sixteen bytes, from the first megabyte of the kernel on. -/
def someEntry (code : EntryCode) : BitVec 32 := BitVec.ofNat 32 (0xC0100000 + 16 * code.number)

def someCode (address : BitVec 32) : Option EntryCode :=
  let number := (address.toNat - 0xC0100000) / 16
  if number < 32 ∨ number = 127 then some (.isr number) else some (.irq (number - 32))

def someLayout : EntryLayout := ⟨someCode, 0x10, 0xC0200000⟩

theorem some_placed : Placed someLayout someEntry := by
  unfold Placed
  decide

def someProgram : Processor := ⟨0x23, 0x23, 0x23, 0x23, 1, 2, 3, 0x1000, 4, 5, 6, 7, 0x8000, 0x1B, 0x202, 0x23, []⟩

def somePics : Pics := ⟨⟨8, 0, 0, 0, 0, []⟩, ⟨0x70, 0, 0, 0, 0, [.mode]⟩⟩

section Exceptions

variable {layout : EntryLayout} {entry : EntryCode → BitVec 32} {call : ItrCall H σ} {machine : InterruptMachine H σ}
  {cpu inside after : Processor} {gate : IdtEntry} {vector : Nat} {code : EntryCode} {error : BitVec 32}

/-- A label that pushes a zero below the error code of the processor. -/
theorem enter_extra (layout : EntryLayout) (cpu : Processor) (gate : IdtEntry) (error : BitVec 32)
    (extra : code.errorPushed = false) :
    (code.enter (cpu.enter layout.ss0 layout.esp0 gate (some error))).stack =
      cpu.gs :: cpu.fs :: cpu.es :: cpu.ds :: cpu.edi :: cpu.esi :: cpu.ebp ::
        (code.enter (cpu.enter layout.ss0 layout.esp0 gate (some error))).registers.esp :: cpu.ebx :: cpu.edx ::
          cpu.ecx :: cpu.eax :: BitVec.ofNat 32 code.number :: 0 :: error :: cpu.eip :: cpu.cs :: cpu.eflags ::
            (if cpu.ring = 0#2 then cpu.stack else cpu.esp :: cpu.ss :: cpu.stack) := by
  unfold EntryCode.enter Processor.enter
  rw [extra]
  by_cases inner : cpu.ring = 0#2 <;>
    simp [inner, Processor.registers, Processor.pushRegisters, Processor.push, push_push]

theorem take_getD (words : List (BitVec 32)) (count : Nat) :
    ((List.range count).map fun index => words.getD index 0).take words.length ++ words.drop count = words := by
  induction words generalizing count with
  | nil => simp
  | cons word words ih =>
    cases count with
    | zero => rfl
    | succ count =>
      rw [List.range_succ_eq_map, List.map_cons, List.map_map, List.length_cons, List.take_succ_cons,
        List.drop_succ_cons, List.cons_append]
      exact congrArg (word :: ·) (ih count)

/-- A handler that leaves the structure leaves the stack. -/
theorem setRegisters_registers (cpu : Processor) : cpu.setRegisters cpu.registers = cpu := by
  have same := take_getD cpu.stack 19
  unfold Processor.setRegisters Processor.registers
  exact congrArg (fun stack => { cpu with stack := stack }) same

/-- What then comes back has the wrong number of words on its stack. -/
theorem leave_extra (extra : code.errorPushed = false)
    (left : ((code.enter (cpu.enter layout.ss0 layout.esp0 gate (some error))).setRegisters
      (code.enter (cpu.enter layout.ss0 layout.esp0 gate (some error))).registers).leave = some after) :
    after.stack.length ≠ cpu.stack.length := by
  have stack := enter_extra layout cpu gate error extra
  generalize code.enter (cpu.enter layout.ss0 layout.esp0 gate (some error)) = inside at stack left
  have deep : (if cpu.ring = 0#2 then cpu.stack else cpu.esp :: cpu.ss :: cpu.stack).length = cpu.stack.length ∨
      (if cpu.ring = 0#2 then cpu.stack else cpu.esp :: cpu.ss :: cpu.stack).length = cpu.stack.length + 2 := by
    split
    · exact .inl rfl
    · exact .inr rfl
  generalize (if cpu.ring = 0#2 then cpu.stack else cpu.esp :: cpu.ss :: cpu.stack) = below at stack deep
  rw [setRegisters_registers, Processor.leave, stack] at left
  dsimp only [Processor.iret] at left
  split at left
  next =>
    cases left
    simp only [List.length_cons]
    omega
  next =>
    split at left
    next same =>
      cases left
      cases same
      rw [List.length_cons] at deep
      dsimp only
      omega
    next => cases left

theorem extra_lost {index : Nat} (placed : Placed layout entry)
    (gates : machine.idt = idtInit entry fun _ => ⟨0, 0, 0, 0, 0⟩)
    (leaves : ∀ handler registers kernel, (call handler registers kernel).1 = registers)
    (last : lastGate idtGates vector = some (vector, .isr index, 0x8E))
    (extra : (EntryCode.isr index).errorPushed = false)
    {next : InterruptMachine H σ} (stepped : machine.interrupt layout call vector (some error) = some next) :
    next.cpu ≠ machine.cpu := by
  obtain ⟨gate, given⟩ := throughGate_isr call (some error) placed gates last
  rw [interrupt_gate gates last (.inl rfl), given] at stepped
  obtain ⟨after, served, stepped⟩ := Option.bind_eq_some_iff.mp stepped
  obtain ⟨cpu, left, rfl⟩ := Option.map_eq_some_iff.mp stepped
  obtain ⟨handler, -, rfl⟩ := Option.map_eq_some_iff.mp served
  rw [leaves] at left
  have lost := leave_extra extra left
  intro same
  exact lost (congrArg (fun cpu => cpu.stack.length) same)

theorem matched_resumes {index : Nat} {given : Option (BitVec 32)} (placed : Placed layout entry)
    (gates : machine.idt = idtInit entry fun _ => ⟨0, 0, 0, 0, 0⟩)
    (handled : ∃ handler, machine.isr index = some handler)
    (leaves : ∀ handler registers kernel, (call handler registers kernel).1 = registers)
    (last : lastGate idtGates vector = some (vector, .isr index, 0x8E)) (small : index < 256)
    (matched : (EntryCode.isr index).errorPushed = given.isSome) :
    ∃ next, machine.throughGate layout call vector given = some next ∧ next.cpu = machine.cpu := by
  obtain ⟨handler, set⟩ := handled
  obtain ⟨gate, through⟩ := throughGate_isr call given placed gates last
  have left := enter_leave layout machine.cpu gate matched machine.cpu.eax
  rw [through, enter_registers matched, isrHandler, EntryCode.number, seen_number _ small, set]
  refine ⟨{ machine with kernel := (call handler (seen layout machine.cpu index (given.getD 0)) machine.kernel).2 },
    ?_, rfl⟩
  simp only [Option.map_some, Option.bind_some, leaves]
  exact congrArg (Option.map _) left

/-- An exception whose handler leaves the structure alone goes back to where it came from, except where the processor
pushes an error code and the label a zero. The vector without a gate comes back as a general protection fault. -/
theorem exception_resumes_iff (placed : Placed layout entry)
    (gates : machine.idt = idtInit entry fun _ => ⟨0, 0, 0, 0, 0⟩)
    (handled : ∀ index < 32, ∃ handler, machine.isr index = some handler)
    (leaves : ∀ handler registers kernel, (call handler registers kernel).1 = registers) (inside : vector < 32) :
    (∃ next, interruptStep layout call machine (.exception vector error) = some next ∧ next.cpu = machine.cpu) ↔
      vector ∉ [17, 21, 29, 30] := by
  rw [interruptStep]
  constructor
  · rintro ⟨next, stepped, same⟩ member
    have extra : ∀ vector ∈ [17, 21, 29, 30], vector ∈ errorVectors ∧ ∃ index < 32,
        lastGate idtGates vector = some (vector, .isr index, 0x8E) ∧ (EntryCode.isr index).errorPushed = false := by
      decide
    obtain ⟨pushes, index, -, last, zero⟩ := extra vector member
    rw [if_pos pushes] at stepped
    exact extra_lost placed gates leaves last zero stepped same
  · intro outside
    by_cases absent : vector = 22
    · subst absent
      rw [interrupt_absent gates (by decide)]
      exact matched_resumes placed gates (handled 13 (by decide)) leaves (lastGate_isr 13 (by decide) (by decide))
        (by decide) rfl
    · have five : vector ∉ [17, 21, 22, 29, 30] := by
        simp only [List.mem_cons, List.not_mem_nil, or_false] at outside ⊢
        omega
      obtain ⟨matched, gated⟩ := errorPushed_eq vector inside five
      have last := lastGate_isr vector inside gated
      have pushed : (EntryCode.isr vector).errorPushed =
          (if vector ∈ errorVectors then some error else none).isSome := by
        rw [matched]
        split <;> simp_all
      rw [interrupt_gate gates last (.inl rfl)]
      exact matched_resumes placed gates (handled vector inside) leaves last (by omega) pushed

/-- The divide error and the vector without a gate come back, and an alignment check does not. -/
theorem exception_resumes_iff_example :
    (∃ next, interruptStep someLayout (fun _ registers kernel => (registers, kernel + 1))
      ⟨someProgram, somePics, idtInit someEntry fun _ => ⟨0, 0, 0, 0, 0⟩, fun _ => some (), fun _ => none, 0⟩
      (.exception 0 5) = some next ∧ next.cpu = someProgram) ∧
    (∃ next, interruptStep someLayout (fun _ registers kernel => (registers, kernel + 1))
      ⟨someProgram, somePics, idtInit someEntry fun _ => ⟨0, 0, 0, 0, 0⟩, fun _ => some (), fun _ => none, 0⟩
      (.exception 22 5) = some next ∧ next.cpu = someProgram) ∧
    ¬∃ next, interruptStep someLayout (fun _ registers kernel => (registers, kernel + 1))
      ⟨someProgram, somePics, idtInit someEntry fun _ => ⟨0, 0, 0, 0, 0⟩, fun _ => some (), fun _ => none, 0⟩
      (.exception 17 5) = some next ∧ next.cpu = someProgram := by
  have resumes (vector : Nat) (inside : vector < 32) :
      (∃ next, interruptStep someLayout (fun _ registers kernel => (registers, kernel + 1))
        ⟨someProgram, somePics, idtInit someEntry fun _ => ⟨0, 0, 0, 0, 0⟩, fun _ => some (), fun _ => none, 0⟩
        (.exception vector 5) = some next ∧ next.cpu = someProgram) ↔ vector ∉ [17, 21, 29, 30] :=
    exception_resumes_iff some_placed rfl (fun _ _ => ⟨(), rfl⟩) (fun _ _ _ => rfl) inside
  exact ⟨(resumes 0 (by decide)).mpr (by decide), (resumes 22 (by decide)).mpr (by decide),
    fun resumed => (resumes 17 (by decide)).mp resumed (by decide)⟩

end Exceptions

end YuzuOS.Proofs.InterruptEntry
