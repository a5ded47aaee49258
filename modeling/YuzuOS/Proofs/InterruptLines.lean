import YuzuOS.Library.Simulation
import YuzuOS.Proofs.InterruptControllers
import YuzuOS.Proofs.InterruptEntry

/-! Interrupts as the rest of the kernel knows them. A line has at most four handlers, which run in the order in which
they were set, and the program that was interrupted goes on with nothing changed but what a handler answers. -/

namespace YuzuOS.Proofs.InterruptLines
open YuzuOS.Library YuzuOS.Kernel YuzuOS.Kernel.Interrupts InterruptControllers InterruptEntry

variable {H : Type u} {σ : Type v}

structure Lines (H : Type u) (σ : Type v) where
  cpu : Processor
  masked : Nat → Bool
  handlers : Nat → List H
  services : Nat → Option H
  kernel : σ

namespace Lines

def serve (layout : EntryLayout) (call : ItrCall H σ) (handlers : List H) (number : Nat) (error : BitVec 32)
    (lines : Lines H σ) : Lines H σ :=
  let after := handlers.foldl (fun after handler => call handler after.1 after.2)
    (seen layout lines.cpu number error, lines.kernel)
  { lines with cpu := { lines.cpu with eax := after.1.eax }, kernel := after.2 }

def service (layout : EntryLayout) (call : ItrCall H σ) (number : Nat) (error : BitVec 32) (lines : Lines H σ) :
    Option (Lines H σ) :=
  (lines.services number).map fun handler => lines.serve layout call [handler] number error

def accepts (irq : Nat) (lines : Lines H σ) : Bool := lines.cpu.accepts && lineOpen lines.masked irq

end Lines

/-- A program that asks for any vector but 127 gets a general protection fault. -/
def linesStep (layout : EntryLayout) (call : ItrCall H σ) (lines : Lines H σ) :
    InterruptAction H → Option (Lines H σ)
  | .line irq => some (if lines.accepts irq then lines.serve layout call (lines.handlers irq) (32 + irq) 0 else lines)
  | .program vector =>
    if lines.cpu.ring = 0 then none
    else if vector = 127 then lines.service layout call 127 0
    else lines.service layout call 13 (BitVec.ofNat 32 (8 * vector + 2))
  | .exception vector error => lines.service layout call vector (if vector ∈ errorVectors then error else 0)
  | .compute cpu => some { lines with cpu := cpu }
  | .isrHandlerSet index handler => some { lines with services := Function.update lines.services index (some handler) }
  | .isrHandlerUnset index => some { lines with services := Function.update lines.services index none }
  | .irqHandlerSet index handler =>
    some { lines with
      handlers := Function.update lines.handlers index ((lines.handlers index ++ [handler]).take irqDepth) }
  | .irqHandlerUnset index => some { lines with handlers := Function.update lines.handlers index [] }
  | .picMaskSet irq => some { lines with masked := Function.update lines.masked irq true }
  | .picMaskUnset irq => some { lines with masked := Function.update lines.masked irq false }

/-- The lines that exist, the vectors that `int` has, and the exceptions whose entry code takes the words that the
processor pushes. -/
def Allowed : InterruptAction H → Prop
  | .line irq => irq < 16
  | .program vector => vector < 256
  | .exception vector _ => vector < 32 ∧ vector ∉ [17, 21, 22, 29, 30]
  | .compute _ => True
  | .isrHandlerSet index _ => index < 256
  | .isrHandlerUnset index => index < 256
  | .irqHandlerSet index _ => index < 16
  | .irqHandlerUnset index => index < 16
  | .picMaskSet irq => irq < 16
  | .picMaskUnset irq => irq < 16

/-- What the masks and the tables of the kernel say about the lines. -/
structure Represents (entry : EntryCode → BitVec 32) (machine : InterruptMachine H σ) (lines : Lines H σ) : Prop where
  cpu : machine.cpu = lines.cpu
  kernel : machine.kernel = lines.kernel
  services : machine.isr = lines.services
  gates : machine.idt = idtInit entry fun _ => ⟨0, 0, 0, 0, 0⟩
  handlers : ∀ irq < irqSize, ∀ i < irqDepth, machine.irq (i * irqSize + irq) = (lines.handlers irq)[i]?
  few : ∀ irq, (lines.handlers irq).length ≤ irqDepth
  idle : machine.pics = idlePics machine.pics.master.mask machine.pics.slave.mask
  masks : ∀ irq < irqSize, lineMasked machine.pics.master.mask machine.pics.slave.mask irq = lines.masked irq

/-- A handler answers in `eax` and leaves the rest of the structure. -/
def Answers (call : ItrCall H σ) : Prop :=
  ∀ handler registers kernel,
    (call handler registers kernel).1 = { registers with eax := (call handler registers kernel).1.eax }

section Service

variable {layout : EntryLayout} {entry : EntryCode → BitVec 32} {call : ItrCall H σ} {machine : InterruptMachine H σ}
  {lines : Lines H σ} {vector index number irq : Nat} {code : EntryCode} {flags : BitVec 8} {error : Option (BitVec 32)}

theorem foldl_answers (answers : Answers call) (handlers : List H) (registers : ItrRegisters) (kernel : σ) :
    (handlers.foldl (fun after handler => call handler after.1 after.2) (registers, kernel)).1 =
      { registers with
        eax := (handlers.foldl (fun after handler => call handler after.1 after.2) (registers, kernel)).1.eax } := by
  induction handlers generalizing registers kernel with
  | nil => rfl
  | cons handler handlers ih =>
    rw [List.foldl_cons]
    have first := answers handler registers kernel
    generalize call handler registers kernel = after at first ⊢
    obtain ⟨answer, kernel⟩ := after
    dsimp only at first
    rw [ih answer kernel, first]

theorem serve_cpu (layout : EntryLayout) (machine : InterruptMachine H σ) (answers : Answers call)
    (matched : code.errorPushed = error.isSome) (gate : IdtEntry)
    (handlers : List H) (kernel : σ) :
    ((code.enter (machine.cpu.enter layout.ss0 layout.esp0 gate error)).setRegisters
      (handlers.foldl (fun after handler => call handler after.1 after.2)
        (seen layout machine.cpu code.number (error.getD 0), kernel)).1).leave =
      some { machine.cpu with
        eax := (handlers.foldl (fun after handler => call handler after.1 after.2)
          (seen layout machine.cpu code.number (error.getD 0), kernel)).1.eax } := by
  rw [foldl_answers answers]
  exact enter_leave layout machine.cpu gate matched _

def answered (layout : EntryLayout) (call : ItrCall H σ) (handlers : List H) (number : Nat) (error : BitVec 32)
    (machine : InterruptMachine H σ) : InterruptMachine H σ :=
  let after := handlers.foldl (fun after handler => call handler after.1 after.2)
    (seen layout machine.cpu number error, machine.kernel)
  { machine with cpu := { machine.cpu with eax := after.1.eax }, kernel := after.2 }

theorem Represents.serve (represents : Represents entry machine lines) (handlers : List H) (error : BitVec 32) :
    Represents entry (answered layout call handlers number error machine)
      (lines.serve layout call handlers number error) := by
  obtain ⟨cpu, kernel, services, gates, columns, few, idle, masks⟩ := represents
  refine ⟨?_, ?_, services, gates, columns, few, idle, masks⟩
  · simp only [answered, Lines.serve, cpu, kernel]
  · simp only [answered, Lines.serve, cpu, kernel]

theorem interrupt_service (placed : Placed layout entry) (answers : Answers call)
    (represents : Represents entry machine lines) (last : lastGate idtGates vector = some (vector, .isr index, flags))
    (matched : (EntryCode.isr index).errorPushed = error.isSome)
    (small : index < 256) :
    Option.Rel (Represents entry) (machine.throughGate layout call vector error)
      (lines.service layout call index (error.getD 0)) := by
  obtain ⟨gate, given⟩ := throughGate_isr call error placed represents.gates last
  rw [given, enter_registers matched, isrHandler, EntryCode.number, seen_number _ small, Lines.service,
    congrFun represents.services index]
  cases served : lines.services index with
  | none => exact .none
  | some handler =>
    have cpu := serve_cpu layout machine answers matched gate [handler] machine.kernel
    simp only [List.foldl_cons, List.foldl_nil, EntryCode.number] at cpu
    simp only [Option.map_some, Option.bind_some, cpu]
    exact .some (represents.serve [handler] (error.getD 0))

/-- The handlers of a line run in their order, and the end of the interrupt is sent. -/
theorem interrupt_irq (placed : Placed layout entry) (answers : Answers call)
    (represents : Represents entry machine lines)
    (inside : irq < irqSize) : ∃ next,
    InterruptMachine.interrupt layout call (32 + irq) none
      { machine with pics := serving machine.pics.master.mask machine.pics.slave.mask irq } = some next ∧
    Represents entry next (lines.serve layout call (lines.handlers irq) (32 + irq) 0) := by
  have last := lastGate_irq irq inside
  have gate : machine.idt (32 + irq) = gateEntry entry (32 + irq, .irq irq, 0x8E) := by
    rw [represents.gates, idtInit_last last]
  have matched : (EntryCode.irq irq).errorPushed = (none : Option (BitVec 32)).isSome := rfl
  have column : Column machine.irq irq (lines.handlers irq) := represents.handlers irq inside
  have small : 32 + irq < 256 := by
    unfold irqSize at inside
    omega
  have ours : 32 + irq ≤ 47 ∧ 32 ≤ 32 + irq := by
    unfold irqSize at inside
    omega
  have cpu := serve_cpu layout machine answers matched
    (gateEntry entry (32 + irq, .irq irq, 0x8E)) (lines.handlers irq) machine.kernel
  refine ⟨answered layout call (lines.handlers irq) (32 + irq) 0 machine, ?_, represents.serve _ _⟩
  have gates : InterruptMachine.idt { machine with
      pics := serving machine.pics.master.mask machine.pics.slave.mask irq } = idtInit entry fun _ => ⟨0, 0, 0, 0, 0⟩ :=
    represents.gates
  rw [interrupt_gate gates last (.inl rfl), InterruptMachine.throughGate]
  dsimp only
  rw [gate, gateEntry_base, lastGate_found last placed]
  dsimp only [Option.bind_some]
  rw [enter_registers matched, irqHandler, EntryCode.number, seen_number _ small, if_pos ours, Nat.add_sub_cancel_left,
    handlerLoop_eq column (represents.few irq) (by rfl), List.drop_zero, eoi_serving inside, ← represents.idle]
  simp only [EntryCode.number] at cpu
  rw [cpu]
  rfl

variable {pics : Pics} {cpu : Processor} {kernel : σ} {actions : List (InterruptAction H)} {action : InterruptAction H}

theorem Represents.setColumn (represents : Represents entry machine lines) {irqs : Nat → Option H} {handlers : List H}
    (inside : irq < irqSize) (column : Column irqs irq handlers) (few : handlers.length ≤ irqDepth)
    (others : ∀ other < irqSize, other ≠ irq → ∀ i < irqDepth,
      irqs (i * irqSize + other) = machine.irq (i * irqSize + other)) :
    Represents entry { machine with irq := irqs }
      { lines with handlers := Function.update lines.handlers irq handlers } := by
  refine { represents with handlers := fun other within i low => ?_, few := fun other => ?_ }
  · dsimp only
    by_cases own : other = irq
    · subst own
      rw [Function.update_self]
      exact column i low
    · rw [Function.update_of_ne own]
      exact (others other within own i low).trans (represents.handlers other within i low)
  · dsimp only
    by_cases own : other = irq
    · subst own
      rw [Function.update_self]
      exact few
    · rw [Function.update_of_ne own]
      exact represents.few other

theorem Represents.setMasks (represents : Represents entry machine lines) {mask1 mask2 : BitVec 8} {value : Bool}
    (same : pics = idlePics mask1 mask2)
    (bits : ∀ other < 16, lineMasked mask1 mask2 other =
      Function.update (lineMasked machine.pics.master.mask machine.pics.slave.mask) irq value other) :
    Represents entry { machine with pics := pics } { lines with masked := Function.update lines.masked irq value } := by
  subst same
  refine { represents with idle := rfl, masks := fun other within => ?_ }
  refine (bits other within).trans ?_
  dsimp only
  by_cases own : other = irq
  · subst own
    rw [Function.update_self, Function.update_self]
  · rw [Function.update_of_ne own, Function.update_of_ne own]
    exact represents.masks other within

theorem Represents.opens (represents : Represents entry machine lines) (inside : irq < irqSize) :
    lineOpen (lineMasked machine.pics.master.mask machine.pics.slave.mask) irq = lineOpen lines.masked irq := by
  unfold lineOpen
  rw [represents.masks irq inside, represents.masks 2 (by decide)]

theorem line_represents (placed : Placed layout entry) (answers : Answers call)
    (represents : Represents entry machine lines) (inside : irq < irqSize) :
    Option.Rel (Represents entry) (interruptStep layout call machine (.line irq))
      (linesStep layout call lines (.line irq)) := by
  have raised : machine.pics.raise irq =
      if lineOpen lines.masked irq then
        some (BitVec.ofNat 8 (32 + irq), serving machine.pics.master.mask machine.pics.slave.mask irq)
      else none := by
    rw [← represents.opens inside, ← raise_idle inside, ← represents.idle]
  have number : (BitVec.ofNat 8 (32 + irq)).toNat = 32 + irq := by
    rw [BitVec.toNat_ofNat]
    unfold irqSize at inside
    omega
  rw [interruptStep, InterruptMachine.interruptLine, raised, linesStep, Lines.accepts, ← represents.cpu]
  cases machine.cpu.accepts with
  | false => exact .some represents
  | true =>
    cases lineOpen lines.masked irq with
    | false => exact .some represents
    | true =>
      obtain ⟨next, given, kept⟩ := interrupt_irq placed answers represents inside
      simp only [if_true, Bool.and_self, number, given]
      exact .some kept

theorem program_represents (placed : Placed layout entry) (answers : Answers call)
    (represents : Represents entry machine lines) :
    Option.Rel (Represents entry) (interruptStep layout call machine (.program vector))
      (linesStep layout call lines (.program vector)) := by
  rw [interruptStep, linesStep]
  by_cases inner : lines.cpu.ring = 0
  · rw [InterruptMachine.interruptProgram, represents.cpu, if_pos inner, if_pos inner]
    exact .none
  rw [if_neg inner]
  by_cases syscall : vector = 127
  · subst syscall
    rw [interruptProgram_gate (represents.cpu ▸ inner) represents.gates, if_pos rfl]
    exact interrupt_service placed answers represents lastGate_syscall rfl (by decide)
  · have kernel : (machine.idt vector).dpl < lines.cpu.ring := by
      rw [represents.gates, idtInit_dpl syscall]
      bv_omega
    have fault : lastGate idtGates 13 = some (13, .isr 13, 0x8E) := lastGate_isr 13 (by decide) (by decide)
    rw [InterruptMachine.interruptProgram, represents.cpu, if_neg inner, if_pos (.inr kernel), if_neg syscall,
      interrupt_gate represents.gates fault (.inl rfl)]
    exact interrupt_service placed answers represents fault rfl (by decide)

theorem exception_represents {error : BitVec 32} (placed : Placed layout entry) (answers : Answers call)
    (represents : Represents entry machine lines) (inside : vector < 32) (outside : vector ∉ [17, 21, 22, 29, 30]) :
    Option.Rel (Represents entry) (interruptStep layout call machine (.exception vector error))
      (linesStep layout call lines (.exception vector error)) := by
  obtain ⟨same, gated⟩ := errorPushed_eq vector inside outside
  have matched : (EntryCode.isr vector).errorPushed =
      (if vector ∈ errorVectors then some error else none).isSome := by
    rw [same]
    split <;> simp_all
  have given : (if vector ∈ errorVectors then error else 0) =
      (if vector ∈ errorVectors then some error else none).getD 0 := by
    split <;> rfl
  have last := lastGate_isr vector inside gated
  rw [interruptStep, linesStep, given, interrupt_gate represents.gates last (.inl rfl)]
  exact interrupt_service placed answers represents last matched (by omega)

theorem step_represents (placed : Placed layout entry) (answers : Answers call) (allowed : Allowed action)
    (represents : Represents entry machine lines) :
    Option.Rel (Represents entry) (interruptStep layout call machine action) (linesStep layout call lines action) := by
  cases action with
  | line irq => exact line_represents placed answers represents allowed
  | program vector => exact program_represents placed answers represents
  | exception vector error => exact exception_represents placed answers represents allowed.1 allowed.2
  | compute cpu => exact .some { represents with cpu := rfl }
  | isrHandlerSet index handler =>
    exact .some { represents with services := by simp only [isrHandlerSet, represents.services] }
  | isrHandlerUnset index =>
    exact .some { represents with services := by simp only [isrHandlerUnset, represents.services] }
  | irqHandlerSet index handler =>
    have column := represents.handlers index allowed
    have few := represents.few index
    refine .some (represents.setColumn allowed (irqHandlerSet_column column few) (List.length_take_le _ _) ?_)
    intro other within apart i low
    exact irqHandlerSet_other column few apart allowed within
  | irqHandlerUnset index =>
    refine .some (represents.setColumn allowed (irqHandlerUnset_column machine.irq index) (Nat.zero_le _) ?_)
    intro other within apart i low
    exact irqHandlerUnset_other machine.irq apart allowed within
  | picMaskSet irq =>
    obtain ⟨mask1, mask2, same, bits⟩ :=
      maskSet_idle machine.pics.master.mask machine.pics.slave.mask allowed
    rw [← represents.idle] at same
    exact .some (represents.setMasks same bits)
  | picMaskUnset irq =>
    obtain ⟨mask1, mask2, same, bits⟩ :=
      maskUnset_idle machine.pics.master.mask machine.pics.slave.mask allowed
    rw [← represents.idle] at same
    exact .some (represents.setMasks same bits)

/-- Nothing is set after `idt_init`, and the masks are those that were there before. -/
def linesStart (pics : Pics) (cpu : Processor) (kernel : σ) : Lines H σ :=
  ⟨cpu, lineMasked pics.master.mask pics.slave.mask, fun _ => [], fun _ => none, kernel⟩

theorem start_represents (master : pics.master.inService = 0) (slave : pics.slave.inService = 0) :
    Represents entry (interruptStart entry pics cpu kernel) (linesStart pics cpu kernel : Lines H σ) where
  cpu := rfl
  kernel := rfl
  services := rfl
  gates := rfl
  handlers := fun _ _ _ _ => rfl
  few := fun _ => Nat.zero_le _
  idle := by
    simp only [interruptStart, picRemap_idle master slave]
    rfl
  masks := fun _ _ => by
    simp only [interruptStart, picRemap_idle master slave]
    rfl

/-- From `idt_init` on, the controllers, the gates, the entry code and the tables of the kernel do over every run what
the lines do: nothing stays in service, every line that is let through runs its handlers in order, and the program goes
on with nothing changed but an answer. -/
theorem interrupts_refine (placed : Placed layout entry) (answers : Answers call) (master : pics.master.inService = 0)
    (slave : pics.slave.inService = 0) (allowed : ∀ action ∈ actions, Allowed action) (cpu : Processor) (kernel : σ) :
    Option.Rel (Represents entry) (run (interruptStep layout call) (interruptStart entry pics cpu kernel) actions)
      (run (linesStep layout call) (linesStart pics cpu kernel) actions) :=
  run_simulates (fun _ _ _ allowed represents => step_represents placed answers allowed represents)
    (start_represents master slave) allowed

end Service

def someCall : ItrCall (BitVec 32) (List (BitVec 32)) :=
  fun handler registers kernel => ({ registers with eax := handler }, handler :: kernel)

/-- Two handlers of the clock, then its line masked, and a system call. -/
def someActions : List (InterruptAction (BitVec 32)) :=
  [.irqHandlerSet 0 1, .irqHandlerSet 0 2, .line 0, .picMaskSet 0, .line 0, .isrHandlerSet 127 3, .program 127]

theorem interrupts_refine_example : ∃ final lines,
    run (interruptStep someLayout someCall) (interruptStart someEntry somePics someProgram []) someActions =
      some final ∧
    Represents someEntry final lines ∧ lines.kernel = [3, 2, 1] ∧ lines.cpu = { someProgram with eax := 3 } := by
  have refined : Option.Rel (Represents someEntry)
      (run (interruptStep someLayout someCall) (interruptStart someEntry somePics someProgram []) someActions)
      (run (linesStep someLayout someCall) (linesStart somePics someProgram []) someActions) :=
    interrupts_refine some_placed (fun _ _ _ => rfl) rfl rfl (by simp [someActions, Allowed]) someProgram []
  obtain ⟨final, ran, kept⟩ := run_mirrored refined rfl
  exact ⟨final, _, ran, kept, rfl, rfl⟩

end YuzuOS.Proofs.InterruptLines
