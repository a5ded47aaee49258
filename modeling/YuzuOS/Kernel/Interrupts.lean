import Mathlib.Logic.Function.Basic
import YuzuOS.Kernel.Syscall

/-! Interrupts, from a line of the controllers to the handlers and back: the two 8259 and what the kernel writes to
them, the gates, the entry code and the tables of handlers. -/

namespace YuzuOS.Kernel.Interrupts

/-- The words that an 8259 takes on its data port while it is set up. -/
inductive PicWord
  | vector
  | cascade
  | mode
  deriving DecidableEq

structure Pic where
  offset : BitVec 8
  mask : BitVec 8
  cascade : BitVec 8
  mode : BitVec 8
  inService : BitVec 8
  expects : List PicWord
  deriving DecidableEq

structure Pics where
  master : Pic
  slave : Pic
  deriving DecidableEq

namespace Pic

/-- Bit 4 begins the set up, and its low bits say which words follow. A lone end of interrupt is for the line of the
highest priority in service; the kernel writes no other command. -/
def command (value : BitVec 8) (pic : Pic) : Pic :=
  if value.getLsbD 4 then
    { pic with
      mask := 0
      expects := .vector :: ((if value.getLsbD 1 then [] else [.cascade]) ++ if value.getLsbD 0 then [.mode] else []) }
  else if value = 0x20 then { pic with inService := pic.inService &&& (pic.inService - 1) }
  else pic

def data (value : BitVec 8) (pic : Pic) : Pic :=
  match pic.expects with
  | [] => { pic with mask := value }
  | .vector :: rest => { pic with offset := value &&& 0xF8, expects := rest }
  | .cascade :: rest => { pic with cascade := value, expects := rest }
  | .mode :: rest => { pic with mode := value, expects := rest }

/-- A line is let through when it is not masked and none of its or a higher priority is in service. -/
def accepts (line : Nat) (pic : Pic) : Bool :=
  pic.expects.isEmpty && !pic.mask.getLsbD line && (List.range (line + 1)).all fun other => !pic.inService.getLsbD other

/-- Bit 1 of the mode ends interrupts by themselves. -/
def acknowledge (line : Nat) (pic : Pic) : Pic :=
  if pic.mode.getLsbD 1 then pic else { pic with inService := pic.inService ||| 1#8 <<< line }

end Pic

def pic1Command : Nat := 0x20
def pic1Data : Nat := pic1Command + 1
def pic2Command : Nat := 0xA0
def pic2Data : Nat := pic2Command + 1
def picEoiCommand : BitVec 8 := 0x20

namespace Pics

def outb (port : Nat) (value : BitVec 8) (pics : Pics) : Pics :=
  if port = pic1Command then { pics with master := pics.master.command value }
  else if port = pic1Data then { pics with master := pics.master.data value }
  else if port = pic2Command then { pics with slave := pics.slave.command value }
  else if port = pic2Data then { pics with slave := pics.slave.data value }
  else pics

/-- The mask; the kernel reads only the data ports. -/
def inb (port : Nat) (pics : Pics) : BitVec 8 :=
  if port = pic1Data then pics.master.mask else pics.slave.mask

def picRemap (offset1 offset2 : BitVec 8) (pics : Pics) : Pics :=
  let mask1 := pics.inb pic1Data
  let mask2 := pics.inb pic2Data
  let pics := (pics.outb pic1Command (0x10 ||| 0x01)).outb pic2Command (0x10 ||| 0x01)
  let pics := (pics.outb pic1Data offset1).outb pic2Data offset2
  let pics := (pics.outb pic1Data 4).outb pic2Data 2
  let pics := (pics.outb pic1Data 0x01).outb pic2Data 0x01
  (pics.outb pic1Data mask1).outb pic2Data mask2

/-- The data port of a line's controller, and the line there. -/
def picPort (irq : Nat) : Nat × Nat := if irq < 8 then (pic1Data, irq) else (pic2Data, irq - 8)

def picMaskSet (irq : Nat) (pics : Pics) : Pics :=
  let (port, irq) := picPort irq
  pics.outb port (pics.inb port ||| 1#8 <<< irq)

def picMaskUnset (irq : Nat) (pics : Pics) : Pics :=
  let (port, irq) := picPort irq
  pics.outb port (pics.inb port &&& ~~~(1#8 <<< irq))

def picEoi (irq : Nat) (pics : Pics) : Pics :=
  (if 8 ≤ irq then pics.outb pic2Command picEoiCommand else pics).outb pic1Command picEoiCommand

/-- A device raises a line: the vector that the processor gets. The slave is at the line of the master that both were
told. -/
def raise (irq : Nat) (pics : Pics) : Option (BitVec 8 × Pics) :=
  if irq < 8 then
    if pics.master.accepts irq && !pics.master.cascade.getLsbD irq then
      some (pics.master.offset + BitVec.ofNat 8 irq, { pics with master := pics.master.acknowledge irq })
    else none
  else
    let line := pics.slave.cascade.toNat
    if pics.slave.accepts (irq - 8) && pics.master.accepts line && pics.master.cascade.getLsbD line then
      some (pics.slave.offset + BitVec.ofNat 8 (irq - 8),
        ⟨pics.master.acknowledge line, pics.slave.acknowledge (irq - 8)⟩)
    else none

end Pics

structure IdtEntry where
  baseLow : BitVec 16
  selector : BitVec 16
  zero : BitVec 8
  flags : BitVec 8
  baseHigh : BitVec 16
  deriving DecidableEq

/-- The labels of the entry code, `isr` and `irq` with their numbers. -/
inductive EntryCode
  | isr (index : Nat)
  | irq (index : Nat)
  deriving DecidableEq

def idtEntryAdd (index : Nat) (base : BitVec 32) (selector : BitVec 16) (flags : BitVec 8) (idt : Nat → IdtEntry) :
    Nat → IdtEntry :=
  Function.update idt index ⟨base.setWidth 16, selector, 0, flags, (base >>> 16).setWidth 16⟩

/-- The calls of `idt_entry_add` in `idt_init`; all are for the segment 8. -/
def idtGates : List (Nat × EntryCode × BitVec 8) :=
  [(0, .isr 0, 0x8E), (1, .isr 1, 0x8E), (2, .isr 2, 0x8E), (3, .isr 3, 0x8E), (4, .isr 4, 0x8E), (5, .isr 5, 0x8E),
    (6, .isr 6, 0x8E), (7, .isr 7, 0x8E), (8, .isr 8, 0x8E), (9, .isr 9, 0x8E), (10, .isr 10, 0x8E),
    (11, .isr 11, 0x8E), (12, .isr 12, 0x8E), (13, .isr 13, 0x8E), (14, .isr 14, 0x8E), (15, .isr 15, 0x8E),
    (16, .isr 16, 0x8E), (17, .isr 17, 0x8E), (18, .isr 18, 0x8E), (19, .isr 19, 0x8E), (20, .isr 20, 0x8E),
    (21, .isr 21, 0x8E), (21, .isr 22, 0x8E), (23, .isr 23, 0x8E), (24, .isr 24, 0x8E), (25, .isr 25, 0x8E),
    (26, .isr 26, 0x8E), (27, .isr 27, 0x8E), (28, .isr 28, 0x8E), (29, .isr 29, 0x8E), (30, .isr 30, 0x8E),
    (31, .isr 31, 0x8E), (127, .isr 127, 0x8E ||| 0x60),
    (32, .irq 0, 0x8E), (33, .irq 1, 0x8E), (34, .irq 2, 0x8E), (35, .irq 3, 0x8E), (36, .irq 4, 0x8E),
    (37, .irq 5, 0x8E), (38, .irq 6, 0x8E), (39, .irq 7, 0x8E), (40, .irq 8, 0x8E), (41, .irq 9, 0x8E),
    (42, .irq 10, 0x8E), (43, .irq 11, 0x8E), (44, .irq 12, 0x8E), (45, .irq 13, 0x8E), (46, .irq 14, 0x8E),
    (47, .irq 15, 0x8E), (127, .isr 127, 0x8E ||| 0x60)]

/-- `entry` gives the addresses of the labels. -/
def idtInit (entry : EntryCode → BitVec 32) (idt : Nat → IdtEntry) : Nat → IdtEntry :=
  idtGates.foldl (fun idt gate => idtEntryAdd gate.1 (entry gate.2.1) 0x08 gate.2.2 idt) idt

namespace IdtEntry

def base (gate : IdtEntry) : BitVec 32 := gate.baseHigh ++ gate.baseLow

/-- An interrupt gate of 32 bits. -/
def present (gate : IdtEntry) : Bool := gate.flags.getLsbD 7 && gate.flags &&& 0x1F == 0x0E

def dpl (gate : IdtEntry) : BitVec 2 := (gate.flags >>> 5).setWidth 2

end IdtEntry

/-- The registers of the processor, and the kernel stack from its top. -/
structure Processor where
  gs : BitVec 32
  fs : BitVec 32
  es : BitVec 32
  ds : BitVec 32
  edi : BitVec 32
  esi : BitVec 32
  ebp : BitVec 32
  esp : BitVec 32
  ebx : BitVec 32
  edx : BitVec 32
  ecx : BitVec 32
  eax : BitVec 32
  eip : BitVec 32
  cs : BitVec 32
  eflags : BitVec 32
  ss : BitVec 32
  stack : List (BitVec 32)
  deriving DecidableEq

namespace Processor

def ring (cpu : Processor) : BitVec 2 := cpu.cs.setWidth 2

/-- The flag that lets interrupts in. -/
def accepts (cpu : Processor) : Bool := cpu.eflags.getLsbD 9

def push (word : BitVec 32) (cpu : Processor) : Processor :=
  { cpu with esp := cpu.esp - 4, stack := word :: cpu.stack }

/-- What the processor does at a gate. From user mode it takes the stack that the TSS holds, `ss0` and `esp0`. -/
def enter (ss0 esp0 : BitVec 32) (gate : IdtEntry) (error : Option (BitVec 32)) (cpu : Processor) : Processor :=
  let inner := if cpu.ring = 0 then cpu else push cpu.esp (push cpu.ss { cpu with ss := ss0, esp := esp0 })
  let inner := push cpu.eip (push cpu.cs (push cpu.eflags inner))
  let inner := match error with
    | none => inner
    | some error => push error inner
  { inner with cs := gate.selector.setWidth 32, eip := gate.base, eflags := inner.eflags &&& ~~~0x200 }

/-- `pusha` and the segments; the kernel's data segment is loaded. -/
def pushRegisters (cpu : Processor) : Processor :=
  let before := cpu
  let cpu := push before.ebx (push before.edx (push before.ecx (push before.eax cpu)))
  let cpu := push before.edi (push before.esi (push before.ebp (push before.esp cpu)))
  let cpu := push cpu.gs (push cpu.fs (push cpu.es (push cpu.ds cpu)))
  { cpu with ds := 0x10, es := 0x10, fs := 0x10, gs := 0x10, eax := cpu.eax &&& 0xFFFF0000 ||| 0x10 }

/-- The structure at the top of the stack. -/
def registers (cpu : Processor) : ItrRegisters :=
  let word := fun index => cpu.stack.getD index 0
  ⟨word 0, word 1, word 2, word 3, word 4, word 5, word 6, word 7, word 8, word 9, word 10, word 11, word 12, word 13,
    word 14, word 15, word 16, word 17, word 18⟩

def setRegisters (registers : ItrRegisters) (cpu : Processor) : Processor :=
  { cpu with
    stack := [registers.gs, registers.fs, registers.es, registers.ds, registers.edi, registers.esi, registers.ebp,
      registers.esp, registers.ebx, registers.edx, registers.ecx, registers.eax, registers.intNo, registers.errCode,
      registers.eip, registers.cs, registers.eflags, registers.useresp, registers.ss].take cpu.stack.length ++
        cpu.stack.drop 19 }

/-- `iret` takes a stack back when it leaves the ring of the kernel. -/
def iret (cpu : Processor) : Option Processor :=
  match cpu.stack with
  | eip :: cs :: eflags :: rest =>
    let cpu := { cpu with eip := eip, cs := cs, eflags := eflags, esp := cpu.esp + 12, stack := rest }
    if cpu.ring = 0 then some cpu
    else match rest with
      | esp :: ss :: rest => some { cpu with esp := esp, ss := ss, stack := rest }
      | _ => none
  | _ => none

/-- The end of the entry code: the pops, `add $8, %esp` and `iret`. -/
def leave (cpu : Processor) : Option Processor :=
  match cpu.stack with
  | gs :: fs :: es :: ds :: edi :: esi :: ebp :: _ :: ebx :: edx :: ecx :: eax :: _ :: _ :: rest =>
    iret { cpu with
      gs := gs, fs := fs, es := es, ds := ds, edi := edi, esi := esi, ebp := ebp, ebx := ebx, edx := edx, ecx := ecx
      eax := eax, esp := cpu.esp + 56, stack := rest }
  | _ => none

end Processor

/-- `ISR_ERR`: the processor has pushed an error code, and the label pushes none. -/
def EntryCode.errorPushed : EntryCode → Bool
  | isr index => index ∈ [8, 10, 11, 12, 13, 14]
  | irq _ => false

def EntryCode.number : EntryCode → Nat
  | isr index => index
  | irq index => 32 + index

/-- From the label to the call of the handler. -/
def EntryCode.enter (code : EntryCode) (cpu : Processor) : Processor :=
  let cpu := { cpu with eflags := cpu.eflags &&& ~~~0x200 }
  let cpu := if code.errorPushed then cpu else cpu.push 0
  (cpu.push (BitVec.ofNat 32 code.number)).pushRegisters

def irqSize : Nat := 16
def irqDepth : Nat := 4

variable {H : Type u} {σ : Type v}

def isrHandlerSet (index : Nat) (handler : H) (isr : Nat → Option H) : Nat → Option H :=
  Function.update isr index (some handler)

def isrHandlerUnset (index : Nat) (isr : Nat → Option H) : Nat → Option H := Function.update isr index none

def irqHandlerSetLoop (index : Nat) (handler : H) (irq : Nat → Option H) (i : Nat) : Nat → Nat → Option H
  | 0 => irq
  | left + 1 =>
    if (irq (i * irqSize + index)).isSome then irqHandlerSetLoop index handler irq (i + 1) left
    else Function.update irq (i * irqSize + index) (some handler)

/-- The first free place of the line; a fifth handler is dropped. -/
def irqHandlerSet (index : Nat) (handler : H) (irq : Nat → Option H) : Nat → Option H :=
  irqHandlerSetLoop index handler irq 0 irqDepth

def irqHandlerUnset (index : Nat) (irq : Nat → Option H) : Nat → Option H :=
  (List.range irqDepth).foldl (fun irq i => Function.update irq (i * irqSize + index) none) irq

/-- What a handler does with the registers it is given and the state of the kernel, if it returns; no caller looks at
its result beyond going on. -/
abbrev ItrCall (H : Type u) (σ : Type v) := H → ItrRegisters → σ → ItrRegisters × σ

/-- An exception without a handler panics. -/
def isrHandler (call : ItrCall H σ) (isr : Nat → Option H) (registers : ItrRegisters) (kernel : σ) :
    Option (ItrRegisters × σ) :=
  (isr registers.intNo.toNat).map fun handler => call handler registers kernel

def irqHandlerLoop (call : ItrCall H σ) (irq : Nat → Option H) (line i : Nat) :
    Nat → ItrRegisters → σ → ItrRegisters × σ
  | 0, registers, kernel => (registers, kernel)
  | left + 1, registers, kernel =>
    match irq (i * irqSize + line) with
    | none => (registers, kernel)
    | some handler =>
      let after := call handler registers kernel
      irqHandlerLoop call irq line (i + 1) left after.1 after.2

def irqHandler (call : ItrCall H σ) (irq : Nat → Option H) (registers : ItrRegisters) (kernel : σ) (pics : Pics) :
    ItrRegisters × σ × Pics :=
  let number := registers.intNo.toNat
  if number ≤ 47 ∧ 32 ≤ number then
    let after := irqHandlerLoop call irq (number - 32) 0 irqDepth registers kernel
    (after.1, after.2, pics.picEoi (number - 32))
  else (registers, kernel, pics)

/-- The machine between two instructions. -/
structure InterruptMachine (H : Type u) (σ : Type v) where
  cpu : Processor
  pics : Pics
  idt : Nat → IdtEntry
  isr : Nat → Option H
  irq : Nat → Option H
  kernel : σ

/-- Where the entry code lies, and the stack in the TSS. -/
structure EntryLayout where
  code : BitVec 32 → Option EntryCode
  ss0 : BitVec 32
  esp0 : BitVec 32

namespace InterruptMachine

/-- From a gate through the entry code, the handlers and back. -/
def throughGate (layout : EntryLayout) (call : ItrCall H σ) (vector : Nat) (error : Option (BitVec 32))
    (machine : InterruptMachine H σ) : Option (InterruptMachine H σ) :=
  let gate := machine.idt vector
  (layout.code gate.base).bind fun code =>
    let cpu := code.enter (machine.cpu.enter layout.ss0 layout.esp0 gate error)
    match code with
    | .isr _ =>
      (isrHandler call machine.isr cpu.registers machine.kernel).bind fun after =>
        (cpu.setRegisters after.1).leave.map fun cpu => { machine with cpu := cpu, kernel := after.2 }
    | .irq _ =>
      let after := irqHandler call machine.irq cpu.registers machine.kernel machine.pics
      (cpu.setRegisters after.1).leave.map fun cpu =>
        { machine with cpu := cpu, kernel := after.2.1, pics := after.2.2 }

/-- For a vector without a gate the processor raises the general protection fault, 13. The error code has the vector and
the bits for the table and for an event from outside of the program. -/
def interrupt (layout : EntryLayout) (call : ItrCall H σ) (vector : Nat) (error : Option (BitVec 32))
    (machine : InterruptMachine H σ) : Option (InterruptMachine H σ) :=
  if (machine.idt vector).present then throughGate layout call vector error machine
  else if (machine.idt 13).present then throughGate layout call 13 (some (BitVec.ofNat 32 (8 * vector + 3))) machine
  else none

/-- A line that is not let through stays raised. -/
def interruptLine (layout : EntryLayout) (call : ItrCall H σ) (line : Nat) (machine : InterruptMachine H σ) :
    Option (InterruptMachine H σ) :=
  match if machine.cpu.accepts then machine.pics.raise line else none with
  | none => some machine
  | some (vector, pics) => interrupt layout call vector.toNat none { machine with pics := pics }

/-- A program gets the same fault for a gate that is not there or not for its ring. -/
def interruptProgram (layout : EntryLayout) (call : ItrCall H σ) (vector : Nat) (machine : InterruptMachine H σ) :
    Option (InterruptMachine H σ) :=
  if machine.cpu.ring = 0 then none
  else if ¬(machine.idt vector).present ∨ (machine.idt vector).dpl < machine.cpu.ring then
    interrupt layout call 13 (some (BitVec.ofNat 32 (8 * vector + 2))) machine
  else interrupt layout call vector none machine

end InterruptMachine

/-- The exceptions for which the processor pushes an error code. -/
def errorVectors : List Nat := [8, 10, 11, 12, 13, 14, 17, 21, 29, 30]

inductive InterruptAction (H : Type u)
  /-- A device raises a line. -/
  | line (irq : Nat)
  /-- `int`, by a program. -/
  | program (vector : Nat)
  | exception (vector : Nat) (error : BitVec 32)
  /-- Instructions between interrupts. -/
  | compute (cpu : Processor)
  | isrHandlerSet (index : Nat) (handler : H)
  | isrHandlerUnset (index : Nat)
  | irqHandlerSet (index : Nat) (handler : H)
  | irqHandlerUnset (index : Nat)
  | picMaskSet (irq : Nat)
  | picMaskUnset (irq : Nat)

open InterruptMachine in
def interruptStep (layout : EntryLayout) (call : ItrCall H σ) (machine : InterruptMachine H σ) :
    InterruptAction H → Option (InterruptMachine H σ)
  | .line irq => interruptLine layout call irq machine
  | .program vector => interruptProgram layout call vector machine
  | .exception vector error => interrupt layout call vector (if vector ∈ errorVectors then some error else none) machine
  | .compute cpu => some { machine with cpu := cpu }
  | .isrHandlerSet index handler => some { machine with isr := Interrupts.isrHandlerSet index handler machine.isr }
  | .isrHandlerUnset index => some { machine with isr := Interrupts.isrHandlerUnset index machine.isr }
  | .irqHandlerSet index handler => some { machine with irq := Interrupts.irqHandlerSet index handler machine.irq }
  | .irqHandlerUnset index => some { machine with irq := Interrupts.irqHandlerUnset index machine.irq }
  | .picMaskSet irq => some { machine with pics := machine.pics.picMaskSet irq }
  | .picMaskUnset irq => some { machine with pics := machine.pics.picMaskUnset irq }

/-- After `idt_init`; the tables are static. -/
def interruptStart (entry : EntryCode → BitVec 32) (pics : Pics) (cpu : Processor) (kernel : σ) :
    InterruptMachine H σ :=
  ⟨cpu, pics.picRemap 0x20 0x28, idtInit entry fun _ => ⟨0, 0, 0, 0, 0⟩, fun _ => none, fun _ => none, kernel⟩

end YuzuOS.Kernel.Interrupts
