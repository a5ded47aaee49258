import Mathlib.Data.List.Pairwise
import Mathlib.Logic.Function.Basic
import YuzuOS.Kernel.Switch
import YuzuOS.Library.Simulation
import YuzuOS.Library.StackWords

/-! Kernel threads under `sched_switch` run as if each had a processor and a stack of its own: a thread that waits is
gone on with as it was, and a new one begins as if its entry had been called. -/

namespace YuzuOS.Proofs.ThreadSwitches
open YuzuOS.Library YuzuOS.Kernel.Switch

/-- Threads with a processor and a stack each. Only the interrupts and the page directory are shared. -/
structure Threads where
  current : Nat
  interrupts : Bool
  cr3 : Nat
  contexts : Nat → Context

/-- The call of an entry function, with its parameters above the return address `SCHED_PAGE_FAULT`. -/
def startContext (stack : Nat) (entry : BitVec 32) (parameters : Nat → Memory → Memory) : Context :=
  let top := stack + schedStackSize
  ⟨⟨0, 0, 0, 0, 0, 0, 0, entry, top - 16⟩,
    (parameters top (Memory.store32 (fun _ => 0) (top - 16) schedPageFault)).store32 (top - 20) entry.toNat⟩

def loadParameters (thread path top : Nat) (memory : Memory) : Memory :=
  (memory.store32 (top - 8) thread).store32 (top - 12) path

def forkParameters (thread top : Nat) (memory : Memory) : Memory := memory.store32 (top - 12) thread

def switchWords (own : Context) (espField espNew physical : Nat) (returnAddress : BitVec 32) : List Nat :=
  let registers := own.registers
  [physical, espNew, espField, returnAddress.toNat, registers.eax.toNat, registers.ecx.toNat, registers.edx.toNat,
    registers.ebx.toNat, registers.esp - 16, registers.ebp.toNat, registers.esi.toNat, registers.edi.toNat]

/-- The call comes back with every register as it was, above its three arguments. -/
def switched (own : Context) (espField espNew physical : Nat) (returnAddress : BitVec 32) : Context :=
  ⟨{ own.registers with eip := returnAddress, esp := own.registers.esp - 12 },
    own.memory.pushed own.registers.esp (switchWords own espField espNew physical returnAddress)⟩

def threadsStep (threads : Threads) : SwitchAction → Option Threads
  | .load thread stack path entry => some { threads with
      contexts := Function.update threads.contexts thread (startContext stack entry (loadParameters thread path)) }
  | .fork thread stack entry => some { threads with
      contexts := Function.update threads.contexts thread (startContext stack entry (forkParameters thread)) }
  | .switch thread physical returnAddress =>
    if threads.current = thread then some threads
    else
      let own := threads.contexts threads.current
      let espNew := (threads.contexts thread).registers.esp - 36
      some {
        current := thread
        interrupts := true
        cr3 := physical
        contexts := Function.update threads.contexts threads.current
          (switched own (threadEsp threads.current) espNew physical returnAddress) }
  | .compute registers interrupts address bytes =>
    let memory := (threads.contexts threads.current).memory.write address bytes.length fun i => bytes.getD i 0
    some { threads with
      interrupts := interrupts
      contexts := Function.update threads.contexts threads.current ⟨registers, memory⟩ }

section Layout

/-- The fields of a thread lie beside the stack of another. -/
def FieldsApart (first second : KernelThread) : Prop :=
  first.place + 16 ≤ second.stack ∨ second.top ≤ first.place + 8

def Apart (first second : KernelThread) : Prop :=
  (first.top ≤ second.stack ∨ second.top ≤ first.stack) ∧ FieldsApart first second ∧ FieldsApart second first ∧
    (first.place + 16 ≤ second.place + 8 ∨ second.place + 16 ≤ first.place + 8)

structure Sound (thread : KernelThread) : Prop where
  own : FieldsApart thread thread
  top : thread.top < 2 ^ 32
  place : thread.place + 16 < 2 ^ 32

structure Laid (threads : List KernelThread) : Prop where
  sound : ∀ thread ∈ threads, Sound thread
  apart : threads.Pairwise Apart

instance (first second : KernelThread) : Decidable (FieldsApart first second) := inferInstanceAs (Decidable (_ ∨ _))

instance (first second : KernelThread) : Decidable (Apart first second) := inferInstanceAs (Decidable (_ ∧ _))

instance (thread : KernelThread) : Decidable (Sound thread) :=
  decidable_of_iff (FieldsApart thread thread ∧ thread.top < 2 ^ 32 ∧ thread.place + 16 < 2 ^ 32)
    ⟨fun all => ⟨all.1, all.2.1, all.2.2⟩, fun sound => ⟨sound.own, sound.top, sound.place⟩⟩

instance (threads : List KernelThread) : Decidable (Laid threads) :=
  decidable_of_iff ((∀ thread ∈ threads, Sound thread) ∧ threads.Pairwise Apart)
    ⟨fun all => ⟨all.1, all.2⟩, fun laid => ⟨laid.sound, laid.apart⟩⟩

variable {threads : List KernelThread} {first second : KernelThread}

theorem Apart.symm (apart : Apart first second) : Apart second first :=
  ⟨apart.1.symm, apart.2.2.1, apart.2.1, apart.2.2.2.symm⟩

instance : Std.Symm Apart := ⟨fun _ _ => Apart.symm⟩

theorem Laid.others (laid : Laid threads) (one : first ∈ threads) (other : second ∈ threads)
    (different : first.place ≠ second.place) : Apart first second := by
  have unequal : first ≠ second := fun same => different (congrArg KernelThread.place same)
  exact laid.apart.forall one other unequal

theorem Laid.same (laid : Laid threads) (one : first ∈ threads) (other : second ∈ threads)
    (same : first.place = second.place) : first = second := by
  by_contra unequal
  have apart := laid.apart.forall one other unequal
  have fields := apart.2.2.2
  omega

end Layout

section Saving

variable {memory other : Memory} {thread : KernelThread} {context : Context}

def Agrees (thread : KernelThread) (memory other : Memory) : Prop :=
  ∀ place, thread.stack ≤ place → place < thread.top → memory place = other place

/-- What `popa` and `ret` will find. -/
structure Saved (memory : Memory) (thread : KernelThread) (context : Context) : Prop where
  room : thread.stack + 36 ≤ context.registers.esp
  below : context.registers.esp ≤ thread.top
  esp : memory.load32 (threadEsp thread.place) = context.registers.esp - 36
  words : ∃ skipped, memory.Words (context.registers.esp - 36)
    [context.registers.edi.toNat, context.registers.esi.toNat, context.registers.ebp.toNat, skipped,
      context.registers.ebx.toNat, context.registers.edx.toNat, context.registers.ecx.toNat,
        context.registers.eax.toNat,
      context.registers.eip.toNat]

/-- It stays while the stack and the field do. -/
theorem Saved.congr (saved : Saved memory thread context) (stack : Agrees thread other memory)
    (field : ∀ place, thread.place + 8 ≤ place → place < thread.place + 12 → other place = memory place) :
    Saved other thread context := by
  obtain ⟨room, below, esp, skipped, words⟩ := saved
  refine ⟨room, below, ?_, skipped, words.congr fun place lower upper => ?_⟩
  · rw [← esp]
    exact Memory.load32_congr fun i bound => field _ (by unfold threadEsp; omega) (by unfold threadEsp; omega)
  · simp only [List.length_cons, List.length_nil] at upper
    exact stack place (by omega) (by omega)

/-- A thread is gone on with as it was. -/
theorem Saved.resume (saved : Saved memory thread context) (registers : Registers) :
    (Context.mk { registers with esp := context.registers.esp - 36 } memory).popa.ret =
      ⟨context.registers, memory⟩ := by
  obtain ⟨room, below, esp, skipped, words⟩ := saved
  obtain ⟨edi, esi, ebp, -, ebx, edx, ecx, eax, eip, -⟩ := words
  have back : context.registers.esp - 36 + 32 + 4 = context.registers.esp := by omega
  simp only [Nat.add_assoc, Nat.reduceAdd] at edi esi ebp ebx edx ecx eax eip back
  simp only [Context.popa, Context.ret, Context.word, edi, esi, ebp, ebx, edx, ecx, eax, eip, BitVec.ofNat_toNat,
    BitVec.setWidth_eq, back]

end Saving

section Switching

variable {machine : SwitchMachine} {thread physical : Nat} {returnAddress : BitVec 32}

/-- The memory in which the stack is changed: the words of the call, and the stack pointer in its field. -/
def calledMemory (machine : SwitchMachine) (thread physical : Nat) (returnAddress : BitVec 32) : Memory :=
  (machine.context.memory.pushed machine.context.registers.esp
    (switchWords machine.context (threadEsp machine.schedThread) (machine.context.memory.load32 (threadEsp thread))
      physical returnAddress)).store32 (threadEsp machine.schedThread) (machine.context.registers.esp - 48)

structure Room (machine : SwitchMachine) (physical : Nat) : Prop where
  room : 48 ≤ machine.context.registers.esp
  high : machine.context.registers.esp < 2 ^ 32
  place : threadEsp machine.schedThread < 2 ^ 32
  fits : physical < 2 ^ 32
  field : threadEsp machine.schedThread + 4 ≤ machine.context.registers.esp - 48 ∨
    machine.context.registers.esp ≤ threadEsp machine.schedThread

theorem pushed_switchWords (enough : Room machine physical) (thread : Nat) (returnAddress : BitVec 32) :
    (machine.context.memory.pushed machine.context.registers.esp
      (switchWords machine.context (threadEsp machine.schedThread) (machine.context.memory.load32 (threadEsp thread))
        physical returnAddress)).Words (machine.context.registers.esp - 48)
      (switchWords machine.context (threadEsp machine.schedThread) (machine.context.memory.load32 (threadEsp thread))
        physical returnAddress).reverse := by
  have small : ∀ word ∈ switchWords machine.context (threadEsp machine.schedThread)
      (machine.context.memory.load32 (threadEsp thread)) physical returnAddress, word < 2 ^ 32 := by
    have loaded : machine.context.memory.load32 (threadEsp thread) < 2 ^ 32 := Memory.load32_lt
    have sub : machine.context.registers.esp - 16 < 2 ^ 32 := (Nat.sub_le _ _).trans_lt enough.high
    simp only [switchWords, List.forall_mem_cons, List.not_mem_nil, false_implies, implies_true, and_true]
    exact ⟨enough.fits, loaded, enough.place, returnAddress.isLt, BitVec.isLt _, BitVec.isLt _, BitVec.isLt _,
      BitVec.isLt _, sub, BitVec.isLt _, BitVec.isLt _, BitVec.isLt _⟩
  exact Memory.pushed_words enough.room small

theorem called_words (enough : Room machine physical) (thread : Nat) (returnAddress : BitVec 32) :
    (calledMemory machine thread physical returnAddress).Words (machine.context.registers.esp - 48)
      (switchWords machine.context (threadEsp machine.schedThread) (machine.context.memory.load32 (threadEsp thread))
        physical returnAddress).reverse := by
  refine (pushed_switchWords enough thread returnAddress).congr fun place lower upper => Memory.store32_outside ?_
  have room := enough.room
  have field := enough.field
  simp only [switchWords, List.reverse_cons, List.reverse_nil, List.nil_append, List.cons_append, List.length_cons,
    List.length_nil] at upper
  omega

/-- The thread that is left is saved as it will come back from the call. -/
theorem called_saved (enough : Room machine physical) {own : KernelThread} {context : Context} {espField espNew : Nat}
    (low : own.stack + 48 ≤ machine.context.registers.esp) (high : machine.context.registers.esp ≤ own.top)
    (current : own.place = machine.schedThread) (same : machine.context.registers = context.registers) :
    Saved (calledMemory machine thread physical returnAddress) own
      (switched context espField espNew physical returnAddress) := by
  have words := called_words enough thread returnAddress
  have esp : (calledMemory machine thread physical returnAddress).load32 (threadEsp own.place) =
      machine.context.registers.esp - 48 := by
    have fits : machine.context.registers.esp - 48 < 2 ^ 32 := (Nat.sub_le _ _).trans_lt enough.high
    rw [current, calledMemory, Memory.load32_store32 fits]
  rw [switched, ← same]
  refine ⟨by simp only; omega, by simp only; omega, ?_, machine.context.registers.esp - 16, ?_⟩
  · rw [esp]
    exact (Nat.sub_sub _ 12 36).symm
  · have front : (switchWords machine.context (threadEsp machine.schedThread)
        (machine.context.memory.load32 (threadEsp thread)) physical returnAddress).reverse =
        [machine.context.registers.edi.toNat, machine.context.registers.esi.toNat, machine.context.registers.ebp.toNat,
          machine.context.registers.esp - 16, machine.context.registers.ebx.toNat, machine.context.registers.edx.toNat,
          machine.context.registers.ecx.toNat, machine.context.registers.eax.toNat, returnAddress.toNat] ++
        [threadEsp machine.schedThread, machine.context.memory.load32 (threadEsp thread), physical] := rfl
    rw [front, Memory.words_append] at words
    have place : machine.context.registers.esp - 12 - 36 = machine.context.registers.esp - 48 := Nat.sub_sub _ 12 36
    simp only [place]
    exact words.1

/-- The last push is the lowest, and what the switch reads are the arguments of the call. -/
theorem schedThreadSwitch_eq (enough : Room machine physical) (different : machine.schedThread ≠ thread)
    (returnAddress : BitVec 32) :
    machine.schedThreadSwitch thread physical returnAddress = { machine with
      context := (Context.mk { machine.context.registers with
          esp := machine.context.memory.load32 (threadEsp thread) }
        (calledMemory machine thread physical returnAddress)).popa.ret
      cr3 := physical
      interrupts := true
      schedThread := thread } := by
  have first := pushed_switchWords enough thread returnAddress
  have later := called_words enough thread returnAddress
  unfold calledMemory at later ⊢
  have pushes : (Context.push returnAddress.toNat (Context.push (threadEsp machine.schedThread)
      (Context.push (machine.context.memory.load32 (threadEsp thread))
        (Context.push physical machine.context)))).pusha =
      ⟨{ machine.context.registers with esp := machine.context.registers.esp - 48 },
        machine.context.memory.pushed machine.context.registers.esp
          (switchWords machine.context (threadEsp machine.schedThread)
            (machine.context.memory.load32 (threadEsp thread)) physical returnAddress)⟩ := by
    simp only [Context.pusha, Context.push, switchWords, Memory.pushed, Nat.sub_sub, Nat.reduceAdd]
  generalize machine.context.memory.pushed machine.context.registers.esp (switchWords machine.context
    (threadEsp machine.schedThread) (machine.context.memory.load32 (threadEsp thread)) physical returnAddress) =
      pushed at first later pushes ⊢
  obtain ⟨-, -, -, -, -, -, -, -, -, field, -, -, -⟩ := first
  obtain ⟨-, -, -, -, -, -, -, -, -, -, espNew, directory, -⟩ := later
  simp only [Nat.add_assoc, Nat.reduceAdd] at field espNew directory
  rw [SwitchMachine.schedThreadSwitch, if_neg different]
  simp only [SwitchMachine.schedSwitch, pushes, Nat.reduceMul, field, espNew, directory]

end Switching

section Creating

variable {memory : Memory} {thread stack path : Nat} {entry : BitVec 32}

/-- Stores of parameters: at the top of the stack, whatever was there. -/
structure OwnParameters (top : Nat) (parameters : Memory → Memory) : Prop where
  congr : ∀ memory other place, memory place = other place → parameters memory place = parameters other place
  outside : ∀ memory place, place < top - 16 ∨ top ≤ place → parameters memory place = memory place

theorem loadParameters_own (thread path : Nat) {top : Nat} (high : 16 ≤ top) :
    OwnParameters top (loadParameters thread path top) where
  congr := fun _ _ _ same => Memory.store32_congr path (Memory.store32_congr thread same)
  outside := fun memory place outside => by
    rw [loadParameters, Memory.store32_outside (by omega), Memory.store32_outside (by omega)]

theorem forkParameters_own (thread : Nat) {top : Nat} (high : 16 ≤ top) :
    OwnParameters top (forkParameters thread top) where
  congr := fun _ _ _ same => Memory.store32_congr thread same
  outside := fun memory place outside => by rw [forkParameters, Memory.store32_outside (by omega)]

theorem schedThreadCreate_spec (sound : Sound ⟨thread, stack, schedStackSize⟩) (memory : Memory) :
    (schedThreadCreate thread stack memory).load32 (threadEsp thread) = stack + schedStackSize - trapFrameSize ∧
    (∀ place, stack ≤ place → place < stack + schedStackSize → schedThreadCreate thread stack memory place =
      Memory.store32 (fun _ => 0) (stack + schedStackSize - 16) schedPageFault place) ∧
    ∀ place, (place < stack ∨ stack + schedStackSize ≤ place) → (place < thread + 8 ∨ thread + 16 ≤ place) →
      schedThreadCreate thread stack memory place = memory place := by
  obtain ⟨own, top, -⟩ := sound
  simp only [FieldsApart, KernelThread.top] at own top
  have kernel (memory : Memory) : (memory.store32 (threadStackKernel thread) (stack + schedStackSize)).load32
      (threadStackKernel thread) = stack + schedStackSize := Memory.load32_store32 top
  have frame (memory : Memory) : (memory.store32 (threadEsp thread) (stack + schedStackSize - trapFrameSize)).load32
      (threadEsp thread) = stack + schedStackSize - trapFrameSize :=
    Memory.load32_store32 ((Nat.sub_le _ _).trans_lt top)
  have place : stack + schedStackSize - trapFrameSize + frameReturnAddr = stack + schedStackSize - 16 := by
    simp only [schedStackSize, trapFrameSize, frameReturnAddr]
    omega
  simp only [schedThreadCreate, kernel, frame, place]
  have sizes : schedStackSize = 0x2000 ∧ trapFrameSize = 52 := ⟨rfl, rfl⟩
  simp only [threadEsp, threadStackKernel]
  refine ⟨?_, fun place lower upper => ?_, fun place outside beside => ?_⟩
  · refine Eq.trans ?_ (frame ((memory.fill stack schedStackSize 0).store32 (threadStackKernel thread)
      (stack + schedStackSize)))
    refine Memory.load32_congr fun i bound => ?_
    rw [Memory.store32_outside (by omega), Memory.fill, Memory.write_outside (by omega)]
    rfl
  · refine Memory.store32_congr _ ?_
    rw [Memory.fill]
    by_cases low : place < stack + schedStackSize - trapFrameSize
    · rw [Memory.write_outside (.inl low), Memory.store32_outside (by omega), Memory.store32_outside (by omega),
        Memory.fill, Memory.write_inside lower upper]
    · rw [Memory.write_inside (by omega) (by omega)]
  · rw [Memory.store32_outside (by omega), Memory.fill, Memory.write_outside (by omega),
      Memory.store32_outside (by omega), Memory.store32_outside (by omega), Memory.fill,
      Memory.write_outside (by omega)]

theorem schedLoadFrame_eq (frame : memory.load32 (threadEsp thread) = stack + schedStackSize - trapFrameSize) :
    schedLoadFrame thread path entry memory =
      (loadParameters thread path (stack + schedStackSize) memory).store32 (stack + schedStackSize - 20)
        entry.toNat := by
  have places : stack + schedStackSize - trapFrameSize + frameParam2 = stack + schedStackSize - 8 ∧
      stack + schedStackSize - trapFrameSize + frameParam1 = stack + schedStackSize - 12 ∧
      stack + schedStackSize - trapFrameSize + frameEip = stack + schedStackSize - 20 := by
    simp only [schedStackSize, trapFrameSize, frameParam2, frameParam1, frameEip]
    omega
  rw [schedLoadFrame, frame, places.1, places.2.1, places.2.2, loadParameters]

theorem schedForkFrame_eq (frame : memory.load32 (threadEsp thread) = stack + schedStackSize - trapFrameSize) :
    schedForkFrame thread entry memory =
      (forkParameters thread (stack + schedStackSize) memory).store32 (stack + schedStackSize - 20) entry.toNat := by
  have places : stack + schedStackSize - trapFrameSize + frameParam1 = stack + schedStackSize - 12 ∧
      stack + schedStackSize - trapFrameSize + frameEip = stack + schedStackSize - 20 := by
    simp only [schedStackSize, trapFrameSize, frameParam1, frameEip]
    omega
  rw [schedForkFrame, frame, places.1, places.2, forkParameters]

/-- The frame of a new thread, below the parameters: no register, and the entry. -/
theorem created_saved (sound : Sound ⟨thread, stack, schedStackSize⟩) {parameters : Nat → Memory → Memory}
    (own : OwnParameters (stack + schedStackSize) (parameters (stack + schedStackSize))) (memory : Memory) :
    Saved ((parameters (stack + schedStackSize) (schedThreadCreate thread stack memory)).store32
      (stack + schedStackSize - 20) entry.toNat) ⟨thread, stack, schedStackSize⟩
      (startContext stack entry parameters) := by
  obtain ⟨esp, inside, -⟩ := schedThreadCreate_spec sound memory
  obtain ⟨beside, -, -⟩ := sound
  simp only [FieldsApart, KernelThread.top] at beside
  have size : schedStackSize = 0x2000 := rfl
  have frame : stack + schedStackSize - 16 - 36 = stack + schedStackSize - 52 := Nat.sub_sub _ 16 36
  refine ⟨?_, ?_, ?_, 0, ?_⟩
  · simp only [startContext]
    omega
  · simp only [startContext, KernelThread.top]
    omega
  · simp only [startContext, frame]
    refine Eq.trans (Memory.load32_congr fun i bound => ?_) esp
    simp only [threadEsp]
    rw [Memory.store32_outside (by omega), own.outside _ _ (by omega)]
  · have empty : Memory.Words (fun _ => 0) (stack + schedStackSize - 52) [0, 0, 0, 0, 0, 0, 0, 0] :=
      ⟨rfl, rfl, rfl, rfl, rfl, rfl, rfl, rfl, trivial⟩
    have split : [0, 0, 0, 0, 0, 0, 0, 0, entry.toNat] = [0, 0, 0, 0, 0, 0, 0, 0] ++ [entry.toNat] := rfl
    have last : stack + schedStackSize - 52 + 4 * 8 = stack + schedStackSize - 20 := by omega
    simp only [startContext, frame, BitVec.ofNat_eq_ofNat, BitVec.toNat_ofNat, Nat.zero_mod]
    rw [split, Memory.words_append]
    refine ⟨empty.congr fun place lower upper => ?_, ?_, trivial⟩
    · simp only [List.length_cons, List.length_nil] at upper
      rw [Memory.store32_outside (by omega), own.outside _ _ (by omega), inside _ (by omega) (by omega),
        Memory.store32_outside (by omega)]
    · simp only [List.length_cons, List.length_nil, Nat.zero_add, Nat.reduceAdd, last]
      exact Memory.load32_store32 entry.isLt

end Creating

section Steps

/-- What the threads have is in the machine: the registers of the current one in the processor, those of the others on
their stacks. -/
structure Represents (machine : SwitchMachine) (threads : Threads) : Prop where
  laid : Laid machine.threads
  current : machine.schedThread = threads.current
  interrupts : machine.interrupts = threads.interrupts
  cr3 : machine.cr3 = threads.cr3
  registers : machine.context.registers = (threads.contexts threads.current).registers
  known : ∃ own ∈ machine.threads, own.place = machine.schedThread
  agrees : ∀ thread ∈ machine.threads, Agrees thread machine.context.memory (threads.contexts thread.place).memory
  saved : ∀ thread ∈ machine.threads, thread.place ≠ machine.schedThread →
    Saved machine.context.memory thread (threads.contexts thread.place)

/-- What the code of the kernel keeps to. The allocator gives a new thread memory of its own; a thread is switched from
with room on its stack; and it stores to its own stack, or beside every stack and saved stack pointer. -/
def Own (machine : SwitchMachine) : SwitchAction → Prop
  | .load thread stack _ _ => Laid (⟨thread, stack, schedStackSize⟩ :: machine.threads)
  | .fork thread stack _ => Laid (⟨thread, stack, schedStackSize⟩ :: machine.threads)
  | .switch thread physical _ => (∃ known ∈ machine.threads, known.place = thread) ∧ physical < 2 ^ 32 ∧
    ∀ own ∈ machine.threads, own.place = machine.schedThread →
      own.stack + 48 ≤ machine.context.registers.esp ∧ machine.context.registers.esp ≤ own.top
  | .compute _ _ address bytes =>
    (∃ own ∈ machine.threads, own.place = machine.schedThread ∧ own.stack ≤ address ∧
      address + bytes.length ≤ own.top) ∨
    ∀ thread ∈ machine.threads, (address + bytes.length ≤ thread.stack ∨ thread.top ≤ address) ∧
      (address + bytes.length ≤ thread.place + 8 ∨ thread.place + 12 ≤ address)

instance (machine : SwitchMachine) (action : SwitchAction) : Decidable (Own machine action) := by
  cases action <;> unfold Own <;> infer_instance

variable {machine : SwitchMachine} {threads : Threads} {memory : Memory}

/-- Memory that is changed in one stack, and in the fields of its thread, leaves the other threads. -/
theorem Represents.others (represents : Represents machine threads) {own : KernelThread} (owns : own ∈ machine.threads)
    (same : ∀ place, (place < own.stack ∨ own.top ≤ place) → (place < own.place + 8 ∨ own.place + 16 ≤ place) →
      memory place = machine.context.memory place) :
    ∀ thread ∈ machine.threads, thread.place ≠ own.place →
      Agrees thread memory machine.context.memory ∧
      ∀ place, thread.place + 8 ≤ place → place < thread.place + 12 → memory place = machine.context.memory place := by
  intro thread member different
  obtain ⟨areas, fields, others, places⟩ := represents.laid.others member owns different
  constructor
  · intro place lower upper
    unfold FieldsApart at others
    exact same place (by omega) (by omega)
  · intro place lower upper
    unfold FieldsApart at fields
    exact same place (by omega) (by omega)

theorem compute_represents (represents : Represents machine threads) {registers : Registers} {interrupts : Bool}
    {address : Nat} {bytes : List (BitVec 8)} (own : Own machine (.compute registers interrupts address bytes)) :
    ∃ next reflected, switchStep machine (.compute registers interrupts address bytes) = some next ∧
      threadsStep threads (.compute registers interrupts address bytes) = some reflected ∧
      Represents next reflected := by
  refine ⟨_, _, rfl, rfl, ?_⟩
  have kept : ∀ thread ∈ machine.threads, thread.place ≠ machine.schedThread →
      Agrees thread (machine.context.memory.write address bytes.length fun i => bytes.getD i 0) machine.context.memory ∧
      ∀ place, thread.place + 8 ≤ place → place < thread.place + 12 →
        machine.context.memory.write address bytes.length (fun i => bytes.getD i 0) place =
          machine.context.memory place := by
    rcases own with ⟨own, owns, current, lower, upper⟩ | beside
    · rw [← current]
      exact represents.others owns fun place outside _ => Memory.write_outside (by omega)
    · intro thread member _
      obtain ⟨stack, field⟩ := beside thread member
      exact ⟨fun place lower upper => Memory.write_outside (by omega),
        fun place lower upper => Memory.write_outside (by omega)⟩
  refine ⟨represents.laid, represents.current, rfl, represents.cr3, ?_, represents.known, ?_, ?_⟩
  · simp
  · intro thread member
    by_cases running : thread.place = machine.schedThread
    · rw [represents.current] at running
      have agrees := represents.agrees thread member
      rw [running] at agrees ⊢
      simp only [Function.update_self]
      intro place lower upper
      unfold Memory.write
      split
      next => rfl
      next => exact agrees place lower upper
    · have other : thread.place ≠ threads.current := fun same => running (same.trans represents.current.symm)
      simp only [Function.update_of_ne other]
      intro place lower upper
      exact ((kept thread member running).1 place lower upper).trans (represents.agrees thread member place lower upper)
  · intro thread member waits
    have other : thread.place ≠ threads.current := fun same => waits (same.trans represents.current.symm)
    simp only [Function.update_of_ne other]
    exact (represents.saved thread member waits).congr (kept thread member waits).1 (kept thread member waits).2

theorem switch_represents (represents : Represents machine threads) {thread physical : Nat}
    {returnAddress : BitVec 32} (own : Own machine (.switch thread physical returnAddress)) :
    ∃ next reflected, switchStep machine (.switch thread physical returnAddress) = some next ∧
      threadsStep threads (.switch thread physical returnAddress) = some reflected ∧ Represents next reflected := by
  obtain ⟨⟨target, known, place⟩, fits, room⟩ := own
  obtain ⟨running, runs, current⟩ := represents.known
  obtain ⟨low, high⟩ := room running runs current
  have found : (machine.threads.any fun known => known.place == thread) = true :=
    List.any_eq_true.mpr ⟨target, known, beq_iff_eq.mpr place⟩
  rw [switchStep, if_pos found, threadsStep]
  by_cases same : machine.schedThread = thread
  · rw [SwitchMachine.schedThreadSwitch, if_pos same, if_pos (represents.current.symm.trans same)]
    exact ⟨_, _, rfl, rfl, represents⟩
  have sound := represents.laid.sound running runs
  have enough : Room machine physical := by
    obtain ⟨fields, top, limit⟩ := sound
    unfold FieldsApart at fields
    refine ⟨by omega, by omega, ?_, fits, ?_⟩
    · rw [← current]
      unfold threadEsp
      omega
    · rw [← current]
      unfold threadEsp
      omega
  have other : target.place ≠ machine.schedThread := fun again => same (again.symm.trans place)
  have waits := represents.saved target known other
  rw [place] at waits
  have espNew : machine.context.memory.load32 (threadEsp thread) = (threads.contexts thread).registers.esp - 36 := by
    rw [← place] at waits ⊢
    exact waits.esp
  have different : ¬threads.current = thread := fun again => same (represents.current.trans again)
  rw [schedThreadSwitch_eq enough same returnAddress, if_neg different]
  refine ⟨_, _, rfl, rfl, ?_⟩
  -- the stack of the thread that is left, and its field, are all that changes
  have outside : ∀ place, (place < running.stack ∨ running.top ≤ place) →
      (place < running.place + 8 ∨ running.place + 16 ≤ place) →
      calledMemory machine thread physical returnAddress place = machine.context.memory place := by
    intro place stack field
    rw [calledMemory, Memory.store32_outside (by rw [← current]; unfold threadEsp; omega)]
    refine Memory.pushed_outside enough.room ?_
    simp only [switchWords, List.length_cons, List.length_nil]
    omega
  have kept := represents.others runs outside
  have pushedWords : switchWords machine.context (threadEsp machine.schedThread)
      (machine.context.memory.load32 (threadEsp thread)) physical returnAddress =
      switchWords (threads.contexts threads.current) (threadEsp threads.current)
        ((threads.contexts thread).registers.esp - 36) physical returnAddress := by
    rw [espNew, represents.current, switchWords, switchWords, represents.registers]
  have target' := kept target known (by rw [current]; exact other)
  rw [← place] at waits
  have resumed := (waits.congr target'.1 target'.2).resume machine.context.registers
  rw [← waits.esp, place] at resumed
  have resumedRegisters := congrArg Context.registers resumed
  have resumedMemory := congrArg Context.memory resumed
  refine ⟨represents.laid, rfl, rfl, rfl, ?_, ⟨target, known, place⟩, ?_, ?_⟩
  · simp only [resumedRegisters, Function.update_of_ne (Ne.symm different)]
  · intro node member
    simp only [resumedMemory]
    by_cases left : node.place = machine.schedThread
    · cases represents.laid.same member runs (left.trans current.symm)
      rw [left, represents.current, Function.update_self, switched, ← pushedWords, ← represents.registers]
      intro place lower upper
      have beside := sound.own
      unfold FieldsApart at beside
      have agrees := represents.agrees running runs place lower upper
      rw [left, represents.current] at agrees
      rw [calledMemory, Memory.store32_outside (by rw [← current]; unfold threadEsp; omega)]
      exact Memory.pushed_congr _ agrees
    · have apart : node.place ≠ threads.current := fun again => left (again.trans represents.current.symm)
      rw [Function.update_of_ne apart]
      intro place lower upper
      exact ((kept node member (by rw [current]; exact left)).1 place lower upper).trans
        (represents.agrees node member place lower upper)
  · intro node member waiting
    simp only [resumedMemory]
    by_cases left : node.place = machine.schedThread
    · cases represents.laid.same member runs (left.trans current.symm)
      rw [left, represents.current, Function.update_self]
      exact called_saved enough low high left represents.registers
    · have apart : node.place ≠ threads.current := fun again => left (again.trans represents.current.symm)
      rw [Function.update_of_ne apart]
      obtain ⟨stack, field⟩ := kept node member (by rw [current]; exact left)
      exact (represents.saved node member left).congr stack field

/-- A new thread is as its start says, and the others stay. -/
theorem create_represents (represents : Represents machine threads) {thread stack : Nat} {entry : BitVec 32}
    {frame : Memory → Memory} {parameters : Nat → Memory → Memory}
    (laid : Laid (⟨thread, stack, schedStackSize⟩ :: machine.threads))
    (own : OwnParameters (stack + schedStackSize) (parameters (stack + schedStackSize)))
    (framed : ∀ memory : Memory, memory.load32 (threadEsp thread) = stack + schedStackSize - trapFrameSize →
      frame memory = (parameters (stack + schedStackSize) memory).store32 (stack + schedStackSize - 20) entry.toNat) :
    Represents (machine.create thread stack frame) { threads with
      contexts := Function.update threads.contexts thread (startContext stack entry parameters) } := by
  obtain ⟨esp, inside, outside⟩ := schedThreadCreate_spec (laid.sound _ List.mem_cons_self) machine.context.memory
  have apart := (List.pairwise_cons.mp laid.apart).1
  have sound := laid.sound _ List.mem_cons_self
  have beside := sound.own
  simp only [FieldsApart, KernelThread.top] at beside
  have size : schedStackSize = 0x2000 := rfl
  have old : ∀ known ∈ machine.threads, known.place ≠ thread := by
    intro known member same
    have fields := (apart known member).2.2.2
    simp only [same] at fields
    omega
  have made := framed _ esp
  have kept : ∀ place, (place < stack ∨ stack + schedStackSize ≤ place) → (place < thread + 8 ∨ thread + 16 ≤ place) →
      frame (schedThreadCreate thread stack machine.context.memory) place = machine.context.memory place := by
    intro place away fields
    rw [made, Memory.store32_outside (by omega), own.outside _ _ (by omega), outside place away fields]
  have agrees : ∀ place, stack ≤ place → place < stack + schedStackSize →
      frame (schedThreadCreate thread stack machine.context.memory) place =
        (startContext stack entry parameters).memory place := by
    intro place lower upper
    rw [made]
    exact Memory.store32_congr _ (own.congr _ _ place (inside place lower upper))
  have stays : ∀ known ∈ machine.threads,
      Agrees known (frame (schedThreadCreate thread stack machine.context.memory)) machine.context.memory ∧
      ∀ place, known.place + 8 ≤ place → place < known.place + 12 →
        frame (schedThreadCreate thread stack machine.context.memory) place = machine.context.memory place := by
    intro known member
    obtain ⟨areas, fields, others, places⟩ := apart known member
    simp only [FieldsApart, KernelThread.top] at areas fields others places
    constructor
    · intro place lower upper
      unfold KernelThread.top at upper
      exact kept place (by omega) (by omega)
    · intro place lower upper
      exact kept place (by omega) (by omega)
  obtain ⟨running, runs, current⟩ := represents.known
  have different : threads.current ≠ thread := by
    rw [← represents.current, ← current]
    exact old running runs
  refine ⟨laid, represents.current, represents.interrupts, represents.cr3, ?_,
    ⟨running, List.mem_cons_of_mem _ runs, current⟩, ?_, ?_⟩
  · simp only [Function.update_of_ne different]
    exact represents.registers
  · intro known member
    rcases List.mem_cons.mp member with rfl | before
    · simp only [Function.update_self]
      exact agrees
    · simp only [Function.update_of_ne (old known before)]
      intro place lower upper
      exact ((stays known before).1 place lower upper).trans (represents.agrees known before place lower upper)
  · intro known member waits
    rcases List.mem_cons.mp member with rfl | before
    · simp only [Function.update_self]
      rw [SwitchMachine.create, made]
      exact created_saved sound own machine.context.memory
    · simp only [Function.update_of_ne (old known before)]
      exact (represents.saved known before waits).congr (stays known before).1 (stays known before).2

theorem step_represents (represents : Represents machine threads) {action : SwitchAction} (own : Own machine action) :
    ∃ next reflected, switchStep machine action = some next ∧ threadsStep threads action = some reflected ∧
      Represents next reflected := by
  cases action with
  | load thread stack path entry =>
    have high : 16 ≤ stack + schedStackSize := by
      unfold schedStackSize
      omega
    exact ⟨_, _, rfl, rfl, create_represents represents own (loadParameters_own thread path high)
      fun _ frame => schedLoadFrame_eq frame⟩
  | fork thread stack entry =>
    have high : 16 ≤ stack + schedStackSize := by
      unfold schedStackSize
      omega
    exact ⟨_, _, rfl, rfl, create_represents represents own (forkParameters_own thread high)
      fun _ frame => schedForkFrame_eq frame⟩
  | switch thread physical returnAddress => exact switch_represents represents own
  | compute registers interrupts address bytes => exact compute_represents represents own

end Steps

section Runs

variable {machine : SwitchMachine} {threads : Threads} {first : KernelThread} {actions : List SwitchAction}

/-- Before any switch there is one thread, on the stack of the boot code. -/
structure Boots (machine : SwitchMachine) (first : KernelThread) : Prop where
  one : machine.threads = [first]
  current : machine.schedThread = first.place
  sound : Sound first

def alone (machine : SwitchMachine) : Threads :=
  ⟨machine.schedThread, machine.interrupts, machine.cr3, fun _ => machine.context⟩

theorem Boots.represents (boots : Boots machine first) : Represents machine (alone machine) := by
  obtain ⟨one, current, sound⟩ := boots
  refine ⟨⟨?_, ?_⟩, rfl, rfl, rfl, rfl, ⟨first, ?_, current.symm⟩, fun _ _ _ _ _ => rfl, ?_⟩
  · rw [one]
    exact List.forall_mem_singleton.mpr sound
  · rw [one]
    exact List.pairwise_singleton _ _
  · rw [one]
    exact List.mem_singleton_self _
  · intro thread member waits
    rw [one, List.mem_singleton] at member
    exact absurd (member ▸ current.symm) waits

theorem run_represents (represents : Represents machine threads) (met : Meets switchStep Own machine actions) :
    ∃ final last, run switchStep machine actions = some final ∧ run threadsStep threads actions = some last ∧
      Represents final last :=
  run_simulates_met (fun _ _ _ represents own => step_represents represents own) represents met

/-- Over every run the processor, the memory and `sched_switch` do what threads with a processor and a stack each
would do. -/
theorem switches_refine (boots : Boots machine first) (met : Meets switchStep Own machine actions) :
    ∃ final threads, run switchStep machine actions = some final ∧
      run threadsStep (alone machine) actions = some threads ∧ Represents final threads :=
  run_represents boots.represents met

/-- The boot code calls `sched_switch` from 0xC0100500 for the thread of the first program, which is given back the
processor at 0xC0100900. -/
def someBoot : SwitchMachine where
  context := ⟨⟨1, 2, 3, 4, 5, 6, 7, 0xC0100400, 0xC0205F00⟩, fun _ => 0⟩
  interrupts := false
  cr3 := 0x100000
  schedThread := 0xC0401000
  threads := [⟨0xC0401000, 0xC0202000, 0x4000⟩]

def someStart : List SwitchAction := [.load 0xC0403000 0xC0405000 0xC0402000 0xC0100800]

/-- The new thread pushes a word, and gives the processor back. -/
def someRest : List SwitchAction :=
  [.compute ⟨8, 9, 10, 11, 12, 13, 14, 0xC0100804, 0xC0406FEC⟩ true 0xC0406FEC [1, 2, 3, 4]]

def someSwitches : List SwitchAction :=
  someStart ++ .switch 0xC0403000 0x200000 0xC0100500 :: (someRest ++ [.switch 0xC0401000 0x100000 0xC0100900])

theorem someBoot_boots : Boots someBoot ⟨0xC0401000, 0xC0202000, 0x4000⟩ := ⟨rfl, rfl, by decide⟩

theorem someSwitches_met : Meets switchStep Own someBoot someSwitches := by decide +kernel

theorem switches_refine_example : ∃ final threads, run switchStep someBoot someSwitches = some final ∧
    Represents final threads ∧ (threads.contexts 0xC0401000).registers =
      ⟨1, 2, 3, 4, 5, 6, 7, 0xC0100500, 0xC0205EF4⟩ := by
  obtain ⟨final, threads, ran, reflected, represents⟩ := switches_refine someBoot_boots someSwitches_met
  cases reflected
  exact ⟨final, _, ran, represents, rfl⟩

structure Waits (own : KernelThread) (context : Context) (machine : SwitchMachine) : Prop where
  known : own ∈ machine.threads
  away : machine.schedThread ≠ own.place
  kept : ∃ threads, Represents machine threads ∧ threads.contexts own.place = context

/-- A switch changes the context of the thread that is left alone. -/
theorem switch_frame {next : SwitchMachine} {reflected : Threads} {thread physical : Nat} {returnAddress : BitVec 32}
    (represents : Represents machine threads)
    (stepped : switchStep machine (.switch thread physical returnAddress) = some next)
    (mirrored : threadsStep threads (.switch thread physical returnAddress) = some reflected) :
    next.threads = machine.threads ∧ next.schedThread = thread ∧
      (machine.schedThread ≠ thread → reflected.cr3 = physical) ∧
      ∀ other, other ≠ threads.current → reflected.contexts other = threads.contexts other := by
  rw [switchStep] at stepped
  rw [threadsStep, ← represents.current] at mirrored
  split at stepped
  next =>
    by_cases same : machine.schedThread = thread
    · rw [if_pos same] at mirrored
      cases stepped
      cases mirrored
      rw [SwitchMachine.schedThreadSwitch, if_pos same]
      exact ⟨rfl, same, fun different => absurd same different, fun _ _ => rfl⟩
    · rw [if_neg same] at mirrored
      cases stepped
      cases mirrored
      rw [SwitchMachine.schedThreadSwitch, if_neg same]
      refine ⟨rfl, rfl, fun _ => rfl, fun other apart => ?_⟩
      rw [represents.current]
      exact Function.update_of_ne apart _ _
  next => cases stepped

theorem step_waits {next : SwitchMachine} {action : SwitchAction} {own : KernelThread} {context : Context}
    (waits : Waits own context machine) (keeps : Own machine action)
    (other : ∀ physical returnAddress, action ≠ .switch own.place physical returnAddress)
    (stepped : switchStep machine action = some next) : Waits own context next := by
  obtain ⟨member, away, threads, represents, kept⟩ := waits
  obtain ⟨again, reflected, same, mirrored, represents'⟩ := step_represents represents keeps
  rw [stepped] at same
  cases same
  have current : threads.current ≠ own.place := fun same => away (represents.current.trans same)
  have fresh {new : KernelThread} (laid : Laid (new :: machine.threads)) : own.place ≠ new.place := by
    intro same
    have fields := ((List.pairwise_cons.mp laid.apart).1 own member).2.2.2
    omega
  cases action with
  | load new stack path entry =>
    cases stepped
    cases mirrored
    refine ⟨List.mem_cons_of_mem _ member, away, _, represents', ?_⟩
    simp only [Function.update_of_ne (fresh keeps)]
    exact kept
  | fork new stack entry =>
    cases stepped
    cases mirrored
    refine ⟨List.mem_cons_of_mem _ member, away, _, represents', ?_⟩
    simp only [Function.update_of_ne (fresh keeps)]
    exact kept
  | switch chosen physical returnAddress =>
    have apart : chosen ≠ own.place := fun same => other physical returnAddress (same ▸ rfl)
    obtain ⟨threads', current', -, contexts'⟩ := switch_frame represents stepped mirrored
    refine ⟨by rw [threads']; exact member, by rw [current']; exact apart, _, represents', ?_⟩
    rw [contexts' own.place (Ne.symm current)]
    exact kept
  | compute registers interrupts address bytes =>
    cases stepped
    cases mirrored
    refine ⟨member, away, _, represents', ?_⟩
    simp only [Function.update_of_ne (Ne.symm current)]
    exact kept

/-- What waits after a switch: the call will come back, and above its arguments the stack is as it was. -/
theorem switch_waits {next : SwitchMachine} {own : KernelThread} {chosen physical : Nat} {returnAddress : BitVec 32}
    (represents : Represents machine threads) (owns : own ∈ machine.threads) (current : machine.schedThread = own.place)
    (away : own.place ≠ chosen) (keeps : Own machine (.switch chosen physical returnAddress))
    (stepped : switchStep machine (.switch chosen physical returnAddress) = some next) :
    ∃ context, Waits own context next ∧
      context.registers = { machine.context.registers with
        eip := returnAddress, esp := machine.context.registers.esp - 12 } ∧
      ∀ place, machine.context.registers.esp ≤ place → place < own.top →
        context.memory place = machine.context.memory place := by
  obtain ⟨again, reflected, same, mirrored, represents'⟩ := step_represents represents keeps
  rw [stepped] at same
  cases same
  obtain ⟨threads', current', -, -⟩ := switch_frame represents stepped mirrored
  obtain ⟨-, -, room⟩ := keeps
  obtain ⟨low, high⟩ := room own owns current.symm
  have different : ¬threads.current = chosen := by rwa [← represents.current, current]
  rw [threadsStep, if_neg different] at mirrored
  cases mirrored
  have place : threads.current = own.place := represents.current.symm.trans current
  refine ⟨_, ⟨by rw [threads']; exact owns, by rw [current']; exact away.symm, _, represents', rfl⟩, ?_, ?_⟩
  · simp only [place, Function.update_self, switched]
    rw [represents.registers, place]
  · intro address lower upper
    simp only [place, Function.update_self, switched]
    have registers := represents.registers
    rw [place] at registers
    rw [← registers, Memory.pushed_outside]
    · exact (represents.agrees own owns address (by omega) upper).symm
    · simp only [switchWords, List.length_cons, List.length_nil]
      omega
    · exact .inr lower

/-- A thread that gives up the processor gets it back with its registers and its stack as they were, after the call of
`sched_switch`, whatever the others do before. -/
theorem thread_resumes {before between : List SwitchAction} {left : SwitchMachine} {own : KernelThread}
    {chosen physical back : Nat} {returnAddress other : BitVec 32} (boots : Boots machine first)
    (ran : run switchStep machine before = some left) (owns : own ∈ left.threads)
    (current : left.schedThread = own.place) (away : own.place ≠ chosen)
    (others : ∀ action ∈ between, ∀ physical returnAddress, action ≠ .switch own.place physical returnAddress)
    (met : Meets switchStep Own machine (before ++ .switch chosen physical returnAddress ::
      (between ++ [.switch own.place back other]))) :
    ∃ final, run switchStep machine (before ++ .switch chosen physical returnAddress ::
        (between ++ [.switch own.place back other])) = some final ∧
      final.schedThread = own.place ∧ final.cr3 = back ∧
      final.context.registers = { left.context.registers with
        eip := returnAddress, esp := left.context.registers.esp - 12 } ∧
      ∀ place, left.context.registers.esp ≤ place → place < own.top →
        final.context.memory place = left.context.memory place := by
  obtain ⟨met₁, met₂⟩ := meets_append met ran
  obtain ⟨reached, threads, again, -, represents⟩ := run_represents boots.represents met₁
  rw [ran] at again
  cases again
  obtain ⟨low, -⟩ := met₂.1.2.2 own owns current.symm
  obtain ⟨gone, reflected, stepped, -, represents₁⟩ := step_represents represents met₂.1
  obtain ⟨context, waits, registers, memory⟩ := switch_waits represents owns current away met₂.1 stepped
  have met₃ := met₂.2 gone stepped
  obtain ⟨final, last, finished, -, -⟩ := run_represents represents₁ met₃
  obtain ⟨middle, passed, resumed⟩ := run_append.mp finished
  obtain ⟨met₄, met₅⟩ := meets_append met₃ passed
  have waiting : Waits own context middle :=
    run_invariant (Waits own context) (fun _ _ _ waits allowed stepped => step_waits waits allowed.1 allowed.2 stepped)
      waits (met₄.and others) passed
  obtain ⟨next, back', done⟩ := run_cons.mp resumed
  cases done
  obtain ⟨member, apart, threads₂, represents₂, kept⟩ := waiting
  obtain ⟨same, reflected₂, stepped₂, mirrored₂, represents₃⟩ := step_represents represents₂ met₅.1
  rw [back'] at stepped₂
  cases stepped₂
  obtain ⟨threads', current', directory, contexts'⟩ := switch_frame represents₂ back' mirrored₂
  have context' : reflected₂.contexts own.place = context := by
    rw [contexts' own.place fun same => apart (represents₂.current.trans same.symm), kept]
  refine ⟨final, run_append.mpr ⟨left, ran, run_cons.mpr ⟨gone, stepped, finished⟩⟩, current', ?_, ?_, ?_⟩
  · rw [represents₃.cr3, directory apart]
  · rw [represents₃.registers, ← represents₃.current, current', context', registers]
  · intro place lower upper
    have agrees := represents₃.agrees own (by rw [threads']; exact member) place (by omega) upper
    rw [agrees, context', memory place lower upper]

theorem thread_resumes_example : ∃ final, run switchStep someBoot someSwitches = some final ∧
    final.context.registers = ⟨1, 2, 3, 4, 5, 6, 7, 0xC0100500, 0xC0205EF4⟩ := by
  have started : run switchStep someBoot someStart = some (someBoot.create 0xC0403000 0xC0405000
      (schedLoadFrame 0xC0403000 0xC0402000 0xC0100800)) := rfl
  have owns : ⟨0xC0401000, 0xC0202000, 0x4000⟩ ∈ (someBoot.create 0xC0403000 0xC0405000
      (schedLoadFrame 0xC0403000 0xC0402000 0xC0100800)).threads := List.mem_cons_of_mem _ (List.mem_singleton_self _)
  have others : ∀ action ∈ someRest, ∀ physical returnAddress,
      action ≠ SwitchAction.switch (KernelThread.mk 0xC0401000 0xC0202000 0x4000).place physical returnAddress := by
    intro action member physical returnAddress
    rw [someRest, List.mem_singleton] at member
    rw [member]
    exact SwitchAction.noConfusion
  have apart : (KernelThread.mk 0xC0401000 0xC0202000 0x4000).place ≠ 0xC0403000 := by decide
  obtain ⟨final, ran, -, -, registers, -⟩ :=
    thread_resumes someBoot_boots started owns rfl apart others someSwitches_met
  exact ⟨final, ran, registers⟩

end Runs

end YuzuOS.Proofs.ThreadSwitches
