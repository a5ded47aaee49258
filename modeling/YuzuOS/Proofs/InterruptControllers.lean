import YuzuOS.Kernel.Interrupts

/-! The two interrupt controllers between interrupts and in service, and the places of a line in the table of
handlers. -/

namespace YuzuOS.Proofs.InterruptControllers
open YuzuOS.Kernel YuzuOS.Kernel.Interrupts

variable {H : Type u} {σ : Type v}

def lineOpen (masked : Nat → Bool) (irq : Nat) : Bool := irq != 2 && !masked irq && (irq < 8 || !masked 2)

def idlePics (mask1 mask2 : BitVec 8) : Pics := ⟨⟨0x20, mask1, 4, 1, 0, []⟩, ⟨0x28, mask2, 2, 1, 0, []⟩⟩

def lineMasked (mask1 mask2 : BitVec 8) (irq : Nat) : Bool :=
  if irq < 8 then mask1.getLsbD irq else mask2.getLsbD (irq - 8)

section Controllers

variable {pics : Pics} {mask mask1 mask2 : BitVec 8} {irq : Nat}

/-- The set up gives the vectors behind the exceptions and keeps the masks. -/
theorem picRemap_idle (master : pics.master.inService = 0) (slave : pics.slave.inService = 0) :
    pics.picRemap 0x20 0x28 = idlePics pics.master.mask pics.slave.mask := by
  obtain ⟨⟨offset1, mask1, cascade1, mode1, inService1, expects1⟩,
    ⟨offset2, mask2, cascade2, mode2, inService2, expects2⟩⟩ := pics
  cases master
  cases slave
  rfl

def serving (mask1 mask2 : BitVec 8) (irq : Nat) : Pics :=
  if irq < 8 then ⟨⟨0x20, mask1, 4, 1, 1#8 <<< irq, []⟩, ⟨0x28, mask2, 2, 1, 0, []⟩⟩
  else ⟨⟨0x20, mask1, 4, 1, 4, []⟩, ⟨0x28, mask2, 2, 1, 1#8 <<< (irq - 8), []⟩⟩

theorem accepts_idle (offset cascade : BitVec 8) (irq : Nat) :
    Pic.accepts irq ⟨offset, mask, cascade, 1, 0, []⟩ = !mask.getLsbD irq := by
  simp [Pic.accepts]

theorem acknowledge_idle (offset cascade : BitVec 8) (irq : Nat) :
    Pic.acknowledge irq ⟨offset, mask, cascade, 1, 0, []⟩ = ⟨offset, mask, cascade, 1, 1#8 <<< irq, []⟩ := by
  simp [Pic.acknowledge]

theorem raise_idle (inside : irq < 16) :
    (idlePics mask1 mask2).raise irq =
      if lineOpen (lineMasked mask1 mask2) irq then some (BitVec.ofNat 8 (32 + irq), serving mask1 mask2 irq)
      else none := by
  have cascade : ∀ irq < 8, (4 : BitVec 8).getLsbD irq = (irq == 2) := by decide
  have vectors1 : ∀ irq < 8, (0x20 : BitVec 8) + BitVec.ofNat 8 irq = BitVec.ofNat 8 (32 + irq) := by decide
  have vectors2 : ∀ irq < 16, 8 ≤ irq → (0x28 : BitVec 8) + BitVec.ofNat 8 (irq - 8) = BitVec.ofNat 8 (32 + irq) := by
    decide
  have slaveLine : (2 : BitVec 8).toNat = 2 := rfl
  have slaveBit : 1#8 <<< 2 = 4 := rfl
  by_cases first : irq < 8
  · have opened : lineOpen (lineMasked mask1 mask2) irq = (!mask1.getLsbD irq && !(irq == 2)) := by
      simp [lineOpen, lineMasked, first, bne, Bool.and_comm]
    rw [opened, Pics.raise, if_pos first, serving, if_pos first]
    simp only [idlePics, accepts_idle, acknowledge_idle, cascade irq first, vectors1 irq first]
  · have other : (irq != 2) = true := bne_iff_ne.mpr (by omega)
    have opened : lineOpen (lineMasked mask1 mask2) irq = (!mask2.getLsbD (irq - 8) && !mask1.getLsbD 2) := by
      simp [lineOpen, lineMasked, first, other]
    rw [opened, Pics.raise, if_neg first, serving, if_neg first]
    simp only [idlePics, accepts_idle, acknowledge_idle, slaveLine, slaveBit, cascade 2 (by decide),
      vectors2 irq inside (Nat.le_of_not_lt first), beq_self_eq_true, Bool.and_true]

theorem eoi_serving (inside : irq < 16) : (serving mask1 mask2 irq).picEoi irq = idlePics mask1 mask2 := by
  have one : ∀ irq < 8, (1#8 <<< irq) &&& ((1#8 <<< irq) - 1) = 0 := by decide
  have four : (4 : BitVec 8) &&& (4 - 1) = 0 := by decide
  have command : ∀ pic : Pic, pic.command picEoiCommand =
    { pic with inService := pic.inService &&& (pic.inService - 1) } :=
    fun _ => rfl
  rw [serving, Pics.picEoi]
  by_cases first : irq < 8
  · rw [if_pos first, if_neg (Nat.not_le.mpr first), Pics.outb, if_pos rfl, command, one irq first]
    rfl
  · rw [if_neg first, if_pos (Nat.le_of_not_lt first)]
    have second : ∀ pics : Pics, pics.outb pic2Command picEoiCommand =
      { pics with slave := pics.slave.command picEoiCommand } := fun _ => rfl
    rw [second, Pics.outb, if_pos rfl, command, command, one (irq - 8) (by omega), four]
    rfl

theorem outb_mask (inside : irq < 16) {value : Bool} (write : BitVec 8 → BitVec 8)
    (bits : ∀ mask : BitVec 8, ∀ other < 8,
      (write mask).getLsbD other = if other = (Pics.picPort irq).2 then value else mask.getLsbD other) :
    ∃ after1 after2, (idlePics mask1 mask2).outb (Pics.picPort irq).1
        (write ((idlePics mask1 mask2).inb (Pics.picPort irq).1)) = idlePics after1 after2 ∧
      ∀ other < 16, lineMasked after1 after2 other = Function.update (lineMasked mask1 mask2) irq value other := by
  by_cases first : irq < 8
  · have port : Pics.picPort irq = (pic1Data, irq) := if_pos first
    rw [port] at bits ⊢
    refine ⟨write mask1, mask2, rfl, fun other within => ?_⟩
    rw [Function.update_apply]
    by_cases low : other < 8
    · rw [lineMasked, lineMasked, if_pos low, if_pos low, bits mask1 other low]
    · rw [lineMasked, lineMasked, if_neg low, if_neg low, if_neg (by omega)]
  · have port : Pics.picPort irq = (pic2Data, irq - 8) := if_neg first
    rw [port] at bits ⊢
    refine ⟨mask1, write mask2, rfl, fun other within => ?_⟩
    rw [Function.update_apply]
    by_cases low : other < 8
    · rw [lineMasked, lineMasked, if_pos low, if_pos low, if_neg (by omega)]
    · rw [lineMasked, lineMasked, if_neg low, if_neg low, bits mask2 (other - 8) (by omega)]
      by_cases own : other = irq
      · subst own
        rw [if_pos rfl, if_pos rfl]
      · rw [if_neg own, if_neg (by simp only; omega)]

theorem one_bit : ∀ i < 8, ∀ j < 8, (1#8 <<< i).getLsbD j = decide (j = i) := by decide

theorem picPort_small (inside : irq < 16) : (Pics.picPort irq).2 < 8 := by
  unfold Pics.picPort
  split
  next first => exact first
  next second => simp only; omega

theorem maskSet_idle (mask1 mask2 : BitVec 8) (inside : irq < 16) :
    ∃ after1 after2, (idlePics mask1 mask2).picMaskSet irq = idlePics after1 after2 ∧
      ∀ other < 16, lineMasked after1 after2 other = Function.update (lineMasked mask1 mask2) irq true other := by
  refine outb_mask inside (fun mask => mask ||| 1#8 <<< (Pics.picPort irq).2) fun mask other low => ?_
  rw [BitVec.getLsbD_or, one_bit _ (picPort_small inside) other low]
  by_cases own : other = (Pics.picPort irq).2 <;> simp [own]

theorem maskUnset_idle (mask1 mask2 : BitVec 8) (inside : irq < 16) :
    ∃ after1 after2, (idlePics mask1 mask2).picMaskUnset irq = idlePics after1 after2 ∧
      ∀ other < 16, lineMasked after1 after2 other = Function.update (lineMasked mask1 mask2) irq false other := by
  refine outb_mask inside (fun mask => mask &&& ~~~(1#8 <<< (Pics.picPort irq).2)) fun mask other low => ?_
  rw [BitVec.getLsbD_and, BitVec.getLsbD_not, one_bit _ (picPort_small inside) other low, decide_eq_true low]
  by_cases own : other = (Pics.picPort irq).2 <;> simp [own]

end Controllers

section Handlers

variable {irq : Nat → Option H} {handlers : List H} {index other i left : Nat} {handler : H} {call : ItrCall H σ}

def Column (irq : Nat → Option H) (index : Nat) (handlers : List H) : Prop :=
  ∀ i < irqDepth, irq (i * irqSize + index) = handlers[i]?

theorem setLoop_eq (column : Column irq index handlers) (few : handlers.length ≤ irqDepth) (turns : i + left = irqDepth)
    (passed : i ≤ handlers.length) : irqHandlerSetLoop index handler irq i left =
      if handlers.length < irqDepth then Function.update irq (handlers.length * irqSize + index) (some handler)
      else irq := by
  induction left generalizing i with
  | zero => rw [if_neg (by omega), irqHandlerSetLoop]
  | succ left ih =>
    rw [irqHandlerSetLoop, column i (by omega)]
    by_cases set : i < handlers.length
    · rw [List.getElem?_eq_getElem set, Option.isSome_some, if_pos rfl]
      exact ih (by omega) set
    · have last : i = handlers.length := Nat.le_antisymm passed (Nat.le_of_not_lt set)
      rw [List.getElem?_eq_none (Nat.le_of_not_lt set), Option.isSome_none, if_neg Bool.false_ne_true,
        if_pos (by omega), last]

/-- The first free place of the line is taken, and the other lines are as before. -/
theorem irqHandlerSet_column (column : Column irq index handlers) (few : handlers.length ≤ irqDepth) :
    Column (irqHandlerSet index handler irq) index ((handlers ++ [handler]).take irqDepth) := by
  intro i inside
  rw [irqHandlerSet, setLoop_eq column few (by rfl) (Nat.zero_le _), List.getElem?_take_of_lt inside]
  by_cases room : handlers.length < irqDepth
  · rw [if_pos room, Function.update_apply]
    by_cases own : i = handlers.length
    · rw [if_pos (by rw [own]), own, List.getElem?_concat_length]
    · rw [if_neg (by unfold irqSize; omega), column i inside]
      by_cases before : i < handlers.length
      · rw [List.getElem?_append_left before]
      · rw [List.getElem?_eq_none (by omega),
          List.getElem?_eq_none (by rw [List.length_append, List.length_singleton]; omega)]
  · rw [if_neg room, column i inside, List.getElem?_append_left (by omega)]

theorem irqHandlerSet_other (column : Column irq index handlers) (few : handlers.length ≤ irqDepth)
    (apart : other ≠ index) (inside : index < irqSize) (within : other < irqSize) :
    irqHandlerSet index handler irq (i * irqSize + other) = irq (i * irqSize + other) := by
  rw [irqHandlerSet, setLoop_eq column few (by rfl) (Nat.zero_le _)]
  split
  next => exact Function.update_of_ne (by unfold irqSize at *; omega) _ _
  next => rfl

theorem foldl_unset (places : List Nat) (irq : Nat → Option H) (place : Nat) :
    places.foldl (fun irq i => Function.update irq (i * irqSize + index) none) irq place =
      if ∃ i ∈ places, place = i * irqSize + index then none else irq place := by
  induction places generalizing irq with
  | nil => simp
  | cons first places ih =>
    rw [List.foldl_cons, ih, Function.update_apply]
    by_cases own : place = first * irqSize + index <;> simp [own]

theorem irqHandlerUnset_column (irq : Nat → Option H) (index : Nat) : Column (irqHandlerUnset index irq) index [] := by
  intro i inside
  rw [irqHandlerUnset, foldl_unset, if_pos ⟨i, List.mem_range.mpr inside, rfl⟩]
  rfl

theorem irqHandlerUnset_other (irq : Nat → Option H) (apart : other ≠ index) (inside : index < irqSize)
    (within : other < irqSize) : irqHandlerUnset index irq (i * irqSize + other) = irq (i * irqSize + other) := by
  rw [irqHandlerUnset, foldl_unset, if_neg]
  rintro ⟨j, -, same⟩
  unfold irqSize at *
  omega

theorem handlerLoop_eq (column : Column irq index handlers) (few : handlers.length ≤ irqDepth)
    (turns : i + left = irqDepth) (registers : ItrRegisters) (kernel : σ) :
    irqHandlerLoop call irq index i left registers kernel =
      (handlers.drop i).foldl (fun after handler => call handler after.1 after.2) (registers, kernel) := by
  induction left generalizing i registers kernel with
  | zero => rw [irqHandlerLoop, List.drop_eq_nil_of_le (by omega), List.foldl_nil]
  | succ left ih =>
    rw [irqHandlerLoop, column i (by omega)]
    by_cases set : i < handlers.length
    · rw [List.getElem?_eq_getElem set, List.drop_eq_getElem_cons set, List.foldl_cons]
      exact ih (by omega) _ _
    · rw [List.getElem?_eq_none (Nat.le_of_not_lt set), List.drop_eq_nil_of_le (Nat.le_of_not_lt set), List.foldl_nil]

end Handlers

end YuzuOS.Proofs.InterruptControllers
