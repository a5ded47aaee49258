import Mathlib.Algebra.Order.Ring.Nat

/-! Byte-addressed memory with little-endian words. Every write is one range of
bytes, so one frame lemma covers stores, fills and copies. -/

namespace YuzuOS.Library

abbrev Memory := Nat → BitVec 8

namespace Memory

/-- The bytes from `address` on become the first `len` ones of `bytes`. -/
def write (memory : Memory) (address len : Nat) (bytes : Nat → BitVec 8) : Memory :=
  fun place => if address ≤ place ∧ place < address + len then bytes (place - address) else memory place

def fill (memory : Memory) (address len : Nat) (byte : BitVec 8) : Memory :=
  memory.write address len fun _ => byte

/-- Byte after byte, from the front, so that overlapping stretches are copied as they change. -/
def copy (memory : Memory) (dest source len : Nat) : Memory :=
  (List.range len).foldl (fun memory i => memory.write (dest + i) 1 fun _ => memory (source + i)) memory

def store8 (memory : Memory) (address : Nat) (byte : BitVec 8) : Memory := memory.write address 1 fun _ => byte

def wordByte (value index : Nat) : BitVec 8 := BitVec.ofNat 8 (value / 256 ^ index)

def store32 (memory : Memory) (address value : Nat) : Memory := memory.write address 4 (wordByte value)

def load32 (memory : Memory) (address : Nat) : Nat :=
  (memory address).toNat + 256 * (memory (address + 1)).toNat +
    256 ^ 2 * (memory (address + 2)).toNat + 256 ^ 3 * (memory (address + 3)).toNat

def load16 (memory : Memory) (address : Nat) : Nat := (memory address).toNat + 256 * (memory (address + 1)).toNat

variable {memory other : Memory} {address place len value : Nat} {bytes : Nat → BitVec 8}

@[simp] theorem write_zero : memory.write address 0 bytes = memory := by
  funext place
  have outside : ¬(address ≤ place ∧ place < address + 0) := by omega
  rw [write, if_neg outside]

theorem write_inside (lower : address ≤ place) (upper : place < address + len) :
    memory.write address len bytes place = bytes (place - address) := by
  rw [write, if_pos ⟨lower, upper⟩]

/-- A write leaves the bytes before and behind it. -/
theorem write_outside (apart : place < address ∨ address + len ≤ place) :
    memory.write address len bytes place = memory place := by
  have outside : ¬(address ≤ place ∧ place < address + len) := by omega
  rw [write, if_neg outside]

/-- Two writes end to end are one write. -/
theorem write_append {more : Nat} :
    (memory.write address len bytes).write (address + len) more (fun i => bytes (len + i)) =
      memory.write address (len + more) bytes := by
  funext place
  rcases Nat.lt_or_ge place (address + len) with first | later
  · rw [write_outside (.inl first)]
    rcases Nat.lt_or_ge place address with before | inside
    · rw [write_outside (.inl before), write_outside (.inl before)]
    · rw [write_inside inside first, write_inside inside (by omega)]
  · rcases Nat.lt_or_ge place (address + len + more) with inside | behind
    · have same : len + (place - (address + len)) = place - address := by omega
      rw [write_inside later inside, write_inside (by omega) (by omega), same]
    · rw [write_outside (.inr behind), write_outside (.inr later), write_outside (.inr (by omega))]

theorem write_congr {others : Nat → BitVec 8} (same : ∀ i < len, bytes i = others i) :
    memory.write address len bytes = memory.write address len others := by
  funext place
  unfold write
  split
  next inside => exact same _ (by omega)
  next => rfl

/-- Stretches apart from each other are copied as a whole. -/
theorem copy_apart {dest source : Nat} (apart : dest + len ≤ source ∨ source + len ≤ dest) :
    memory.copy dest source len = memory.write dest len fun i => memory (source + i) := by
  induction len with
  | zero => simp [copy]
  | succ len ih =>
    have before := ih (by omega)
    unfold copy at before ⊢
    rw [List.range_succ, List.foldl_append, before, List.foldl_cons, List.foldl_nil,
      write_outside (by omega), ← write_append]
    refine write_congr fun i bound => ?_
    have first : i = 0 := by omega
    rw [first, Nat.add_zero]

theorem load32_lt : memory.load32 address < 2 ^ 32 := by
  have first := (memory address).isLt
  have second := (memory (address + 1)).isLt
  have third := (memory (address + 2)).isLt
  have fourth := (memory (address + 3)).isLt
  unfold load32
  omega

theorem load32_congr (same : ∀ i < 4, memory (address + i) = other (address + i)) :
    memory.load32 address = other.load32 address := by
  have first := same 0 (by decide)
  rw [Nat.add_zero] at first
  rw [load32, load32, first, same 1 (by decide), same 2 (by decide), same 3 (by decide)]

theorem load32_write_outside (apart : place + 4 ≤ address ∨ address + len ≤ place) :
    (memory.write address len bytes).load32 place = memory.load32 place :=
  load32_congr fun i bound => write_outside (by omega)

theorem load32_store32 (fits : value < 2 ^ 32) : (memory.store32 address value).load32 address = value := by
  have byte (i : Nat) (bound : i < 4) : memory.store32 address value (address + i) = wordByte value i := by
    have offset : address + i - address = i := by omega
    rw [store32, write_inside (by omega) (by omega), offset]
  have first := byte 0 (by decide)
  rw [Nat.add_zero] at first
  rw [load32, first, byte 1 (by decide), byte 2 (by decide), byte 3 (by decide)]
  simp only [wordByte, BitVec.toNat_ofNat]
  omega

/-- The bytes from an address on. -/
def Holds (memory : Memory) : Nat → List (BitVec 8) → Prop
  | _, [] => True
  | address, byte :: rest => memory address = byte ∧ Holds memory (address + 1) rest

variable {first second : List (BitVec 8)}

theorem holds_append :
    memory.Holds address (first ++ second) ↔
      memory.Holds address first ∧ memory.Holds (address + first.length) second := by
  induction first generalizing address with
  | nil => simp [Holds]
  | cons byte rest ih =>
    have place : address + 1 + rest.length = address + (rest.length + 1) := by omega
    simp only [List.cons_append, Holds, ih, List.length_cons, place, and_assoc]

theorem Holds.congr (holds : memory.Holds address first)
    (same : ∀ place, address ≤ place → place < address + first.length → other place = memory place) :
    other.Holds address first := by
  induction first generalizing address with
  | nil => trivial
  | cons byte rest ih =>
    simp only [List.length_cons] at same
    refine ⟨(same address le_rfl (by omega)).trans holds.1, ih holds.2 fun place lower upper => ?_⟩
    exact same place (by omega) (by omega)

theorem Holds.get (holds : memory.Holds address first) {i : Nat} (bound : i < first.length) :
    memory (address + i) = first[i] := by
  induction first generalizing address i with
  | nil => cases bound
  | cons byte rest ih =>
    cases i with
    | zero => exact holds.1
    | succ i =>
      have place : address + (i + 1) = address + 1 + i := by omega
      rw [place]
      exact ih holds.2 (Nat.lt_of_succ_lt_succ bound)

theorem holds_of_get (bytes : ∀ (i : Nat) (bound : i < first.length), memory (address + i) = first[i]) :
    memory.Holds address first := by
  induction first generalizing address with
  | nil => trivial
  | cons byte rest ih =>
    refine ⟨bytes 0 (Nat.zero_lt_succ _), ih fun i bound => ?_⟩
    have place : address + 1 + i = address + (i + 1) := by omega
    rw [place]
    exact bytes (i + 1) (Nat.succ_lt_succ bound)

/-- The words from an address on. -/
def Words (memory : Memory) : Nat → List Nat → Prop
  | _, [] => True
  | address, word :: rest => memory.load32 address = word ∧ Words memory (address + 4) rest

end Memory

end YuzuOS.Library
