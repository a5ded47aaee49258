import Mathlib.Algebra.Order.Ring.Nat
import Mathlib.Data.List.Find
import Mathlib.Logic.Function.Basic

/-! Bitmaps of 32-bit words. The words behind the last one of a bitmap are
whatever memory follows it. -/

namespace YuzuOS.Kernel

abbrev Bitmap := Nat → BitVec 32

def bitmapIndex (bit : Nat) : Nat := bit / 32
def bitmapOffset (bit : Nat) : BitVec 32 := 1#32 <<< (bit % 32)
def bitmapNull : BitVec 32 := 0xFFFFFFFF#32

/-- `(uint32_t)-1`, which the searches give when they find nothing. -/
def bitmapNone : Nat := 2 ^ 32 - 1

def bitmapSet (bitmap : Bitmap) (bit : Nat) : Bitmap :=
  Function.update bitmap (bitmapIndex bit) (bitmap (bitmapIndex bit) ||| bitmapOffset bit)

def bitmapUnset (bitmap : Bitmap) (bit : Nat) : Bitmap :=
  Function.update bitmap (bitmapIndex bit) (bitmap (bitmapIndex bit) &&& ~~~bitmapOffset bit)

/-- `memset` of the first `bytes` bytes to zero. -/
def bitmapZero (bitmap : Bitmap) (bytes : Nat) : Bitmap := fun index =>
  let low := 8 * min 4 (bytes - 4 * index)
  bitmap index >>> low <<< low

def bitmapTest (bitmap : Bitmap) (bit : Nat) : Bool := bitmap (bitmapIndex bit) &&& bitmapOffset bit ≠ 0

/-- The two loops of both searches, over the words that lie below `frames` as a
whole: the first clear bit that `accept` takes. -/
def bitmapScan (bitmap : Bitmap) (frames : Nat) (accept : Nat → Bool) : Nat :=
  let found := (List.range (bitmapIndex frames)).findSome? fun i =>
    if bitmap i ≠ bitmapNull then
      ((List.range 32).find? fun j => bitmap i &&& 1#32 <<< j = 0 ∧ accept (i * 32 + j)).map (i * 32 + ·)
    else none
  found.getD bitmapNone

def bitmapGetFirst (bitmap : Bitmap) (frames : Nat) : Nat := bitmapScan bitmap frames fun _ => true

/-- The inner loop of `bitmap_get_n_first`, with the number of turns left: it
counts clear bits and stops at the `len`-th. -/
def bitmapCountFree (bitmap : Bitmap) (start len : Nat) : Nat → Nat → Nat → Bool
  | 0, _, _ => false
  | turns + 1, count, free =>
    let free := if bitmapTest bitmap ((start + count) % 2 ^ 32) then free else free + 1
    if free = len then true else bitmapCountFree bitmap start len turns (count + 1) free

/-- The inner loop makes `len + 1` turns, `count` from `0` to `len`. -/
def bitmapGetNFirst (bitmap : Bitmap) (frames len : Nat) : Nat :=
  if len = 0 then bitmapNone
  else if len = 1 then bitmapGetFirst bitmap frames
  else bitmapScan bitmap frames fun start => bitmapCountFree bitmap start len (len + 1) 0 0

section Bits
variable {bitmap : Bitmap} {bit other frames : Nat} {accept : Nat → Bool}

theorem and_bit (word : BitVec 32) {j : Nat} (bound : j < 32) :
    word &&& 1#32 <<< j = 0 ↔ word.getLsbD j = false := by
  constructor
  · intro zero
    have here := congrArg (fun word : BitVec 32 => word.getLsbD j) zero
    simpa [bound] using here
  · intro clear
    apply BitVec.eq_of_getLsbD_eq
    intro i inside
    by_cases same : i = j
    · simp [same, clear]
    · have apart : ¬ (i - j = 0 ∧ ¬ i < j) := by omega
      simp only [BitVec.getLsbD_and, BitVec.getLsbD_shiftLeft, BitVec.getLsbD_one]
      simp
      omega

theorem bitmapTest_eq (bitmap : Bitmap) (bit : Nat) :
    bitmapTest bitmap bit = (bitmap (bit / 32)).getLsbD (bit % 32) := by
  have zero := and_bit (bitmap (bit / 32)) (Nat.mod_lt bit (by decide : 32 > 0))
  unfold bitmapTest bitmapIndex bitmapOffset
  cases shape : (bitmap (bit / 32)).getLsbD (bit % 32) with
  | true => simpa [shape] using zero
  | false => simpa [shape] using zero

theorem bitmapTest_set :
    bitmapTest (bitmapSet bitmap bit) other = (decide (other = bit) || bitmapTest bitmap other) := by
  rw [bitmapTest_eq, bitmapTest_eq, bitmapSet, bitmapIndex, bitmapOffset]
  by_cases word : other / 32 = bit / 32
  · rw [word, Function.update_self]
    by_cases same : other = bit
    · simp [same, Nat.mod_lt]
    · have apart : other % 32 ≠ bit % 32 := by omega
      simp only [BitVec.getLsbD_or, BitVec.getLsbD_shiftLeft, BitVec.getLsbD_one]
      simp [same]
      omega
  · have apart : other ≠ bit := fun same => word (by rw [same])
    rw [Function.update_of_ne word]
    simp [apart]

theorem bitmapTest_unset :
    bitmapTest (bitmapUnset bitmap bit) other = (decide (other ≠ bit) && bitmapTest bitmap other) := by
  rw [bitmapTest_eq, bitmapTest_eq, bitmapUnset, bitmapIndex, bitmapOffset]
  by_cases word : other / 32 = bit / 32
  · rw [word, Function.update_self]
    by_cases same : other = bit
    · simp [same, Nat.mod_lt]
    · have apart : other % 32 ≠ bit % 32 := by omega
      have inside : other % 32 < 32 := Nat.mod_lt other (by decide)
      simp only [BitVec.getLsbD_and, BitVec.getLsbD_not, BitVec.getLsbD_shiftLeft, BitVec.getLsbD_one]
      simp [same, inside]
      omega
  · have apart : other ≠ bit := fun same => word (by rw [same])
    rw [Function.update_of_ne word]
    simp [apart]

theorem bitmapTest_zero {bytes : Nat} :
    bitmapTest (bitmapZero bitmap bytes) bit = (decide (8 * bytes ≤ bit) && bitmapTest bitmap bit) := by
  have inside : bit % 32 < 32 := Nat.mod_lt bit (by decide)
  have cleared : bit % 32 < 8 * min 4 (bytes - 4 * (bit / 32)) ↔ bit < 8 * bytes := by omega
  rw [bitmapTest_eq, bitmapTest_eq, bitmapZero]
  simp only [BitVec.getLsbD_shiftLeft, BitVec.getLsbD_ushiftRight, inside, cleared, decide_true, Bool.true_and]
  by_cases low : bit < 8 * bytes
  · have zero : ¬ 8 * bytes ≤ bit := Nat.not_le.mpr low
    simp [low, zero]
  · have same : 8 * min 4 (bytes - 4 * (bit / 32)) + (bit % 32 - 8 * min 4 (bytes - 4 * (bit / 32))) = bit % 32 := by
      omega
    simp [same, low, Nat.not_lt.mp low]

private theorem range_words (words : Nat) :
    List.range (words * 32) = (List.range words).flatMap fun i => (List.range 32).map (i * 32 + ·) := by
  induction words with
  | zero => rfl
  | succ words ih =>
    have last : List.range (words + 1) = List.range words ++ [words] := List.range_succ
    rw [last, List.flatMap_append, ← ih, Nat.succ_mul, List.range_add]
    simp

/-- The scan word by word finds what a scan bit by bit finds. -/
theorem bitmapScan_eq : bitmapScan bitmap frames accept = ((List.range (frames / 32 * 32)).find? fun bit =>
    !bitmapTest bitmap bit && accept bit).getD bitmapNone := by
  have bits (i j : Nat) (bound : j < 32) : bitmapTest bitmap (i * 32 + j) = (bitmap i).getLsbD j := by
    rw [bitmapTest_eq]
    congr 1
    · congr 1
      omega
    · omega
  have words : (fun i => if bitmap i ≠ bitmapNull then
        ((List.range 32).find? fun j => bitmap i &&& 1#32 <<< j = 0 ∧ accept (i * 32 + j)).map (i * 32 + ·) else none) =
      fun i => ((List.range 32).map (i * 32 + ·)).find? fun bit => !bitmapTest bitmap bit && accept bit := by
    funext i
    rw [List.find?_map]
    by_cases full : bitmap i = bitmapNull
    · rw [if_neg (not_not.mpr full), List.find?_range_eq_none.mpr]
      · rfl
      · intro j bound
        have set : bitmapNull.getLsbD j = true := by
          have all : bitmapNull = BitVec.allOnes 32 := rfl
          rw [all, BitVec.getLsbD_allOnes, decide_eq_true bound]
        simp [bits i j bound, full, set]
    · rw [if_pos full]
      congr 1
      apply List.find?_congr
      intro j member
      have bound := List.mem_range.mp member
      have zero : decide (bitmap i &&& 1#32 <<< j = 0) = !(bitmap i).getLsbD j := by
        have clear := and_bit (bitmap i) bound
        cases shape : (bitmap i).getLsbD j with
        | true => simpa [shape] using clear
        | false => simpa [shape] using clear
      simp only [Function.comp_apply, bits i j bound, Bool.decide_and, zero, Bool.decide_eq_true]
  unfold bitmapScan
  rw [range_words, List.find?_flatMap, bitmapIndex, words]

/-- What a scan finds is clear, accepted, and the first such bit. -/
theorem bitmapScan_some (bounded : frames < bitmapNone) : bitmapScan bitmap frames accept = bit ∧ bit ≠ bitmapNone ↔
    bit < frames / 32 * 32 ∧ bitmapTest bitmap bit = false ∧ accept bit = true ∧
      ∀ earlier < bit, bitmapTest bitmap earlier = true ∨ accept earlier = false := by
  rw [bitmapScan_eq]
  cases found : (List.range (frames / 32 * 32)).find? fun bit => !bitmapTest bitmap bit && accept bit with
  | none =>
    have nothing := List.find?_range_eq_none.mp found
    constructor
    · intro ⟨same, different⟩
      exact False.elim (different same.symm)
    · intro ⟨bound, clear, accepted, _⟩
      have rejected := nothing bit bound
      simp [clear, accepted] at rejected
  | some first =>
    obtain ⟨accepted, bound, earlier⟩ := List.find?_range_eq_some.mp found
    have inside := List.mem_range.mp bound
    simp only [Bool.and_eq_true, Bool.not_eq_true'] at accepted
    have before : ∀ other < first, bitmapTest bitmap other = true ∨ accept other = false := by
      intro other less
      have rejected := earlier other less
      cases shape : bitmapTest bitmap other with
      | true => exact .inl rfl
      | false => exact .inr (by simpa [shape] using rejected)
    constructor
    · intro ⟨same, _⟩
      cases same
      exact ⟨inside, accepted.1, accepted.2, before⟩
    · intro ⟨_, clear, taken, least⟩
      have same : first = bit := by
        rcases Nat.lt_trichotomy first bit with less | same | less
        · rcases least first less with set | refused
          · rw [accepted.1] at set
            cases set
          · rw [accepted.2] at refused
            cases refused
        · exact same
        · rcases before bit less with set | refused
          · rw [clear] at set
            cases set
          · rw [taken] at refused
            cases refused
      refine ⟨same, ?_⟩
      have below := Nat.div_mul_le_self frames 32
      omega

end Bits
end YuzuOS.Kernel
