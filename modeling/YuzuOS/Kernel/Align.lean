import Mathlib.Data.Nat.Bitwise

/-! `ALIGN_DOWN` and `ALIGN_UP` on 32-bit values, and how C converts these. -/

namespace YuzuOS.Kernel

/-- A `uint32_t` as an `int`. -/
def toInt (value : Nat) : Int := if value < 2 ^ 31 then value else value - 2 ^ 32

/-- An `int` as a `uint32_t`. -/
def toUInt (value : Int) : Nat := (value % 2 ^ 32).toNat

def alignDown (base size : Nat) : Nat := base &&& (2 ^ 32 - size)

def alignUp (base size : Nat) : Nat := alignDown ((base + size - 1) % 2 ^ 32) size

/-- A power of two masks off the remainder. -/
theorem alignDown_eq {base bits : Nat} (fits : base < 2 ^ 32) (small : bits ≤ 32) :
    alignDown base (2 ^ bits) = base / 2 ^ bits * 2 ^ bits := by
  apply Nat.eq_of_testBit_eq
  intro i
  have mask : 2 ^ 32 - 2 ^ bits = 2 ^ 32 - ((2 ^ bits - 1) + 1) := by
    have positive := Nat.two_pow_pos bits
    omega
  have less : 2 ^ bits - 1 < 2 ^ 32 := by
    have most := Nat.pow_le_pow_right Nat.two_pos small
    have positive := Nat.two_pow_pos bits
    omega
  rw [alignDown, mask, Nat.testBit_and, Nat.testBit_two_pow_sub_succ less, Nat.testBit_two_pow_sub_one,
    Nat.testBit_mul_two_pow, Nat.testBit_div_two_pow]
  rcases Nat.lt_or_ge i bits with low | high
  · simp [low, Nat.not_le.mpr low]
  · rcases Nat.lt_or_ge i 32 with inside | outside
    · simp [high, inside, Nat.not_lt.mpr high]
    · have zero : base.testBit i = false :=
        Nat.testBit_lt_two_pow (fits.trans_le (Nat.pow_le_pow_right Nat.two_pos outside))
      simp [high, zero]

/-- Whatever wraps, the result is a multiple of four. -/
theorem alignUp_masked (base : Nat) : alignUp base 4 = (base + 4 - 1) % 2 ^ 32 / 4 * 4 :=
  alignDown_eq (Nat.mod_lt _ (by decide)) (show 2 ≤ 32 by decide)

theorem alignUp_whole (base : Nat) : alignUp base 4 % 4 = 0 := by
  rw [alignUp_masked, Nat.mul_mod_left]

theorem alignUp_lt (base : Nat) : alignUp base 4 < 2 ^ 32 := by
  have masked := alignUp_masked base
  omega

theorem alignUp_four {base : Nat} (fits : base + 3 < 2 ^ 32) : alignUp base 4 = (base + 3) / 4 * 4 := by
  have sum : (base + 4 - 1) % 2 ^ 32 = base + 3 := Nat.mod_eq_of_lt fits
  rw [alignUp_masked, sum]

/-- The last three values are rounded up past the end. -/
theorem alignUp_wraps {base : Nat} (small : base < 2 ^ 32) (large : 2 ^ 32 ≤ base + 3) : alignUp base 4 = 0 := by
  have masked := alignUp_masked base
  omega

end YuzuOS.Kernel
