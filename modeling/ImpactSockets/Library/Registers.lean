import Mathlib.Data.Nat.Bitwise

/-! Shift registers as numbers: on values that do not overflow, shifting is
multiplication or division by a power of two, masking is a remainder, and
filling cleared low bits is addition. -/
namespace Registers

theorem lor_eq_add {high low width : Nat} (hHigh : 2 ^ width ∣ high) (hLow : low < 2 ^ width) :
    high ||| low = high + low := by
  obtain ⟨quotient, rfl⟩ := hHigh
  exact (Nat.two_pow_add_eq_or_of_lt hLow quotient).symm

/-- Filling the `width` cleared low bits of a 32-bit register adds the value. -/
theorem toNat_fill {high low : UInt32} (width : Nat) (hHigh : 2 ^ width ∣ high.toNat)
    (hLow : low.toNat < 2 ^ width) : (high ||| low).toNat = high.toNat + low.toNat := by
  rw [UInt32.toNat_or, lor_eq_add hHigh hLow]

theorem toNat_shiftRight (register amount : UInt32) (h : amount.toNat < 32) :
    (register >>> amount).toNat = register.toNat / 2 ^ amount.toNat := by
  rw [UInt32.toNat_shiftRight, Nat.mod_eq_of_lt h, Nat.shiftRight_eq_div_pow]

theorem toNat_shiftLeft (register amount : UInt32) (h : amount.toNat < 32)
    (hRoom : register.toNat * 2 ^ amount.toNat < 2 ^ 32) :
    (register <<< amount).toNat = register.toNat * 2 ^ amount.toNat := by
  rw [UInt32.toNat_shiftLeft, Nat.mod_eq_of_lt h, Nat.shiftLeft_eq, Nat.mod_eq_of_lt hRoom]

/-- Masking with `width` one bits keeps the remainder. -/
theorem toNat_mask (register mask : UInt32) (width : Nat) (h : mask.toNat = 2 ^ width - 1) :
    (register &&& mask).toNat = register.toNat % 2 ^ width := by
  rw [UInt32.toNat_and, h, Nat.and_two_pow_sub_one_eq_mod]

end Registers
