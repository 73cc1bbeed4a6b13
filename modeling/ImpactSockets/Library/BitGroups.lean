import Mathlib.Data.Nat.Bitwise
import Mathlib.Tactic.Ring

/-! Byte strings as strings of bits, the highest bit of a byte first, and the
numbers that runs of these bits stand for. Behind the end all bits are zero. -/
namespace BitGroups

/-- Bit `i` of the string. -/
def bit (data : List UInt8) (i : Nat) : Bool := (data.getD (i / 8) 0).toNat.testBit (7 - i % 8)

/-- The number that `width` bits from bit `i` on stand for, the first one being the highest. -/
def number (data : List UInt8) (i : Nat) : Nat → Nat
  | 0 => 0
  | width + 1 => 2 * number data i width + (bit data (i + width)).toNat

/-- The `i`-th of the groups of `width` bits. -/
def group (width : Nat) (data : List UInt8) (i : Nat) : Nat := number data (width * i) width

/-- A run of bits in two parts. -/
theorem number_add (data : List UInt8) (i first second : Nat) :
    number data i (first + second) = number data i first * 2 ^ second + number data (i + first) second := by
  induction second with
  | zero => simp [number]
  | succ second ih =>
      rw [← Nat.add_assoc, number, ih, number, Nat.pow_succ, Nat.add_assoc]
      ring

/-- Whole bytes in front only move the bits. -/
theorem bit_append (front data : List UInt8) (i : Nat) : bit (front ++ data) (8 * front.length + i) = bit data i := by
  have hByte : (8 * front.length + i) / 8 = front.length + i / 8 := by omega
  have hOffset : (8 * front.length + i) % 8 = i % 8 := by omega
  rw [bit, hByte, hOffset, List.getD_append_right _ _ _ _ (by omega), Nat.add_sub_cancel_left, bit]

theorem number_append (front data : List UInt8) (i width : Nat) :
    number (front ++ data) (8 * front.length + i) width = number data i width := by
  induction width with
  | zero => rfl
  | succ width ih => rw [number, ih, Nat.add_assoc, bit_append, number]

/-- Groups that fill whole bytes only move the groups behind them. -/
theorem group_append {width count : Nat} {front : List UInt8} (h : width * count = 8 * front.length)
    (data : List UInt8) (i : Nat) : group width (front ++ data) (count + i) = group width data i := by
  rw [group, Nat.mul_add, h, number_append, group]

/-- Bits of one byte. -/
theorem number_byte (data : List UInt8) (k offset : Nat) {width : Nat} (h : offset + width ≤ 8) :
    number data (8 * k + offset) width = (data.getD k 0).toNat / 2 ^ (8 - offset - width) % 2 ^ width := by
  induction width with
  | zero => rw [number, Nat.pow_zero, Nat.mod_one]
  | succ width ih =>
      have hByte : (8 * k + offset + width) / 8 = k := by omega
      have hOffset : 7 - (8 * k + offset + width) % 8 = 8 - offset - (width + 1) := by omega
      have hHalf : 8 - offset - width = 8 - offset - (width + 1) + 1 := by omega
      have hPow : 2 ^ (width + 1) = 2 * 2 ^ width := by rw [Nat.pow_succ, Nat.mul_comm]
      rw [number, ih (by omega), bit, hByte, hOffset, Nat.toNat_testBit, hHalf, Nat.pow_succ, ← Nat.div_div_eq_div_mul,
        hPow, Nat.mod_mul, Nat.add_comm]

end BitGroups
