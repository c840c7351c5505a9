import Mathlib

/-!
# Bit fields of a word

A word of bit fields as a number: a mask takes a field out by division and remainder, and fields
that do not overlap are added.

* `and_mask`, `and_low`, `or_field`  of natural numbers;
* `toNat_and_mask`, `toNat_or_field`  of words of 64 bits.
-/

namespace BitFields

theorem and_mask (x k n : Nat) : x &&& (2 ^ n - 1) * 2 ^ k = x / 2 ^ k % 2 ^ n * 2 ^ k := by
  apply Nat.eq_of_testBit_eq
  intro i
  by_cases h : k ≤ i
  · simp [Nat.testBit_mul_two_pow, Nat.testBit_mod_two_pow, Nat.testBit_div_two_pow, h,
      Bool.and_comm]
  · simp [Nat.testBit_mul_two_pow, h]

theorem and_low (x n : Nat) : x &&& (2 ^ n - 1) = x % 2 ^ n := Nat.and_two_pow_sub_one_eq_mod x n

theorem or_field {b k : Nat} (a : Nat) (h : b < 2 ^ k) : a * 2 ^ k ||| b = a * 2 ^ k + b := by
  rw [← Nat.shiftLeft_eq, Nat.shiftLeft_add_eq_or_of_lt h]

theorem toNat_and_mask (w mask : UInt64) (k n : Nat) (hmask : mask.toNat = (2 ^ n - 1) * 2 ^ k) :
    (w &&& mask).toNat = w.toNat / 2 ^ k % 2 ^ n * 2 ^ k := by
  rw [UInt64.toNat_and, hmask, and_mask]

theorem toNat_and_low (w mask : UInt64) (n : Nat) (hmask : mask.toNat = 2 ^ n - 1) :
    (w &&& mask).toNat = w.toNat % 2 ^ n := by
  rw [UInt64.toNat_and, hmask, and_low]

theorem toNat_or_field {w field : UInt64} {a k : Nat} (hw : w.toNat = a * 2 ^ k)
    (hfield : field.toNat < 2 ^ k) : (w ||| field).toNat = a * 2 ^ k + field.toNat := by
  rw [UInt64.toNat_or, hw, or_field a hfield]

end BitFields
