import Mathlib.Algebra.Order.Ring.Nat
import Mathlib.Tactic.Ring

/-! # Positional digits

The digits of a number in base `b`, lowest first. A number below `b ^ k` is
determined by its first `k` digits, and a word by its bytes.
-/

namespace ConstArray.Foundation

variable {b m n k : Nat}

/-- Digit `i` of `n` in base `b`. -/
def digit (b n i : Nat) : Nat := n / b ^ i % b

theorem mod_pow_eq_of_digit_eq (h : ∀ i < k, digit b m i = digit b n i) :
    m % b ^ k = n % b ^ k := by
  induction k with
  | zero => rw [Nat.pow_zero, Nat.mod_one, Nat.mod_one]
  | succ k ih =>
      have hlow := ih fun i hi => h i (Nat.lt_succ_of_lt hi)
      have hdigit : m / b ^ k % b = n / b ^ k % b := h k (Nat.lt_succ_self k)
      rw [Nat.mod_pow_succ, Nat.mod_pow_succ, hlow, hdigit]

/-- Numbers of at most `k` digits with the same digits are the same. -/
theorem eq_of_digit_eq (hm : m < b ^ k) (hn : n < b ^ k)
    (h : ∀ i < k, digit b m i = digit b n i) : m = n := by
  rw [← Nat.mod_eq_of_lt hm, mod_pow_eq_of_digit_eq h, Nat.mod_eq_of_lt hn]

/-- A number below `b ^ k` has no further digits. -/
theorem digit_eq_zero {i : Nat} (hn : n < b ^ k) (hi : k ≤ i) : digit b n i = 0 := by
  rcases Nat.eq_zero_or_pos b with rfl | hb
  · rcases Nat.eq_zero_or_pos k with rfl | hk
    · rw [Nat.pow_zero, Nat.lt_one_iff] at hn
      rw [hn, digit, Nat.zero_div, Nat.zero_mod]
    · rw [Nat.zero_pow hk] at hn
      exact absurd hn (Nat.not_lt_zero n)
  · rw [digit, Nat.div_eq_of_lt (Nat.lt_of_lt_of_le hn (Nat.pow_le_pow_right hb hi)),
      Nat.zero_mod]

/-! ## Bytes of a word -/

theorem toNat_shiftRight (x : UInt64) {i : Nat} (hi : i < 8) :
    (x >>> (8 * i).toUInt64).toNat = x.toNat / 256 ^ i := by
  have hshift : (8 * i).toUInt64.toNat % 64 = 8 * i := by
    rw [Nat.toUInt64_eq, UInt64.toNat_ofNat']
    omega
  rw [UInt64.toNat_shiftRight, hshift, Nat.shiftRight_eq_div_pow, Nat.pow_mul]

/-- Byte `i` from the end is digit `i` in base 256. -/
theorem toNat_shiftRight_toUInt8 (x : UInt64) {i : Nat} (hi : i < 8) :
    (x >>> (8 * i).toUInt64).toUInt8.toNat = digit 256 x.toNat i := by
  rw [UInt64.toNat_toUInt8, toNat_shiftRight x hi, digit]

/-- `u64::to_be_bytes`. -/
def toBeBytes (x : UInt64) : List UInt8 :=
  (List.range 8).map fun i => (x >>> (8 * (7 - i)).toUInt64).toUInt8

end ConstArray.Foundation
