import Wson.Float.Binary64

/-!
# Exponent and fraction

Masks take fields out of a pattern. A pattern denotes no number iff its exponent has all bits
set and its fraction is not zero, and a float denotes no number iff the double made of it does
not.
-/

namespace Binary64

/-- A mask of `k` bits at position `i` takes a field out. -/
theorem and_field (n k i : Nat) : n &&& (2 ^ k - 1) <<< i = (n / 2 ^ i % 2 ^ k) <<< i := by
  apply Nat.eq_of_testBit_eq
  intro j
  rw [Nat.testBit_and, Nat.testBit_shiftLeft, Nat.testBit_shiftLeft, Nat.testBit_two_pow_sub_one,
    Nat.testBit_mod_two_pow, Nat.testBit_div_two_pow]
  by_cases hij : i ≤ j
  · rw [Nat.sub_add_cancel hij]
    simp [hij, Bool.and_comm]
  · simp [hij]

/-- `x` is no number. -/
def IsNan (x : Bits) : Prop :=
  infinityBits < x.toNat % 2 ^ 63

/-- All bits of the exponent are set, and some of the fraction. -/
theorem isNan_iff (x : Bits) :
    IsNan x ↔ x &&& 0x7FF0000000000000 = 0x7FF0000000000000 ∧ x &&& 0x000FFFFFFFFFFFFF ≠ 0 := by
  have hexponent : (x &&& 0x7FF0000000000000).toNat = (x.toNat / 2 ^ 52 % 2 ^ 11) <<< 52 :=
    and_field x.toNat 11 52
  have hfraction : (x &&& 0x000FFFFFFFFFFFFF).toNat = x.toNat % 2 ^ 52 :=
    Nat.and_two_pow_sub_one_eq_mod x.toNat 52
  rw [Nat.shiftLeft_eq] at hexponent
  simp only [IsNan, infinityBits, ne_eq, ← BitVec.toNat_inj, hexponent, hfraction]
  show _ ↔ _ = 2047 * 2 ^ 52 ∧ ¬ _ = 0
  omega

/-- The same of a float. -/
def IsNanFloat (x : BitVec 32) : Prop :=
  x.toNat / 2 ^ 23 % 2 ^ 8 = 255 ∧ x.toNat % 2 ^ 23 ≠ 0

theorem isNanFloat_iff (x : BitVec 32) :
    IsNanFloat x ↔ x &&& 0x7F800000 = 0x7F800000 ∧ x &&& 0x007FFFFF ≠ 0 := by
  have hexponent : (x &&& 0x7F800000).toNat = (x.toNat / 2 ^ 23 % 2 ^ 8) <<< 23 :=
    and_field x.toNat 8 23
  have hfraction : (x &&& 0x007FFFFF).toNat = x.toNat % 2 ^ 23 :=
    Nat.and_two_pow_sub_one_eq_mod x.toNat 23
  rw [Nat.shiftLeft_eq] at hexponent
  simp only [IsNanFloat, ne_eq, ← BitVec.toNat_inj, hexponent, hfraction]
  show _ ↔ _ = 255 * 2 ^ 23 ∧ ¬ _ = 0
  omega

theorem isNan_ofFloat {x : BitVec 32} (h : IsNanFloat x) : IsNan (ofFloat x) := by
  have hx := x.isLt
  rw [IsNan, ofFloat]
  simp only [h.1, h.2, if_true, if_false]
  rw [BitVec.toNat_ofNat, infinityBits]
  omega

end Binary64
