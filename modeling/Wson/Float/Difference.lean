import Wson.Float.Binary64

/-!
# Differences of floating point numbers

All finite numbers are multiples of the smallest one, and no multiple of it but zero is rounded
to zero. So a difference is zero only between equal numbers (`finite_of_sub`), and positive
numbers with difference zero have the same pattern (`eq_of_sub`).
-/

namespace Binary64

theorem magnitude_pos {m : Nat} (h : 0 < m) : 0 < magnitude m := by
  unfold magnitude
  split <;> positivity

/-- Every finite number is a multiple of the smallest one. -/
theorem exists_multiple {x : Bits} {q : ℚ} (h : value x = .finite q) :
    ∃ z : ℤ, q = z * 2 ^ (-1074 : ℤ) := by
  have hmagnitude (m : Nat) : ∃ z : ℤ, magnitude m = z * 2 ^ (-1074 : ℤ) := by
    by_cases hm : m < 2 ^ 52
    · exact ⟨m, by rw [magnitude, if_pos hm, Int.cast_natCast]⟩
    · -- the exponent is at least one
      obtain ⟨j, hj⟩ : ∃ j, m / 2 ^ 52 = j + 1 := by
        have hdiv : 1 ≤ m / 2 ^ 52 := (Nat.one_le_div_iff (by norm_num)).mpr (not_lt.mp hm)
        exact ⟨m / 2 ^ 52 - 1, by omega⟩
      refine ⟨((2 ^ 52 + m % 2 ^ 52) * 2 ^ j : ℕ), ?_⟩
      have hexponent : ((j + 1 : ℕ) - 1075 : ℤ) = j + -1074 := by
        push_cast
        ring
      rw [magnitude, if_neg hm, hj, hexponent, zpow_add₀ (by norm_num), zpow_natCast, ← mul_assoc,
        Int.cast_natCast, Nat.cast_mul, Nat.cast_pow, Nat.cast_ofNat]
  obtain ⟨-, hq⟩ := eq_magnitude h
  obtain ⟨z, hz⟩ := hmagnitude (x.toNat % 2 ^ 63)
  rw [hq, hz]
  split
  · exact ⟨-z, by rw [Int.cast_neg, neg_mul]⟩
  · exact ⟨z, rfl⟩

/-- **Gradual underflow**: the smallest number is not rounded to zero. -/
theorem encode_pos {q : ℚ} (h : (2 : ℚ) ^ (-1074 : ℤ) ≤ q) : 0 < encode q := by
  have hq : 0 < q := lt_of_lt_of_le (by positivity) h
  by_cases hnormal : (2 : ℚ) ^ (-1022 : ℤ) ≤ q
  · exact Nat.lt_of_lt_of_le (by norm_num) (normal_encode hnormal)
  · have hround : 1 ≤ roundHalfEven (q / 2 ^ (-1074 : ℤ)) := by
      refine le_roundHalfEven ?_
      rw [le_div_iff₀ (by positivity)]
      simpa using h
    rw [encode, if_neg hq.ne', lastPlace_of_small hq (not_le.mp hnormal)]
    omega

theorem value_ofRat_ne_zero {q : ℚ} (h : (2 : ℚ) ^ (-1074 : ℤ) ≤ |q|) : value (ofRat q) ≠ .finite 0 := by
  have hinf : infinityBits = 2047 * 2 ^ 52 := rfl
  have hpos : 0 < min (encode |q|) infinityBits := Nat.lt_min.mpr ⟨encode_pos h, by decide⟩
  have hle : min (encode |q|) infinityBits ≤ infinityBits := Nat.min_le_right _ _
  have hmod : (ofRat q).toNat % 2 ^ 63 = min (encode |q|) infinityBits := by
    simp only [ofRat, BitVec.toNat_ofNat]
    generalize min (encode |q|) infinityBits = m at hle
    split <;> omega
  intro hzero
  obtain ⟨-, hq⟩ := eq_magnitude hzero
  have hmagnitude : 0 < magnitude ((ofRat q).toNat % 2 ^ 63) := magnitude_pos (by rwa [hmod])
  split at hq <;> linarith

/-- **A difference is zero** only between equal finite numbers. -/
theorem finite_of_sub {x y : Bits} (h : sub x y = .finite 0) :
    ∃ q, value x = .finite q ∧ value y = .finite q := by
  cases hx : value x with
  | nan => simp [sub, hx] at h
  | infinity negative =>
    cases hy : value y with
    | nan => simp [sub, hx, hy] at h
    | infinity negative' =>
      simp only [sub, hx, hy] at h
      split at h <;> cases h
    | finite r => simp [sub, hx, hy] at h
  | finite q =>
    cases hy : value y with
    | nan => simp [sub, hx, hy] at h
    | infinity negative' => simp [sub, hx, hy] at h
    | finite r =>
      rw [sub_of_finite hx hy] at h
      refine ⟨q, rfl, ?_⟩
      congr 1
      by_contra hne
      refine value_ofRat_ne_zero ?_ h
      obtain ⟨z, rfl⟩ := exists_multiple hx
      obtain ⟨w, rfl⟩ := exists_multiple hy
      have hzw : z - w ≠ 0 := by
        intro hsame
        exact hne (by rw [sub_eq_zero.mp hsame])
      have hone : (1 : ℚ) ≤ |((z - w : ℤ) : ℚ)| := by
        exact_mod_cast Int.one_le_abs hzw
      have hscale : (0 : ℚ) < 2 ^ (-1074 : ℤ) := by positivity
      rw [← sub_mul, abs_mul, abs_of_pos hscale, ← Int.cast_sub]
      exact le_mul_of_one_le_left hscale.le hone

/-- A positive number with difference zero has the same pattern. -/
theorem eq_of_sub {x y : Bits} (hpos : Value.lt (.finite 0) (value x)) (h : sub x y = .finite 0) : x = y := by
  obtain ⟨q, hx, hy⟩ := finite_of_sub h
  have hq : 0 < q := by simpa [hx, Value.lt] using hpos
  rw [← ofRat_of_value hx hq, ofRat_of_value hy hq]

end Binary64
