import Mathlib.Tactic
import Mathlib.Data.Int.Log

/-!
# 64-bit floating point numbers as exact values

A bit pattern of the binary64 format denotes an exact rational number, an
infinity, or no number (`value`). Arithmetic is exact arithmetic followed by
rounding to the nearest pattern, ties to even (`ofRat`), and conversion to a
64-bit integer truncates and saturates (`Value.toInt64`).

- `encode_magnitude`: rounding the value of a finite pattern gives the pattern
  back, so conversions that are exact are the identity;
- `value_ofInt`: integers up to `2^53` are represented exactly;
- `le_magnitude_encode`: rounding does not take a number below the normal range;
- `truncate_cases`: how a number above `1` and its truncation to 64 bits compare.
-/

namespace Binary64

/-- A bit pattern. -/
abbrev Bits := BitVec 64

/-- The value of the pattern with sign bit clear whose other bits spell `m`. -/
def magnitude (m : Nat) : ℚ :=
  if m < 2 ^ 52 then m * 2 ^ (-1074 : ℤ)
  else ((2 ^ 52 + m % 2 ^ 52 : ℕ) : ℚ) * 2 ^ ((m / 2 ^ 52 : ℕ) - 1075 : ℤ)

/-- The nearest integer, the even one when there are two. -/
def roundHalfEven (q : ℚ) : ℤ :=
  if q - ⌊q⌋ < 1 / 2 then ⌊q⌋
  else if 1 / 2 < q - ⌊q⌋ then ⌊q⌋ + 1
  else if ⌊q⌋ % 2 = 0 then ⌊q⌋
  else ⌊q⌋ + 1

/-- The exponent of the last place of a number of the size of `q`. -/
def lastPlace (q : ℚ) : ℤ :=
  max (Int.log 2 q - 52) (-1074)

/-- The magnitude bits of the pattern nearest to `q ≥ 0`, before overflow. -/
def encode (q : ℚ) : Nat :=
  if q = 0 then 0
  else ((lastPlace q + 1074) * 2 ^ 52 + roundHalfEven (q / 2 ^ lastPlace q)).toNat

/-- The magnitude bits of infinity. -/
def infinityBits : Nat := 2047 * 2 ^ 52

/-- What a pattern denotes. The two zeros denote the same number. -/
inductive Value where
  | nan
  | infinity (negative : Bool)
  | finite (q : ℚ)
  deriving DecidableEq

def value (x : Bits) : Value :=
  let m := x.toNat % 2 ^ 63
  if m < infinityBits then .finite (if x.msb then -magnitude m else magnitude m)
  else if m = infinityBits then .infinity x.msb
  else .nan

/-- The pattern nearest to `q`. -/
def ofRat (q : ℚ) : Bits :=
  let m := min (encode |q|) infinityBits
  BitVec.ofNat 64 (if q < 0 then 2 ^ 63 + m else m)

def ofInt (n : ℤ) : Bits :=
  ofRat n

/-- The pattern that denotes the number of a 32-bit pattern. A pattern that denotes no number
becomes a quiet one. -/
def ofFloat (x : BitVec 32) : Bits :=
  let sign := x.toNat / 2 ^ 31
  let exponent := x.toNat / 2 ^ 23 % 2 ^ 8
  let fraction := x.toNat % 2 ^ 23
  let m :=
    if exponent = 255 then
      infinityBits + if fraction = 0 then 0 else 2 ^ 51 + fraction % 2 ^ 22 * 2 ^ 29
    else if exponent ≠ 0 then (exponent + 896) * 2 ^ 52 + fraction * 2 ^ 29
    else if fraction = 0 then 0
    else (fraction.log2 + 874) * 2 ^ 52 + (fraction - 2 ^ fraction.log2) * 2 ^ (52 - fraction.log2)
  BitVec.ofNat 64 (sign * 2 ^ 63 + m)

namespace Value

/-- `<`, false as soon as one side is no number. -/
def lt : Value → Value → Bool
  | .finite q, .finite r => q < r
  | .finite _, .infinity negative => !negative
  | .infinity negative, .finite _ => negative
  | .infinity negative, .infinity negative' => negative && !negative'
  | _, _ => false

/-- Truncation to a 64-bit integer; saturates, and takes what is no number to zero. -/
def toInt64 : Value → ℤ
  | .nan => 0
  | .infinity negative => if negative then -2 ^ 63 else 2 ^ 63 - 1
  | .finite q => max (-2 ^ 63) (min (2 ^ 63 - 1) (if q < 0 then ⌈q⌉ else ⌊q⌋))

end Value

/-- `x - y`. -/
def sub (x y : Bits) : Value :=
  match value x, value y with
  | .finite q, .finite r => value (ofRat (q - r))
  | .finite _, .infinity negative => .infinity (!negative)
  | .infinity negative, .finite _ => .infinity negative
  | .infinity negative, .infinity negative' =>
    if negative = negative' then .nan else .infinity negative
  | _, _ => .nan

/-! ## Rounding what is exact -/

theorem roundHalfEven_intCast (n : ℤ) : roundHalfEven n = n := by
  simp [roundHalfEven]

theorem le_roundHalfEven {n : ℤ} {q : ℚ} (h : (n : ℚ) ≤ q) : n ≤ roundHalfEven q := by
  have hfloor : n ≤ ⌊q⌋ := Int.le_floor.mpr h
  unfold roundHalfEven
  split
  · exact hfloor
  · split
    · omega
    · split <;> omega

theorem log_eq {q : ℚ} {e : ℤ} (h₁ : (2 : ℚ) ^ e ≤ q) (h₂ : q < 2 ^ (e + 1)) :
    Int.log 2 q = e := by
  have hq : 0 < q := lt_of_lt_of_le (by positivity) h₁
  have hle : e ≤ Int.log 2 q := (Int.zpow_le_iff_le_log (by norm_num) hq).mp (by exact_mod_cast h₁)
  have hlt : Int.log 2 q < e + 1 :=
    (Int.lt_zpow_iff_log_lt (by norm_num) hq).mp (by exact_mod_cast h₂)
  omega

theorem two_zpow_52 : (2 : ℚ) ^ (52 : ℤ) = ((2 ^ 52 : ℕ) : ℚ) := by
  norm_num

theorem two_zpow_53 : (2 : ℚ) ^ (53 : ℤ) = ((2 ^ 53 : ℕ) : ℚ) := by
  norm_num

theorem lastPlace_of_normal {M : ℕ} {k : ℤ} (hM₁ : 2 ^ 52 ≤ M) (hM₂ : M < 2 ^ 53)
    (hk : -1074 ≤ k) : lastPlace (M * 2 ^ k) = k := by
  have h₁ : (2 : ℚ) ^ (52 + k) ≤ M * 2 ^ k := by
    rw [zpow_add₀ (by norm_num)]
    have : (2 : ℚ) ^ (52 : ℤ) ≤ M := by
      rw [two_zpow_52]
      exact_mod_cast hM₁
    gcongr
  have h₂ : (M : ℚ) * 2 ^ k < 2 ^ (52 + k + 1) := by
    rw [show 52 + k + 1 = 53 + k by ring, zpow_add₀ (by norm_num)]
    have : (M : ℚ) < 2 ^ (53 : ℤ) := by
      rw [two_zpow_53]
      exact_mod_cast hM₂
    gcongr
  rw [lastPlace, log_eq h₁ h₂]
  omega

theorem lastPlace_of_small {q : ℚ} (h₀ : 0 < q) (h : q < 2 ^ (-1022 : ℤ)) :
    lastPlace q = -1074 := by
  have hlt : Int.log 2 q < -1022 :=
    (Int.lt_zpow_iff_log_lt (by norm_num) h₀).mp (by exact_mod_cast h)
  rw [lastPlace]
  omega

/-- A number with a mantissa in its last place is encoded as it is. -/
theorem encode_mul_zpow {M : ℕ} {k : ℤ} (hpos : 0 < M) (h : lastPlace (M * 2 ^ k) = k) :
    encode (M * 2 ^ k) = ((k + 1074) * 2 ^ 52 + M).toNat := by
  have hne : (M : ℚ) * 2 ^ k ≠ 0 := by positivity
  rw [encode, if_neg hne, h, mul_div_assoc, div_self (by positivity), mul_one]
  exact congrArg (fun n => ((k + 1074) * 2 ^ 52 + n).toNat)
    (by exact_mod_cast roundHalfEven_intCast (M : ℤ))

/-- **Exactness**: rounding the value of a finite pattern gives the pattern back. -/
theorem encode_magnitude {m : Nat} : encode (magnitude m) = m := by
  by_cases hm : m < 2 ^ 52
  · rcases Nat.eq_zero_or_pos m with rfl | hpos
    · simp [encode, magnitude]
    · have hlt : (m : ℚ) * 2 ^ (-1074 : ℤ) < 2 ^ (-1022 : ℤ) := by
        rw [show (-1022 : ℤ) = 52 + -1074 by norm_num, zpow_add₀ (by norm_num)]
        have : (m : ℚ) < 2 ^ (52 : ℤ) := by
          rw [two_zpow_52]
          exact_mod_cast hm
        gcongr
      rw [magnitude, if_pos hm,
        encode_mul_zpow hpos (lastPlace_of_small (by positivity) hlt)]
      omega
  · have hle : 2 ^ 52 ≤ m := not_lt.mp hm
    have hdiv : 1 ≤ m / 2 ^ 52 := (Nat.one_le_div_iff (by norm_num)).mpr hle
    have hmod := Nat.mod_lt m (show 0 < 2 ^ 52 by norm_num)
    rw [magnitude, if_neg hm, encode_mul_zpow (by omega)
      (lastPlace_of_normal (by omega) (by omega) (by omega))]
    omega

/-! ## The normal range -/

theorem magnitude_le_of_normal {m : Nat} (h : 2 ^ 52 ≤ m) :
    (2 : ℚ) ^ (-1022 : ℤ) ≤ magnitude m := by
  have hdiv : 1 ≤ m / 2 ^ 52 := (Nat.one_le_div_iff (by norm_num)).mpr h
  rw [magnitude, if_neg (not_lt.mpr h), show (-1022 : ℤ) = 52 + -1074 by norm_num,
    zpow_add₀ (by norm_num)]
  have h₁ : (2 : ℚ) ^ (52 : ℤ) ≤ ((2 ^ 52 + m % 2 ^ 52 : ℕ) : ℚ) := by
    rw [two_zpow_52]
    exact_mod_cast Nat.le_add_right _ _
  have h₂ : (2 : ℚ) ^ (-1074 : ℤ) ≤ 2 ^ ((m / 2 ^ 52 : ℕ) - 1075 : ℤ) :=
    zpow_le_zpow_right₀ (by norm_num) (by omega)
  exact mul_le_mul h₁ h₂ (by positivity) (by positivity)

theorem normal_encode {q : ℚ} (h : (2 : ℚ) ^ (-1022 : ℤ) ≤ q) : 2 ^ 52 ≤ encode q := by
  have hq : 0 < q := lt_of_lt_of_le (by positivity) h
  have hlog : -1022 ≤ Int.log 2 q :=
    (Int.zpow_le_iff_le_log (by norm_num) hq).mp (by exact_mod_cast h)
  have hself : (2 : ℚ) ^ Int.log 2 q ≤ q := by
    exact_mod_cast Int.zpow_log_le_self (b := 2) (by norm_num) hq
  have hplace : lastPlace q = Int.log 2 q - 52 := by
    rw [lastPlace]
    omega
  have hround : (2 ^ 52 : ℤ) ≤ roundHalfEven (q / 2 ^ lastPlace q) := by
    refine le_roundHalfEven ?_
    rw [le_div_iff₀ (by positivity), hplace]
    push_cast
    calc (2 : ℚ) ^ 52 * 2 ^ (Int.log 2 q - 52) = 2 ^ Int.log 2 q := by
          rw [← zpow_natCast, ← zpow_add₀ (by norm_num)]
          congr 1
          push_cast
          ring
      _ ≤ q := hself
  rw [encode, if_neg hq.ne']
  omega

/-! ## Patterns of positive numbers -/

theorem value_ofNat {m : Nat} (h : m < infinityBits) :
    value (BitVec.ofNat 64 m) = .finite (magnitude m) := by
  have hm : m < 2 ^ 63 := lt_trans h (by decide)
  have hnat : (BitVec.ofNat 64 m).toNat = m := by
    rw [BitVec.toNat_ofNat, Nat.mod_eq_of_lt (by omega)]
  have hmsb : (BitVec.ofNat 64 m).msb = false := by
    rw [BitVec.msb_eq_decide, hnat]
    simpa using hm
  simp only [value, hnat, Nat.mod_eq_of_lt hm, if_pos h, hmsb]
  rfl

/-- A pattern of a positive number is the one with that value. -/
theorem eq_ofNat_of_value {x : Bits} {q : ℚ} (h : value x = .finite q) (hq : 0 < q) :
    ∃ m, m < infinityBits ∧ x = BitVec.ofNat 64 m ∧ q = magnitude m := by
  have hnonneg : ∀ m, 0 ≤ magnitude m := by
    intro m
    unfold magnitude
    split <;> positivity
  unfold value at h
  simp only at h
  split at h
  · next hlt =>
    cases hmsb : x.msb with
    | true =>
      simp only [hmsb, if_true, Value.finite.injEq] at h
      have := hnonneg (x.toNat % 2 ^ 63)
      linarith
    | false =>
      simp only [hmsb, Bool.false_eq_true, if_false, Value.finite.injEq] at h
      have hx : x.toNat < 2 ^ 63 := by
        rw [BitVec.msb_eq_decide] at hmsb
        simpa using hmsb
      rw [Nat.mod_eq_of_lt hx] at h hlt
      exact ⟨x.toNat, hlt, by simp, h.symm⟩
  · split at h <;> simp at h

/-- Rounding the value of a positive pattern gives the pattern back. -/
theorem ofRat_of_value {x : Bits} {q : ℚ} (h : value x = .finite q) (hq : 0 < q) :
    ofRat q = x := by
  obtain ⟨m, hm, rfl, rfl⟩ := eq_ofNat_of_value h hq
  simp only [ofRat]
  rw [abs_of_pos hq, encode_magnitude, if_neg (not_lt.mpr hq.le), Nat.min_eq_left hm.le]

/-- A normal number stays one when it is rounded. -/
theorem not_lt_ofRat {q : ℚ} (h : (2 : ℚ) ^ (-1022 : ℤ) ≤ q) :
    Value.lt (value (ofRat q)) (.finite (2 ^ (-1022 : ℤ))) = false := by
  have hq : 0 < q := lt_of_lt_of_le (by positivity) h
  have hnormal := normal_encode h
  simp only [ofRat]
  rw [abs_of_pos hq, if_neg (not_lt.mpr hq.le)]
  by_cases hm : encode q < infinityBits
  · rw [Nat.min_eq_left hm.le, value_ofNat hm]
    simpa [Value.lt] using magnitude_le_of_normal hnormal
  · rw [Nat.min_eq_right (not_lt.mp hm)]
    have hinf : value (BitVec.ofNat 64 infinityBits) = .infinity false := by decide
    rw [hinf]
    rfl

/-- **Exact integers**: below `2^53` every positive integer is represented. -/
theorem value_ofInt {n : ℕ} (hpos : 0 < n) (h : n < 2 ^ 53) :
    value (ofInt n) = .finite n := by
  have hL : Nat.log2 n ≤ 52 := Nat.lt_succ_iff.mp ((Nat.log2_lt hpos.ne').mpr h)
  have hlow := Nat.log2_self_le hpos.ne'
  have hhigh := Nat.lt_log2_self (n := n)
  generalize Nat.log2 n = L at hL hlow hhigh
  -- `n` shifted so that its leading bit is the 53rd
  obtain ⟨j, hj⟩ := Nat.exists_eq_add_of_le hL
  have hM₁ : 2 ^ 52 ≤ n * 2 ^ j := by
    rw [hj, pow_add]
    exact Nat.mul_le_mul_right _ hlow
  have hM₂ : n * 2 ^ j < 2 ^ 53 := by
    rw [show 53 = (L + 1) + j by omega, pow_add]
    exact Nat.mul_lt_mul_of_pos_right hhigh (by positivity)
  have hm : (L + 1022) * 2 ^ 52 + n * 2 ^ j < infinityBits := by
    have : infinityBits = 2047 * 2 ^ 52 := rfl
    omega
  have hvalue : magnitude ((L + 1022) * 2 ^ 52 + n * 2 ^ j) = n := by
    rw [magnitude, if_neg (by omega),
      show ((L + 1022) * 2 ^ 52 + n * 2 ^ j) / 2 ^ 52 = L + 1023 by omega,
      show 2 ^ 52 + ((L + 1022) * 2 ^ 52 + n * 2 ^ j) % 2 ^ 52 = n * 2 ^ j by omega]
    push_cast
    rw [mul_assoc, ← zpow_natCast, ← zpow_add₀ (by norm_num),
      show (j : ℤ) + (L + 1023 - 1075) = 0 by omega, zpow_zero, mul_one]
  have hx := value_ofNat hm
  rw [hvalue] at hx
  have hround := ofRat_of_value hx (by exact_mod_cast hpos)
  rw [ofInt, Int.cast_natCast, hround, hx]

/-- Every finite value has a mantissa of at most 53 bits. -/
theorem exists_mantissa {x : Bits} {q : ℚ} (h : value x = .finite q) (hq : 0 < q) :
    ∃ (M : ℕ) (k : ℤ), M < 2 ^ 53 ∧ q = M * 2 ^ k := by
  obtain ⟨m, -, -, rfl⟩ := eq_ofNat_of_value h hq
  by_cases hm : m < 2 ^ 52
  · exact ⟨m, -1074, by omega, if_pos hm⟩
  · have hmod := Nat.mod_lt m (show 0 < 2 ^ 52 by norm_num)
    refine ⟨2 ^ 52 + m % 2 ^ 52, ((m / 2 ^ 52 : ℕ) - 1075 : ℤ), ?_, if_neg hm⟩
    omega

/-- A value above one is an integer or lies well between two. -/
theorem integer_or_gap {M : ℕ} {k : ℤ} (hM : M < 2 ^ 53) (hone : 1 < (M : ℚ) * 2 ^ k) :
    (M : ℚ) * 2 ^ k = ⌊(M : ℚ) * 2 ^ k⌋ ∨
      (M : ℚ) * 2 ^ k < 2 ^ 53 ∧
        (2 : ℚ) ^ (-1022 : ℤ) ≤ M * 2 ^ k - ⌊(M : ℚ) * 2 ^ k⌋ := by
  by_cases hk : 0 ≤ k
  · left
    obtain ⟨j, rfl⟩ := Int.eq_ofNat_of_zero_le hk
    rw [zpow_natCast, show (M : ℚ) * 2 ^ j = ((M * 2 ^ j : ℤ) : ℚ) by push_cast; ring,
      Int.floor_intCast]
  · obtain ⟨j, rfl⟩ : ∃ j : ℕ, k = -j := ⟨k.natAbs, by omega⟩
    have hMq : (M : ℚ) < 2 ^ 53 := by exact_mod_cast hM
    have hpow : (0 : ℚ) < 2 ^ j := by positivity
    have hq : (M : ℚ) * 2 ^ (-(j : ℤ)) = M / 2 ^ j := by
      rw [zpow_neg, zpow_natCast, div_eq_mul_inv]
    rw [hq] at hone ⊢
    have hjM : (2 : ℚ) ^ j < M := by rwa [lt_div_iff₀ hpow, one_mul] at hone
    have hj : j < 53 := by
      have : (2 : ℚ) ^ j < 2 ^ 53 := hjM.trans hMq
      exact (pow_lt_pow_iff_right₀ (by norm_num)).mp this
    by_cases hint : (M : ℚ) / 2 ^ j = ⌊(M : ℚ) / 2 ^ j⌋
    · exact .inl hint
    · right
      have hone_le : (1 : ℚ) ≤ 2 ^ j := one_le_pow₀ (by norm_num)
      refine ⟨lt_of_le_of_lt (div_le_self (by positivity) hone_le) hMq, ?_⟩
      have hlt : (⌊(M : ℚ) / 2 ^ j⌋ : ℚ) < M / 2 ^ j :=
        lt_of_le_of_ne (Int.floor_le _) (Ne.symm hint)
      -- scaled by `2^j` the difference is a positive integer
      have hscaled : (1 : ℚ) ≤ M - ⌊(M : ℚ) / 2 ^ j⌋ * 2 ^ j := by
        rw [lt_div_iff₀ hpow] at hlt
        have hcast : (⌊(M : ℚ) / 2 ^ j⌋ * 2 ^ j : ℤ) < (M : ℤ) := by exact_mod_cast hlt
        have hcast' : (1 : ℤ) ≤ M - ⌊(M : ℚ) / 2 ^ j⌋ * 2 ^ j := by omega
        exact_mod_cast hcast'
      calc (2 : ℚ) ^ (-1022 : ℤ) ≤ 2 ^ (-(j : ℤ)) := zpow_le_zpow_right₀ (by norm_num) (by omega)
        _ = 1 / 2 ^ j := by rw [zpow_neg, zpow_natCast, one_div]
        _ ≤ (M - ⌊(M : ℚ) / 2 ^ j⌋ * 2 ^ j) / 2 ^ j := by gcongr
        _ = M / 2 ^ j - ⌊(M : ℚ) / 2 ^ j⌋ := by field_simp

/-! ## Truncation -/

theorem value_ofInt_max : value (ofInt (2 ^ 63 - 1)) = .finite (2 ^ 63) := by
  have hlog : Int.log 2 (((2 ^ 63 - 1 : ℤ)) : ℚ) = 62 := log_eq (by norm_num) (by norm_num)
  have hplace : lastPlace ((2 ^ 63 - 1 : ℤ) : ℚ) = 10 := by
    rw [lastPlace, hlog]
    norm_num
  have hfloor : ⌊((2 ^ 63 - 1 : ℤ) : ℚ) / 2 ^ (10 : ℤ)⌋ = 2 ^ 53 - 1 := by
    rw [Int.floor_eq_iff]
    norm_num
  have hround : roundHalfEven (((2 ^ 63 - 1 : ℤ) : ℚ) / 2 ^ (10 : ℤ)) = 2 ^ 53 := by
    rw [roundHalfEven, hfloor, if_neg (by norm_num), if_pos (by norm_num)]
    norm_num
  have hencode : encode ((2 ^ 63 - 1 : ℤ) : ℚ) = 1086 * 2 ^ 52 := by
    rw [encode, if_neg (by norm_num), hplace, hround]
    rfl
  have hvalue : magnitude (1086 * 2 ^ 52) = 2 ^ 63 := by
    rw [magnitude, if_neg (by norm_num)]
    norm_num
  rw [ofInt]
  simp only [ofRat]
  rw [abs_of_pos (by norm_num), hencode, if_neg (by norm_num), Nat.min_eq_left (by decide),
    value_ofNat (by decide), hvalue]

theorem sub_of_finite {x y : Bits} {q r : ℚ} (hx : value x = .finite q)
    (hy : value y = .finite r) : sub x y = value (ofRat (q - r)) := by
  rw [sub, hx, hy]

/-- **Truncation**: when a number above one exceeds its truncation to 64 bits by less
than the smallest normal number, it is that truncation. -/
theorem ofInt_toInt64_of_sub_lt {x : Bits} (hone : Value.lt (.finite 1) (value x))
    (h : Value.lt (sub x (ofInt (value x).toInt64)) (.finite (2 ^ (-1022 : ℤ)))) :
    ofInt (value x).toInt64 = x := by
  cases hx : value x with
  | nan => simp [hx, Value.lt] at hone
  | infinity negative =>
    cases negative with
    | true => simp [hx, Value.lt] at hone
    | false =>
      have hsub : sub x (ofInt (2 ^ 63 - 1)) = .infinity false := by
        rw [sub, hx, value_ofInt_max]
      rw [hx, show (Value.infinity false).toInt64 = 2 ^ 63 - 1 from rfl, hsub] at h
      exact absurd h (by simp [Value.lt])
  | finite q =>
    have hq : 1 < q := by simpa [hx, Value.lt] using hone
    have hq₀ : 0 < q := by linarith
    have hint64 : (Value.finite q).toInt64 = min (2 ^ 63 - 1) ⌊q⌋ := by
      have hfloor : 0 ≤ ⌊q⌋ := Int.floor_nonneg.mpr hq₀.le
      simp only [Value.toInt64, if_neg (not_lt.mpr hq₀.le)]
      omega
    rw [hx, hint64] at h
    rw [hint64]
    -- no double has a fraction that is smaller than the last place of its mantissa
    have hcases : q = ⌊q⌋ ∨ q < 2 ^ 53 ∧ (2 : ℚ) ^ (-1022 : ℤ) ≤ q - ⌊q⌋ := by
      obtain ⟨M, k, hM, rfl⟩ := exists_mantissa hx hq₀
      exact integer_or_gap hM hq
    rcases hcases with hint | ⟨hsmall, hgap⟩
    · -- an integer: truncation is exact unless it saturates
      by_cases hsat : ⌊q⌋ ≤ 2 ^ 63 - 1
      · rw [min_eq_right hsat, ofInt, ← hint]
        exact ofRat_of_value hx hq₀
      · rw [min_eq_left (by omega)] at h ⊢
        rw [sub_of_finite hx value_ofInt_max] at h
        have hge : (2 ^ 63 : ℤ) ≤ ⌊q⌋ := by omega
        rcases hge.eq_or_lt with heq | hgt
        · have hq63 : q = 2 ^ 63 := by
            rw [hint, ← heq]
            norm_num
          rw [← ofRat_of_value value_ofInt_max (by norm_num), ← hq63]
          exact ofRat_of_value hx hq₀
        · have hdiff : (2 : ℚ) ^ (-1022 : ℤ) ≤ q - 2 ^ 63 := by
            have h₁ : ((2 ^ 63 + 1 : ℤ) : ℚ) ≤ ⌊q⌋ := by exact_mod_cast hgt
            rw [← hint] at h₁
            push_cast at h₁
            have h₂ : (2 : ℚ) ^ (-1022 : ℤ) ≤ 1 :=
              zpow_le_one_of_nonpos₀ (by norm_num) (by norm_num)
            linarith
          rw [not_lt_ofRat hdiff] at h
          exact absurd h (by simp)
    · -- not an integer: the truncation is representable and the difference is large
      obtain ⟨n, hn⟩ := Int.eq_ofNat_of_zero_le (Int.floor_nonneg.mpr hq₀.le)
      have hone' : 1 ≤ ⌊q⌋ := Int.le_floor.mpr (by exact_mod_cast hq.le)
      have hlt : ⌊q⌋ < 2 ^ 53 := Int.floor_lt.mpr (by exact_mod_cast hsmall)
      rw [min_eq_right (by omega), sub_of_finite hx (r := n)
        (by rw [hn]; exact value_ofInt (by omega) (by omega))] at h
      rw [hn, Int.cast_natCast] at hgap
      rw [not_lt_ofRat hgap] at h
      exact absurd h (by simp)

/-! ## How large a number is -/

theorem abs_roundHalfEven_sub_le (q : ℚ) : |(roundHalfEven q : ℚ) - q| ≤ 1 / 2 := by
  have hle := Int.floor_le q
  have hlt := Int.lt_floor_add_one q
  unfold roundHalfEven
  rw [abs_le]
  split
  · constructor <;> linarith
  · split
    · push_cast
      constructor <;> linarith
    · split
      · constructor <;> linarith
      · push_cast
        constructor <;> linarith

theorem magnitude_nonneg (m : Nat) : 0 ≤ magnitude m := by
  unfold magnitude
  split <;> positivity

/-- The size of a finite value, and its sign. -/
theorem eq_magnitude {x : Bits} {q : ℚ} (h : value x = .finite q) :
    x.toNat % 2 ^ 63 < infinityBits ∧
      q = if x.msb then -magnitude (x.toNat % 2 ^ 63) else magnitude (x.toNat % 2 ^ 63) := by
  unfold value at h
  simp only at h
  split at h
  · next hlt =>
    injection h with h
    exact ⟨hlt, h.symm⟩
  · split at h <;> exact nomatch h

/-- From `2^53` on, all numbers are integers. -/
theorem exists_nat_of_le_magnitude {m : Nat} (h : 2 ^ 53 ≤ magnitude m) : ∃ n : ℕ, magnitude m = n := by
  unfold magnitude at h ⊢
  by_cases hm : m < 2 ^ 52
  · rw [if_pos hm] at h
    have hsmall : (m : ℚ) * 2 ^ (-1074 : ℤ) ≤ m * 1 :=
      mul_le_mul_of_nonneg_left (zpow_le_one_of_nonpos₀ (by norm_num) (by norm_num)) (by positivity)
    have hcast : (m : ℚ) < 2 ^ 52 := by exact_mod_cast hm
    have hpow : (2 : ℚ) ^ 52 < 2 ^ 53 := by norm_num
    rw [mul_one] at hsmall
    linarith
  · rw [if_neg hm] at h ⊢
    have hmod := Nat.mod_lt m (show 0 < 2 ^ 52 by norm_num)
    generalize m / 2 ^ 52 = k at h ⊢
    by_cases hk : 1075 ≤ k
    · obtain ⟨j, rfl⟩ := Nat.exists_eq_add_of_le hk
      refine ⟨(2 ^ 52 + m % 2 ^ 52) * 2 ^ j, ?_⟩
      have hexponent : ((1075 + j : ℕ) - 1075 : ℤ) = j := by omega
      rw [hexponent, zpow_natCast, Nat.cast_mul, Nat.cast_pow, Nat.cast_ofNat]
    · have hone : (2 : ℚ) ^ ((k : ℤ) - 1075) ≤ 1 := zpow_le_one_of_nonpos₀ (by norm_num) (by omega)
      have hcast : ((2 ^ 52 + m % 2 ^ 52 : ℕ) : ℚ) < 2 ^ 53 := by
        have : 2 ^ 52 + m % 2 ^ 52 < 2 ^ 53 := by omega
        exact_mod_cast this
      have hle : ((2 ^ 52 + m % 2 ^ 52 : ℕ) : ℚ) * 2 ^ ((k : ℤ) - 1075) ≤ (2 ^ 52 + m % 2 ^ 52 : ℕ) * 1 :=
        mul_le_mul_of_nonneg_left hone (by positivity)
      linarith

end Binary64
