import Wson.Native.Accessors
import Wson.Text.Fixed

/-!
# `str_append_number`

The texts of numbers: `number_to_buffer` prints into a buffer that `snprintf` fills with at
most 63 characters.

- `printNumber`: the whole text of `%f`; `Libc.snprintf`: what fits into the buffers.
- `near_iff`: the text that is cut at `k` characters is as near to the number as the whole
  one, exactly if the digits in front of the point fit.
- `rendersNumber_iff`: which numbers are cut off.
-/

namespace Wson.Native

open Effect Wire Binary64

/-- The text of `%f`: the exact value, rounded to six decimals. -/
def printNumber (num : Bits) : Bytes :=
  let m := num.toNat % 2 ^ 63
  (if num.msb then [0x2D] else []) ++
    if m < infinityBits then
      (Decimal.fixed 6 (roundHalfEven (magnitude m * 10 ^ 6)).toNat).map (BitVec.setWidth 8)
    else if m = infinityBits then [0x69, 0x6E, 0x66]
    else [0x6E, 0x61, 0x6E]

/-- What `snprintf(buffer, size, ...)` stores in front of the NUL. -/
def printed (size : Nat) (text : Bytes) : Bytes :=
  text.take (size - 1)

/-- `str_append_number`, in front of any `strtod`. A float is passed as a double. -/
def Libc.snprintf (strtod : Bytes → BitVec 64) : Libc where
  appendInt num := printed 32 (printInt num.toInt)
  appendLong num := printed 64 (printInt num.toInt)
  appendFloat num := printed 64 (printNumber (ofFloat num))
  appendDouble num := printed 64 (printNumber num)
  strtod := strtod

/-- The number that a text spells, as far as it is a decimal number. -/
def decimalValue (text : Bytes) : Option ℚ :=
  Decimal.read (text.map (BitVec.setWidth 16))

/-- The text is a decimal number next to `q`, as six decimals can be. -/
def Spells (text : Bytes) (q : ℚ) : Prop :=
  ∃ r, decimalValue text = some r ∧ |r - q| ≤ 1 / 2 / 10 ^ 6

/-! ## Cutting a number -/

/-- The number that the first `k` characters of `n / 10 ^ 6` spell. -/
def cutValue (k n : Nat) : ℚ :=
  let w := (Decimal.digits (n / 10 ^ 6)).length
  if k ≤ w then ((n / 10 ^ 6 / 10 ^ (w - k) : ℕ) : ℚ)
  else (n / 10 ^ 6 : ℕ) + (n % 10 ^ 6 / 10 ^ (6 - (k - w - 1)) : ℕ) / 10 ^ min (k - w - 1) 6

theorem map_fixed (n : Nat) :
    ((Decimal.fixed 6 n).map (BitVec.setWidth 8)).map (BitVec.setWidth 16) = Decimal.fixed 6 n := by
  rw [List.map_map]
  refine (List.map_congr_left fun c hc => ?_).trans (List.map_id _)
  apply BitVec.eq_of_toNat_eq
  have hlt := Decimal.mem_fixed hc
  have hc := c.isLt
  simp only [Function.comp_apply, BitVec.toNat_setWidth, id]
  omega

section Cut

variable {m n k : Nat} (hn : |(n : ℚ) - magnitude m * 10 ^ 6| ≤ 1 / 2)
include hn

/-- A large number is an integer, and there is nothing to round. -/
theorem eq_of_large (hlarge : 10 ^ 55 ≤ n / 10 ^ 6) : magnitude m = (n / 10 ^ 6 : ℕ) ∧ n % 10 ^ 6 = 0 := by
  have hle : (10 ^ 61 : ℚ) ≤ n := by
    have : 10 ^ 61 ≤ n := by omega
    exact_mod_cast this
  rw [abs_le] at hn
  have hbig : (2 : ℚ) ^ 53 ≤ magnitude m := by
    have hpow : (2 : ℚ) ^ 53 * 10 ^ 6 + 1 ≤ 10 ^ 61 := by norm_num
    by_contra hlt
    have hmul := mul_lt_mul_of_pos_right (not_le.mp hlt) (show (0 : ℚ) < 10 ^ 6 by norm_num)
    linarith
  obtain ⟨N, hN⟩ := exists_nat_of_le_magnitude hbig
  rw [hN] at hn ⊢
  have hn' : n = N * 10 ^ 6 := by
    have h₁ : (n : ℚ) < (N * 10 ^ 6 + 1 : ℕ) := by
      push_cast
      linarith
    have h₂ : ((N * 10 ^ 6 : ℕ) : ℚ) < (n + 1 : ℕ) := by
      push_cast
      linarith
    have h₁ : n < N * 10 ^ 6 + 1 := by exact_mod_cast h₁
    have h₂ : N * 10 ^ 6 < n + 1 := by exact_mod_cast h₂
    omega
  rw [hn', Nat.mul_div_cancel _ (by decide), Nat.mul_mod_left]
  exact ⟨rfl, rfl⟩

/-- **Cutting** the text leaves the number as long as its integer part fits. -/
theorem near_iff (hk : 62 ≤ k) :
    |cutValue k n - magnitude m| ≤ 1 / 2 / 10 ^ 6 ↔ magnitude m < 10 ^ k := by
  have hlength := Decimal.length_digits_le_iff (n := n / 10 ^ 6) (k := k) (by omega)
  unfold cutValue
  simp only
  generalize hw : (Decimal.digits (n / 10 ^ 6)).length = w at hlength ⊢
  by_cases hall : w + 7 ≤ k
  · -- Everything is there.
    have hvalue : ((n / 10 ^ 6 : ℕ) : ℚ) + (n % 10 ^ 6 : ℕ) / 10 ^ 6 = n / 10 ^ 6 := by
      have hsplit : ((10 ^ 6 * (n / 10 ^ 6) + n % 10 ^ 6 : ℕ) : ℚ) = n := by rw [Nat.div_add_mod]
      push_cast at hsplit ⊢
      linarith
    have hsmall : n / 10 ^ 6 < 10 ^ (k - 7) := by
      rw [← Decimal.length_digits_le_iff (by omega)]
      omega
    have hmin : min (k - w - 1) 6 = 6 := by omega
    have hzero : 6 - (k - w - 1) = 0 := by omega
    rw [if_neg (by omega), hmin, hzero, pow_zero, Nat.div_one, hvalue]
    refine iff_of_true ?_ ?_
    · have hdiff : (n : ℚ) / 10 ^ 6 - magnitude m = (n - magnitude m * 10 ^ 6) / 10 ^ 6 := by
        field_simp
      rw [hdiff, abs_div, abs_of_pos (show (0 : ℚ) < 10 ^ 6 by norm_num)]
      exact div_le_div_of_nonneg_right hn (by norm_num)
    · have hn' : (n : ℚ) + 1 ≤ 10 ^ (k - 7) * 10 ^ 6 := by
        have : n + 1 ≤ 10 ^ (k - 7) * 10 ^ 6 := by omega
        exact_mod_cast this
      have hpow : (10 : ℚ) ^ (k - 7) * 10 ^ 6 < 10 ^ k * 10 ^ 6 :=
        mul_lt_mul_of_pos_right (pow_lt_pow_right₀ (by norm_num) (by omega)) (by norm_num)
      rw [abs_le] at hn
      have hmul : magnitude m * 10 ^ 6 < 10 ^ k * 10 ^ 6 := by linarith
      exact lt_of_mul_lt_mul_right hmul (by norm_num)
  · -- There are many digits in front of the point.
    have hlarge : 10 ^ 55 ≤ n / 10 ^ 6 := by
      by_contra hlt
      have := (Decimal.length_digits_le_iff (by decide)).mpr (Nat.lt_of_not_le hlt)
      omega
    obtain ⟨hm, hmod⟩ := eq_of_large hn hlarge
    have hcast : magnitude m < 10 ^ k ↔ n / 10 ^ 6 < 10 ^ k := by
      rw [hm]
      exact_mod_cast Iff.rfl
    rw [hcast, ← hlength, hm, hmod]
    by_cases hle : w ≤ k
    · refine iff_of_true ?_ hle
      have hvalue : (if k ≤ w then ((n / 10 ^ 6 / 10 ^ (w - k) : ℕ) : ℚ)
          else (n / 10 ^ 6 : ℕ) + (0 / 10 ^ (6 - (k - w - 1)) : ℕ) / 10 ^ min (k - w - 1) 6) = (n / 10 ^ 6 : ℕ) := by
        split
        · have hzero : w - k = 0 := by omega
          rw [hzero, pow_zero, Nat.div_one]
        · rw [Nat.zero_div, Nat.cast_zero, zero_div, add_zero]
      rw [hvalue, sub_self, abs_zero]
      norm_num
    · refine iff_of_false ?_ hle
      rw [if_pos (by omega)]
      -- At least one digit is lost.
      have htenth : n / 10 ^ 6 / 10 ^ (w - k) ≤ n / 10 ^ 6 / 10 :=
        Nat.div_le_div_left (Nat.le_self_pow (by omega) 10) (by decide)
      have hlost : n / 10 ^ 6 / 10 ^ (w - k) + 1 ≤ n / 10 ^ 6 := by omega
      have hlost : ((n / 10 ^ 6 / 10 ^ (w - k) : ℕ) : ℚ) + 1 ≤ (n / 10 ^ 6 : ℕ) := by exact_mod_cast hlost
      rw [not_le, abs_sub_comm, lt_abs]
      left
      norm_num at hlost ⊢
      linarith

end Cut

theorem decimalValue_take {n k : Nat} (hk : 0 < k) :
    decimalValue (((Decimal.fixed 6 n).map (BitVec.setWidth 8)).take k) = some (cutValue k n) := by
  rw [decimalValue, List.map_take, map_fixed, Decimal.read_take_fixed hk, Decimal.readUnsigned_take hk]
  rfl

theorem decimalValue_neg_take {n k : Nat} (hk : 0 < k) :
    decimalValue (0x2D :: ((Decimal.fixed 6 n).map (BitVec.setWidth 8)).take k) = some (-cutValue k n) := by
  have hminus : (0x2D : Byte).setWidth 16 = 0x2D := rfl
  rw [decimalValue, List.map_cons, List.map_take, map_fixed, hminus, Decimal.read_neg,
    Decimal.readUnsigned_take hk]
  rfl

/-! ## The texts of finite numbers -/

/-- What is printed of a finite number. -/
theorem printNumber_of_finite {num : Bits} (h : num.toNat % 2 ^ 63 < infinityBits) :
    ∃ n : Nat, |(n : ℚ) - magnitude (num.toNat % 2 ^ 63) * 10 ^ 6| ≤ 1 / 2 ∧
      printNumber num = (if num.msb then [0x2D] else []) ++
        (Decimal.fixed 6 n).map (BitVec.setWidth 8) := by
  have hnonneg : 0 ≤ roundHalfEven (magnitude (num.toNat % 2 ^ 63) * 10 ^ 6) :=
    le_roundHalfEven (by
      have := magnitude_nonneg (num.toNat % 2 ^ 63)
      push_cast
      positivity)
  refine ⟨_, ?_, congrArg (_ ++ ·) (if_pos h)⟩
  have hcast : ((roundHalfEven (magnitude (num.toNat % 2 ^ 63) * 10 ^ 6)).toNat : ℚ) =
      roundHalfEven (magnitude (num.toNat % 2 ^ 63) * 10 ^ 6) := by
    exact_mod_cast Int.toNat_of_nonneg hnonneg
  rw [hcast]
  exact abs_roundHalfEven_sub_le _

/-- **A number is cut off** if it has more than 63 digits in front of the point, or 62 behind a
minus. -/
theorem spells_iff {num : Bits} {q : ℚ} (h : value num = .finite q) :
    Spells (printed 64 (printNumber num)) q ↔ -10 ^ 62 < q ∧ q < 10 ^ 63 := by
  obtain ⟨hfinite, hq⟩ := eq_magnitude h
  obtain ⟨n, hn, hprint⟩ := printNumber_of_finite hfinite
  have hnonneg := magnitude_nonneg (num.toNat % 2 ^ 63)
  rw [printed, hprint]
  cases hsign : num.msb with
  | false =>
    rw [hsign] at hq
    obtain rfl : q = magnitude _ := hq
    have hspells : Spells (((Decimal.fixed 6 n).map (BitVec.setWidth 8)).take 63)
        (magnitude (num.toNat % 2 ^ 63)) ↔ magnitude (num.toNat % 2 ^ 63) < 10 ^ 63 := by
      unfold Spells
      rw [decimalValue_take (by decide)]
      simp only [Option.some.injEq, exists_eq_left']
      exact near_iff hn (by decide)
    refine hspells.trans ⟨fun hlt => ⟨?_, hlt⟩, And.right⟩
    exact lt_of_lt_of_le (by norm_num) hnonneg
  | true =>
    rw [hsign] at hq
    obtain rfl : q = -magnitude _ := hq
    have hspells : Spells (0x2D :: ((Decimal.fixed 6 n).map (BitVec.setWidth 8)).take 62)
        (-magnitude (num.toNat % 2 ^ 63)) ↔ magnitude (num.toNat % 2 ^ 63) < 10 ^ 62 := by
      unfold Spells
      rw [decimalValue_neg_take (by decide)]
      simp only [Option.some.injEq, exists_eq_left', neg_sub_neg, abs_sub_comm (magnitude _)]
      exact near_iff hn (by decide)
    refine hspells.trans ⟨fun hlt => ⟨by linarith, ?_⟩, fun hlt => by linarith [hlt.1]⟩
    exact lt_of_le_of_lt (neg_nonpos.mpr hnonneg) (by norm_num)

/-! ## In the parser -/

namespace Parser

open Buffer

/-- The exact value of a float or a double. -/
def Carries : Doc → ℚ → Prop
  | .float num, q => value (ofFloat num) = .finite q
  | .double num, q => value num = .finite q
  | _, _ => False

/-- `toJSONtring` and `nextStringUTF8` append the same text for the number `d`, which spells `q`. -/
def RendersNumber (e : Endian) (strtod : Bytes → BitVec 64) (n length : Nat) (before after : Bytes)
    (d : Doc) (q : ℚ) : Prop :=
  let start : Buffer := ⟨before ++ d.encode e ++ after, before.length, length⟩
  let behind : Buffer := ⟨before ++ d.encode e ++ after, (before ++ d.encode e).length, length⟩
  ∃ text,
    returns (toJSONtring .io e (.snprintf strtod) n) start = some (text, behind) ∧
    returns (do nextStringUTF8 .io e (.snprintf strtod) n (← nextType .io)) start = some (text, behind) ∧
    Spells text q

/-- Both functions return the text of the number. -/
theorem rendersNumber_iff_spells {e : Endian} {strtod : Bytes → BitVec 64} {n length : Nat}
    {before after text : Bytes} {d : Doc} {q : ℚ} (hd : d.Encodes e (d.encode e)) (hn : d.height < n)
    (hw : d.Within (2 ^ 31)) (htext : rendered (.snprintf strtod) d = some text)
    (hstring : stringOf (.snprintf strtod) d = some text)
    (hdata : (before ++ d.encode e ++ after).length < 2 ^ 64)
    (hlength : (before ++ d.encode e ++ after).length ≤ length) :
    RendersNumber e strtod n length before after d q ↔ Spells text q := by
  have hjson : Answers _ (At _ length) (returns (toJSONtring .io e (.snprintf strtod) n)) _ _ :=
    answers_toJSONtring hdata hd hn hw
  have hutf8 : Answers _ (At _ length) (returns (do nextStringUTF8 .io e (.snprintf strtod) n (← nextType .io)))
      _ _ := answers_nextStringUTF8 hdata hlength hd hn hw
  rw [htext] at hjson
  rw [hstring] at hutf8
  have hrun := returns_of_consumesAt (Consumes.consumesAt hjson)
  have hrun' := returns_of_consumesAt (Consumes.consumesAt hutf8)
  constructor
  · rintro ⟨text', hthis, -, hspells⟩
    obtain rfl := congrArg Prod.fst (Option.some.inj (hrun.symm.trans hthis))
    exact hspells
  · intro hspells
    exact ⟨text, hrun, hrun', hspells⟩

/-- **Numbers are not cut off** between `-10 ^ 62` and `10 ^ 63`, and only there. -/
theorem rendersNumber_iff {e : Endian} {strtod : Bytes → BitVec 64} {n length : Nat} {before after : Bytes}
    {d : Doc} {q : ℚ} (hd : Carries d q) (hn : 0 < n)
    (hdata : (before ++ d.encode e ++ after).length < 2 ^ 64)
    (hlength : (before ++ d.encode e ++ after).length ≤ length) :
    RendersNumber e strtod n length before after d q ↔ -10 ^ 62 < q ∧ q < 10 ^ 63 := by
  cases d with
  | float num =>
    exact (rendersNumber_iff_spells (d := .float num) (Doc.encodes_encode e trivial) hn trivial rfl rfl hdata
      hlength).trans (spells_iff hd)
  | double num =>
    exact (rendersNumber_iff_spells (d := .double num) (Doc.encodes_encode e trivial) hn trivial rfl rfl hdata
      hlength).trans (spells_iff hd)
  | _ => exact hd.elim

/-- One and a half. -/
theorem rendersNumber_half : RendersNumber .little (fun _ => 0) 1 9 [] [] (.double 0x3FF8000000000000) (3 / 2) ↔
    (-10 ^ 62 : ℚ) < 3 / 2 ∧ (3 / 2 : ℚ) < 10 ^ 63 :=
  rendersNumber_iff (show value 0x3FF8000000000000 = .finite (3 / 2) by decide +kernel) (by decide) (by decide)
    (by decide)

/-- `2 ^ 210` has 64 digits. -/
theorem not_rendersNumber_large : Carries (.double 0x4D10000000000000) (2 ^ 210) ∧
    ¬ RendersNumber .little (fun _ => 0) 1 9 [] [] (.double 0x4D10000000000000) (2 ^ 210) := by
  have hcarries : value 0x4D10000000000000 = .finite (2 ^ 210) := by decide +kernel
  refine ⟨hcarries, ?_⟩
  have hcut : RendersNumber .little (fun _ => 0) 1 9 [] [] (.double 0x4D10000000000000) (2 ^ 210) ↔
      Spells (printed 64 (printNumber 0x4D10000000000000)) (2 ^ 210) :=
    rendersNumber_iff_spells (Doc.encodes_encode (d := .double 0x4D10000000000000) .little trivial) (by decide)
      trivial rfl rfl (by decide) (by decide)
  rw [hcut, spells_iff hcarries]
  norm_num

end Parser

end Wson.Native
