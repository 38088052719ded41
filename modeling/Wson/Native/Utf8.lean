import Wson.Text.Utf8
import Mathlib.Tactic

/-!
# `wson_util.cpp`: texts

The conversions of 16-bit text, as the bytes they store before the final NUL.
`utf16ConvertToUtf8Cstr` stores UTF-8 (`utf16ConvertToUtf8Cstr_eq`).
-/

namespace Wson.Native

open Text Wire

/-- Room for the largest code point; `u_int32_t` arithmetic. -/
def toCodePoint (high low : Char16) : BitVec 32 :=
  (high.setWidth 32 <<< 10 + low.setWidth 32) + (0x010000#32 - 0xD800#32 <<< 10 - 0xDC00#32)

/-- `utf16_char_convert_to_utf8_cstr`. -/
def utf16CharConvertToUtf8Cstr (codePoint : BitVec 32) : Bytes :=
  if codePoint ≤ 0x7F#32 then
    [codePoint.setWidth 8]
  else if codePoint ≤ 0x7FF#32 then
    [(0xC0#32 ||| codePoint >>> 6).setWidth 8, (0x80#32 ||| codePoint &&& 0x3F#32).setWidth 8]
  else if codePoint ≤ 0xFFFF#32 then
    [(0xE0#32 ||| codePoint >>> 12).setWidth 8,
      (0x80#32 ||| codePoint >>> 6 &&& 0x3F#32).setWidth 8,
      (0x80#32 ||| codePoint &&& 0x3F#32).setWidth 8]
  else if codePoint ≤ 0x1FFFFF#32 then
    [(0xF0#32 ||| codePoint >>> 18).setWidth 8,
      (0x80#32 ||| codePoint >>> 12 &&& 0x3F#32).setWidth 8,
      (0x80#32 ||| codePoint >>> 6 &&& 0x3F#32).setWidth 8,
      (0x80#32 ||| codePoint &&& 0x3F#32).setWidth 8]
  else if codePoint ≤ 0x3FFFFFF#32 then
    [(0xF8#32 ||| codePoint >>> 24).setWidth 8,
      (0x80#32 ||| codePoint >>> 18 &&& 0x3F#32).setWidth 8,
      (0x80#32 ||| codePoint >>> 12 &&& 0x3F#32).setWidth 8,
      (0x80#32 ||| codePoint >>> 6 &&& 0x3F#32).setWidth 8,
      (0x80#32 ||| codePoint &&& 0x3F#32).setWidth 8]
  else if codePoint ≤ 0x7FFFFFFF#32 then
    [(0xFC#32 ||| codePoint >>> 30).setWidth 8,
      (0x80#32 ||| codePoint >>> 24 &&& 0x3F#32).setWidth 8,
      (0x80#32 ||| codePoint >>> 18 &&& 0x3F#32).setWidth 8,
      (0x80#32 ||| codePoint >>> 12 &&& 0x3F#32).setWidth 8,
      (0x80#32 ||| codePoint >>> 6 &&& 0x3F#32).setWidth 8,
      (0x80#32 ||| codePoint &&& 0x3F#32).setWidth 8]
  else []

/-- `utf16_convert_to_utf8_cstr`. After a high surrogate the next unit is looked at, and
left for the next turn (`i--`) unless it is a low one. -/
def utf16ConvertToUtf8Cstr : Utf16 → Bytes
  | [] => []
  | [c₁] => utf16CharConvertToUtf8Cstr (c₁.setWidth 32)
  | c₁ :: c₂ :: utf16 =>
    if IsHigh c₁ ∧ IsLow c₂ then
      utf16CharConvertToUtf8Cstr (toCodePoint c₁ c₂) ++ utf16ConvertToUtf8Cstr utf16
    else utf16CharConvertToUtf8Cstr (c₁.setWidth 32) ++ utf16ConvertToUtf8Cstr (c₂ :: utf16)

/-- What `utf16_convert_to_utf8_quote_cstr` stores for a unit that is no part of a pair. -/
def quoteUnit (c₁ : Char16) : Bytes :=
  if c₁ = 0x22 ∨ c₁ = 0x5C then 0x5C :: utf16CharConvertToUtf8Cstr (c₁.setWidth 32)
  else if c₁ = 0x09 then [0x5C, 0x74]
  else if c₁ = 0x0D then [0x5C, 0x72]
  else if c₁ = 0x0A then [0x5C, 0x6E]
  else if c₁ = 0x0C then [0x5C, 0x66]
  else if c₁ = 0x08 then [0x5C, 0x62]
  else utf16CharConvertToUtf8Cstr (c₁.setWidth 32)

/-- The loop of `utf16_convert_to_utf8_quote_cstr`. -/
def quoteUnits : Utf16 → Bytes
  | [] => []
  | [c₁] => quoteUnit c₁
  | c₁ :: c₂ :: utf16 =>
    if IsHigh c₁ ∧ IsLow c₂ then
      utf16CharConvertToUtf8Cstr (toCodePoint c₁ c₂) ++ quoteUnits utf16
    else quoteUnit c₁ ++ quoteUnits (c₂ :: utf16)

/-- `utf16_convert_to_utf8_quote_cstr`. -/
def utf16ConvertToUtf8QuoteCstr (utf16 : Utf16) : Bytes :=
  0x22 :: (quoteUnits utf16 ++ [0x22])

/-! ## The bytes are UTF-8 -/

theorem toNat_toCodePoint {high low : Char16} (hhigh : IsHigh high) (hlow : IsLow low) :
    (toCodePoint high low).toNat = pair high low := by
  obtain ⟨h₁, h₂⟩ := hhigh
  obtain ⟨h₃, h₄⟩ := hlow
  unfold toCodePoint pair
  generalize hk : 0x010000#32 - 0xD800#32 <<< 10 - 0xDC00#32 = k
  have hconst : k.toNat = 0xFCA02400 := by
    rw [← hk]
    simp
  rw [BitVec.toNat_add, hconst, BitVec.toNat_add, BitVec.toNat_shiftLeft,
    BitVec.toNat_setWidth, BitVec.toNat_setWidth, Nat.shiftLeft_eq]
  omega

/-- A mark above the bits of a word. -/
theorem setWidth_or_mark {k a : Nat} {x : BitVec 32} (hx : x.toNat < 2 ^ k)
    (ha : 2 ^ k * a < 2 ^ 32) :
    (BitVec.ofNat 32 (2 ^ k * a) ||| x).setWidth 8 = BitVec.ofNat 8 (2 ^ k * a + x.toNat) := by
  apply BitVec.eq_of_toNat_eq
  rw [BitVec.toNat_setWidth, BitVec.toNat_or, BitVec.toNat_ofNat, Nat.mod_eq_of_lt ha,
    ← Nat.two_pow_add_eq_or_of_lt hx, BitVec.toNat_ofNat]

theorem toNat_shift (x : BitVec 32) (k : Nat) : (x >>> k).toNat = x.toNat / 2 ^ k := by
  rw [BitVec.toNat_ushiftRight, Nat.shiftRight_eq_div_pow]

/-- A continuation byte. -/
theorem setWidth_or_tail (x : BitVec 32) :
    (0x80#32 ||| x &&& 0x3F#32).setWidth 8 = BitVec.ofNat 8 (0x80 + x.toNat % 64) := by
  have hmask : (x &&& 0x3F#32).toNat = x.toNat % 64 := by
    rw [BitVec.toNat_and]
    exact Nat.and_two_pow_sub_one_eq_mod x.toNat 6
  rw [← hmask]
  exact setWidth_or_mark (k := 7) (a := 1) (by rw [hmask]; omega) (by decide)

theorem utf16CharConvertToUtf8Cstr_eq {codePoint : BitVec 32} (h : codePoint.toNat < 0x200000) :
    utf16CharConvertToUtf8Cstr codePoint = utf8Char codePoint.toNat := by
  have hle (n : Nat) (hn : n < 2 ^ 32) :
      codePoint ≤ BitVec.ofNat 32 n ↔ codePoint.toNat < n + 1 := by
    rw [BitVec.le_def, BitVec.toNat_ofNat, Nat.mod_eq_of_lt hn, Nat.lt_succ_iff]
  have h₁ := hle 0x7F (by decide)
  have h₂ := hle 0x7FF (by decide)
  have h₃ := hle 0xFFFF (by decide)
  have h₄ : codePoint ≤ 0x1FFFFF#32 ↔ codePoint.toNat < 0x200000 := hle 0x1FFFFF (by decide)
  simp only [utf16CharConvertToUtf8Cstr, utf8Char, h₁, h₂, h₃, h₄, setWidth_or_tail, toNat_shift]
  rw [if_pos h]
  split
  · congr 1
  split
  · next hlt =>
    congr 1
    refine (setWidth_or_mark (k := 6) (a := 3) ?_ (by decide)).trans (by rw [toNat_shift]; rfl)
    rw [toNat_shift]
    omega
  split
  · next hlt =>
    congr 1
    refine (setWidth_or_mark (k := 5) (a := 7) ?_ (by decide)).trans (by rw [toNat_shift]; rfl)
    rw [toNat_shift]
    omega
  · congr 1
    refine (setWidth_or_mark (k := 4) (a := 15) ?_ (by decide)).trans (by rw [toNat_shift]; rfl)
    rw [toNat_shift]
    omega

theorem utf16CharConvertToUtf8Cstr_unit (c : Char16) :
    utf16CharConvertToUtf8Cstr (c.setWidth 32) = utf8Char c.toNat := by
  have hc := c.isLt
  have hwide : (c.setWidth 32).toNat = c.toNat := by
    rw [BitVec.toNat_setWidth, Nat.mod_eq_of_lt (by omega)]
  rw [utf16CharConvertToUtf8Cstr_eq (by omega), hwide]

/-- **The conversion stores UTF-8.** -/
theorem utf16ConvertToUtf8Cstr_eq : ∀ utf16 : Utf16, utf16ConvertToUtf8Cstr utf16 = utf8 utf16
  | [] => rfl
  | [c₁] => by
    rw [utf16ConvertToUtf8Cstr, utf16CharConvertToUtf8Cstr_unit]
    exact (List.append_nil _).symm
  | c₁ :: c₂ :: utf16 => by
    rw [utf16ConvertToUtf8Cstr, utf8, codePoints]
    split
    · next h =>
      have hpair := toNat_toCodePoint h.1 h.2
      have hlt := pair_lt h.1 h.2
      rw [utf16CharConvertToUtf8Cstr_eq (by omega), hpair, utf16ConvertToUtf8Cstr_eq utf16]
      rfl
    · rw [utf16CharConvertToUtf8Cstr_unit, utf16ConvertToUtf8Cstr_eq (c₂ :: utf16)]
      rfl

end Wson.Native
