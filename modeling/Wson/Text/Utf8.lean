import Wson.Wire.Word

/-!
# Code points and UTF-8

- `codePoints`: the code points of 16-bit text. A high surrogate and the low
  surrogate right behind it are one code point; every other unit, an unpaired
  surrogate included, is its own.
- `utf8`: the UTF-8 encoding of these code points, with the pattern of three bytes
  for unpaired surrogates as well.
- `decodeUtf8`, `textOf`: the way back. The decoder is strict, it takes the shortest
  pattern of a code point only and no surrogate; so it takes the encoding of text in
  which every surrogate is paired (`WellFormed`), and gives the text back
  (`decodeText_utf8`).
-/

namespace Text

open Wire

def IsHigh (c : Char16) : Prop :=
  0xD800 ≤ c.toNat ∧ c.toNat ≤ 0xDBFF

def IsLow (c : Char16) : Prop :=
  0xDC00 ≤ c.toNat ∧ c.toNat ≤ 0xDFFF

instance (c : Char16) : Decidable (IsHigh c) :=
  inferInstanceAs (Decidable (_ ∧ _))

instance (c : Char16) : Decidable (IsLow c) :=
  inferInstanceAs (Decidable (_ ∧ _))

/-- The code point of a pair of surrogates. -/
def pair (high low : Char16) : Nat :=
  0x10000 + (high.toNat - 0xD800) * 0x400 + (low.toNat - 0xDC00)

def codePoints : Utf16 → List Nat
  | [] => []
  | [c] => [c.toNat]
  | c :: c' :: s =>
    if IsHigh c ∧ IsLow c' then pair c c' :: codePoints s else c.toNat :: codePoints (c' :: s)

/-- The pattern of one to four bytes for a code point. -/
def utf8Char (n : Nat) : Bytes :=
  if n < 0x80 then [BitVec.ofNat 8 n]
  else if n < 0x800 then [BitVec.ofNat 8 (0xC0 + n / 64), BitVec.ofNat 8 (0x80 + n % 64)]
  else if n < 0x10000 then
    [BitVec.ofNat 8 (0xE0 + n / 4096), BitVec.ofNat 8 (0x80 + n / 64 % 64),
      BitVec.ofNat 8 (0x80 + n % 64)]
  else
    [BitVec.ofNat 8 (0xF0 + n / 262144), BitVec.ofNat 8 (0x80 + n / 4096 % 64),
      BitVec.ofNat 8 (0x80 + n / 64 % 64), BitVec.ofNat 8 (0x80 + n % 64)]

def utf8 (s : Utf16) : Bytes :=
  (codePoints s).flatMap utf8Char

theorem pair_lt {high low : Char16} (hhigh : IsHigh high) (hlow : IsLow low) :
    pair high low < 0x110000 := by
  have h₁ := hhigh.2
  have h₂ := hlow.2
  unfold pair
  omega

/-! ## Lengths -/

theorem length_utf8Char_unit (c : Char16) :
    1 ≤ (utf8Char c.toNat).length ∧ (utf8Char c.toNat).length ≤ 3 := by
  have hc := c.isLt
  unfold utf8Char
  split
  · exact ⟨Nat.le_refl 1, Nat.le_add_left 1 2⟩
  split
  · exact ⟨Nat.le_add_left 1 1, Nat.le_add_left 2 1⟩
  · exact ⟨Nat.le_add_left 1 2, Nat.le_refl 3⟩

theorem length_utf8Char_pair (high low : Char16) : (utf8Char (pair high low)).length = 4 := by
  have hpair : 0x10000 ≤ pair high low := by
    unfold pair
    omega
  rw [utf8Char, if_neg (by omega), if_neg (by omega), if_neg (by omega)]
  rfl

/-- Every unit has one to three bytes; the four bytes of a pair are two for each. -/
theorem length_utf8 : ∀ s : Utf16, s.length ≤ (utf8 s).length ∧ (utf8 s).length ≤ 3 * s.length
  | [] => ⟨Nat.le_refl 0, Nat.le_refl 0⟩
  | [c] => by
    have hc := length_utf8Char_unit c
    simp only [utf8, codePoints, List.flatMap_cons, List.flatMap_nil, List.append_nil,
      List.length_singleton]
    omega
  | c :: c' :: s => by
    rw [utf8, codePoints]
    split
    · have ih := length_utf8 s
      rw [List.flatMap_cons, List.length_append, length_utf8Char_pair]
      simp only [utf8, List.length_cons] at ih ⊢
      omega
    · have ih := length_utf8 (c' :: s)
      have hc := length_utf8Char_unit c
      rw [List.flatMap_cons, List.length_append]
      simp only [utf8, List.length_cons] at ih ⊢
      omega

/-! ## The way back -/

/-- A code point that is no surrogate. -/
def IsScalar (n : Nat) : Prop :=
  n < 0xD800 ∨ 0xE000 ≤ n ∧ n < 0x110000

instance (n : Nat) : Decidable (IsScalar n) :=
  inferInstanceAs (Decidable (_ ∨ _))

/-- The six bits of a byte behind the first one. -/
def continuation (b : Byte) : Option Nat :=
  if 0x80 ≤ b.toNat ∧ b.toNat < 0xC0 then some (b.toNat - 0x80) else none

/-- `n` with the bits of `k` more bytes, and the bytes behind them. -/
def continued : Nat → Nat → Bytes → Option (Nat × Bytes)
  | 0, n, bs => some (n, bs)
  | _ + 1, _, [] => none
  | k + 1, n, b :: bs => do
    let low ← continuation b
    continued k (n * 64 + low) bs

/-- A character whose pattern starts with the bits `n` and `k` more bytes; `least` is the
smallest code point that needs them. -/
def decodePattern (least k n : Nat) (bs : Bytes) : Option (Nat × Bytes) :=
  (continued k n bs).filter fun r => decide (least ≤ r.1 ∧ IsScalar r.1)

/-- The first character and the bytes behind it. -/
def decodeChar : Bytes → Option (Nat × Bytes)
  | [] => none
  | b :: bs =>
    if b.toNat < 0x80 then some (b.toNat, bs)
    else if b.toNat < 0xC0 then none
    else if b.toNat < 0xE0 then decodePattern 0x80 1 (b.toNat - 0xC0) bs
    else if b.toNat < 0xF0 then decodePattern 0x800 2 (b.toNat - 0xE0) bs
    else decodePattern 0x10000 3 (b.toNat - 0xF0) bs

/-- At most `k` characters. -/
def decodeChars : Nat → Bytes → Option (List Nat)
  | _, [] => some []
  | 0, _ :: _ => none
  | k + 1, b :: bs => do
    let (n, rest) ← decodeChar (b :: bs)
    let ns ← decodeChars k rest
    some (n :: ns)

/-- Strict UTF-8: the code points of the bytes. -/
def decodeUtf8 (bs : Bytes) : Option (List Nat) :=
  decodeChars bs.length bs

/-- The units of a code point. -/
def unitsOf (n : Nat) : Utf16 :=
  if n < 0x10000 then [BitVec.ofNat 16 n]
  else [BitVec.ofNat 16 (0xD800 + (n - 0x10000) / 0x400), BitVec.ofNat 16 (0xDC00 + (n - 0x10000) % 0x400)]

def textOf (ns : List Nat) : Utf16 :=
  ns.flatMap unitsOf

/-- The 16-bit text of strict UTF-8. -/
def decodeText (bs : Bytes) : Option Utf16 :=
  (decodeUtf8 bs).map textOf

/-- Every surrogate is one of a pair. -/
def WellFormed : Utf16 → Prop
  | [] => True
  | [c] => ¬ IsHigh c ∧ ¬ IsLow c
  | c :: c' :: s =>
    if IsHigh c then IsLow c' ∧ WellFormed s else ¬ IsLow c ∧ WellFormed (c' :: s)

instance instDecidableWellFormed : ∀ s : Utf16, Decidable (WellFormed s)
  | [] => inferInstanceAs (Decidable True)
  | [_] => inferInstanceAs (Decidable (_ ∧ _))
  | c :: c' :: s =>
    let _ := instDecidableWellFormed s
    let _ := instDecidableWellFormed (c' :: s)
    inferInstanceAs (Decidable (if IsHigh c then IsLow c' ∧ WellFormed s
      else ¬ IsLow c ∧ WellFormed (c' :: s)))

theorem continuation_ofNat (n : Nat) : continuation (BitVec.ofNat 8 (0x80 + n % 64)) = some (n % 64) := by
  have hb : (BitVec.ofNat 8 (0x80 + n % 64)).toNat = 0x80 + n % 64 := by
    rw [BitVec.toNat_ofNat]
    omega
  rw [continuation, hb, if_pos (by omega), Nat.add_sub_cancel_left]

theorem continued_cons (k m n : Nat) (bs : Bytes) :
    continued (k + 1) m (BitVec.ofNat 8 (0x80 + n % 64) :: bs) = continued k (m * 64 + n % 64) bs := by
  rw [continued, continuation_ofNat]
  rfl

theorem decodePattern_eq {least k m n : Nat} {bs rest : Bytes} (h : IsScalar n) (hleast : least ≤ n)
    (hbs : continued k m bs = some (n, rest)) : decodePattern least k m bs = some (n, rest) := by
  rw [decodePattern, hbs]
  exact Option.filter_some_pos (decide_eq_true ⟨hleast, h⟩)

/-- **One character**: its pattern is decoded, whatever follows. -/
theorem decodeChar_utf8Char {n : Nat} (h : IsScalar n) (rest : Bytes) :
    decodeChar (utf8Char n ++ rest) = some (n, rest) := by
  have hlead {m : Nat} (hm : m < 256) : (BitVec.ofNat 8 m).toNat = m := by
    rw [BitVec.toNat_ofNat, Nat.mod_eq_of_lt hm]
  have hmax : n < 0x110000 := by
    obtain h | h := h
    · omega
    · exact h.2
  unfold utf8Char
  by_cases h₁ : n < 0x80
  · rw [if_pos h₁, List.singleton_append, decodeChar, hlead (by omega), if_pos h₁]
  rw [if_neg h₁]
  by_cases h₂ : n < 0x800
  · rw [if_pos h₂]
    simp only [List.cons_append, List.nil_append]
    rw [decodeChar, hlead (by omega), if_neg (by omega), if_neg (by omega), if_pos (by omega)]
    refine decodePattern_eq h (by omega) ?_
    rw [continued_cons, continued]
    congr 2
    omega
  rw [if_neg h₂]
  by_cases h₃ : n < 0x10000
  · rw [if_pos h₃]
    simp only [List.cons_append, List.nil_append]
    rw [decodeChar, hlead (by omega), if_neg (by omega), if_neg (by omega), if_neg (by omega),
      if_pos (by omega)]
    refine decodePattern_eq h (by omega) ?_
    rw [continued_cons, continued_cons, continued]
    congr 2
    omega
  · rw [if_neg h₃]
    simp only [List.cons_append, List.nil_append]
    rw [decodeChar, hlead (by omega), if_neg (by omega), if_neg (by omega), if_neg (by omega),
      if_neg (by omega)]
    refine decodePattern_eq h (by omega) ?_
    rw [continued_cons, continued_cons, continued_cons, continued]
    congr 2
    omega

theorem utf8Char_ne_nil (n : Nat) : utf8Char n ≠ [] := by
  unfold utf8Char
  split
  · exact List.cons_ne_nil _ _
  split
  · exact List.cons_ne_nil _ _
  split <;> exact List.cons_ne_nil _ _

theorem decodeChars_flatMap {ns : List Nat} (h : ∀ n ∈ ns, IsScalar n) {k : Nat}
    (hk : ns.length ≤ k) : decodeChars k (ns.flatMap utf8Char) = some ns := by
  induction ns generalizing k with
  | nil => cases k <;> rfl
  | cons n ns ih =>
    cases k with
    | zero => exact absurd hk (by simp)
    | succ k =>
      have hchar := decodeChar_utf8Char (h n List.mem_cons_self) (ns.flatMap utf8Char)
      have hrest := ih (fun m hm => h m (List.mem_cons_of_mem n hm)) (Nat.le_of_succ_le_succ hk)
      obtain ⟨b, bs, hb⟩ := List.exists_cons_of_ne_nil (utf8Char_ne_nil n)
      rw [hb, List.cons_append] at hchar
      rw [List.flatMap_cons, hb, List.cons_append, decodeChars, hchar]
      simp only [Option.bind_eq_bind, Option.bind_some, hrest]

/-- **Strict UTF-8** decodes what it encodes. -/
theorem decodeUtf8_flatMap {ns : List Nat} (h : ∀ n ∈ ns, IsScalar n) :
    decodeUtf8 (ns.flatMap utf8Char) = some ns := by
  refine decodeChars_flatMap h ?_
  induction ns with
  | nil => exact Nat.le_refl 0
  | cons n ns ih =>
    have hpos := List.length_pos_of_ne_nil (utf8Char_ne_nil n)
    have ih := ih fun m hm => h m (List.mem_cons_of_mem n hm)
    rw [List.flatMap_cons, List.length_append, List.length_cons]
    omega

theorem not_surrogate_iff {c : Char16} : (¬ IsHigh c ∧ ¬ IsLow c) ↔ IsScalar c.toNat := by
  have hc := c.isLt
  unfold IsHigh IsLow IsScalar
  omega

theorem isScalar_pair {high low : Char16} (hhigh : IsHigh high) (hlow : IsLow low) :
    IsScalar (pair high low) := by
  have hlt := pair_lt hhigh hlow
  refine .inr ⟨?_, hlt⟩
  unfold pair
  omega

/-- Text without unpaired surrogates has scalar code points only. -/
theorem WellFormed.isScalar : ∀ {s : Utf16}, WellFormed s → ∀ n ∈ codePoints s, IsScalar n
  | [], _, n, hn => nomatch hn
  | [c], h, n, hn => by
    rw [codePoints, List.mem_singleton] at hn
    rw [hn]
    exact not_surrogate_iff.mp h
  | c :: c' :: s, h, n, hn => by
    rw [WellFormed] at h
    rw [codePoints] at hn
    by_cases hhigh : IsHigh c
    · rw [if_pos hhigh] at h
      have hpair : IsHigh c ∧ IsLow c' := ⟨hhigh, h.1⟩
      rw [if_pos hpair, List.mem_cons] at hn
      obtain heq | hn := hn
      · rw [heq]
        exact isScalar_pair hhigh h.1
      · exact h.2.isScalar n hn
    · rw [if_neg hhigh] at h
      rw [if_neg fun hpair => hhigh hpair.1, List.mem_cons] at hn
      obtain heq | hn := hn
      · rw [heq]
        exact not_surrogate_iff.mp ⟨hhigh, h.1⟩
      · exact h.2.isScalar n hn

theorem unitsOf_unit (c : Char16) : unitsOf c.toNat = [c] := by
  rw [unitsOf, if_pos c.isLt, BitVec.ofNat_toNat, BitVec.setWidth_eq]

theorem unitsOf_pair {high low : Char16} (hhigh : IsHigh high) (hlow : IsLow low) :
    unitsOf (pair high low) = [high, low] := by
  obtain ⟨h₁, h₂⟩ := hhigh
  obtain ⟨h₃, h₄⟩ := hlow
  have hhigh : 0xD800 + (pair high low - 0x10000) / 0x400 = high.toNat := by
    unfold pair
    omega
  have hlow : 0xDC00 + (pair high low - 0x10000) % 0x400 = low.toNat := by
    unfold pair
    omega
  have hlarge : ¬ pair high low < 0x10000 := by
    unfold pair
    omega
  rw [unitsOf, if_neg hlarge, hhigh, hlow]
  simp only [BitVec.ofNat_toNat, BitVec.setWidth_eq]

/-- The units of the code points are the text, unpaired surrogates included. -/
theorem textOf_codePoints : ∀ s : Utf16, textOf (codePoints s) = s
  | [] => rfl
  | [c] => by
    rw [codePoints, textOf, List.flatMap_cons, unitsOf_unit]
    rfl
  | c :: c' :: s => by
    rw [codePoints]
    split
    · next hpair =>
      rw [textOf, List.flatMap_cons, unitsOf_pair hpair.1 hpair.2]
      exact congrArg (c :: c' :: ·) (textOf_codePoints s)
    · rw [textOf, List.flatMap_cons, unitsOf_unit]
      exact congrArg (c :: ·) (textOf_codePoints (c' :: s))

theorem decodeUtf8_utf8 {s : Utf16} (h : WellFormed s) : decodeUtf8 (utf8 s) = some (codePoints s) :=
  decodeUtf8_flatMap h.isScalar

/-- **UTF-8 of well-formed text is strict and gives the text back.** -/
theorem decodeText_utf8 {s : Utf16} (h : WellFormed s) : decodeText (utf8 s) = some s := by
  rw [decodeText, decodeUtf8_utf8 h, Option.map_some, textOf_codePoints]

/-! ## Different texts -/

/-- No pattern is the beginning of another one. -/
theorem utf8Char_append_inj {n m : Nat} (hn : n < 0x110000) (hm : m < 0x110000) {r r' : Bytes}
    (h : utf8Char n ++ r = utf8Char m ++ r') : n = m ∧ r = r' := by
  unfold utf8Char at h
  split_ifs at h <;>
    simp only [List.cons_append, List.nil_append, List.cons.injEq, BitVec.toNat_eq, BitVec.toNat_ofNat] at h
  all_goals
    -- by the number of the bytes; patterns of different lengths have different first bytes
    first
    | exact ⟨by omega, h.2⟩
    | exact ⟨by omega, h.2.2⟩
    | exact ⟨by omega, h.2.2.2⟩
    | exact ⟨by omega, h.2.2.2.2⟩
    | omega

theorem flatMap_utf8Char_inj {ns ms : List Nat} (hns : ∀ n ∈ ns, n < 0x110000)
    (hms : ∀ m ∈ ms, m < 0x110000) (h : ns.flatMap utf8Char = ms.flatMap utf8Char) : ns = ms := by
  induction ns generalizing ms with
  | nil =>
    cases ms with
    | nil => rfl
    | cons m ms => exact absurd (List.append_eq_nil_iff.mp h.symm).1 (utf8Char_ne_nil m)
  | cons n ns ih =>
    cases ms with
    | nil => exact absurd (List.append_eq_nil_iff.mp h).1 (utf8Char_ne_nil n)
    | cons m ms =>
      rw [List.forall_mem_cons] at hns hms
      obtain ⟨rfl, hrest⟩ := utf8Char_append_inj hns.1 hms.1 h
      rw [ih hns.2 hms.2 hrest]

theorem codePoints_lt : ∀ s : Utf16, ∀ n ∈ codePoints s, n < 0x110000
  | [], n, hn => nomatch hn
  | [c], n, hn => by
    have hc := c.isLt
    rw [codePoints, List.mem_singleton] at hn
    omega
  | c :: c' :: s, n, hn => by
    have hc := c.isLt
    rw [codePoints] at hn
    split at hn
    · next hpair =>
      rcases List.mem_cons.mp hn with heq | hn
      · rw [heq]
        exact pair_lt hpair.1 hpair.2
      · exact codePoints_lt s n hn
    · rcases List.mem_cons.mp hn with heq | hn
      · omega
      · exact codePoints_lt (c' :: s) n hn

/-- **Different texts** have different bytes, unpaired surrogates or not. -/
theorem utf8_injective : Function.Injective utf8 := by
  intro s s' h
  rw [← textOf_codePoints s, ← textOf_codePoints s',
    flatMap_utf8Char_inj (codePoints_lt s) (codePoints_lt s') h]

end Text
