import Wson.Native.Convert
import Wson.Text.Json

/-!
# Quoting as JSON

`utf16_convert_to_utf8_quote_cstr` treats code points one by one: what it stores is the
UTF-8 of the code points with a backslash in front of some (`quoteUnits_eq`). The result
is a string literal iff no control character is left as it is (`quotesJson_iff`): the
switch names five of them, and the others fall through to the plain conversion.
-/

namespace Wson.Native

open Effect Text Wire

/-- The code points stored for one that is no part of the quotes. -/
def quotePoint (n : Nat) : List Nat :=
  if n = 0x22 ∨ n = 0x5C then [0x5C, n]
  else if n = 0x09 then [0x5C, 0x74]
  else if n = 0x0D then [0x5C, 0x72]
  else if n = 0x0A then [0x5C, 0x6E]
  else if n = 0x0C then [0x5C, 0x66]
  else if n = 0x08 then [0x5C, 0x62]
  else [n]

/-- The characters that are stored with a backslash. -/
def IsEscaped (n : Nat) : Prop :=
  n = 0x22 ∨ n = 0x5C ∨ n = 0x09 ∨ n = 0x0D ∨ n = 0x0A ∨ n = 0x0C ∨ n = 0x08

instance : DecidablePred IsEscaped := fun n => inferInstanceAs (Decidable (n = 0x22 ∨ _ ∨ _))

/-- No control character, or one of those the switch names. -/
def IsQuotable (n : Nat) : Prop :=
  0x20 ≤ n ∨ IsEscaped n

instance : DecidablePred IsQuotable := fun _ => inferInstanceAs (Decidable (_ ∨ _))

/-- The number of bytes of the text between quotes. -/
def quotedLength (utf16 : Utf16) : Nat :=
  (utf8 utf16).length + utf16.countP (fun c => decide (IsEscaped c.toNat)) + 2

/-! ## Code points -/

theorem quotePoint_of_not_escaped {n : Nat} (h : ¬ IsEscaped n) : quotePoint n = [n] := by
  unfold IsEscaped at h
  unfold quotePoint
  rw [if_neg (by omega), if_neg (by omega), if_neg (by omega), if_neg (by omega), if_neg (by omega),
    if_neg (by omega)]

/-- A backslash and a byte that stands for the character. -/
theorem exists_quotePoint {n : Nat} (h : IsEscaped n) :
    ∃ x b : Byte, escaped x = some b ∧ b.toNat = n ∧ x.toNat < 0x80 ∧ quotePoint n = [0x5C, x.toNat] := by
  obtain rfl | rfl | rfl | rfl | rfl | rfl | rfl := h
  · exact ⟨0x22, 0x22, rfl, rfl, by decide, rfl⟩
  · exact ⟨0x5C, 0x5C, rfl, rfl, by decide, rfl⟩
  · exact ⟨0x74, 0x09, rfl, rfl, by decide, rfl⟩
  · exact ⟨0x72, 0x0D, rfl, rfl, by decide, rfl⟩
  · exact ⟨0x6E, 0x0A, rfl, rfl, by decide, rfl⟩
  · exact ⟨0x66, 0x0C, rfl, rfl, by decide, rfl⟩
  · exact ⟨0x62, 0x08, rfl, rfl, by decide, rfl⟩

theorem not_isEscaped_of_lt {n : Nat} (h : 0x5C < n) : ¬ IsEscaped n := by
  unfold IsEscaped
  omega

theorem quoteUnit_eq (c : Char16) : quoteUnit c = (quotePoint c.toNat).flatMap utf8Char := by
  have hnat (k : Nat) (hk : k < 2 ^ 16) : c = BitVec.ofNat 16 k ↔ c.toNat = k := by
    rw [← BitVec.toNat_inj, BitVec.toNat_ofNat, Nat.mod_eq_of_lt hk]
  have h₁ : c = 0x22 ↔ c.toNat = 0x22 := hnat 0x22 (by decide)
  have h₂ : c = 0x5C ↔ c.toNat = 0x5C := hnat 0x5C (by decide)
  have h₃ : c = 0x09 ↔ c.toNat = 0x09 := hnat 0x09 (by decide)
  have h₄ : c = 0x0D ↔ c.toNat = 0x0D := hnat 0x0D (by decide)
  have h₅ : c = 0x0A ↔ c.toNat = 0x0A := hnat 0x0A (by decide)
  have h₆ : c = 0x0C ↔ c.toNat = 0x0C := hnat 0x0C (by decide)
  have h₇ : c = 0x08 ↔ c.toNat = 0x08 := hnat 0x08 (by decide)
  simp only [quoteUnit, quotePoint, h₁, h₂, h₃, h₄, h₅, h₆, h₇, utf16CharConvertToUtf8Cstr_unit]
  split
  · simp only [List.flatMap_cons, List.flatMap_nil, List.append_nil]
    rfl
  split
  · rfl
  split
  · rfl
  split
  · rfl
  split
  · rfl
  split
  · rfl
  · exact (List.append_nil _).symm

/-- **Quoting goes code point by code point.** -/
theorem quoteUnits_eq : ∀ utf16 : Utf16,
    quoteUnits utf16 = ((codePoints utf16).flatMap quotePoint).flatMap utf8Char
  | [] => rfl
  | [c₁] => by
    rw [quoteUnits, quoteUnit_eq]
    exact (congrArg (List.flatMap utf8Char) (List.append_nil _)).symm
  | c₁ :: c₂ :: utf16 => by
    rw [quoteUnits, codePoints]
    split
    · next hpair =>
      have hcode := toNat_toCodePoint hpair.1 hpair.2
      have hlt := pair_lt hpair.1 hpair.2
      have hlarge : 0x5C < pair c₁ c₂ := by
        unfold pair
        omega
      rw [utf16CharConvertToUtf8Cstr_eq (by omega), hcode, quoteUnits_eq utf16, List.flatMap_cons,
        quotePoint_of_not_escaped (not_isEscaped_of_lt hlarge), List.singleton_append, List.flatMap_cons]
    · rw [quoteUnit_eq, quoteUnits_eq (c₂ :: utf16), List.flatMap_cons, List.flatMap_append]

/-- The text with its quotes is UTF-8 of code points again. -/
theorem utf16ConvertToUtf8QuoteCstr_eq (utf16 : Utf16) : utf16ConvertToUtf8QuoteCstr utf16
    = (0x22 :: ((codePoints utf16).flatMap quotePoint ++ [0x22])).flatMap utf8Char := by
  rw [utf16ConvertToUtf8QuoteCstr, quoteUnits_eq, List.flatMap_cons, List.flatMap_append]
  rfl

theorem utf8Char_ascii (b : Byte) (h : b.toNat < 0x80) : utf8Char b.toNat = [b] := by
  rw [utf8Char, if_pos h, BitVec.ofNat_toNat, BitVec.setWidth_eq]

/-- Quoting adds no surrogate. -/
theorem isScalar_quotePoint {n m : Nat} (h : IsScalar n) (hm : m ∈ quotePoint n) : IsScalar m := by
  by_cases hescaped : IsEscaped n
  · obtain ⟨x, b, -, -, hx, heq⟩ := exists_quotePoint hescaped
    rw [heq] at hm
    simp only [List.mem_cons, List.not_mem_nil, or_false] at hm
    obtain rfl | rfl := hm
    · exact .inl (by decide)
    · exact .inl (by omega)
  · rw [quotePoint_of_not_escaped hescaped, List.mem_singleton] at hm
    rwa [hm]

theorem length_quotePoint (n : Nat) : ((quotePoint n).flatMap utf8Char).length
    = (utf8Char n).length + if IsEscaped n then 1 else 0 := by
  by_cases hescaped : IsEscaped n
  · obtain ⟨x, b, hxb, rfl, hx, heq⟩ := exists_quotePoint hescaped
    have hsmall : b.toNat < 0x80 := by
      unfold IsEscaped at hescaped
      omega
    rw [heq, if_pos hescaped, List.flatMap_cons, List.flatMap_singleton, utf8Char_ascii x hx,
      utf8Char_ascii b hsmall]
    rfl
  · rw [quotePoint_of_not_escaped hescaped, if_neg hescaped, List.flatMap_singleton, Nat.add_zero]

/-! ## Literals -/

/-- The bytes of a code point beyond ASCII stand for themselves. -/
theorem isPlain_utf8Char {n : Nat} (h : 0x20 ≤ n) (hescaped : ¬ IsEscaped n) (hmax : n < 0x110000) :
    ∀ b ∈ utf8Char n, IsPlain b := by
  have hbyte {k : Nat} (hk : 0x80 ≤ k) (hk' : k < 0x100) : IsPlain (BitVec.ofNat 8 k) := by
    have hnat : (BitVec.ofNat 8 k).toNat = k := by
      rw [BitVec.toNat_ofNat, Nat.mod_eq_of_lt hk']
    refine ⟨by omega, fun heq => ?_, fun heq => ?_⟩
    · have := hnat.symm.trans (congrArg BitVec.toNat heq)
      exact absurd (show k = 0x22 from this) (by omega)
    · have := hnat.symm.trans (congrArg BitVec.toNat heq)
      exact absurd (show k = 0x5C from this) (by omega)
  intro b hb
  unfold utf8Char at hb
  unfold IsEscaped at hescaped
  split at hb
  · rw [List.mem_singleton] at hb
    have hnat : b.toNat = n := by
      rw [hb, BitVec.toNat_ofNat]
      omega
    refine ⟨by omega, ?_, ?_⟩
    · rintro rfl
      exact absurd (show 0x22 = n from hnat) (by omega)
    · rintro rfl
      exact absurd (show 0x5C = n from hnat) (by omega)
  split at hb
  · simp only [List.mem_cons, List.not_mem_nil, or_false] at hb
    obtain rfl | rfl := hb
    · exact hbyte (by omega) (by omega)
    · exact hbyte (by omega) (by omega)
  split at hb
  · simp only [List.mem_cons, List.not_mem_nil, or_false] at hb
    obtain rfl | rfl | rfl := hb
    · exact hbyte (by omega) (by omega)
    · exact hbyte (by omega) (by omega)
    · exact hbyte (by omega) (by omega)
  · simp only [List.mem_cons, List.not_mem_nil, or_false] at hb
    obtain rfl | rfl | rfl | rfl := hb
    · exact hbyte (by omega) (by omega)
    · exact hbyte (by omega) (by omega)
    · exact hbyte (by omega) (by omega)
    · exact hbyte (by omega) (by omega)

/-- One character of a literal. -/
theorem chars_quotePoint {n : Nat} (h : IsQuotable n) (hmax : n < 0x110000) {c s : Bytes}
    (hc : Chars c s) : Chars ((quotePoint n).flatMap utf8Char ++ c) (utf8Char n ++ s) := by
  by_cases hescaped : IsEscaped n
  · obtain ⟨x, b, hxb, rfl, hx, heq⟩ := exists_quotePoint hescaped
    have hsmall : b.toNat < 0x80 := by
      unfold IsEscaped at hescaped
      omega
    rw [heq, List.flatMap_cons, List.flatMap_singleton, utf8Char_ascii x hx, utf8Char_ascii b hsmall]
    exact .escape hxb hc
  · rw [quotePoint_of_not_escaped hescaped, List.flatMap_singleton]
    exact Chars.plain_append (isPlain_utf8Char (h.resolve_right hescaped) hescaped hmax) hc

theorem chars_quotePoints {ns : List Nat} (h : ∀ n ∈ ns, IsQuotable n ∧ n < 0x110000) :
    Chars ((ns.flatMap quotePoint).flatMap utf8Char) (ns.flatMap utf8Char) := by
  induction ns with
  | nil => exact .nil
  | cons n ns ih =>
    obtain ⟨hn, hmax⟩ := h n List.mem_cons_self
    rw [List.flatMap_cons, List.flatMap_append, List.flatMap_cons]
    exact chars_quotePoint hn hmax (ih fun m hm => h m (List.mem_cons_of_mem n hm))

/-- A code point that is no unit of the text is that of a pair. -/
theorem mem_codePoints : ∀ {s : Utf16} {n : Nat}, n ∈ codePoints s →
    (∃ c ∈ s, c.toNat = n) ∨ 0x10000 ≤ n ∧ n < 0x110000
  | [], _, h => nomatch h
  | [c], n, h => .inl ⟨c, List.mem_singleton_self c, (List.mem_singleton.mp h).symm⟩
  | c :: c' :: s, n, h => by
    rw [codePoints] at h
    split at h
    · next hpair =>
      obtain h | h := List.mem_cons.mp h
      · rw [h]
        refine .inr ⟨?_, pair_lt hpair.1 hpair.2⟩
        unfold pair
        omega
      · obtain ⟨d, hd, hn⟩ | hn := mem_codePoints h
        · exact .inl ⟨d, List.mem_cons_of_mem _ (List.mem_cons_of_mem _ hd), hn⟩
        · exact .inr hn
    · obtain h | h := List.mem_cons.mp h
      · exact .inl ⟨c, List.mem_cons_self, h.symm⟩
      · obtain ⟨d, hd, hn⟩ | hn := mem_codePoints h
        · exact .inl ⟨d, List.mem_cons_of_mem _ hd, hn⟩
        · exact .inr hn

/-- Conversely a unit that is no surrogate is a code point. -/
theorem toNat_mem_codePoints : ∀ {s : Utf16} {c : Char16}, c ∈ s → c.toNat < 0xD800 →
    c.toNat ∈ codePoints s
  | [], _, h, _ => nomatch h
  | [d], c, h, _ => by
    rw [List.mem_singleton.mp h]
    exact List.mem_singleton_self _
  | d :: d' :: s, c, h, hc => by
    rw [codePoints]
    split
    · next hpair =>
      obtain ⟨⟨hhigh, -⟩, hlow, -⟩ := hpair
      simp only [List.mem_cons] at h
      obtain rfl | rfl | h := h
      · omega
      · omega
      · exact List.mem_cons_of_mem _ (toNat_mem_codePoints h hc)
    · obtain rfl | h := List.mem_cons.mp h
      · exact List.mem_cons_self
      · exact List.mem_cons_of_mem _ (toNat_mem_codePoints h hc)

theorem countP_codePoints : ∀ s : Utf16, (codePoints s).countP (fun n => decide (IsEscaped n))
    = s.countP (fun c => decide (IsEscaped c.toNat))
  | [] => rfl
  | [c] => rfl
  | c :: c' :: s => by
    rw [codePoints]
    split
    · next hpair =>
      have hlarge {n : Nat} (hn : 0x5C < n) : ¬ decide (IsEscaped n) = true := by
        rw [decide_eq_true_eq]
        exact not_isEscaped_of_lt hn
      have hp : 0x5C < pair c c' := by
        unfold pair
        omega
      have hc : 0x5C < c.toNat := Nat.lt_of_lt_of_le (by decide) hpair.1.1
      have hc' : 0x5C < c'.toNat := Nat.lt_of_lt_of_le (by decide) hpair.2.1
      rw [List.countP_cons, List.countP_cons, List.countP_cons, countP_codePoints s,
        if_neg (hlarge hp), if_neg (hlarge hc), if_neg (hlarge hc')]
    · rw [List.countP_cons, countP_codePoints (c' :: s)]
      exact List.countP_cons.symm

theorem length_quotePoints (ns : List Nat) : ((ns.flatMap quotePoint).flatMap utf8Char).length
    = (ns.flatMap utf8Char).length + ns.countP (fun n => decide (IsEscaped n)) := by
  induction ns with
  | nil => rfl
  | cons n ns ih =>
    rw [List.flatMap_cons, List.flatMap_append, List.length_append, length_quotePoint, ih,
      List.flatMap_cons, List.length_append, List.countP_cons]
    by_cases hescaped : IsEscaped n
    · rw [if_pos hescaped, if_pos (decide_eq_true hescaped)]
      omega
    · rw [if_neg hescaped, if_neg (by rwa [decide_eq_true_eq])]
      omega

theorem length_utf16ConvertToUtf8QuoteCstr (utf16 : Utf16) :
    (utf16ConvertToUtf8QuoteCstr utf16).length = quotedLength utf16 := by
  rw [utf16ConvertToUtf8QuoteCstr, quoteUnits_eq, List.length_cons, List.length_append,
    length_quotePoints, countP_codePoints]
  rfl

/-! ## The literal -/

/-- Where the memory has room, the conversion stores a string literal in strict UTF-8 and one
NUL, and returns the length of the literal, which denotes the text and nothing else. -/
def QuotesJson (utf16 : Utf16) : Prop :=
  ∃ token : Bytes,
    (∀ memory : Bytes, token.length < memory.length →
      returns (Cstr.utf16ConvertToUtf8QuoteCstr utf16) memory
        = some (token.length, token ++ 0 :: memory.drop (token.length + 1))) ∧
    (decodeUtf8 token).isSome ∧
    (∃ s, StringToken token s ∧ decodeText s = some utf16) ∧
    ∀ s, StringToken token s → decodeText s = some utf16

/-- What is stored is the quoted text, if an `int` can count it. -/
theorem eq_quoted_of_returns {utf16 : Utf16} {token : Bytes}
    (h : ∀ memory : Bytes, token.length < memory.length →
      returns (Cstr.utf16ConvertToUtf8QuoteCstr utf16) memory
        = some (token.length, token ++ 0 :: memory.drop (token.length + 1))) :
    token = utf16ConvertToUtf8QuoteCstr utf16 ∧ quotedLength utf16 < 2 ^ 31 := by
  have hrun := h (List.replicate (token.length + 1) 0) (by simp)
  rw [Cstr.returns_utf16ConvertToUtf8QuoteCstr] at hrun
  split at hrun
  · next hfits =>
    obtain ⟨hlength, hmemory⟩ := Prod.mk.inj (Option.some.inj hrun)
    refine ⟨(List.append_inj hmemory hlength).1.symm, ?_⟩
    rw [← length_utf16ConvertToUtf8QuoteCstr]
    exact hfits.2
  · cases hrun

theorem not_quotesJson_of_control {utf16 : Utf16} {c : Char16} (hc : c ∈ utf16)
    (hcontrol : ¬ IsQuotable c.toNat) : ¬ QuotesJson utf16 := by
  rintro ⟨token, hrun, -, ⟨s, ⟨chars, hchars, htoken⟩, -⟩, -⟩
  have hquoted := (eq_quoted_of_returns hrun).1
  rw [htoken, utf16ConvertToUtf8QuoteCstr] at hquoted
  have hunits : chars = quoteUnits utf16 := List.append_cancel_right (List.cons.inj hquoted).2
  unfold IsQuotable at hcontrol
  have hpoint : quotePoint c.toNat = [c.toNat] :=
    quotePoint_of_not_escaped fun h => hcontrol (.inr h)
  -- The control character is stored as one byte.
  have hmem : BitVec.ofNat 8 c.toNat ∈ chars := by
    rw [hunits, quoteUnits_eq]
    refine List.mem_flatMap.mpr ⟨c.toNat, List.mem_flatMap.mpr ⟨c.toNat, ?_, ?_⟩, ?_⟩
    · exact toNat_mem_codePoints hc (by omega)
    · rw [hpoint]
      exact List.mem_singleton_self _
    · rw [utf8Char, if_pos (by omega)]
      exact List.mem_singleton_self _
  have hprintable := hchars.printable _ hmem
  rw [BitVec.toNat_ofNat] at hprintable
  omega

/-- **Quoting**: well-formed text becomes a string literal iff it has no control character but
the five that are escaped, and an `int` can count the literal. -/
theorem quotesJson_iff {utf16 : Utf16} (hwell : WellFormed utf16) :
    QuotesJson utf16 ↔ (∀ c ∈ utf16, IsQuotable c.toNat) ∧ quotedLength utf16 < 2 ^ 31 := by
  constructor
  · intro h
    refine ⟨fun c hc => ?_, ?_⟩
    · by_contra hcontrol
      exact not_quotesJson_of_control hc hcontrol h
    · obtain ⟨token, hrun, -⟩ := h
      exact (eq_quoted_of_returns hrun).2
  · rintro ⟨hquotable, hsmall⟩
    have hlength := length_utf16ConvertToUtf8QuoteCstr utf16
    have hscalar := hwell.isScalar
    -- the code point of a pair is above the control characters
    have hpoints : ∀ n ∈ codePoints utf16, IsQuotable n ∧ n < 0x110000 := by
      intro n hn
      obtain ⟨c, hc, rfl⟩ | ⟨hlarge, hmax⟩ := mem_codePoints hn
      · exact ⟨hquotable c hc, Nat.lt_trans c.isLt (by decide)⟩
      · exact ⟨.inl (by omega), hmax⟩
    have htoken : StringToken (utf16ConvertToUtf8QuoteCstr utf16) (utf8 utf16) := by
      refine ⟨quoteUnits utf16, ?_, rfl⟩
      rw [quoteUnits_eq]
      exact chars_quotePoints hpoints
    refine ⟨utf16ConvertToUtf8QuoteCstr utf16, fun memory hmemory => ?_, ?_,
      ⟨_, htoken, decodeText_utf8 hwell⟩, fun s hs => ?_⟩
    · rw [Cstr.returns_utf16ConvertToUtf8QuoteCstr, if_pos ⟨hmemory, by omega⟩]
    · rw [utf16ConvertToUtf8QuoteCstr_eq, decodeUtf8_flatMap]
      · rfl
      intro n hn
      simp only [List.mem_cons, List.mem_append, List.mem_flatMap, List.not_mem_nil, or_false] at hn
      obtain rfl | ⟨m, hm, hn⟩ | rfl := hn
      · exact .inl (by decide)
      · exact isScalar_quotePoint (hscalar m hm) hn
      · exact .inl (by decide)
    -- a token says one text only
    · rw [hs.functional htoken]
      exact decodeText_utf8 hwell

theorem quotesJson_sample_iff : QuotesJson [0x22, 0xD83D, 0xDE00] ↔
    (∀ c ∈ ([0x22, 0xD83D, 0xDE00] : Utf16), IsQuotable c.toNat) ∧
      quotedLength [0x22, 0xD83D, 0xDE00] < 2 ^ 31 :=
  quotesJson_iff (by decide)

/-- The control character U+0001 stands in the literal as it is. -/
theorem not_quotesJson_control : WellFormed [0x01] ∧ ¬ QuotesJson [0x01] :=
  ⟨by decide, not_quotesJson_of_control (List.mem_singleton_self _) (by decide)⟩

end Wson.Native
