import Wson.Text.Utf8
import Mathlib.Tactic

/-!
# JSON texts

The grammar of JSON over bytes, and what a text denotes.

- `Json`: the tree of a text. A number is its literal, a string its characters in UTF-8.
- `Json.Denotes v t`: `t` is a text of `v`, without space around it; `Json.Accepts` allows
  space there.
- `Chars.body`, `Body.append_inj`: a string ends at its first quote that is not escaped.
- `Chars.not_prefix`: characters that stand in a text without quotes, in front of a
  separator, are not read as the string that they are.
-/

namespace Text

open Wire

/-! ## Tokens -/

/-- Space, tab and line ends. -/
def IsSpace (b : Byte) : Prop :=
  b = 0x20 ∨ b = 0x09 ∨ b = 0x0A ∨ b = 0x0D

def Space (ws : Bytes) : Prop :=
  ∀ b ∈ ws, IsSpace b

/-- A comma, or the end of an array or object. -/
def IsSeparator (b : Byte) : Prop :=
  b = 0x2C ∨ b = 0x5D ∨ b = 0x7D

instance : DecidablePred IsSpace := fun b => inferInstanceAs (Decidable (b = 0x20 ∨ _ ∨ _ ∨ _))

instance : DecidablePred IsSeparator := fun b => inferInstanceAs (Decidable (b = 0x2C ∨ _ ∨ _))

def IsDigit (b : Byte) : Prop :=
  0x30 ≤ b.toNat ∧ b.toNat ≤ 0x39

instance : DecidablePred IsDigit := fun _ => inferInstanceAs (Decidable (_ ∧ _))

/-- One digit or more. -/
def Digits (ds : Bytes) : Prop :=
  ds ≠ [] ∧ ∀ d ∈ ds, IsDigit d

/-- `0`, or digits that do not start with it. -/
def Integer (ds : Bytes) : Prop :=
  ds = [0x30] ∨ Digits ds ∧ ds.head? ≠ some 0x30

/-- A sign, an integer, a fraction and an exponent. -/
def IsNumber (t : Bytes) : Prop :=
  ∃ minus integer frac exp : Bytes, t = minus ++ integer ++ frac ++ exp ∧
    (minus = [] ∨ minus = [0x2D]) ∧ Integer integer ∧
      (frac = [] ∨ ∃ ds, Digits ds ∧ frac = 0x2E :: ds) ∧
        (exp = [] ∨ ∃ e sign ds, (e = 0x65 ∨ e = 0x45) ∧ (sign = [] ∨ sign = [0x2B] ∨ sign = [0x2D]) ∧
          Digits ds ∧ exp = e :: (sign ++ ds))

/-- The character that a backslash and the byte stand for. -/
def escaped : Byte → Option Byte
  | 0x22 => some 0x22
  | 0x5C => some 0x5C
  | 0x2F => some 0x2F
  | 0x62 => some 0x08
  | 0x66 => some 0x0C
  | 0x6E => some 0x0A
  | 0x72 => some 0x0D
  | 0x74 => some 0x09
  | _ => none

def hexDigit (b : Byte) : Option Nat :=
  if 0x30 ≤ b.toNat ∧ b.toNat ≤ 0x39 then some (b.toNat - 0x30)
  else if 0x41 ≤ b.toNat ∧ b.toNat ≤ 0x46 then some (b.toNat - 0x41 + 10)
  else if 0x61 ≤ b.toNat ∧ b.toNat ≤ 0x66 then some (b.toNat - 0x61 + 10)
  else none

/-- The unit that four hexadecimal digits stand for. -/
def hex4 (h₁ h₂ h₃ h₄ : Byte) : Option Char16 := do
  let n₁ ← hexDigit h₁
  let n₂ ← hexDigit h₂
  let n₃ ← hexDigit h₃
  let n₄ ← hexDigit h₄
  some (BitVec.ofNat 16 (((n₁ * 16 + n₂) * 16 + n₃) * 16 + n₄))

/-- A byte that stands for itself in a string. -/
def IsPlain (b : Byte) : Prop :=
  0x20 ≤ b.toNat ∧ b ≠ 0x22 ∧ b ≠ 0x5C

instance : DecidablePred IsPlain := fun _ => inferInstanceAs (Decidable (_ ∧ _))

/-- What stands between the quotes, and the characters it denotes. -/
inductive Chars : Bytes → Bytes → Prop
  | nil : Chars [] []
  | plain {b : Byte} {c s : Bytes} (hb : IsPlain b) (h : Chars c s) : Chars (b :: c) (b :: s)
  | escape {x b : Byte} {c s : Bytes} (hx : escaped x = some b) (h : Chars c s) :
    Chars (0x5C :: x :: c) (b :: s)
  | unicode {h₁ h₂ h₃ h₄ : Byte} {u : Char16} {c s : Bytes} (hu : hex4 h₁ h₂ h₃ h₄ = some u)
    (hhigh : ¬ IsHigh u) (hlow : ¬ IsLow u) (h : Chars c s) :
    Chars (0x5C :: 0x75 :: h₁ :: h₂ :: h₃ :: h₄ :: c) (utf8Char u.toNat ++ s)
  | pair {h₁ h₂ h₃ h₄ l₁ l₂ l₃ l₄ : Byte} {u v : Char16} {c s : Bytes}
    (hu : hex4 h₁ h₂ h₃ h₄ = some u) (hv : hex4 l₁ l₂ l₃ l₄ = some v)
    (hhigh : IsHigh u) (hlow : IsLow v) (h : Chars c s) :
    Chars (0x5C :: 0x75 :: h₁ :: h₂ :: h₃ :: h₄ :: 0x5C :: 0x75 :: l₁ :: l₂ :: l₃ :: l₄ :: c)
      (utf8Char (Text.pair u v) ++ s)

/-- A string literal. -/
def StringToken (t s : Bytes) : Prop :=
  ∃ c, Chars c s ∧ t = 0x22 :: (c ++ [0x22])

/-! ## Trees -/

inductive Json where
  | null
  | bool (b : Bool)
  | number (literal : Bytes)
  | string (s : Bytes)
  | array (items : List Json)
  | object (members : List (Bytes × Json))

namespace Json

mutual

/-- The text denotes the tree. -/
def Denotes : Json → Bytes → Prop
  | .null, t => t = [0x6E, 0x75, 0x6C, 0x6C]
  | .bool true, t => t = [0x74, 0x72, 0x75, 0x65]
  | .bool false, t => t = [0x66, 0x61, 0x6C, 0x73, 0x65]
  | .number literal, t => t = literal ∧ IsNumber literal
  | .string s, t => StringToken t s
  | .array items, t => ∃ body, DenotesItems items body ∧ t = 0x5B :: (body ++ [0x5D])
  | .object members, t => ∃ body, DenotesMembers members body ∧ t = 0x7B :: (body ++ [0x7D])

/-- The elements, with commas between them. -/
def DenotesItems : List Json → Bytes → Prop
  | [], body => Space body
  | v :: vs, body => ∃ ws t ws' rest, Space ws ∧ Denotes v t ∧ Space ws' ∧
      (vs = [] ∧ rest = [] ∨ vs ≠ [] ∧ ∃ body', DenotesItems vs body' ∧ rest = 0x2C :: body') ∧
        body = ws ++ (t ++ (ws' ++ rest))

/-- The members, with a colon behind each name and commas between them. -/
def DenotesMembers : List (Bytes × Json) → Bytes → Prop
  | [], body => Space body
  | (k, v) :: ms, body => ∃ ws name ws₁ ws₂ t ws' rest, Space ws ∧ StringToken name k ∧ Space ws₁ ∧
      Space ws₂ ∧ Denotes v t ∧ Space ws' ∧
        (ms = [] ∧ rest = [] ∨ ms ≠ [] ∧ ∃ body', DenotesMembers ms body' ∧ rest = 0x2C :: body') ∧
          body = ws ++ (name ++ (ws₁ ++ 0x3A :: (ws₂ ++ (t ++ (ws' ++ rest)))))

end

/-- A JSON text: a value with space around it. -/
def Accepts (v : Json) (text : Bytes) : Prop :=
  ∃ ws t ws', Space ws ∧ Denotes v t ∧ Space ws' ∧ text = ws ++ (t ++ ws')

end Json

/-! ## Where tokens end -/

theorem space_nil : Space [] :=
  nofun

/-- No space stands before a byte that is none. -/
theorem Space.eq_nil_of_cons {ws x y : Bytes} {a b : Byte} (hws : Space ws) (ha : ¬ IsSpace a)
    (h : a :: x = ws ++ b :: y) : ws = [] ∧ a = b ∧ x = y := by
  cases ws with
  | nil => exact ⟨rfl, List.cons.inj h⟩
  | cons c ws =>
    obtain ⟨rfl, -⟩ := List.cons.inj h
    exact absurd (hws a List.mem_cons_self) ha

theorem IsSeparator.not_isSpace {b : Byte} (h : IsSeparator b) : ¬ IsSpace b := by
  obtain rfl | rfl | rfl := h <;> decide

/-- A number starts with a sign or a digit. -/
theorem IsNumber.head {t : Bytes} (h : IsNumber t) : ∃ b r, t = b :: r ∧ ¬ IsSpace b := by
  have hdigit {b : Byte} (hb : IsDigit b) : ¬ IsSpace b := by
    have hb := hb.1
    rintro (rfl | rfl | rfl | rfl) <;> exact absurd hb (by decide)
  obtain ⟨minus, integer, frac, exp, rfl, hminus, hinteger, -, -⟩ := h
  obtain rfl | rfl := hminus
  · obtain rfl | ⟨⟨hne, hall⟩, -⟩ := hinteger
    · exact ⟨0x30, _, rfl, by decide⟩
    · obtain ⟨d, ds, rfl⟩ := List.exists_cons_of_ne_nil hne
      exact ⟨d, _, rfl, hdigit (hall d List.mem_cons_self)⟩
  · exact ⟨0x2D, _, rfl, by decide⟩

/-- The form of a string between its quotes. -/
inductive Body : Bytes → Prop
  | nil : Body []
  | plain {b : Byte} {c : Bytes} (hb : IsPlain b) (h : Body c) : Body (b :: c)
  | escape {x : Byte} {c : Bytes} (hx : escaped x ≠ none) (h : Body c) : Body (0x5C :: x :: c)
  | unicode {h₁ h₂ h₃ h₄ : Byte} {c : Bytes} (h : Body c) :
    Body (0x5C :: 0x75 :: h₁ :: h₂ :: h₃ :: h₄ :: c)

theorem Chars.body {c s : Bytes} (h : Chars c s) : Body c := by
  induction h with
  | nil => exact .nil
  | plain hb _ ih => exact .plain hb ih
  | escape hx _ ih => exact .escape (by rw [hx]; exact nofun) ih
  | unicode _ _ _ _ ih => exact .unicode ih
  | pair _ _ _ _ _ ih => exact .unicode (.unicode ih)

/-- **A string ends at its first quote** that is not escaped. -/
theorem Body.append_inj {c c' r r' : Bytes} (h : Body c) (h' : Body c')
    (heq : c ++ 0x22 :: r = c' ++ 0x22 :: r') : c = c' ∧ r = r' := by
  induction h generalizing c' with
  | nil =>
    cases h' with
    | nil => exact ⟨rfl, (List.cons.inj heq).2⟩
    | plain hb _ => exact absurd (List.cons.inj heq).1.symm hb.2.1
    | escape _ _ => exact absurd (List.cons.inj heq).1 (by decide)
    | unicode _ => exact absurd (List.cons.inj heq).1 (by decide)
  | plain hb h ih =>
    cases h' with
    | nil => exact absurd (List.cons.inj heq).1 hb.2.1
    | plain _ h' =>
      obtain ⟨rfl, htail⟩ := List.cons.inj heq
      obtain ⟨rfl, rfl⟩ := ih h' htail
      exact ⟨rfl, rfl⟩
    | escape _ _ => exact absurd (List.cons.inj heq).1 hb.2.2
    | unicode _ => exact absurd (List.cons.inj heq).1 hb.2.2
  | escape hx h ih =>
    cases h' with
    | nil => exact absurd (List.cons.inj heq).1 (by decide)
    | plain hb _ => exact absurd (List.cons.inj heq).1.symm hb.2.2
    | escape _ h' =>
      obtain ⟨rfl, htail⟩ := List.cons.inj (List.cons.inj heq).2
      obtain ⟨rfl, rfl⟩ := ih h' htail
      exact ⟨rfl, rfl⟩
    | unicode _ =>
      obtain ⟨rfl, -⟩ := List.cons.inj (List.cons.inj heq).2
      exact absurd rfl hx
  | unicode h ih =>
    cases h' with
    | nil => exact absurd (List.cons.inj heq).1 (by decide)
    | plain hb _ => exact absurd (List.cons.inj heq).1.symm hb.2.2
    | escape hx _ =>
      obtain ⟨rfl, -⟩ := List.cons.inj (List.cons.inj heq).2
      exact absurd rfl hx
    | unicode h' =>
      simp only [List.cons_append, List.cons.injEq, true_and] at heq
      obtain ⟨rfl, rfl, rfl, rfl, htail⟩ := heq
      obtain ⟨rfl, rfl⟩ := ih h' htail
      exact ⟨rfl, rfl⟩

/-- Two literals that start at the same place. -/
theorem Body.token_inj {c t s ws r r' : Bytes} (h : Body c) (hws : Space ws) (ht : StringToken t s)
    (heq : 0x22 :: (c ++ 0x22 :: r) = ws ++ (t ++ r')) : ws = [] ∧ r = r' := by
  obtain ⟨c', hc', rfl⟩ := ht
  obtain ⟨rfl, -, heq⟩ := hws.eq_nil_of_cons (by decide)
    (show 0x22 :: (c ++ 0x22 :: r) = ws ++ 0x22 :: (c' ++ [0x22] ++ r') from heq)
  rw [List.append_assoc] at heq
  exact ⟨rfl, (h.append_inj hc'.body heq).2⟩

/-- A literal denotes one string. -/
theorem Chars.functional {c s s' : Bytes} (h : Chars c s) (h' : Chars c s') : s = s' := by
  induction h generalizing s' with
  | nil =>
    cases h'
    rfl
  | plain hb _ ih =>
    cases h' with
    | plain _ h' => rw [ih h']
    | escape _ _ => exact absurd rfl hb.2.2
    | unicode _ _ _ _ => exact absurd rfl hb.2.2
    | pair _ _ _ _ _ => exact absurd rfl hb.2.2
  | escape hx _ ih =>
    cases h' with
    | plain hb _ => exact absurd rfl hb.2.2
    | escape hx' h' => rw [Option.some.inj (hx.symm.trans hx'), ih h']
    | unicode _ _ _ _ => exact nomatch hx
    | pair _ _ _ _ _ => exact nomatch hx
  | unicode hu hhigh _ _ ih =>
    cases h' with
    | plain hb _ => exact absurd rfl hb.2.2
    | escape hx _ => exact nomatch hx
    | unicode hu' _ _ h' => rw [Option.some.inj (hu.symm.trans hu'), ih h']
    | pair hu' _ hhigh' _ _ => exact absurd (Option.some.inj (hu'.symm.trans hu) ▸ hhigh') hhigh
  | pair hu hv hhigh _ _ ih =>
    cases h' with
    | plain hb _ => exact absurd rfl hb.2.2
    | escape hx _ => exact nomatch hx
    | unicode hu' hhigh' _ _ => exact absurd (Option.some.inj (hu.symm.trans hu') ▸ hhigh) hhigh'
    | pair hu' hv' _ _ h' =>
      rw [Option.some.inj (hu.symm.trans hu'), Option.some.inj (hv.symm.trans hv'), ih h']

theorem StringToken.functional {t s s' : Bytes} (h : StringToken t s) (h' : StringToken t s') :
    s = s' := by
  obtain ⟨c, hc, rfl⟩ := h
  obtain ⟨c', hc', heq⟩ := h'
  obtain rfl : c = c' := List.append_cancel_right (List.cons.inj heq).2
  exact hc.functional hc'

theorem hexDigit_printable {b : Byte} (h : hexDigit b ≠ none) : 0x20 ≤ b.toNat := by
  unfold hexDigit at h
  by_contra hlt
  rw [if_neg (by omega), if_neg (by omega), if_neg (by omega)] at h
  exact h rfl

theorem hex4_printable {h₁ h₂ h₃ h₄ : Byte} {u : Char16} (h : hex4 h₁ h₂ h₃ h₄ = some u) :
    ∀ b ∈ [h₁, h₂, h₃, h₄], 0x20 ≤ b.toNat := by
  obtain ⟨n₁, hn₁, h⟩ := Option.bind_eq_some_iff.mp h
  obtain ⟨n₂, hn₂, h⟩ := Option.bind_eq_some_iff.mp h
  obtain ⟨n₃, hn₃, h⟩ := Option.bind_eq_some_iff.mp h
  obtain ⟨n₄, hn₄, -⟩ := Option.bind_eq_some_iff.mp h
  have hdigit {b : Byte} {n : Nat} (hn : hexDigit b = some n) : 0x20 ≤ b.toNat :=
    hexDigit_printable (by rw [hn]; exact nofun)
  simp only [List.mem_cons, List.not_mem_nil, or_false]
  rintro b (rfl | rfl | rfl | rfl)
  · exact hdigit hn₁
  · exact hdigit hn₂
  · exact hdigit hn₃
  · exact hdigit hn₄

/-- No control character stands in a literal. -/
theorem Chars.printable {c s : Bytes} (h : Chars c s) : ∀ b ∈ c, 0x20 ≤ b.toNat := by
  have hescaped : ∀ x b : Byte, escaped x = some b → 0x20 ≤ x.toNat := by
    intro x b hx
    by_contra hlt
    -- no control character stands behind a backslash
    have hsmall : ∀ x : Byte, ¬ 0x20 ≤ x.toNat → escaped x = none := by decide
    rw [hsmall x hlt] at hx
    cases hx
  induction h with
  | nil => exact fun b hb => nomatch hb
  | plain hb _ ih =>
    intro b hmem
    obtain rfl | hmem := List.mem_cons.mp hmem
    · exact hb.1
    · exact ih b hmem
  | escape hx _ ih =>
    intro b hmem
    simp only [List.mem_cons] at hmem
    obtain rfl | rfl | hmem := hmem
    · decide
    · exact hescaped _ _ hx
    · exact ih b hmem
  | unicode hu _ _ _ ih =>
    intro b hmem
    have hhex := hex4_printable hu
    simp only [List.mem_cons, List.not_mem_nil, or_false] at hmem hhex
    obtain rfl | rfl | rfl | rfl | rfl | rfl | hmem := hmem
    · decide
    · decide
    · exact hhex _ (.inl rfl)
    · exact hhex _ (.inr (.inl rfl))
    · exact hhex _ (.inr (.inr (.inl rfl)))
    · exact hhex _ (.inr (.inr (.inr rfl)))
    · exact ih b hmem
  | pair hu hv _ _ _ ih =>
    intro b hmem
    have hhex := hex4_printable hu
    have hhex' := hex4_printable hv
    simp only [List.mem_cons, List.not_mem_nil, or_false] at hmem hhex hhex'
    obtain rfl | rfl | rfl | rfl | rfl | rfl | rfl | rfl | rfl | rfl | rfl | rfl | hmem := hmem
    · decide
    · decide
    · exact hhex _ (.inl rfl)
    · exact hhex _ (.inr (.inl rfl))
    · exact hhex _ (.inr (.inr (.inl rfl)))
    · exact hhex _ (.inr (.inr (.inr rfl)))
    · decide
    · decide
    · exact hhex' _ (.inl rfl)
    · exact hhex' _ (.inr (.inl rfl))
    · exact hhex' _ (.inr (.inr (.inl rfl)))
    · exact hhex' _ (.inr (.inr (.inr rfl)))
    · exact ih b hmem

/-- Bytes that stand for themselves in front of a literal's characters. -/
theorem Chars.plain_append {bs c s : Bytes} (hbs : ∀ b ∈ bs, IsPlain b) (h : Chars c s) :
    Chars (bs ++ c) (bs ++ s) := by
  induction bs with
  | nil => exact h
  | cons b bs ih =>
    exact .plain (hbs b List.mem_cons_self) (ih fun b' hb' => hbs b' (List.mem_cons_of_mem b hb'))

/-! ## Characters without quotes -/

/-- How many bytes stand before the first separator. -/
def plainLength (x : Bytes) : Nat :=
  (x.takeWhile fun b => !decide (IsSeparator b)).length

theorem plainLength_cons {b : Byte} (h : ¬ IsSeparator b) (x : Bytes) :
    plainLength (b :: x) = plainLength x + 1 := by
  rw [plainLength, List.takeWhile_cons_of_pos (by simp [h])]
  rfl

theorem plainLength_separator {b : Byte} (h : IsSeparator b) (x : Bytes) : plainLength (b :: x) = 0 := by
  rw [plainLength, List.takeWhile_cons_of_neg (by simp [h])]
  rfl

theorem plainLength_append_le : ∀ x y : Bytes, plainLength (x ++ y) ≤ x.length + plainLength y
  | [], y => by simp
  | b :: x, y => by
    have ih := plainLength_append_le x y
    by_cases hb : IsSeparator b
    · rw [List.cons_append, plainLength_separator hb]
      exact Nat.zero_le _
    · rw [List.cons_append, plainLength_cons hb, List.length_cons]
      omega

theorem plainLength_le_append : ∀ x y : Bytes, plainLength x ≤ plainLength (x ++ y)
  | [], _ => Nat.zero_le _
  | b :: x, y => by
    have ih := plainLength_le_append x y
    by_cases hb : IsSeparator b
    · rw [plainLength_separator hb]
      exact Nat.zero_le _
    · rw [List.cons_append, plainLength_cons hb, plainLength_cons hb]
      omega

theorem plainLength_append_separator {c : Byte} (hc : IsSeparator c) (r : Bytes) :
    ∀ x : Bytes, plainLength (x ++ c :: r) = plainLength x
  | [] => plainLength_separator hc r
  | b :: x => by
    by_cases hb : IsSeparator b
    · rw [List.cons_append, plainLength_separator hb, plainLength_separator hb]
    · rw [List.cons_append, plainLength_cons hb, plainLength_cons hb, plainLength_append_separator hc r x]

theorem plainLength_space : ∀ {ws : Bytes}, Space ws → ∀ x, plainLength (ws ++ x) = ws.length + plainLength x
  | [], _, x => (Nat.zero_add _).symm
  | b :: ws, h, x => by
    have hb : ¬ IsSeparator b := fun hsep => hsep.not_isSpace (h b List.mem_cons_self)
    rw [List.cons_append, plainLength_cons hb, plainLength_space fun c hc => h c (List.mem_cons_of_mem b hc)]
    rw [List.length_cons]
    omega

theorem hexDigit_not_separator {b : Byte} (h : hexDigit b ≠ none) : ¬ IsSeparator b := by
  rintro (rfl | rfl | rfl) <;> exact h rfl

theorem hex4_not_separator {h₁ h₂ h₃ h₄ : Byte} {u : Char16} (h : hex4 h₁ h₂ h₃ h₄ = some u) :
    ¬ IsSeparator h₁ ∧ ¬ IsSeparator h₂ ∧ ¬ IsSeparator h₃ ∧ ¬ IsSeparator h₄ := by
  obtain ⟨n₁, hn₁, h⟩ := Option.bind_eq_some_iff.mp h
  obtain ⟨n₂, hn₂, h⟩ := Option.bind_eq_some_iff.mp h
  obtain ⟨n₃, hn₃, h⟩ := Option.bind_eq_some_iff.mp h
  obtain ⟨n₄, hn₄, -⟩ := Option.bind_eq_some_iff.mp h
  have hne {b : Byte} {n : Nat} (hn : hexDigit b = some n) : ¬ IsSeparator b :=
    hexDigit_not_separator (by rw [hn]; exact nofun)
  exact ⟨hne hn₁, hne hn₂, hne hn₃, hne hn₄⟩

theorem length_utf8Char_le (n : Nat) : (utf8Char n).length ≤ 4 := by
  unfold utf8Char
  split
  · exact Nat.le_add_left 1 3
  split
  · exact Nat.le_add_left 2 2
  split
  · exact Nat.le_add_left 3 1
  · exact Nat.le_refl 4

theorem plainLength_escape {x : Byte} (h : ¬ IsSeparator x) (c : Bytes) :
    plainLength (0x5C :: x :: c) = plainLength c + 2 := by
  rw [plainLength_cons (by decide), plainLength_cons h]

theorem plainLength_unicode {h₁ h₂ h₃ h₄ : Byte} {u : Char16} (h : hex4 h₁ h₂ h₃ h₄ = some u) (c : Bytes) :
    plainLength (0x5C :: 0x75 :: h₁ :: h₂ :: h₃ :: h₄ :: c) = plainLength c + 6 := by
  obtain ⟨n₁, n₂, n₃, n₄⟩ := hex4_not_separator h
  rw [plainLength_escape (by decide), plainLength_cons n₁, plainLength_cons n₂, plainLength_cons n₃,
    plainLength_cons n₄]

/-- A literal is no shorter than its characters, up to the first separator, too. -/
theorem Chars.plainLength_le {c s : Bytes} (h : Chars c s) : plainLength s ≤ plainLength c := by
  induction h with
  | nil => exact Nat.le_refl _
  | @plain b c s _ _ ih =>
    by_cases hb : IsSeparator b
    · rw [plainLength_separator hb]
      exact Nat.zero_le _
    · rw [plainLength_cons hb, plainLength_cons hb]
      omega
  | @escape x b c s hx _ ih =>
    have hall : ∀ x b : Byte, escaped x = some b → ¬ IsSeparator x := by
      rintro x b hx (rfl | rfl | rfl) <;> exact nomatch hx
    have hle := plainLength_append_le [b] s
    rw [List.length_singleton, List.singleton_append] at hle
    rw [plainLength_escape (hall x b hx)]
    omega
  | @unicode h₁ h₂ h₃ h₄ u c s hu _ _ _ ih =>
    have hle := plainLength_append_le (utf8Char u.toNat) s
    have hchar := length_utf8Char_le u.toNat
    rw [plainLength_unicode hu]
    omega
  | @pair h₁ h₂ h₃ h₄ l₁ l₂ l₃ l₄ u v c s hu hv _ _ _ ih =>
    have hle := plainLength_append_le (utf8Char (Text.pair u v)) s
    have hchar := length_utf8Char_le (Text.pair u v)
    rw [plainLength_unicode hu, plainLength_unicode hv]
    omega

/-- **Characters without quotes**: in front of a separator they are not read as the string they
are. The literal would be longer than they are. -/
theorem StringToken.not_prefix {t s ws r r' : Bytes} {b : Byte} (ht : StringToken t s) (hws : Space ws)
    (hb : IsSeparator b) : s ++ b :: r ≠ ws ++ (t ++ r') := by
  obtain ⟨c, hc, rfl⟩ := ht
  intro h
  have hlength := congrArg plainLength h
  have hchars := hc.plainLength_le
  have hle := plainLength_le_append c ([0x22] ++ r')
  rw [plainLength_append_separator hb, plainLength_space hws, List.cons_append,
    plainLength_cons (by decide), List.append_assoc] at hlength
  omega

end Text
