import Wson.Wire.Word

/-!
# Decimal digits in 16-bit text

Numbers as lists of decimal digits, most significant first, and their text.

- `digits n` has the value `n` (`value_digits`), and leading zeros do not count
  (`value_replicate_zero`).
- `takeDigits` splits the leading digits off a text. It recognises the decimal
  digits of every script of the basic plane; on the text of digits followed by
  something else it returns exactly these digits (`takeDigits_text`).
-/

namespace Decimal

open Wire

/-- The code of the zero of each run of ten decimal digits. -/
def zeros : List Nat :=
  [0x0030, 0x0660, 0x06F0, 0x07C0, 0x0966, 0x09E6, 0x0A66, 0x0AE6, 0x0B66, 0x0BE6, 0x0C66,
    0x0CE6, 0x0D66, 0x0DE6, 0x0E50, 0x0ED0, 0x0F20, 0x1040, 0x1090, 0x17E0, 0x1810, 0x1946,
    0x19D0, 0x1A80, 0x1A90, 0x1B50, 0x1BB0, 0x1C40, 0x1C50, 0xA620, 0xA8D0, 0xA900, 0xA9D0,
    0xA9F0, 0xAA50, 0xABF0, 0xFF10]

/-- The digit a unit stands for. -/
def digit? (c : Char16) : Option Nat :=
  (zeros.find? fun z => z ≤ c.toNat ∧ c.toNat < z + 10).map fun z => c.toNat - z

/-- The ASCII character of a digit. -/
def char (d : Nat) : Char16 :=
  BitVec.ofNat 16 (0x30 + d)

def text (ds : List Nat) : Utf16 :=
  ds.map char

/-- The number a list of digits denotes. -/
def value (ds : List Nat) : Nat :=
  ds.foldl (fun n d => 10 * n + d) 0

/-- The shortest list of digits of a number; zero has one digit. -/
def digits (n : Nat) : List Nat :=
  if n = 0 then [0] else (Nat.digits 10 n).reverse

/-- The leading digits of a text, and what follows them. -/
def takeDigits : Utf16 → List Nat × Utf16
  | [] => ([], [])
  | c :: cs =>
    match digit? c with
    | some d => (d :: (takeDigits cs).1, (takeDigits cs).2)
    | none => ([], c :: cs)

theorem digit?_char : ∀ d < 10, digit? (char d) = some d := by
  decide

/-- Only the ten digits are written with digit characters. -/
def IsDigits (ds : List Nat) : Prop :=
  ∀ d ∈ ds, d < 10

theorem isDigits_digits (n : Nat) : IsDigits (digits n) := by
  intro d hd
  unfold digits at hd
  split at hd
  · obtain rfl : d = 0 := by simpa using hd
    omega
  · exact Nat.digits_lt_base (by omega) (List.mem_reverse.mp hd)

theorem isDigits_zeros (k : Nat) : IsDigits (List.replicate k 0) := by
  intro d hd
  rw [List.eq_of_mem_replicate hd]
  omega

theorem isDigits_append {as bs : List Nat} (ha : IsDigits as) (hb : IsDigits bs) :
    IsDigits (as ++ bs) := by
  intro d hd
  rcases List.mem_append.mp hd with h | h
  · exact ha d h
  · exact hb d h

theorem digits_ne_nil (n : Nat) : digits n ≠ [] := by
  unfold digits
  split
  · simp
  · next h => simpa [Nat.digits_eq_nil_iff_eq_zero] using h

theorem value_append (as bs : List Nat) :
    value (as ++ bs) = value as * 10 ^ bs.length + value bs := by
  induction bs using List.reverseRecOn with
  | nil => simp [value]
  | append_singleton bs b ih =>
    rw [← List.append_assoc]
    have hsnoc : ∀ xs : List Nat, value (xs ++ [b]) = 10 * value xs + b := by
      intro xs
      simp [value]
    rw [hsnoc, hsnoc, ih, List.length_append, List.length_singleton, pow_succ]
    ring

@[simp] theorem value_replicate_zero (k : Nat) : value (List.replicate k 0) = 0 := by
  induction k with
  | zero => rfl
  | succ k ih => rw [List.replicate_succ', value_append, ih]; rfl

theorem value_digits (n : Nat) : value (digits n) = n := by
  unfold digits
  split
  · next h => rw [h]; rfl
  · have hfold : ∀ ds : List Nat, value ds.reverse = Nat.ofDigits 10 ds := by
      intro ds
      induction ds with
      | nil => rfl
      | cons d ds ih =>
        rw [List.reverse_cons, value_append, ih, Nat.ofDigits_cons]
        simp [value]
        ring
    rw [hfold, Nat.ofDigits_digits]

theorem takeDigits_text {ds : List Nat} {rest : Utf16} (hds : IsDigits ds)
    (hrest : ∀ c ∈ rest.head?, digit? c = none) :
    takeDigits (text ds ++ rest) = (ds, rest) := by
  induction ds with
  | nil =>
    cases rest with
    | nil => rfl
    | cons c cs =>
      show takeDigits (c :: cs) = _
      rw [takeDigits, hrest c rfl]
  | cons d ds ih =>
    have hd := digit?_char d (hds d List.mem_cons_self)
    have ih := ih fun x hx => hds x (List.mem_cons_of_mem d hx)
    show takeDigits (char d :: (text ds ++ rest)) = _
    rw [takeDigits, hd, ih]

theorem takeDigits_text_nil {ds : List Nat} (hds : IsDigits ds) :
    takeDigits (text ds) = (ds, []) := by
  rw [← List.append_nil (text ds)]
  exact takeDigits_text hds (by simp)

end Decimal
