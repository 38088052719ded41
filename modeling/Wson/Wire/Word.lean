import Mathlib.Tactic

/-!
# Bytes, words and 16-bit text units

The fixed-width vocabulary of byte-oriented formats:

- `be32`, `be64`: big-endian bytes of a machine word, and `beNat`, the number a
  byte string denotes most significant byte first; the two are inverse to each
  other (`ofNat_beNat_be32`, `be32_ofNat_beNat` and their 64-bit forms);
- `units e s`: a sequence of 16-bit text units laid out in byte order `e`, and
  `ofUnits`, which reads it back. Every string of even length is the layout of
  exactly one sequence of units (`units_ofUnits`, `ofUnits_units`).
-/

namespace Wire

abbrev Byte := BitVec 8

abbrev Bytes := List Byte

/-- One 16-bit unit of text. -/
abbrev Char16 := BitVec 16

/-- Text as a sequence of 16-bit units: any sequence, paired surrogates or not. -/
abbrev Utf16 := List Char16

/-- The order in which the two bytes of a unit are stored. -/
inductive Endian where
  | little
  | big
  deriving DecidableEq, Repr

/-! ## Big-endian words -/

/-- The number denoted by a byte string, most significant byte first. -/
def beNat (bs : Bytes) : Nat :=
  bs.foldl (fun n b => n * 256 + b.toNat) 0

def be32 (x : BitVec 32) : Bytes :=
  [(x >>> 24).setWidth 8, (x >>> 16).setWidth 8, (x >>> 8).setWidth 8, x.setWidth 8]

def be64 (x : BitVec 64) : Bytes :=
  [(x >>> 56).setWidth 8, (x >>> 48).setWidth 8, (x >>> 40).setWidth 8,
    (x >>> 32).setWidth 8, (x >>> 24).setWidth 8, (x >>> 16).setWidth 8,
    (x >>> 8).setWidth 8, x.setWidth 8]

@[simp] theorem be32_length (x : BitVec 32) : (be32 x).length = 4 := rfl

@[simp] theorem be64_length (x : BitVec 64) : (be64 x).length = 8 := rfl

theorem beNat_be32 (x : BitVec 32) : beNat (be32 x) = x.toNat := by
  have h := x.isLt
  simp only [beNat, be32, List.foldl_cons, List.foldl_nil,
    BitVec.toNat_setWidth, BitVec.toNat_ushiftRight, Nat.shiftRight_eq_div_pow]
  omega

theorem beNat_be64 (x : BitVec 64) : beNat (be64 x) = x.toNat := by
  have h := x.isLt
  simp only [beNat, be64, List.foldl_cons, List.foldl_nil,
    BitVec.toNat_setWidth, BitVec.toNat_ushiftRight, Nat.shiftRight_eq_div_pow]
  omega

theorem ofNat_beNat_be32 (x : BitVec 32) : BitVec.ofNat 32 (beNat (be32 x)) = x := by
  rw [beNat_be32, BitVec.ofNat_toNat, BitVec.setWidth_eq]

theorem ofNat_beNat_be64 (x : BitVec 64) : BitVec.ofNat 64 (beNat (be64 x)) = x := by
  rw [beNat_be64, BitVec.ofNat_toNat, BitVec.setWidth_eq]

theorem be32_injective {x y : BitVec 32} (h : be32 x = be32 y) : x = y := by
  rw [← ofNat_beNat_be32 x, h, ofNat_beNat_be32]

theorem be64_injective {x y : BitVec 64} (h : be64 x = be64 y) : x = y := by
  rw [← ofNat_beNat_be64 x, h, ofNat_beNat_be64]

/-- Any four bytes are the big-endian form of the word they denote. -/
theorem be32_ofNat_beNat (b₀ b₁ b₂ b₃ : Byte) :
    be32 (BitVec.ofNat 32 (beNat [b₀, b₁, b₂, b₃])) = [b₀, b₁, b₂, b₃] := by
  have h₀ := b₀.isLt
  have h₁ := b₁.isLt
  have h₂ := b₂.isLt
  have h₃ := b₃.isLt
  simp only [be32, beNat, List.foldl_cons, List.foldl_nil, List.cons.injEq, and_true]
  refine ⟨?_, ?_, ?_, ?_⟩ <;> apply BitVec.eq_of_toNat_eq <;>
    simp only [BitVec.toNat_setWidth, BitVec.toNat_ushiftRight, Nat.shiftRight_eq_div_pow,
      BitVec.toNat_ofNat] <;> omega

/-- Any eight bytes are the big-endian form of the word they denote. -/
theorem be64_ofNat_beNat (b₀ b₁ b₂ b₃ b₄ b₅ b₆ b₇ : Byte) :
    be64 (BitVec.ofNat 64 (beNat [b₀, b₁, b₂, b₃, b₄, b₅, b₆, b₇]))
      = [b₀, b₁, b₂, b₃, b₄, b₅, b₆, b₇] := by
  have h₀ := b₀.isLt
  have h₁ := b₁.isLt
  have h₂ := b₂.isLt
  have h₃ := b₃.isLt
  have h₄ := b₄.isLt
  have h₅ := b₅.isLt
  have h₆ := b₆.isLt
  have h₇ := b₇.isLt
  simp only [be64, beNat, List.foldl_cons, List.foldl_nil, List.cons.injEq, and_true]
  refine ⟨?_, ?_, ?_, ?_, ?_, ?_, ?_, ?_⟩ <;> apply BitVec.eq_of_toNat_eq <;>
    simp only [BitVec.toNat_setWidth, BitVec.toNat_ushiftRight, Nat.shiftRight_eq_div_pow,
      BitVec.toNat_ofNat] <;> omega

theorem eq_be64_of_length {xs : Bytes} (h : xs.length = 8) :
    xs = be64 (BitVec.ofNat 64 (beNat xs)) := by
  match xs, h with
  | [b₀, b₁, b₂, b₃, b₄, b₅, b₆, b₇], _ => exact (be64_ofNat_beNat b₀ b₁ b₂ b₃ b₄ b₅ b₆ b₇).symm

theorem eq_be32_of_length {xs : Bytes} (h : xs.length = 4) :
    xs = be32 (BitVec.ofNat 32 (beNat xs)) := by
  match xs, h with
  | [b₀, b₁, b₂, b₃], _ => exact (be32_ofNat_beNat b₀ b₁ b₂ b₃).symm

/-- A word as the sum of its shifted bytes. -/
theorem sum_beNat_64 (b₀ b₁ b₂ b₃ b₄ b₅ b₆ b₇ : Byte) :
    b₇.setWidth 64 + b₆.setWidth 64 <<< 8 + b₅.setWidth 64 <<< 16 + b₄.setWidth 64 <<< 24 +
      b₃.setWidth 64 <<< 32 + b₂.setWidth 64 <<< 40 + b₁.setWidth 64 <<< 48 +
      b₀.setWidth 64 <<< 56 = BitVec.ofNat 64 (beNat [b₀, b₁, b₂, b₃, b₄, b₅, b₆, b₇]) := by
  apply BitVec.eq_of_toNat_eq
  simp only [BitVec.toNat_add, BitVec.toNat_shiftLeft, BitVec.toNat_setWidth,
    BitVec.toNat_ofNat, Nat.shiftLeft_eq, beNat, List.foldl_cons, List.foldl_nil]
  omega

theorem sum_beNat_32 (b₀ b₁ b₂ b₃ : Byte) :
    b₃.setWidth 32 + b₂.setWidth 32 <<< 8 + b₁.setWidth 32 <<< 16 + b₀.setWidth 32 <<< 24
      = BitVec.ofNat 32 (beNat [b₀, b₁, b₂, b₃]) := by
  apply BitVec.eq_of_toNat_eq
  simp only [BitVec.toNat_add, BitVec.toNat_shiftLeft, BitVec.toNat_setWidth,
    BitVec.toNat_ofNat, Nat.shiftLeft_eq, beNat, List.foldl_cons, List.foldl_nil]
  omega

/-! ## Text units -/

/-- The two bytes of a unit, in byte order `e`. -/
def unit (e : Endian) (c : Char16) : Bytes :=
  match e with
  | .little => [c.setWidth 8, (c >>> 8).setWidth 8]
  | .big => [(c >>> 8).setWidth 8, c.setWidth 8]

/-- The unit stored in two bytes, in byte order `e`. -/
def ofUnit (e : Endian) (b₀ b₁ : Byte) : Char16 :=
  match e with
  | .little => BitVec.ofNat 16 (b₀.toNat + 256 * b₁.toNat)
  | .big => BitVec.ofNat 16 (b₁.toNat + 256 * b₀.toNat)

def units (e : Endian) (s : Utf16) : Bytes :=
  s.flatMap (unit e)

/-- The units stored in a byte string; an odd last byte is ignored. -/
def ofUnits (e : Endian) : Bytes → Utf16
  | b₀ :: b₁ :: bs => ofUnit e b₀ b₁ :: ofUnits e bs
  | _ => []

theorem unit_eq_pair (e : Endian) (c : Char16) : ∃ b₀ b₁, unit e c = [b₀, b₁] := by
  cases e <;> exact ⟨_, _, rfl⟩

@[simp] theorem ofUnit_unit (e : Endian) (c : Char16) :
    ∀ {b₀ b₁}, unit e c = [b₀, b₁] → ofUnit e b₀ b₁ = c := by
  intro b₀ b₁ h
  have hc := c.isLt
  cases e <;> simp only [unit, List.cons.injEq, and_true] at h <;>
    obtain ⟨rfl, rfl⟩ := h <;> apply BitVec.eq_of_toNat_eq <;>
    simp only [ofUnit, BitVec.toNat_ofNat, BitVec.toNat_setWidth, BitVec.toNat_ushiftRight,
      Nat.shiftRight_eq_div_pow] <;> omega

@[simp] theorem unit_ofUnit (e : Endian) (b₀ b₁ : Byte) :
    unit e (ofUnit e b₀ b₁) = [b₀, b₁] := by
  have h₀ := b₀.isLt
  have h₁ := b₁.isLt
  cases e <;> simp only [unit, ofUnit, List.cons.injEq, and_true] <;> constructor <;>
    apply BitVec.eq_of_toNat_eq <;>
    simp only [BitVec.toNat_setWidth, BitVec.toNat_ushiftRight, Nat.shiftRight_eq_div_pow,
      BitVec.toNat_ofNat] <;> omega

@[simp] theorem units_nil (e : Endian) : units e [] = [] := rfl

@[simp] theorem units_cons (e : Endian) (c : Char16) (s : Utf16) :
    units e (c :: s) = unit e c ++ units e s := rfl

@[simp] theorem units_length (e : Endian) (s : Utf16) :
    (units e s).length = 2 * s.length := by
  induction s with
  | nil => rfl
  | cons c s ih =>
    obtain ⟨b₀, b₁, h⟩ := unit_eq_pair e c
    simp only [units_cons, h, List.length_append, List.length_cons, List.length_nil, ih]
    omega

@[simp] theorem ofUnits_units (e : Endian) (s : Utf16) : ofUnits e (units e s) = s := by
  induction s with
  | nil => rfl
  | cons c s ih =>
    obtain ⟨b₀, b₁, h⟩ := unit_eq_pair e c
    simp only [units_cons, h, List.cons_append, List.nil_append, ofUnits, ih,
      ofUnit_unit e c h]

/-- Every byte string of even length is the layout of the units read from it. -/
theorem units_ofUnits (e : Endian) :
    ∀ {bs : Bytes}, bs.length % 2 = 0 → units e (ofUnits e bs) = bs
  | [], _ => rfl
  | [_], h => by simp at h
  | b₀ :: b₁ :: bs, h => by
    have ih : units e (ofUnits e bs) = bs := units_ofUnits e (by
      simp only [List.length_cons] at h
      omega)
    simp only [ofUnits, units_cons, unit_ofUnit, ih, List.cons_append, List.nil_append]

theorem ofUnits_length (e : Endian) :
    ∀ bs : Bytes, (ofUnits e bs).length = bs.length / 2
  | [] => rfl
  | [_] => by simp [ofUnits]
  | _ :: _ :: bs => by
    simp only [ofUnits, List.length_cons, ofUnits_length e bs]
    omega

/-- The layout determines the units. -/
theorem units_injective (e : Endian) {s t : Utf16} (h : units e s = units e t) : s = t := by
  rw [← ofUnits_units e s, h, ofUnits_units]

end Wire
