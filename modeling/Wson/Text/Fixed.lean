import Mathlib.Tactic
import Wson.Text.Decimal

/-!
# Numbers with a fixed count of decimals

- `fixed places n`: the text of `n / 10 ^ places` with all of its decimals.
- `read`: the number that a text spells, an optional sign in front of digits and behind
  them optionally a point and more digits.
- `readUnsigned_take`: what is spelled by the first characters of a text of `fixed`.
-/

namespace Decimal

open Wire

/-- The last `k` digits, with leading zeros. -/
def padded : Nat → Nat → List Nat
  | 0, _ => []
  | k + 1, n => padded k (n / 10) ++ [n % 10]

/-- `places` decimals behind a point. -/
def fixed (places n : Nat) : Utf16 :=
  text (digits (n / 10 ^ places)) ++ 0x2E :: text (padded places (n % 10 ^ places))

/-- Digits, and optionally a point and more digits. -/
def readUnsigned (cs : Utf16) : Option ℚ :=
  if (takeDigits cs).1 = [] then none
  else
    match (takeDigits cs).2 with
    | [] => some (value (takeDigits cs).1)
    | c :: rest =>
      if c = 0x2E ∧ (takeDigits rest).2 = [] then
        some (value (takeDigits cs).1 + value (takeDigits rest).1 / 10 ^ (takeDigits rest).1.length)
      else none

/-- The number that a text spells. -/
def read (cs : Utf16) : Option ℚ :=
  match cs with
  | [] => none
  | c :: rest => if c = 0x2D then (readUnsigned rest).map fun q => -q else readUnsigned (c :: rest)

/-! ## Lists of digits -/

theorem value_lt {ds : List Nat} (hds : IsDigits ds) : value ds < 10 ^ ds.length := by
  induction ds using List.reverseRecOn with
  | nil => exact Nat.one_pos
  | append_singleton ds d ih =>
    have hd : d < 10 := hds d (by simp)
    have ih := ih fun x hx => hds x (List.mem_append_left _ hx)
    have hone : value [d] = d := by simp [value]
    rw [value_append, List.length_append, List.length_singleton, hone, pow_one, pow_succ]
    omega

/-- The number that the first digits spell. -/
theorem value_take {ds : List Nat} (hds : IsDigits ds) (k : Nat) :
    value (ds.take k) = value ds / 10 ^ (ds.length - k) := by
  have hdrop : value (ds.drop k) < 10 ^ (ds.length - k) := by
    rw [← List.length_drop]
    exact value_lt fun d hd => hds d (List.mem_of_mem_drop hd)
  have hsplit : value ds = value (ds.take k) * 10 ^ (ds.length - k) + value (ds.drop k) := by
    rw [← List.length_drop, ← value_append, List.take_append_drop]
  rw [hsplit, Nat.mul_comm, Nat.mul_add_div (Nat.pow_pos (by decide)), Nat.div_eq_of_lt hdrop, Nat.add_zero]

theorem isDigits_take {ds : List Nat} (hds : IsDigits ds) (k : Nat) : IsDigits (ds.take k) :=
  fun d hd => hds d (List.mem_of_mem_take hd)

@[simp] theorem length_padded (k n : Nat) : (padded k n).length = k := by
  induction k generalizing n with
  | zero => rfl
  | succ k ih => rw [padded, List.length_append, ih, List.length_singleton]

theorem isDigits_padded (k n : Nat) : IsDigits (padded k n) := by
  induction k generalizing n with
  | zero => exact nofun
  | succ k ih =>
    refine isDigits_append (ih _) fun d hd => ?_
    obtain rfl := List.mem_singleton.mp hd
    exact Nat.mod_lt _ (by decide)

theorem value_padded {k n : Nat} (h : n < 10 ^ k) : value (padded k n) = n := by
  induction k generalizing n with
  | zero =>
    rw [pow_zero, Nat.lt_one_iff] at h
    rw [h]
    rfl
  | succ k ih =>
    have hdiv : n / 10 < 10 ^ k := by
      rw [pow_succ] at h
      omega
    have hone : value [n % 10] = n % 10 := by simp [value]
    rw [padded, value_append, ih hdiv, hone, List.length_singleton, pow_one]
    omega

/-- How many digits a number has. -/
theorem length_digits_le_iff {n k : Nat} (hk : 0 < k) : (digits n).length ≤ k ↔ n < 10 ^ k := by
  unfold digits
  by_cases hn : n = 0
  · rw [if_pos hn, hn]
    exact iff_of_true hk (Nat.pow_pos (by decide))
  · rw [if_neg hn, List.length_reverse]
    exact Nat.digits_length_le_iff (by decide) n

/-! ## Reading -/

theorem readUnsigned_text {ds : List Nat} (hds : IsDigits ds) (hne : ds ≠ []) :
    readUnsigned (text ds) = some (value ds : ℚ) := by
  unfold readUnsigned
  simp only [takeDigits_text_nil hds, if_neg hne]

theorem readUnsigned_point {ds fs : List Nat} (hds : IsDigits ds) (hne : ds ≠ []) (hfs : IsDigits fs) :
    readUnsigned (text ds ++ 0x2E :: text fs) =
      some ((value ds : ℚ) + value fs / 10 ^ fs.length) := by
  have hpoint : ∀ c ∈ (0x2E :: text fs : Utf16).head?, digit? c = none := by
    intro c hc
    obtain rfl := Option.mem_some_iff.mp hc
    decide
  unfold readUnsigned
  simp only [takeDigits_text hds hpoint, if_neg hne, takeDigits_text_nil hfs, and_self, if_pos]

/-- The sign is read in front of what is unsigned. -/
theorem read_neg (cs : Utf16) : read (0x2D :: cs) = (readUnsigned cs).map fun q => -q := by
  unfold read
  exact if_pos rfl

theorem read_text {ds : List Nat} (hds : IsDigits ds) (hne : ds ≠ []) (rest : Utf16) :
    read (text ds ++ rest) = readUnsigned (text ds ++ rest) := by
  cases ds with
  | nil => exact absurd rfl hne
  | cons d ds =>
    refine if_neg fun hminus : char d = 0x2D => ?_
    have hdigit := digit?_char d (hds d List.mem_cons_self)
    rw [hminus] at hdigit
    exact nomatch hdigit

theorem take_digits_ne_nil (n : Nat) {k : Nat} (hk : 0 < k) : (digits n).take k ≠ [] := by
  rw [Ne, List.take_eq_nil_iff, not_or]
  exact ⟨Nat.pos_iff_ne_zero.mp hk, digits_ne_nil _⟩

theorem read_take_fixed {places n k : Nat} (hk : 0 < k) :
    read ((fixed places n).take k) = readUnsigned ((fixed places n).take k) := by
  have hne := take_digits_ne_nil (n / 10 ^ places) hk
  have htake : (text (digits (n / 10 ^ places))).take k = text ((digits (n / 10 ^ places)).take k) :=
    List.map_take.symm
  rw [fixed, List.take_append, htake]
  exact read_text (isDigits_take (isDigits_digits _) k) hne _

/-- **The first characters** of a number with decimals spell the number cut there. -/
theorem readUnsigned_take {places n k : Nat} (hk : 0 < k) :
    readUnsigned ((fixed places n).take k) =
      let w := (digits (n / 10 ^ places)).length
      some (if k ≤ w then ((n / 10 ^ places / 10 ^ (w - k) : ℕ) : ℚ)
        else (n / 10 ^ places : ℕ) + (n % 10 ^ places / 10 ^ (places - (k - w - 1)) : ℕ) /
          10 ^ min (k - w - 1) places) := by
  have hdigits := isDigits_digits (n / 10 ^ places)
  have hlength : (text (digits (n / 10 ^ places))).length = (digits (n / 10 ^ places)).length :=
    List.length_map _
  have hmod : n % 10 ^ places < 10 ^ places := Nat.mod_lt _ (Nat.pow_pos (by decide))
  simp only
  unfold fixed
  by_cases hle : k ≤ (digits (n / 10 ^ places)).length
  · have hne := take_digits_ne_nil (n / 10 ^ places) hk
    have htake : (text (digits (n / 10 ^ places))).take k = text ((digits (n / 10 ^ places)).take k) :=
      List.map_take.symm
    rw [List.take_append_of_le_length (by rwa [hlength]), htake, if_pos hle,
      readUnsigned_text (isDigits_take hdigits k) hne, value_take hdigits, value_digits]
  · obtain ⟨j, hj⟩ : ∃ j, k - (digits (n / 10 ^ places)).length = j + 1 :=
      Nat.exists_eq_succ_of_ne_zero (by omega)
    have htake : ∀ j, (text (padded places (n % 10 ^ places))).take j =
        text ((padded places (n % 10 ^ places)).take j) := fun _ => List.map_take.symm
    rw [List.take_append, hlength, List.take_of_length_le (by rw [hlength]; omega), hj,
      List.take_succ_cons, htake, if_neg hle, readUnsigned_point hdigits (digits_ne_nil _)
        (isDigits_take (isDigits_padded _ _) _), value_take (isDigits_padded _ _), value_padded hmod,
      value_digits, length_padded, List.length_take, length_padded, Nat.add_sub_cancel]

/-- Only digits and the point stand in it. -/
theorem mem_fixed {places n : Nat} {c : Char16} (h : c ∈ fixed places n) : c.toNat < 2 ^ 8 := by
  have hchar {ds : List Nat} (hds : IsDigits ds) (hc : c ∈ text ds) : c.toNat < 2 ^ 8 := by
    obtain ⟨d, hd, rfl⟩ := List.mem_map.mp hc
    have hlt := hds d hd
    rw [char, BitVec.toNat_ofNat]
    omega
  rcases List.mem_append.mp h with hc | hc
  · exact hchar (isDigits_digits _) hc
  · rcases List.mem_cons.mp hc with rfl | hc
    · decide
    · exact hchar (isDigits_padded _ _) hc

end Decimal
