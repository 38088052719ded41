import Wson.Java.Output

/-!
# How far an `Output` grows

`ensureCapacity` doubles the array, or the size that is needed, in `int`s.

- `newCapacity_of_fits`, `newCapacity_of_exceeds`: what becomes of the doubled size.
- `ensures_iff`: the request is met exactly when nothing has to grow or the doubled size
  is not beyond the largest array.
-/

namespace Wson.Java.Output

open Effect Wire

/-- The length that growing is about: twice the old one, and if this is not enough, twice the needed
one. -/
def wanted (capacity needed : Nat) : Nat :=
  if needed ≤ max (2 * capacity) (1024 * 16) then max (2 * capacity) (1024 * 16) else 2 * needed

/-- What `ensureCapacity(request)` should leave; `limit` is the largest array there is memory for. -/
structure Ensured (limit request : Nat) (o o' : Output) : Prop where
  available : o' = o ∨ o'.buffer.length ≤ limit
  room : o.position + request ≤ o'.buffer.length
  kept : o'.buffer.take o.position = o.buffer.take o.position
  position : o'.position = o.position

def Ensures (limit request : Nat) (o : Output) : Prop :=
  ∃ o', returns (ensureCapacity request) o = some ((), o') ∧ Ensured limit request o o'

theorem le_wanted (capacity needed : Nat) : needed ≤ wanted capacity needed := by
  unfold wanted
  split <;> omega

section NewCapacity

variable {capacity needed : Nat} (hcapacity : capacity < needed) (hneeded : needed < 2 ^ 31)
include hcapacity hneeded

/-- The doubled size is asked for where it is an `int`. -/
theorem newCapacity_of_fits (h : wanted capacity needed < 2 ^ 31) :
    newCapacity capacity needed = wanted capacity needed := by
  unfold wanted at h ⊢
  have hdouble : int (2 * (capacity : Int)) = 2 * capacity := by
    refine int_of_fits (by omega) ?_
    split at h <;> omega
  unfold newCapacity
  rw [hdouble]
  by_cases hneed : needed ≤ max (2 * capacity) (1024 * 16)
  · rw [if_pos hneed]
    simp only
    split <;> rw [if_neg (by omega)] <;> omega
  · rw [if_neg hneed] at h ⊢
    have hrequest : int (2 * (needed : Int)) = 2 * needed := int_of_fits (by omega) (by omega)
    simp only
    rw [if_pos (by split <;> omega), hrequest]
    omega

/-- Otherwise it has wrapped around. -/
theorem newCapacity_of_exceeds (h : 2 ^ 31 ≤ wanted capacity needed) : newCapacity capacity needed < 0 := by
  have hwrap {x : Nat} (hlow : 2 ^ 30 ≤ x) (hhigh : x < 2 ^ 31) : int (2 * (x : Int)) < 0 := by
    rw [int, Int.bmod_def]
    split <;> omega
  unfold wanted at h
  have hlarge : 2 ^ 30 ≤ needed := by
    split at h <;> omega
  have hrequest := hwrap hlarge hneeded
  unfold newCapacity
  simp only
  by_cases hold : capacity < 2 ^ 30
  · have hdouble : int (2 * (capacity : Int)) = 2 * capacity := int_of_fits (by omega) (by omega)
    have hneed : ¬ needed ≤ max (2 * capacity) (1024 * 16) := by
      intro hneed
      rw [if_pos hneed] at h
      omega
    rw [hdouble, if_pos (by split <;> omega)]
    exact hrequest
  · have hnegative := hwrap (Nat.le_of_not_lt hold) (Nat.lt_trans hcapacity hneeded)
    rw [if_pos (Int.lt_trans hnegative (by decide)), if_pos (by omega)]
    exact hrequest

end NewCapacity

section Ensures

variable {o : Output} {limit request : Nat} (hlimit : limit < 2 ^ 31)
  (hrequest : o.position + request ≤ 2 ^ 31 - 9)

omit hlimit in
include hrequest in
theorem grown_eq : grown o.buffer.length o.position request =
    if o.position + request ≤ o.buffer.length then (o.buffer.length : Int)
    else newCapacity o.buffer.length (o.position + request : Nat) := by
  have hint : int ((request : Int) + o.position) = (o.position + request : Nat) := by
    rw [int_of_fits (by omega) (by omega)]
    omega
  unfold grown
  simp only [hint]
  by_cases h : o.position + request ≤ o.buffer.length
  · rw [if_pos h, if_neg (by omega)]
  · rw [if_neg h, if_pos (by omega)]

include hlimit hrequest in
/-- **`ensureCapacity`** meets a request exactly when it has not to grow or the doubled size is one
that there can be an array of. -/
theorem ensures_iff (hposition : o.position ≤ o.buffer.length) :
    Ensures limit request o ↔ o.position + request ≤ o.buffer.length ∨
      wanted o.buffer.length (o.position + request) ≤ limit := by
  have hgrown := grown_eq hrequest
  by_cases hroom : o.position + request ≤ o.buffer.length
  -- there is room already
  · rw [if_pos hroom] at hgrown
    refine iff_of_true ⟨o, ?_, .inl rfl, hroom, rfl, rfl⟩ (.inl hroom)
    rw [returns_ensureCapacity, grow_of_not_neg (by omega), hgrown, Int.toNat_natCast, resize_self]
    rfl
  · rw [if_neg hroom] at hgrown
    rw [or_iff_right hroom]
    have hneeded : o.position + request < 2 ^ 31 := by omega
    -- the new capacity is an `int`, and negative where it does not fit
    by_cases hfits : wanted o.buffer.length (o.position + request) < 2 ^ 31
    · rw [newCapacity_of_fits (Nat.lt_of_not_le hroom) hneeded hfits] at hgrown
      have hrun : returns (ensureCapacity request) o = some ((), { o with
          buffer := resize o.buffer (wanted o.buffer.length (o.position + request)) }) := by
        rw [returns_ensureCapacity, grow_of_not_neg (by omega), hgrown, Int.toNat_natCast]
        rfl
      have hle := le_wanted o.buffer.length (o.position + request)
      constructor
      · rintro ⟨o', hrun', havailable, hmet, -, -⟩
        obtain rfl := congrArg Prod.snd (Option.some.inj (hrun.symm.trans hrun'))
        rcases havailable with hsame | hsmall
        · rw [hsame] at hmet
          exact absurd hmet hroom
        · rwa [resize_length] at hsmall
      · intro hsmall
        refine ⟨_, hrun, .inr ?_, ?_, take_resize hposition (by omega), rfl⟩
        · rwa [resize_length]
        · rwa [resize_length]
    · have hnegative := newCapacity_of_exceeds (Nat.lt_of_not_le hroom) hneeded (Nat.le_of_not_lt hfits)
      refine iff_of_false ?_ (by omega)
      rintro ⟨o', hrun, -⟩
      rw [returns_ensureCapacity, grow_of_neg (hgrown ▸ hnegative)] at hrun
      exact nomatch hrun

end Ensures

/-- A short text in a new array. -/
theorem ensures_iff_empty : Ensures (2 ^ 31 - 9) 100 ⟨[], 0⟩ ↔
    0 + 100 ≤ ([] : Bytes).length ∨ wanted ([] : Bytes).length (0 + 100) ≤ 2 ^ 31 - 9 :=
  ensures_iff (by decide) (by decide) (Nat.le_refl 0)

/-- Twice `2^30` is no `int`. -/
theorem not_ensures_double : ¬ Ensures (2 ^ 31 - 9) (2 ^ 30) ⟨[], 0⟩ := by
  rintro ⟨o', hrun, -⟩
  have hthrows : returns (ensureCapacity ((2 ^ 30 : Nat) : Int)) ⟨[], 0⟩ = none := rfl
  exact nomatch hthrows.symm.trans hrun

end Wson.Java.Output
