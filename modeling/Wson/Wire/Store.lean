import Mathlib.Tactic

/-!
# Stores into a fixed array

`overwrite buf p xs` is the array `buf` with the items `xs` stored from index `p`
on. Stores never change the length, leave what stands before `p` alone
(`take_overwrite`), and two adjacent runs of stores are one
(`overwrite_append`). A writer that keeps a position therefore appends: the
items before its new position are the old ones followed by `xs`
(`take_overwrite_end`).
-/

namespace Wire

variable {κ : Type}

/-- `buf` with `xs` stored at the indices from `p` on. -/
def overwrite (buf : List κ) (p : Nat) : List κ → List κ
  | [] => buf
  | x :: xs => (overwrite buf (p + 1) xs).set p x

@[simp] theorem overwrite_nil (buf : List κ) (p : Nat) : overwrite buf p [] = buf := rfl

@[simp] theorem overwrite_length (buf : List κ) :
    ∀ (p : Nat) (xs : List κ), (overwrite buf p xs).length = buf.length
  | _, [] => rfl
  | p, x :: xs => by rw [overwrite, List.length_set, overwrite_length buf (p + 1) xs]

theorem overwrite_set (buf : List κ) {i : Nat} (x : κ) :
    ∀ {p : Nat} (xs : List κ), i < p →
      overwrite (buf.set i x) p xs = (overwrite buf p xs).set i x
  | _, [], _ => rfl
  | p, y :: ys, h => by
    rw [overwrite, overwrite_set buf x ys (Nat.lt_succ_of_lt h), overwrite,
      List.set_comm x y (by omega : i ≠ p)]

/-- Two adjacent runs of stores are one run. -/
theorem overwrite_append (buf : List κ) :
    ∀ (p : Nat) (xs ys : List κ),
      overwrite (overwrite buf p xs) (p + xs.length) ys = overwrite buf p (xs ++ ys)
  | _, [], _ => rfl
  | p, x :: xs, ys => by
    rw [overwrite, overwrite_set _ x ys (by simp), List.cons_append, overwrite,
      ← overwrite_append buf (p + 1) xs ys, List.length_cons,
      show p + (xs.length + 1) = p + 1 + xs.length by omega]

/-- What stands before the stores is unchanged. -/
theorem take_overwrite (buf : List κ) {k : Nat} :
    ∀ {p : Nat} (xs : List κ), k ≤ p → (overwrite buf p xs).take k = buf.take k
  | _, [], _ => rfl
  | p, x :: xs, h => by
    rw [overwrite, List.take_set_of_le h, take_overwrite buf xs (Nat.le_succ_of_le h)]

/-- Up to the end of the stores stand the old items and then the stored ones. -/
theorem take_overwrite_end (buf : List κ) :
    ∀ {p : Nat} (xs : List κ), p + xs.length ≤ buf.length →
      (overwrite buf p xs).take (p + xs.length) = buf.take p ++ xs
  | p, [], _ => by simp
  | p, x :: xs, h => by
    rw [List.length_cons] at h
    have ih := take_overwrite_end buf (p := p + 1) xs (by omega)
    have hlt : p < (buf.take (p + 1)).length := by
      rw [List.length_take]
      omega
    rw [overwrite, List.length_cons, show p + (xs.length + 1) = p + 1 + xs.length by omega,
      List.take_set, ih, List.set_append_left _ _ hlt, ← List.take_set, List.take_add_one,
      List.take_set_of_le (Nat.le_refl p), List.getElem?_set_self (by omega)]
    simp

/-- What stands behind the stores is unchanged. -/
theorem drop_overwrite_end (buf : List κ) :
    ∀ {p : Nat} (xs : List κ), (overwrite buf p xs).drop (p + xs.length) = buf.drop (p + xs.length)
  | _, [] => rfl
  | p, x :: xs => by
    have ih := drop_overwrite_end buf (p := p + 1) xs
    rw [overwrite, List.length_cons, show p + (xs.length + 1) = p + 1 + xs.length by omega,
      List.drop_set_of_lt (by omega), ih]

/-- Stores from the start replace a prefix. -/
theorem overwrite_zero {buf xs : List κ} (h : xs.length ≤ buf.length) :
    overwrite buf 0 xs = xs ++ buf.drop xs.length := by
  have htake := take_overwrite_end buf (p := 0) xs (by omega)
  have hdrop := drop_overwrite_end buf (p := 0) xs
  rw [Nat.zero_add] at htake hdrop
  rw [← List.take_append_drop xs.length (overwrite buf 0 xs), htake, hdrop, List.take_zero,
    List.nil_append]

end Wire
