import Wson.Effect.Program

/-!
# Programs that pay for what they build

A program reads its input from left to right. Each run stands at a place, and what it builds
has a size. `Metered` says of a program that

- a run that returns ends at a place further on, and has paid for the size of what it returns
  with the way between, but for a credit that it has been given;
- a run throws the exception `e` only if there are no more than `n` places left before `limit`.

With `e` for the exhaustion of the stack and `n` for the number of calls that it has room for,
the second part is termination.
-/

namespace Effect

variable {ε σ τ α β γ : Type}

def Metered (I J : σ → Nat → Prop) (e : ε) (limit n credit : Nat) (size : α → Nat) (m : EStateM ε σ α) : Prop :=
  ∀ s p, I s p → match m s with
    | .ok a s' => ∃ q, J s' q ∧ p ≤ q ∧ p + size a ≤ q + credit
    | .error e' _ => e' = e → p + n ≤ limit

section Metered

variable {I J K : σ → Nat → Prop} {e : ε} {limit n credit : Nat} {size : α → Nat}

/-- A run that returns. -/
theorem Metered.of_ok {m : EStateM ε σ α} (h : Metered I J e limit n credit size m) {s s' : σ} {a : α} {p : Nat}
    (hI : I s p) (hm : m s = .ok a s') : ∃ q, J s' q ∧ p ≤ q ∧ p + size a ≤ q + credit := by
  have hrun := h s p hI
  rw [hm] at hrun
  exact hrun

/-- A run that throws. -/
theorem Metered.of_error {m : EStateM ε σ α} (h : Metered I J e limit n credit size m) {s s' : σ} {p : Nat}
    (hI : I s p) (hm : m s = .error e s') : p + n ≤ limit := by
  have hrun := h s p hI
  rw [hm] at hrun
  exact hrun rfl

theorem metered_pure {a : α} (hIJ : ∀ s p, I s p → J s p) (hsize : size a ≤ credit) :
    Metered I J e limit n credit size (pure a) := by
  intro s p hI
  exact ⟨p, hIJ s p hI, Nat.le_refl p, Nat.add_le_add_left hsize p⟩

theorem metered_throw {e' : ε} (h : e' ≠ e) :
    Metered I J e limit n credit size (throw e' : EStateM ε σ α) := by
  intro s p _ heq
  exact absurd heq h

/-- **Sequencing**: what the first part has paid for is a credit for the second one. -/
theorem Metered.bind {m : EStateM ε σ α} {f : α → EStateM ε σ β} {size' : β → Nat}
    (hm : Metered I J e limit n credit size m) (hf : ∀ a, Metered J K e limit n (size a) size' (f a)) :
    Metered I K e limit n credit size' (m >>= f) := by
  intro s p hI
  cases hrun : m s with
  | ok a s' =>
    rw [bind_of_ok hrun]
    obtain ⟨q, hJ, hpq, hpaid⟩ := hm.of_ok hI hrun
    cases hrest : f a s' with
    | ok b s'' =>
      obtain ⟨r, hK, hqr, hpaid'⟩ := (hf a).of_ok hJ hrest
      exact ⟨r, hK, Nat.le_trans hpq hqr, by omega⟩
    | error e' s'' =>
      -- the second part stands further on, so that there is no more left before the limit
      rintro rfl
      have hleft := (hf a).of_error hJ hrest
      omega
  | error e' s' =>
    rw [bind_of_error hrun]
    rintro rfl
    exact hm.of_error hI hrun

/-- The way to what comes next pays for one more call. -/
theorem Metered.next {m : EStateM ε σ α} {f : α → EStateM ε σ β} {size' : β → Nat}
    (hm : Metered I J e limit (n + 1) 0 (fun _ => 1) m) (hf : ∀ a, Metered J K e limit n 1 size' (f a)) :
    Metered I K e limit (n + 1) 0 size' (m >>= f) := by
  intro s p hI
  cases hrun : m s with
  | ok a s' =>
    rw [bind_of_ok hrun]
    obtain ⟨q, hJ, hpq, hpaid⟩ := hm.of_ok hI hrun
    cases hrest : f a s' with
    | ok b s'' =>
      obtain ⟨r, hK, hqr, hpaid'⟩ := (hf a).of_ok hJ hrest
      exact ⟨r, hK, Nat.le_trans hpq hqr, by omega⟩
    | error e' s'' =>
      -- the place that `m` has paid for makes up for the call
      rintro rfl
      have hleft := (hf a).of_error hJ hrest
      omega
  | error e' s' =>
    rw [bind_of_error hrun]
    rintro rfl
    exact hm.of_error hI hrun

theorem Metered.ite {c : Prop} [Decidable c] {m m' : EStateM ε σ α} (hm : Metered I J e limit n credit size m)
    (hm' : Metered I J e limit n credit size m') : Metered I J e limit n credit size (if c then m else m') := by
  split
  · exact hm
  · exact hm'

/-- A stronger condition before, a weaker one behind, a larger credit and a smaller size. -/
theorem Metered.mono {I' J' : σ → Nat → Prop} {credit' : Nat} {size' : α → Nat} {m : EStateM ε σ α}
    (hm : Metered I J e limit n credit size m) (hI : ∀ s p, I' s p → I s p) (hJ : ∀ s p, J s p → J' s p)
    (hsize : ∀ a, size' a + credit ≤ size a + credit') : Metered I' J' e limit n credit' size' m := by
  intro s p hI'
  cases hrun : m s with
  | ok a s' =>
    obtain ⟨q, hJ', hpq, hpaid⟩ := hm.of_ok (hI s p hI') hrun
    have hle := hsize a
    exact ⟨q, hJ s' q hJ', hpq, by omega⟩
  | error e' s' =>
    rintro rfl
    exact hm.of_error (hI s p hI') hrun

/-- A credit that is not used up is there afterwards. -/
theorem Metered.frame {m : EStateM ε σ α} (hm : Metered I J e limit n 0 size m) (credit : Nat) :
    Metered I J e limit n credit (fun a => size a + credit) m :=
  hm.mono (fun _ _ h => h) (fun _ _ h => h) fun _ => Nat.le_refl _

/-- What has been paid for is a credit for the rest. -/
theorem Metered.payOne {J' : σ → Nat → Prop} {m : EStateM ε σ α} (hm : Metered I J e limit n 0 (fun _ => 1) m)
    (hJ : ∀ s p, J s p → J' s p) : Metered I J' e limit n 1 (fun _ => 1) m :=
  hm.mono (fun _ _ h => h) hJ fun _ => Nat.le_succ _

/-- What is made of a result costs no more. -/
theorem Metered.wrap {m : EStateM ε σ α} {f : α → β} {size' : β → Nat}
    (hm : Metered I J e limit n credit size m) (hf : ∀ a, size' (f a) ≤ size a) :
    Metered I J e limit n credit size' (do return f (← m)) :=
  hm.bind fun a => metered_pure (fun _ _ h => h) (hf a)

/-- A value without parts. -/
theorem Metered.leaf {J' : σ → Nat → Prop} {m : EStateM ε σ α} {make : α → β} {size' : β → Nat}
    (hm : Metered I J e limit n 0 (fun _ => 1) m) (hJ : ∀ s p, J s p → J' s p) (hmake : ∀ a, size' (make a) = 1) :
    Metered I J' e limit n 1 size' (do return make (← m)) :=
  (hm.payOne hJ).wrap fun a => Nat.le_of_eq (hmake a)

/-- A value with parts, behind a header that says which they are. -/
theorem Metered.node {J' : σ → Nat → Prop} {header : EStateM ε σ α} {m : α → EStateM ε σ β} {make : β → γ}
    {size : β → Nat} {size' : γ → Nat} (hheader : Metered I J e limit n 0 (fun _ => 1) header)
    (hJ : ∀ s p, J s p → J' s p) (hm : ∀ a, Metered J' K e limit n 0 size (m a))
    (hmake : ∀ b, size' (make b) = size b + 1) :
    Metered I K e limit n 1 size' (do
      let a ← header
      return make (← m a)) :=
  (hheader.payOne hJ).bind fun a => ((hm a).frame 1).wrap fun b => Nat.le_of_eq (hmake b)

/-- A part of the state. -/
theorem metered_zoom {get : τ → σ} {put : σ → τ → τ} {m : EStateM ε σ α} (hm : Metered I J e limit n credit size m)
    {I' J' : τ → Nat → Prop} (hI : ∀ t p, I' t p → I (get t) p)
    (hJ : ∀ s t p, I' t p → ∀ q, J s q → J' (put s t) q) :
    Metered I' J' e limit n credit size (zoom get put m) := by
  intro t p hI'
  cases hrun : m (get t) with
  | ok a s' =>
    obtain ⟨q, hJ', hpq, hpaid⟩ := hm.of_ok (hI t p hI') hrun
    have hzoom : zoom get put m t = .ok a (put s' t) := by
      rw [zoom, hrun]
    rw [hzoom]
    exact ⟨q, hJ s' t p hI' q hJ', hpq, hpaid⟩
  | error e' s' =>
    have hzoom : zoom get put m t = .error e' (put s' t) := by
      rw [zoom, hrun]
    rw [hzoom]
    rintro rfl
    exact hm.of_error (hI t p hI') hrun

/-- The same exceptions under other names. -/
theorem metered_adaptExcept {ε' : Type} {f : ε → ε'} {m : EStateM ε σ α} (hf : Function.Injective f)
    (hm : Metered I J e limit n credit size m) : Metered I J (f e) limit n credit size (m.adaptExcept f) := by
  intro s p hI
  cases hrun : m s with
  | ok a s' =>
    have hadapt : m.adaptExcept f s = .ok a s' := by
      rw [EStateM.adaptExcept, hrun]
    rw [hadapt]
    exact hm.of_ok hI hrun
  | error e' s' =>
    have hadapt : m.adaptExcept f s = .error (f e') s' := by
      rw [EStateM.adaptExcept, hrun]
    rw [hadapt]
    intro heq
    obtain rfl := hf heq
    exact hm.of_error hI hrun

end Metered

end Effect
