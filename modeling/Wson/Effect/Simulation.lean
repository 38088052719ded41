import Wson.Effect.Program

/-!
# Two programs in step

`Simulates S R m m'`: started in states that `S` relates, the two programs both return,
with results that `R` relates, or both throw the same, and `S` relates the states in
which they end. `S` says what the states have in common, so the rules compose runs
over different states.

`Follows S L m m'`: the same, as long as the run of `m` ends within the bound `L`, which
cannot come to hold again once it has been exceeded. `Extends e m m'`: the same, from the
same state, unless `m` throws `e`. `SimulatesUnless stop S R m m'`: in step, unless `m`
throws something of `stop`.
-/

namespace Effect

variable {ε σ τ α α' β β' : Type} {S : σ → τ → Prop}

/-- How two runs have ended. -/
inductive SameEnd (S : σ → τ → Prop) (R : α → β → Prop) :
    EStateM.Result ε σ α → EStateM.Result ε τ β → Prop
  | ok {a b s t} (hab : R a b) (hst : S s t) : SameEnd S R (.ok a s) (.ok b t)
  | error {s t} (e : ε) (hst : S s t) : SameEnd S R (.error e s) (.error e t)

theorem SameEnd.eq_ok {R : α → β → Prop} {a : α} {s : σ} {r : EStateM.Result ε τ β}
    (h : SameEnd S R (.ok a s) r) : ∃ b t, r = .ok b t ∧ R a b ∧ S s t := by
  cases h with
  | ok hab hst => exact ⟨_, _, rfl, hab, hst⟩

theorem SameEnd.eq_error {R : α → β → Prop} {e : ε} {s : σ} {r : EStateM.Result ε τ β}
    (h : SameEnd S R (.error e s) r) : ∃ t, r = .error e t ∧ S s t := by
  cases h with
  | error _ hst => exact ⟨_, rfl, hst⟩

/-- The states in which two runs have ended. -/
theorem SameEnd.final {R : α → β → Prop} {m : EStateM ε σ α} {m' : EStateM ε τ β} {s : σ} {t : τ}
    (h : SameEnd S R (m s) (m' t)) : S (Effect.final m s) (Effect.final m' t) := by
  cases hms : m s with
  | ok a s' =>
    rw [hms] at h
    obtain ⟨b, t', hmt, -, hst⟩ := h.eq_ok
    rwa [final_of_ok hms, final_of_ok hmt]
  | error e s' =>
    rw [hms] at h
    obtain ⟨t', hmt, hst⟩ := h.eq_error
    rwa [final_of_error hms, final_of_error hmt]

/-- The two programs keep in step. -/
def Simulates (S : σ → τ → Prop) (R : α → β → Prop) (m : EStateM ε σ α) (m' : EStateM ε τ β) : Prop :=
  ∀ ⦃s t⦄, S s t → SameEnd S R (m s) (m' t)

theorem simulates_pure {R : α → β → Prop} {a : α} {b : β} (h : R a b) :
    Simulates S R (pure a : EStateM ε σ α) (pure b : EStateM ε τ β) :=
  fun _ _ hst => .ok h hst

theorem simulates_throw {R : α → β → Prop} (e : ε) :
    Simulates S R (throw e : EStateM ε σ α) (throw e : EStateM ε τ β) :=
  fun _ _ hst => .error e hst

/-- **Sequencing**: the second parts may use that the results of the first are related. -/
theorem Simulates.bind {R : α → β → Prop} {R' : α' → β' → Prop} {m : EStateM ε σ α}
    {m' : EStateM ε τ β} {f : α → EStateM ε σ α'} {f' : β → EStateM ε τ β'} (hm : Simulates S R m m')
    (hf : ∀ a b, R a b → Simulates S R' (f a) (f' b)) : Simulates S R' (m >>= f) (m' >>= f') := by
  intro s t hst
  have h := hm hst
  cases hms : m s with
  | ok a s' =>
    rw [hms] at h
    obtain ⟨b, t', hmt, hab, hst'⟩ := h.eq_ok
    rw [bind_of_ok hms, bind_of_ok hmt]
    exact hf a b hab hst'
  | error e s' =>
    rw [hms] at h
    obtain ⟨t', hmt, hst'⟩ := h.eq_error
    rw [bind_of_error hms, bind_of_error hmt]
    exact .error e hst'

/-- Sequencing behind programs with the same result. -/
theorem Simulates.bind_eq {R : α' → β' → Prop} {m : EStateM ε σ α} {m' : EStateM ε τ α}
    {f : α → EStateM ε σ α'} {f' : α → EStateM ε τ β'} (hm : Simulates S Eq m m')
    (hf : ∀ a, Simulates S R (f a) (f' a)) : Simulates S R (m >>= f) (m' >>= f') :=
  hm.bind fun a _ hab => hab ▸ hf a

theorem Simulates.ite {R : α → β → Prop} {c : Prop} [Decidable c] {m₁ m₂ : EStateM ε σ α}
    {m₁' m₂' : EStateM ε τ β} (h₁ : c → Simulates S R m₁ m₁') (h₂ : ¬c → Simulates S R m₂ m₂') :
    Simulates S R (if c then m₁ else m₂) (if c then m₁' else m₂') := by
  split
  · next h => exact h₁ h
  · next h => exact h₂ h

/-- The same wrapper around two results. -/
theorem Simulates.map {R : α → β → Prop} {R' : α' → β' → Prop} {m : EStateM ε σ α}
    {m' : EStateM ε τ β} {f : α → α'} {g : β → β'} (hm : Simulates S R m m')
    (h : ∀ a b, R a b → R' (f a) (g b)) :
    Simulates S R' (do return f (← m)) (do return g (← m')) :=
  hm.bind fun a _ hab => simulates_pure (h a _ hab)

/-! ## Unless the first one stops -/

section Unless

variable {stop : ε → Prop}

/-- The two programs keep in step, unless the first one throws something of `stop`. -/
def SimulatesUnless (stop : ε → Prop) (S : σ → τ → Prop) (R : α → β → Prop) (m : EStateM ε σ α)
    (m' : EStateM ε τ β) : Prop :=
  ∀ ⦃s t⦄, S s t → SameEnd S R (m s) (m' t) ∨ ∃ e s', m s = .error e s' ∧ stop e

theorem Simulates.unless {R : α → β → Prop} {m : EStateM ε σ α} {m' : EStateM ε τ β}
    (h : Simulates S R m m') : SimulatesUnless stop S R m m' :=
  fun _ _ hst => .inl (h hst)

/-- Nothing that is thrown is excepted. -/
theorem SimulatesUnless.simulates {R : α → β → Prop} {m : EStateM ε σ α} {m' : EStateM ε τ β}
    (h : SimulatesUnless (fun _ => False) S R m m') : Simulates S R m m' := by
  intro s t hst
  rcases h hst with hsame | ⟨_, _, -, hstop⟩
  · exact hsame
  · exact hstop.elim

theorem SimulatesUnless.bind_eq {R : α' → β' → Prop} {m : EStateM ε σ α} {m' : EStateM ε τ α}
    {f : α → EStateM ε σ α'} {f' : α → EStateM ε τ β'} (hm : SimulatesUnless stop S Eq m m')
    (hf : ∀ a, SimulatesUnless stop S R (f a) (f' a)) :
    SimulatesUnless stop S R (m >>= f) (m' >>= f') := by
  intro s t hst
  rcases hm hst with h | ⟨e, s', hms, hstop⟩
  · cases hms : m s with
    | ok a s' =>
      rw [hms] at h
      obtain ⟨b, t', hmt, rfl, hst'⟩ := h.eq_ok
      rw [bind_of_ok hms, bind_of_ok hmt]
      exact hf a hst'
    | error e s' =>
      rw [hms] at h
      obtain ⟨t', hmt, hst'⟩ := h.eq_error
      rw [bind_of_error hms, bind_of_error hmt]
      exact .inl (.error e hst')
  · exact .inr ⟨e, s', bind_of_error hms f, hstop⟩

theorem SimulatesUnless.ite {R : α → β → Prop} {c : Prop} [Decidable c] {m₁ m₂ : EStateM ε σ α}
    {m₁' m₂' : EStateM ε τ β} (h₁ : SimulatesUnless stop S R m₁ m₁')
    (h₂ : SimulatesUnless stop S R m₂ m₂') :
    SimulatesUnless stop S R (if c then m₁ else m₂) (if c then m₁' else m₂') := by
  split
  · exact h₁
  · exact h₂

end Unless

/-! ## Within a bound -/

section Follows

variable {L : σ → Prop}

/-- `m'` ends as `m` does on every run of `m` that ends within the bound. -/
structure Follows (S : σ → τ → Prop) (L : σ → Prop) (m : EStateM ε σ α) (m' : EStateM ε τ α) :
    Prop where
  /-- A run that ends within the bound has started within it. -/
  kept : Preserves (fun s s' => L s' → L s) m
  follows : ∀ ⦃s t⦄, S s t → L (final m s) → SameEnd S Eq (m s) (m' t)

theorem follows_pure (a : α) :
    Follows S L (pure a : EStateM ε σ α) (pure a : EStateM ε τ α) where
  kept := preserves_pure (fun _ h => h) a
  follows _ _ hst _ := .ok rfl hst

theorem follows_throw (e : ε) :
    Follows S L (throw e : EStateM ε σ α) (throw e : EStateM ε τ α) where
  kept := preserves_throw (fun _ h => h) e
  follows _ _ hst _ := .error e hst

theorem Follows.bind {m : EStateM ε σ α} {m' : EStateM ε τ α} {f : α → EStateM ε σ β}
    {f' : α → EStateM ε τ β} (hm : Follows S L m m') (hf : ∀ a, Follows S L (f a) (f' a)) :
    Follows S L (m >>= f) (m' >>= f') where
  kept := Preserves.bind (fun _ _ _ h h' hu => h (h' hu)) hm.kept fun a => (hf a).kept
  follows := by
    intro s t hst hL
    cases hms : m s with
    | ok a s' =>
      rw [final, bind_of_ok hms] at hL
      rw [bind_of_ok hms]
      -- the bound holds between the two parts, since it holds behind the second one
      have hmid : L (final m s) := by
        rw [final_of_ok hms]
        exact (hf a).kept s' hL
      have h := hm.follows hst hmid
      rw [hms] at h
      obtain ⟨b, t', hmt, rfl, hst'⟩ := h.eq_ok
      rw [bind_of_ok hmt]
      exact (hf a).follows hst' hL
    | error e s' =>
      rw [final, bind_of_error hms] at hL
      rw [bind_of_error hms]
      have h := hm.follows hst (by rw [final_of_error hms]; exact hL)
      rw [hms] at h
      obtain ⟨t', hmt, hst'⟩ := h.eq_error
      rw [bind_of_error hmt]
      exact .error e hst'

theorem Follows.ite {c : Prop} [Decidable c] {m₁ m₂ : EStateM ε σ α} {m₁' m₂' : EStateM ε τ α}
    (h₁ : Follows S L m₁ m₁') (h₂ : Follows S L m₂ m₂') :
    Follows S L (if c then m₁ else m₂) (if c then m₁' else m₂') := by
  split
  · exact h₁
  · exact h₂

theorem Follows.tryCatch {m : EStateM ε σ α} {m' : EStateM ε τ α} {h : ε → EStateM ε σ α}
    {h' : ε → EStateM ε τ α} (hm : Follows S L m m') (hh : ∀ e, Follows S L (h e) (h' e)) :
    Follows S L (tryCatch m h) (tryCatch m' h') where
  kept := Preserves.tryCatch (fun _ _ _ h h' hu => h (h' hu)) hm.kept fun e => (hh e).kept
  follows := by
    intro s t hst hL
    show SameEnd S Eq (EStateM.tryCatch m h s) (EStateM.tryCatch m' h' t)
    change L (final (EStateM.tryCatch m h) s) at hL
    unfold final EStateM.tryCatch at *
    cases hms : m s with
    | ok a s' =>
      simp only [hms] at hL ⊢
      have h := hm.follows hst (by rw [final_of_ok hms]; exact hL)
      rw [hms] at h
      obtain ⟨b, t', hmt, hab, hst'⟩ := h.eq_ok
      rw [hmt]
      exact .ok hab hst'
    | error e s' =>
      simp only [hms] at hL ⊢
      have hmid : L (final m s) := by
        rw [final_of_error hms]
        exact (hh e).kept s' hL
      have h := hm.follows hst hmid
      rw [hms] at h
      obtain ⟨t', hmt, hst'⟩ := h.eq_error
      rw [hmt]
      exact (hh e).follows hst' hL

theorem follows_forM {γ : Type} {f : γ → EStateM ε σ PUnit} {f' : γ → EStateM ε τ PUnit}
    (xs : List γ) (h : ∀ x, Follows S L (f x) (f' x)) :
    Follows S L (xs.forM f) (xs.forM f') := by
  induction xs with
  | nil => exact follows_pure PUnit.unit
  | cons x xs ih => exact (h x).bind fun _ => ih

/-- On a component of the state: `S'` and `L'` are `S` and `L` there, and putting a
component back keeps what `S'` says of the rest. -/
theorem Follows.zoom {σ' τ' : Type} {S' : σ' → τ' → Prop} {L' : σ' → Prop} {get : σ' → σ}
    {put : σ → σ' → σ'} {get' : τ' → τ} {put' : τ → τ' → τ'} {m : EStateM ε σ α}
    {m' : EStateM ε τ α} (hm : Follows S L m m') (hget : ∀ s t, S' s t → S (get s) (get' t))
    (hput : ∀ s t u v, S' s t → S u v → S' (put u s) (put' v t))
    (hL : ∀ s, L' s ↔ L (get s)) (hgetput : ∀ s u, get (put u s) = u) :
    Follows S' L' (zoom get put m) (zoom get' put' m') where
  kept := preserves_zoom hm.kept fun s t h hs => by
    rw [hL, hgetput] at hs
    exact (hL s).mpr (h hs)
  follows := by
    intro s t hst hbound
    have hfinal : final (Effect.zoom get put m) s = put (final m (get s)) s := by
      unfold final Effect.zoom
      cases m (get s) <;> rfl
    rw [hfinal, hL, hgetput] at hbound
    have h := hm.follows (hget s t hst) hbound
    unfold Effect.zoom
    cases hms : m (get s) with
    | ok a u =>
      rw [hms] at h
      obtain ⟨b, v, hmt, hab, huv⟩ := h.eq_ok
      rw [hmt]
      exact .ok hab (hput s t u v hst huv)
    | error e u =>
      rw [hms] at h
      obtain ⟨v, hmt, huv⟩ := h.eq_error
      rw [hmt]
      exact .error e (hput s t u v hst huv)

end Follows

/-! ## More room -/

section Extends

variable {e : ε}

/-- Wherever `m` does not end by throwing `e`, `m'` does the same. -/
def Extends (e : ε) (m m' : EStateM ε σ α) : Prop :=
  ∀ s, m s = m' s ∨ ∃ s', m s = .error e s'

theorem Extends.refl (m : EStateM ε σ α) : Extends e m m :=
  fun _ => .inl rfl

theorem extends_throw (m : EStateM ε σ α) : Extends e (throw e) m :=
  fun s => .inr ⟨s, rfl⟩

theorem Extends.bind {m m' : EStateM ε σ α} {f f' : α → EStateM ε σ β} (hm : Extends e m m')
    (hf : ∀ a, Extends e (f a) (f' a)) : Extends e (m >>= f) (m' >>= f') := by
  intro s
  rcases hm s with heq | ⟨t, ht⟩
  · cases hms : m' s with
    | ok a t =>
      rw [bind_of_ok (heq.trans hms), bind_of_ok hms]
      exact hf a t
    | error e' t =>
      rw [bind_of_error (heq.trans hms), bind_of_error hms]
      exact .inl rfl
  · exact .inr ⟨t, bind_of_error ht _⟩

theorem Extends.ite {c : Prop} [Decidable c] {m₁ m₂ m₁' m₂' : EStateM ε σ α}
    (h₁ : Extends e m₁ m₁') (h₂ : Extends e m₂ m₂') :
    Extends e (if c then m₁ else m₂) (if c then m₁' else m₂') := by
  split
  · exact h₁
  · exact h₂

end Extends

end Effect
