import Mathlib.Tactic

/-!
# Programs with exceptions over a state

A program is an `EStateM` computation: it ends by returning or by throwing, and
a throw keeps the state it was reached in (nothing is rolled back when it is
caught). Two views of a program, each with the rules that compose it:

- `returns m`: the runs that return, as a partial state transformer. It is a
  monad morphism (`returns_pure`, `returns_bind`), so the runs of a program
  without handlers are computed from the runs of its parts.
- `Preserves R m`: whichever way a run ends, its last state is `R`-related to
  its first. Closed under sequencing and handlers when `R` is a preorder.

`zoom` runs a program on one component of a larger state, and `Consumes` is the
rule for programs that read their input from left to right.
-/

namespace Effect

variable {ε σ τ α β : Type}

/-! ## Runs that return -/

/-- The runs of `m` that return: value and last state. -/
def returns (m : EStateM ε σ α) : StateT σ Option α := fun s =>
  match m s with
  | .ok a s' => some (a, s')
  | .error _ _ => none

theorem returns_eq_some {m : EStateM ε σ α} {s s' : σ} {a : α} :
    returns m s = some (a, s') ↔ m s = .ok a s' := by
  unfold returns
  cases h : m s with
  | ok b t => simp
  | error e t => simp

@[simp] theorem returns_pure (a : α) (s : σ) :
    returns (pure a : EStateM ε σ α) s = some (a, s) := rfl

@[simp] theorem returns_get (s : σ) :
    returns (get : EStateM ε σ σ) s = some (s, s) := rfl

@[simp] theorem returns_modify (f : σ → σ) (s : σ) :
    returns (modify f : EStateM ε σ PUnit) s = some (⟨⟩, f s) := rfl

/-- **Sequencing**: a sequence returns when both parts do. -/
theorem returns_bind (m : EStateM ε σ α) (f : α → EStateM ε σ β) (s : σ) :
    returns (m >>= f) s = (returns m s).bind fun p => returns (f p.1) p.2 := by
  show returns (EStateM.bind m f) s = _
  unfold returns EStateM.bind
  cases m s <;> rfl

theorem returns_bind_eq (m : EStateM ε σ α) (f : α → EStateM ε σ β) :
    returns (m >>= f) = returns m >>= fun a => returns (f a) :=
  funext (returns_bind m f)

theorem returns_map (m : EStateM ε σ α) (f : α → β) (s : σ) :
    returns (f <$> m) s = (returns m s).map fun p => (f p.1, p.2) := by
  show returns (EStateM.map f m) s = _
  unfold returns EStateM.map
  cases m s <;> rfl

theorem returns_ite {c : Prop} [Decidable c] (m m' : EStateM ε σ α) (s : σ) :
    returns (if c then m else m') s = if c then returns m s else returns m' s := by
  split <;> rfl

/-- A handler does not change a run that returns. -/
theorem returns_tryCatch {m : EStateM ε σ α} {h : ε → EStateM ε σ α} {s s' : σ} {a : α}
    (hm : returns m s = some (a, s')) : returns (tryCatch m h) s = some (a, s') := by
  rw [returns_eq_some] at hm ⊢
  show EStateM.tryCatch m h s = _
  unfold EStateM.tryCatch
  rw [hm]

theorem bind_of_ok {m : EStateM ε σ α} {s t : σ} {a : α} (h : m s = .ok a t) (f : α → EStateM ε σ β) :
    (m >>= f) s = f a t := by
  show EStateM.bind m f s = _
  unfold EStateM.bind
  rw [h]

theorem bind_of_error {m : EStateM ε σ α} {s t : σ} {e : ε} (h : m s = .error e t)
    (f : α → EStateM ε σ β) : (m >>= f) s = .error e t := by
  show EStateM.bind m f s = _
  unfold EStateM.bind
  rw [h]

/-- A run with a handler returns from the program or from the handler. -/
theorem tryCatch_eq_ok {m : EStateM ε σ α} {h : ε → EStateM ε σ α} {s s' : σ} {a : α} :
    tryCatch m h s = .ok a s' ↔ m s = .ok a s' ∨ ∃ e t, m s = .error e t ∧ h e t = .ok a s' := by
  show EStateM.tryCatch m h s = _ ↔ _
  unfold EStateM.tryCatch
  cases hms : m s with
  | ok b t => simp
  | error e t =>
    constructor
    · exact fun hrun => .inr ⟨e, t, rfl, hrun⟩
    · rintro (hrun | ⟨e', t', hrun, hhandler⟩)
      · exact nomatch hrun
      · obtain ⟨rfl, rfl⟩ := EStateM.Result.error.inj hrun
        exact hhandler

/-! ## What every run preserves -/

/-- The state in which a run ends, by returning or by throwing. -/
def final (m : EStateM ε σ α) (s : σ) : σ :=
  match m s with
  | .ok _ s' => s'
  | .error _ s' => s'

theorem final_of_ok {m : EStateM ε σ α} {s s' : σ} {a : α} (h : m s = .ok a s') :
    final m s = s' := by
  rw [final, h]

theorem final_of_error {m : EStateM ε σ α} {s s' : σ} {e : ε} (h : m s = .error e s') :
    final m s = s' := by
  rw [final, h]

/-- However a run of `m` ends, its first and last states are related. -/
def Preserves (R : σ → σ → Prop) (m : EStateM ε σ α) : Prop :=
  ∀ s, R s (final m s)

section Preserves

variable {R : σ → σ → Prop}

theorem Preserves.of_ok {m : EStateM ε σ α} (h : Preserves R m) {s s' : σ} {a : α}
    (hm : m s = .ok a s') : R s s' := by
  simpa only [final, hm] using h s

theorem Preserves.of_error {m : EStateM ε σ α} (h : Preserves R m) {s s' : σ} {e : ε}
    (hm : m s = .error e s') : R s s' := by
  simpa only [final, hm] using h s

theorem preserves_pure (hrefl : ∀ s, R s s) (a : α) :
    Preserves R (pure a : EStateM ε σ α) :=
  hrefl

theorem preserves_throw (hrefl : ∀ s, R s s) (e : ε) :
    Preserves R (throw e : EStateM ε σ α) :=
  hrefl

theorem preserves_get (hrefl : ∀ s, R s s) :
    Preserves R (get : EStateM ε σ σ) :=
  hrefl

theorem preserves_modify {f : σ → σ} (hf : ∀ s, R s (f s)) :
    Preserves R (modify f : EStateM ε σ PUnit) :=
  hf

/-- **Sequencing**, where the two parts keep different relations. -/
theorem Preserves.seq {S T : σ → σ → Prop} (hR : ∀ ⦃s t⦄, R s t → T s t)
    (hRS : ∀ ⦃s t u⦄, R s t → S t u → T s u) {m : EStateM ε σ α} {f : α → EStateM ε σ β}
    (hm : Preserves R m) (hf : ∀ a, Preserves S (f a)) : Preserves T (m >>= f) := by
  intro s
  show T s (final (EStateM.bind m f) s)
  have h := hm s
  unfold final EStateM.bind at *
  cases hms : m s with
  | ok a t =>
    simp only [hms] at h ⊢
    have h' := hf a t
    unfold final at h'
    exact hRS h h'
  | error e t =>
    simp only [hms] at h ⊢
    exact hR h

/-- Sequencing, where the second part may use that the first part has returned its argument. -/
theorem Preserves.bind_of_ok (htrans : ∀ ⦃s t u⦄, R s t → R t u → R s u)
    {m : EStateM ε σ α} {f : α → EStateM ε σ β} (hm : Preserves R m)
    (hf : ∀ a s t, m s = .ok a t → Preserves R (f a)) : Preserves R (m >>= f) := by
  intro s
  show R s (final (EStateM.bind m f) s)
  have h := hm s
  unfold final EStateM.bind at *
  cases hms : m s with
  | ok a t =>
    simp only [hms] at h ⊢
    have h' := hf a s t hms t
    unfold final at h'
    exact htrans h h'
  | error e t => simpa only [hms] using h

theorem Preserves.bind (htrans : ∀ ⦃s t u⦄, R s t → R t u → R s u)
    {m : EStateM ε σ α} {f : α → EStateM ε σ β} (hm : Preserves R m)
    (hf : ∀ a, Preserves R (f a)) : Preserves R (m >>= f) :=
  hm.seq (fun _ _ h => h) htrans hf

theorem Preserves.tryCatch (htrans : ∀ ⦃s t u⦄, R s t → R t u → R s u)
    {m : EStateM ε σ α} {h : ε → EStateM ε σ α} (hm : Preserves R m)
    (hh : ∀ e, Preserves R (h e)) : Preserves R (tryCatch m h) := by
  intro s
  show R s (final (EStateM.tryCatch m h) s)
  have hs := hm s
  unfold final EStateM.tryCatch at *
  cases hms : m s with
  | ok a t => simpa only [hms] using hs
  | error e t =>
    simp only [hms] at hs ⊢
    have h' := hh e t
    unfold final at h'
    exact htrans hs h'

theorem Preserves.ite {c : Prop} [Decidable c] {m m' : EStateM ε σ α}
    (hm : Preserves R m) (hm' : Preserves R m') : Preserves R (if c then m else m') := by
  split
  · exact hm
  · exact hm'

theorem Preserves.forM (hrefl : ∀ s, R s s) (htrans : ∀ ⦃s t u⦄, R s t → R t u → R s u)
    {f : α → EStateM ε σ PUnit} :
    ∀ {xs : List α}, (∀ x ∈ xs, Preserves R (f x)) → Preserves R (xs.forM f)
  | [], _ => preserves_pure hrefl _
  | x :: xs, h => by
    show Preserves R (f x >>= fun _ => xs.forM f)
    refine (h x List.mem_cons_self).bind htrans fun _ => ?_
    exact Preserves.forM hrefl htrans fun y hy => h y (List.mem_cons_of_mem x hy)

theorem Preserves.mono {R' : σ → σ → Prop} {m : EStateM ε σ α} (h : Preserves R m)
    (hR : ∀ ⦃s t⦄, R s t → R' s t) : Preserves R' m :=
  fun s => hR (h s)

end Preserves

/-! ## What no run throws -/

/-- No run of `m` ends by throwing `e`. -/
def NeverThrows (e : ε) (m : EStateM ε σ α) : Prop :=
  ∀ s s', m s ≠ .error e s'

section NeverThrows

variable {e : ε}

theorem neverThrows_pure (a : α) : NeverThrows e (pure a : EStateM ε σ α) :=
  fun _ _ h => nomatch h

theorem neverThrows_throw {e' : ε} (h : e' ≠ e) : NeverThrows e (throw e' : EStateM ε σ α) :=
  fun _ _ heq => h (EStateM.Result.error.inj heq).1

theorem neverThrows_get : NeverThrows e (get : EStateM ε σ σ) :=
  fun _ _ h => nomatch h

theorem neverThrows_modify (f : σ → σ) : NeverThrows e (modify f : EStateM ε σ PUnit) :=
  fun _ _ h => nomatch h

theorem NeverThrows.bind {m : EStateM ε σ α} {f : α → EStateM ε σ β} (hm : NeverThrows e m)
    (hf : ∀ a, NeverThrows e (f a)) : NeverThrows e (m >>= f) := by
  intro s u h
  cases hms : m s with
  | ok a t =>
    rw [bind_of_ok hms] at h
    exact hf a t u h
  | error e' t =>
    rw [bind_of_error hms] at h
    obtain ⟨rfl, rfl⟩ := EStateM.Result.error.inj h
    exact hm s t hms

theorem NeverThrows.ite {c : Prop} [Decidable c] {m m' : EStateM ε σ α} (hm : NeverThrows e m)
    (hm' : NeverThrows e m') : NeverThrows e (if c then m else m') := by
  split
  · exact hm
  · exact hm'

end NeverThrows

/-! ## A component of the state -/

/-- Run `m` on the component of the state that `get` reads and `put` replaces. -/
def zoom (get : σ → τ) (put : τ → σ → σ) (m : EStateM ε τ α) : EStateM ε σ α := fun s =>
  match m (get s) with
  | .ok a t => .ok a (put t s)
  | .error e t => .error e (put t s)

section Zoom

variable {get : σ → τ} {put : τ → σ → σ}

theorem returns_zoom (m : EStateM ε τ α) (s : σ) :
    returns (zoom get put m) s = (returns m (get s)).map fun p => (p.1, put p.2 s) := by
  unfold returns zoom
  cases m (get s) <;> rfl

theorem preserves_zoom {R : σ → σ → Prop} {Q : τ → τ → Prop} {m : EStateM ε τ α}
    (hm : Preserves Q m) (hR : ∀ s t, Q (get s) t → R s (put t s)) :
    Preserves R (zoom get put m) := by
  intro s
  have h := hm (get s)
  unfold final zoom at *
  cases hms : m (get s) with
  | ok a t => exact hR s t (by simpa only [hms] using h)
  | error e t => exact hR s t (by simpa only [hms] using h)

end Zoom

/-! ## Reading from left to right -/

section Consumes

variable {κ : Type} (data : List κ) (At : σ → Nat → Prop)

/-- Started at an offset of `data` where the items `xs` stand, `m` returns `a`
and stops right behind them. `At s p` says that state `s` stands at offset `p`. -/
def Consumes (m : StateT σ Option α) (xs : List κ) (a : α) : Prop :=
  ∀ s p rest, At s p → data.drop p = xs ++ rest →
    ∃ s', m s = some (a, s') ∧ At s' (p + xs.length)

variable {data At}

theorem consumes_pure (a : α) : Consumes data At (pure a) [] a :=
  fun s _ _ hs _ => ⟨s, rfl, hs⟩

theorem drop_append_of_drop {p : Nat} {s rest : List κ} (h : data.drop p = s ++ rest) :
    data.drop (p + s.length) = rest := by
  rw [← List.drop_drop, h, List.drop_left]

/-- **Sequencing**: what two readers consume one after the other. -/
theorem Consumes.bind {m : StateT σ Option α} {f : α → StateT σ Option β}
    {xs ys : List κ} {a : α} {b : β} (hm : Consumes data At m xs a)
    (hf : Consumes data At (f a) ys b) : Consumes data At (m >>= f) (xs ++ ys) b := by
  intro s p rest hs hp
  rw [List.append_assoc] at hp
  obtain ⟨t, hmt, ht⟩ := hm s p (ys ++ rest) hs hp
  obtain ⟨u, hfu, hu⟩ := hf t _ rest ht (drop_append_of_drop hp)
  refine ⟨u, ?_, ?_⟩
  · show (m s).bind _ = _
    rw [hmt]
    exact hfu
  · rwa [List.length_append, ← Nat.add_assoc]

/-- A reader in front that reads nothing of its own. -/
theorem Consumes.of_eq {m : StateT σ Option α} {xs xs' : List κ} {a a' : α}
    (hm : Consumes data At m xs a) (hxs : xs = xs') (ha : a = a') :
    Consumes data At m xs' a' := by
  subst hxs ha
  exact hm

theorem Consumes.map {m : StateT σ Option α} {xs : List κ} {a : α} (f : α → β)
    (hm : Consumes data At m xs a) : Consumes data At (f <$> m) xs (f a) := by
  intro s p rest hs hp
  obtain ⟨t, hmt, ht⟩ := hm s p rest hs hp
  refine ⟨t, ?_, ht⟩
  show (m s).bind _ = _
  rw [hmt]
  rfl

/-- One read whose result is wrapped. -/
theorem consumes_wrap {m : EStateM ε σ α} {xs : List κ} {a : α} {f : α → β}
    (h : Consumes data At (returns m) xs a) :
    Consumes data At (returns (do return f (← m))) xs (f a) := by
  rw [returns_bind_eq]
  refine (h.bind ?_).of_eq (List.append_nil _) rfl
  exact consumes_pure (f a)

/-! ### Readers at one offset -/

section ConsumesAt

variable {p : Nat}

variable (data At p) in
/-- The same for a reader that is started at the offset `p`. -/
def ConsumesAt (m : StateT σ Option α) (xs : List κ) (a : α) : Prop :=
  ∀ s rest, At s p → data.drop p = xs ++ rest → ∃ s', m s = some (a, s') ∧ At s' (p + xs.length)

theorem Consumes.consumesAt {m : StateT σ Option α} {xs : List κ} {a : α} (h : Consumes data At m xs a) :
    ConsumesAt data At p m xs a :=
  fun s rest => h s p rest

theorem ConsumesAt.bind {m : StateT σ Option α} {f : α → StateT σ Option β} {xs ys : List κ} {a : α} {b : β}
    (hm : ConsumesAt data At p m xs a) (hf : ConsumesAt data At (p + xs.length) (f a) ys b) :
    ConsumesAt data At p (m >>= f) (xs ++ ys) b := by
  intro s rest hs hp
  rw [List.append_assoc] at hp
  obtain ⟨t, hmt, ht⟩ := hm s (ys ++ rest) hs hp
  obtain ⟨u, hfu, hu⟩ := hf t rest ht (drop_append_of_drop hp)
  refine ⟨u, ?_, ?_⟩
  · show (m s).bind _ = _
    rw [hmt]
    exact hfu
  · rwa [List.length_append, ← Nat.add_assoc]

theorem ConsumesAt.of_eq {m : StateT σ Option α} {xs xs' : List κ} {a a' : α}
    (hm : ConsumesAt data At p m xs a) (hxs : xs = xs') (ha : a = a') : ConsumesAt data At p m xs' a' := by
  subst hxs ha
  exact hm

theorem consumesAt_wrap {m : EStateM ε σ α} {xs : List κ} {a : α} {f : α → β}
    (h : ConsumesAt data At p (returns m) xs a) :
    ConsumesAt data At p (returns (do return f (← m))) xs (f a) := by
  rw [returns_bind_eq]
  refine (h.bind ?_).of_eq (List.append_nil _) rfl
  exact (consumes_pure (f a)).consumesAt

end ConsumesAt

/-! ### Readers that may stop -/

variable (data At)

/-- Started where the items `xs` stand, `m` consumes them and returns the answer, or it does not
return where there is none. -/
def Answers (m : StateT σ Option α) (xs : List κ) : Option α → Prop
  | some a => Consumes data At m xs a
  | none => ∀ s p rest, At s p → data.drop p = xs ++ rest → m s = none

variable {data At}

/-- **Sequencing**: the second reader only matters where the first one has an answer. -/
theorem Answers.bind {m : StateT σ Option α} {f : α → StateT σ Option β} {xs ys : List κ}
    {o : Option α} {g : α → Option β} (hm : Answers data At m xs o)
    (hf : ∀ a, o = some a → Answers data At (f a) ys (g a)) :
    Answers data At (m >>= f) (xs ++ ys) (o.bind g) := by
  cases o with
  | none =>
    intro s p rest hs hp
    rw [List.append_assoc] at hp
    show (m s).bind _ = none
    rw [hm s p _ hs hp]
    rfl
  | some a =>
    have hf := hf a rfl
    show Answers data At (m >>= f) (xs ++ ys) (g a)
    cases hg : g a with
    | none =>
      intro s p rest hs hp
      rw [List.append_assoc] at hp
      rw [hg] at hf
      obtain ⟨t, hmt, ht⟩ := hm s p _ hs hp
      show (m s).bind _ = none
      rw [hmt]
      exact hf t _ rest ht (drop_append_of_drop hp)
    | some b =>
      rw [hg] at hf
      exact Consumes.bind hm hf

/-- The items of a reader, split where they are needed. -/
theorem Answers.of_eq {m : StateT σ Option α} {xs xs' : List κ} {o o' : Option α}
    (hm : Answers data At m xs o) (hxs : xs = xs') (ho : o = o') : Answers data At m xs' o' := by
  subst hxs ho
  exact hm

/-- Another reader that does the same where these items stand. -/
theorem Answers.congr {m m' : StateT σ Option α} {xs : List κ} {o : Option α}
    (hm : Answers data At m xs o)
    (h : ∀ s p rest, At s p → data.drop p = xs ++ rest → m' s = m s) : Answers data At m' xs o := by
  cases o with
  | none =>
    intro s p rest hs hp
    rw [h s p rest hs hp]
    exact hm s p rest hs hp
  | some a =>
    intro s p rest hs hp
    rw [h s p rest hs hp]
    exact hm s p rest hs hp

/-- A reader that always has an answer comes first. -/
theorem Consumes.answers {m : StateT σ Option α} {f : α → StateT σ Option β} {xs ys : List κ}
    {a : α} {o : Option β} (hm : Consumes data At m xs a) (hf : Answers data At (f a) ys o) :
    Answers data At (m >>= f) (xs ++ ys) o :=
  Answers.bind (o := some a) (g := fun _ => o) hm fun _ h => Option.some.inj h ▸ hf

/-- One read whose result is wrapped. -/
theorem answers_wrap {m : EStateM ε σ α} {xs : List κ} {o : Option α} {f : α → β}
    (h : Answers data At (returns m) xs o) :
    Answers data At (returns (do return f (← m))) xs (o.map f) := by
  rw [returns_bind_eq]
  refine (h.bind (g := fun a => some (f a)) fun a _ => consumes_pure (f a)).of_eq
    (List.append_nil _) ?_
  cases o <;> rfl

/-- What a reader returns at the items is its answer. -/
theorem Answers.eq_map {m : StateT σ Option α} {xs rest : List κ} {o : Option α} {s : σ} {p : Nat}
    (h : Answers data At m xs o) (hs : At s p) (hp : data.drop p = xs ++ rest) :
    (m s).map Prod.fst = o := by
  cases o with
  | none => rw [h s p rest hs hp, Option.map_none]
  | some a =>
    obtain ⟨t, ht, -⟩ := h s p rest hs hp
    rw [ht, Option.map_some]

/-! ### Runs that return -/

variable (data At)

/-- Conversely, whenever `m` returns it has moved over items that `spec` relates to the
result. -/
def Produces (m : StateT σ Option α) (spec : List κ → α → Prop) : Prop :=
  ∀ s p a s', At s p → m s = some (a, s') →
    ∃ xs rest, data.drop p = xs ++ rest ∧ spec xs a ∧ At s' (p + xs.length)

variable {data At}

theorem Produces.mono {m : StateT σ Option α} {spec spec' : List κ → α → Prop}
    (hm : Produces data At m spec) (h : ∀ xs a, spec xs a → spec' xs a) :
    Produces data At m spec' := by
  intro s p a s' hp hs
  obtain ⟨xs, rest, hd, hx, hp'⟩ := hm s p a s' hp hs
  exact ⟨xs, rest, hd, h xs a hx, hp'⟩

theorem produces_pure (a : α) :
    Produces data At (pure a) fun xs b => xs = [] ∧ b = a := by
  intro s p b s' hp hs
  obtain ⟨rfl, rfl⟩ := Prod.mk.inj (Option.some.inj hs)
  exact ⟨[], _, rfl, ⟨rfl, rfl⟩, hp⟩

/-- **Sequencing**: the items of the first part, then those of the second. -/
theorem Produces.seq {m : StateT σ Option α} {f : α → StateT σ Option β}
    {spec : List κ → α → Prop} {spec' : List κ → β → Prop} (hm : Produces data At m spec)
    (hf : ∀ xs a, spec xs a → Produces data At (f a) fun ys b => spec' (xs ++ ys) b) :
    Produces data At (m >>= f) spec' := by
  intro s p b u hp h
  obtain ⟨⟨a, t⟩, hmt, hfu⟩ := Option.bind_eq_some_iff.mp h
  obtain ⟨xs, rest, hd, hx, ht⟩ := hm s p a t hp hmt
  obtain ⟨ys, rest', hd', hy, hu⟩ := hf xs a hx t _ b u ht hfu
  rw [drop_append_of_drop hd] at hd'
  refine ⟨xs ++ ys, rest', ?_, hy, ?_⟩
  · rw [hd, hd', List.append_assoc]
  · rwa [List.length_append, ← Nat.add_assoc]

/-- The specification of a sequence, from those of its parts. -/
theorem Produces.bind {m : StateT σ Option α} {f : α → StateT σ Option β}
    {spec : List κ → α → Prop} {spec' : α → List κ → β → Prop}
    (hm : Produces data At m spec) (hf : ∀ a, Produces data At (f a) (spec' a)) :
    Produces data At (m >>= f) fun zs b =>
      ∃ xs ys a, zs = xs ++ ys ∧ spec xs a ∧ spec' a ys b :=
  hm.seq fun xs a hx => (hf a).mono fun ys _ hy => ⟨xs, ys, a, rfl, hx, hy⟩

/-- Nothing is read at the end. -/
theorem produces_return {b : β} {spec : List κ → β → Prop} (h : spec [] b) :
    Produces data At (pure b) spec :=
  (produces_pure b).mono fun _ _ ⟨hxs, hb⟩ => hxs ▸ hb ▸ h

/-- A reader of `k` items, which only returns where that many are left. -/
theorem produces_of_consumes {m : StateT σ Option α} {k : Nat} {f : List κ → α}
    (hlen : ∀ s p r, At s p → m s = some r → p + k ≤ data.length)
    (hm : ∀ {xs}, xs.length = k → Consumes data At m xs (f xs)) :
    Produces data At m fun xs a => xs.length = k ∧ a = f xs := by
  intro s p a s' hp h
  have hk := hlen s p _ hp h
  have hd : data.drop p = (data.drop p).take k ++ data.drop (p + k) := by
    rw [← List.drop_drop, List.take_append_drop]
  have hxs : ((data.drop p).take k).length = k := by
    rw [List.length_take, List.length_drop]
    omega
  obtain ⟨t, ht, hp'⟩ := hm hxs s p _ hp hd
  obtain ⟨rfl, rfl⟩ := Prod.mk.inj (Option.some.inj (h.symm.trans ht))
  exact ⟨_, _, hd, ⟨hxs, rfl⟩, hp'⟩

end Consumes

end Effect
