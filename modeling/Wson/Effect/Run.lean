import Mathlib.Tactic

/-!
# Runs

A run folds a step function over a list of events. `Along step cond s es` says that
every event of the run meets a condition in the state it finds; an invariant that
the steps meeting the condition preserve holds in every state of such a run
(`Along.invariant`).

`Always m Q` is about a single program without exceptions: whatever state it starts in,
its result meets `Q`. `Alike R m m'` is about two of them: from the same state they end
in the same state, with results that `R` relates.
-/

namespace Effect

variable {σ ε : Type} (step : σ → ε → σ)

/-- The state after the events. -/
def run (s : σ) (es : List ε) : σ :=
  es.foldl step s

/-- Each event of the run meets the condition in the state it finds. -/
def Along (cond : σ → ε → Prop) : σ → List ε → Prop
  | _, [] => True
  | s, e :: es => cond s e ∧ Along cond (step s e) es

@[simp] theorem run_nil (s : σ) : run step s [] = s := rfl

@[simp] theorem run_cons (s : σ) (e : ε) (es : List ε) :
    run step s (e :: es) = run step (step s e) es := rfl

variable {step} {cond : σ → ε → Prop}

/-- **Invariants of runs**: what holds at first and is kept by every step that meets the
condition holds at the end. -/
theorem Along.invariant {inv : σ → Prop} (hstep : ∀ s e, cond s e → inv s → inv (step s e)) :
    ∀ {es : List ε} {s : σ}, Along step cond s es → inv s → inv (run step s es)
  | [], _, _, hs => hs
  | e :: es, s, h, hs => by
    have htail : Along step cond (step s e) es := h.2
    exact htail.invariant hstep (hstep s e h.1 hs)

/-- **Two conditions**: where an invariant makes them the same for every step, and one of them
preserves it, they are the same along a run. -/
theorem Along.iff_of_invariant {allowed cond' : σ → ε → Prop} {inv : σ → Prop}
    (hstep : ∀ s e, allowed s e → cond s e → inv s → inv (step s e))
    (hiff : ∀ s e, allowed s e → inv s → (cond' s e ↔ cond s e)) {es : List ε} {s : σ}
    (hallowed : Along step allowed s es) (hs : inv s) :
    Along step cond' s es ↔ Along step cond s es := by
  induction es generalizing s with
  | nil => exact Iff.rfl
  | cons e es ih =>
    obtain ⟨he, hes⟩ := hallowed
    have hhead := hiff s e he hs
    constructor
    · rintro ⟨h, htail⟩
      have hcond := hhead.mp h
      exact ⟨hcond, (ih hes (hstep s e he hcond hs)).mp htail⟩
    · rintro ⟨h, htail⟩
      exact ⟨hhead.mpr h, (ih hes (hstep s e he h hs)).mpr htail⟩

/-! ## Results -/

section Always

variable {α β : Type}

/-- The result of the program meets `Q`, whatever the state. -/
def Always (m : StateM σ α) (Q : α → Prop) : Prop :=
  ∀ s, Q (m s).1

theorem always_true (m : StateM σ α) : Always m fun _ => True :=
  fun _ => trivial

theorem always_pure {a : α} {Q : α → Prop} (h : Q a) : Always (pure a : StateM σ α) Q :=
  fun _ => h

theorem Always.mono {m : StateM σ α} {Q R : α → Prop} (hm : Always m Q) (h : ∀ a, Q a → R a) :
    Always m R :=
  fun s => h _ (hm s)

theorem Always.and {m : StateM σ α} {Q R : α → Prop} (hq : Always m Q) (hr : Always m R) :
    Always m fun a => Q a ∧ R a :=
  fun s => ⟨hq s, hr s⟩

/-- **Sequencing**: the second part may use what the first part has established. -/
theorem Always.bind {m : StateM σ α} {f : α → StateM σ β} {Q : α → Prop} {R : β → Prop}
    (hm : Always m Q) (hf : ∀ a, Q a → Always (f a) R) : Always (m >>= f) R :=
  fun s => hf _ (hm s) _

end Always

/-! ## Two programs -/

section Alike

variable {α α' β β' : Type}

/-- From the same state, the programs end in the same state, with related results. -/
def Alike (R : α → β → Prop) (m : StateM σ α) (m' : StateM σ β) : Prop :=
  ∀ s, R (m s).1 (m' s).1 ∧ (m s).2 = (m' s).2

theorem alike_pure {R : α → β → Prop} {a : α} {b : β} (h : R a b) :
    Alike R (pure a : StateM σ α) (pure b : StateM σ β) :=
  fun _ => ⟨h, rfl⟩

theorem Alike.refl {R : α → α → Prop} (hrefl : ∀ a, R a a) (m : StateM σ α) : Alike R m m :=
  fun _ => ⟨hrefl _, rfl⟩

theorem Alike.mono {R R' : α → β → Prop} {m : StateM σ α} {m' : StateM σ β} (hm : Alike R m m')
    (h : ∀ a b, R a b → R' a b) : Alike R' m m' :=
  fun s => ⟨h _ _ (hm s).1, (hm s).2⟩

/-- **Sequencing**: the second parts may use that the results of the first are related. -/
theorem Alike.bind {R : α → β → Prop} {R' : α' → β' → Prop} {m : StateM σ α} {m' : StateM σ β}
    {f : α → StateM σ α'} {f' : β → StateM σ β'} (hm : Alike R m m')
    (hf : ∀ a b, R a b → Alike R' (f a) (f' b)) : Alike R' (m >>= f) (m' >>= f') := by
  intro s
  obtain ⟨hresult, hstate⟩ := hm s
  have htail := hf _ _ hresult (m s).2
  rw [show (m' >>= f') s = f' (m' s).1 (m' s).2 from rfl, ← hstate]
  exact htail

/-- Sequencing behind the same program. -/
theorem Alike.bind_same {R : α' → β' → Prop} {m : StateM σ α} {f : α → StateM σ α'}
    {f' : α → StateM σ β'} (hf : ∀ a, Alike R (f a) (f' a)) : Alike R (m >>= f) (m >>= f') :=
  (Alike.refl (fun _ => rfl) m).bind fun a _ hab => hab ▸ hf a

end Alike

end Effect
