import Wson.Effect.Program

/-!
# Runs that stay inside

`Confined harmless inside m s`: the run ends in a state inside, and what it throws is
harmless. Two rules for readers of items, the one for each direction:

- `Keeps m xs Q`: where the items `xs` stand, the run is confined, and whenever it returns,
  it has moved over them.
- `Reveals lo m spec`: whenever a run from an offset of `lo` on is confined, there are items
  of `spec` which it has moved over, or up to which it has come.

A sequence is confined only if its first part is, as long as the second part does not come
back from outside.
-/

namespace Effect

variable {ε σ α β : Type}

section Confined

variable (harmless : ε → Prop) (inside : σ → Prop)

def Confined (m : EStateM ε σ α) (s : σ) : Prop :=
  match m s with
  | .ok _ t => inside t
  | .error e t => harmless e ∧ inside t

variable {harmless inside}

theorem confined_of_ok {m : EStateM ε σ α} {s t : σ} {a : α} (h : m s = .ok a t) :
    Confined harmless inside m s ↔ inside t := by
  rw [Confined, h]

theorem confined_of_error {m : EStateM ε σ α} {s t : σ} {e : ε} (h : m s = .error e t) :
    Confined harmless inside m s ↔ harmless e ∧ inside t := by
  rw [Confined, h]

/-- Behind a part that returns, the rest is confined. -/
theorem confined_bind_of_ok {m : EStateM ε σ α} {f : α → EStateM ε σ β} {s t : σ} {a : α}
    (h : m s = .ok a t) : Confined harmless inside (m >>= f) s ↔ Confined harmless inside (f a) t := by
  rw [Confined, bind_of_ok h, Confined]

/-- **Sequencing**: the first part is confined, unless the second one comes back. -/
theorem Confined.of_bind {m : EStateM ε σ α} {f : α → EStateM ε σ β} {s : σ}
    (h : Confined harmless inside (m >>= f) s)
    (hout : ∀ a t, m s = .ok a t → Confined harmless inside (f a) t → inside t) :
    Confined harmless inside m s := by
  cases hms : m s with
  | ok a t =>
    rw [confined_of_ok hms]
    exact hout a t hms ((confined_bind_of_ok hms).mp h)
  | error e t =>
    rw [Confined, bind_of_error hms] at h
    exact (confined_of_error hms).mpr h

end Confined

section Items

variable {κ : Type} (data : List κ) (At : σ → Nat → Prop) (harmless : ε → Prop) (inside : σ → Prop)

/-- Where the items stand, the run is confined, and whenever it returns, it has moved over them. -/
def Keeps (m : EStateM ε σ α) (xs : List κ) (Q : α → Prop) : Prop :=
  ∀ s p rest, At s p → data.drop p = xs ++ rest →
    match m s with
    | .ok a t => At t (p + xs.length) ∧ Q a
    | .error e t => harmless e ∧ inside t

/-- Whenever the run is confined, the items stand there. If it returns, it has moved over them. -/
def Reveals (lo : Nat) (m : EStateM ε σ α) (spec : List κ → Option α → Prop) : Prop :=
  ∀ s p, lo ≤ p → At s p → Confined harmless inside m s → ∃ xs rest, data.drop p = xs ++ rest ∧
    match m s with
    | .ok a t => At t (p + xs.length) ∧ spec xs (some a)
    | .error _ _ => spec xs none

variable {data At harmless inside}

/-! ### From the items to the run -/

theorem keeps_pure {a : α} {Q : α → Prop} (h : Q a) :
    Keeps data At harmless inside (pure a) [] Q :=
  fun _ _ _ hs _ => ⟨hs, h⟩

theorem keeps_of_consumes {m : EStateM ε σ α} {xs : List κ} {a : α}
    (h : Consumes data At (returns m) xs a) : Keeps data At harmless inside m xs (· = a) := by
  intro s p rest hs hp
  obtain ⟨t, ht, hat⟩ := h s p rest hs hp
  rw [returns_eq_some.mp ht]
  exact ⟨hat, rfl⟩

theorem Keeps.mono {m : EStateM ε σ α} {xs : List κ} {Q R : α → Prop}
    (h : Keeps data At harmless inside m xs Q) (hQ : ∀ a, Q a → R a) :
    Keeps data At harmless inside m xs R := by
  intro s p rest hs hp
  have hrun := h s p rest hs hp
  cases hms : m s with
  | ok a t =>
    rw [hms] at hrun
    exact ⟨hrun.1, hQ a hrun.2⟩
  | error e t =>
    rw [hms] at hrun
    exact hrun

theorem Keeps.of_eq {m : EStateM ε σ α} {xs ys : List κ} {Q : α → Prop}
    (h : Keeps data At harmless inside m xs Q) (hxs : xs = ys) :
    Keeps data At harmless inside m ys Q :=
  hxs ▸ h

/-- **Sequencing**: what the parts move over stands one behind the other. -/
theorem Keeps.bind {m : EStateM ε σ α} {f : α → EStateM ε σ β} {xs ys : List κ} {Q : α → Prop}
    {R : β → Prop} (hm : Keeps data At harmless inside m xs Q)
    (hf : ∀ a, Q a → Keeps data At harmless inside (f a) ys R) :
    Keeps data At harmless inside (m >>= f) (xs ++ ys) R := by
  intro s p rest hs hp
  rw [List.append_assoc] at hp
  have hrun := hm s p _ hs hp
  cases hms : m s with
  | ok a t =>
    rw [hms] at hrun
    rw [bind_of_ok hms, List.length_append, ← Nat.add_assoc]
    exact hf a hrun.2 t _ rest hrun.1 (drop_append_of_drop hp)
  | error e t =>
    rw [hms] at hrun
    rw [bind_of_error hms]
    exact hrun

/-- Behind a part that does not return, nothing is run. -/
theorem Keeps.halt {m : EStateM ε σ α} {xs : List κ} (hm : Keeps data At harmless inside m xs fun _ => False)
    (f : α → EStateM ε σ β) (R : β → Prop) : Keeps data At harmless inside (m >>= f) xs R := by
  have hrest : Keeps data At harmless inside (m >>= f) (xs ++ []) R := hm.bind fun _ h => h.elim
  exact hrest.of_eq (List.append_nil xs)

/-! ### From the run to the items -/

theorem reveals_pure {lo : Nat} {a : α} {spec : List κ → Option α → Prop} (h : spec [] (some a)) :
    Reveals data At harmless inside lo (pure a) spec :=
  fun _ _ _ hs _ => ⟨[], _, rfl, hs, h⟩

theorem Reveals.of_le {lo lo' : Nat} {m : EStateM ε σ α} {spec : List κ → Option α → Prop}
    (h : Reveals data At harmless inside lo m spec) (hlo : lo ≤ lo') :
    Reveals data At harmless inside lo' m spec :=
  fun s p hp => h s p (hlo.trans hp)

theorem Reveals.mono {lo : Nat} {m : EStateM ε σ α} {spec spec' : List κ → Option α → Prop}
    (h : Reveals data At harmless inside lo m spec) (hspec : ∀ xs o, spec xs o → spec' xs o) :
    Reveals data At harmless inside lo m spec' := by
  intro s p hp hs hm
  obtain ⟨xs, rest, hd, hrun⟩ := h s p hp hs hm
  refine ⟨xs, rest, hd, ?_⟩
  cases hms : m s with
  | ok a t =>
    rw [hms] at hrun
    exact ⟨hrun.1, hspec xs _ hrun.2⟩
  | error e t =>
    rw [hms] at hrun
    exact hspec xs _ hrun

/-- **Sequencing**, where the second part does not come back from outside. -/
theorem Reveals.bind {lo : Nat} {m : EStateM ε σ α} {f : α → EStateM ε σ β}
    {spec : List κ → Option α → Prop} {spec' : List κ → Option β → Prop}
    (hm : Reveals data At harmless inside lo m spec)
    (hout : ∀ s p a t, At s p → m s = .ok a t → Confined harmless inside (f a) t → inside t)
    (hf : ∀ xs a, spec xs (some a) →
      Reveals data At harmless inside (lo + xs.length) (f a) fun ys o => spec' (xs ++ ys) o)
    (hstop : ∀ xs, spec xs none → spec' xs none) :
    Reveals data At harmless inside lo (m >>= f) spec' := by
  intro s p hlo hs hconfined
  obtain ⟨xs, rest, hd, hrun⟩ := hm s p hlo hs (hconfined.of_bind fun a t => hout s p a t hs)
  cases hms : m s with
  | ok a t =>
    rw [hms] at hrun
    obtain ⟨ys, rest', hd', hrun'⟩ := hf xs a hrun.2 t _ (Nat.add_le_add_right hlo _) hrun.1
      ((confined_bind_of_ok hms).mp hconfined)
    rw [drop_append_of_drop hd] at hd'
    refine ⟨xs ++ ys, rest', by rw [hd, hd', List.append_assoc], ?_⟩
    rw [bind_of_ok hms, List.length_append, ← Nat.add_assoc]
    exact hrun'
  | error e t =>
    rw [hms] at hrun
    refine ⟨xs, rest, hd, ?_⟩
    rw [bind_of_error hms]
    exact hstop xs hrun

end Items

end Effect
