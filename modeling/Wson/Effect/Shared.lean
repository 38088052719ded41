import Wson.Effect.Run

/-!
# Threads that share cells

A program of one thread is the tree of its accesses to cells that other threads use at the
same time; what it does between two accesses is its own business. A `Machine` runs the
programs of several threads, one access at each turn, in any order.

- `Ends p r n`: whatever the loads give, the program ends with `r`, after `n` accesses at
  the latest. Closed under sequencing (`Ends.bind`).
- `Machine.ends_run`: such a program ends so in every run of the machine, whatever the other
  threads do, once it has had so many turns.
-/

namespace Effect

inductive Access (C W R : Type) where
  | done (result : R)
  | load (cell : C) (next : W → Access C W R)
  | store (cell : C) (word : W) (next : Access C W R)

namespace Access

variable {C W R S : Type}

/-- The program, then another one that takes its result. -/
def bind (p : Access C W R) (f : R → Access C W S) : Access C W S :=
  match p with
  | done result => f result
  | load cell next => load cell fun word => (next word).bind f
  | store cell word next => store cell word (next.bind f)

/-- The program ends with `r` whatever it loads, after `n` accesses at the latest. -/
inductive Ends : Access C W R → R → Nat → Prop
  | done (r : R) (n : Nat) : Ends (done r) r n
  | load {cell : C} {next : W → Access C W R} {r : R} {n : Nat} (h : ∀ word, Ends (next word) r n) :
    Ends (load cell next) r (n + 1)
  | store {cell : C} {word : W} {next : Access C W R} {r : R} {n : Nat} (h : Ends next r n) :
    Ends (store cell word next) r (n + 1)

theorem Ends.mono {p : Access C W R} {r : R} {n m : Nat} (h : Ends p r n) (hle : n ≤ m) :
    Ends p r m := by
  induction h generalizing m with
  | done r n => exact .done r m
  | load h ih =>
    obtain ⟨m, rfl⟩ : ∃ k, m = k + 1 := ⟨m - 1, by omega⟩
    exact .load fun word => ih word (Nat.le_of_succ_le_succ hle)
  | store h ih =>
    obtain ⟨m, rfl⟩ : ∃ k, m = k + 1 := ⟨m - 1, by omega⟩
    exact .store (ih (Nat.le_of_succ_le_succ hle))

/-- **Sequencing**: the accesses add up. -/
theorem Ends.bind {p : Access C W R} {f : R → Access C W S} {r : R} {s : S} {n m : Nat}
    (hp : Ends p r n) (hf : Ends (f r) s m) : Ends (p.bind f) s (n + m) := by
  induction hp with
  | done r n => exact hf.mono (Nat.le_add_left m n)
  | load h ih =>
    rw [Nat.add_right_comm]
    exact .load fun word => ih word hf
  | store h ih =>
    rw [Nat.add_right_comm]
    exact .store (ih hf)

theorem Ends.eq_done {p : Access C W R} {r : R} (h : Ends p r 0) : p = .done r := by
  cases h with
  | done r n => rfl

theorem Ends.result_eq {r s : R} {n : Nat} (h : Ends (.done s : Access C W R) r n) : s = r := by
  cases h with
  | done r n => rfl

end Access

/-! ## Machines -/

/-- The cells and what the threads still have to do. -/
structure Machine (ι C W R : Type) where
  memory : C → W
  threads : ι → Access C W R

namespace Machine

variable {ι C W R : Type} [DecidableEq ι] [DecidableEq C]

/-- The next access of the thread, if it has one left. -/
def step (s : Machine ι C W R) (i : ι) : Machine ι C W R :=
  match s.threads i with
  | .done _ => s
  | .load cell next => { s with threads := Function.update s.threads i (next (s.memory cell)) }
  | .store cell word next =>
    { memory := Function.update s.memory cell word
      threads := Function.update s.threads i next }

/-- The other threads are where they were. -/
theorem step_threads_of_ne (s : Machine ι C W R) {i j : ι} (h : j ≠ i) :
    (s.step i).threads j = s.threads j := by
  unfold step
  split
  · rfl
  · exact Function.update_of_ne h _ _
  · exact Function.update_of_ne h _ _

/-- A turn of its own takes a thread one access further. -/
theorem ends_step_self {s : Machine ι C W R} {i : ι} {r : R} {n : Nat}
    (h : (s.threads i).Ends r n) : ((s.step i).threads i).Ends r (n - 1) := by
  unfold step
  generalize hp : s.threads i = p at h
  cases h with
  | done =>
    dsimp only
    rw [hp]
    exact .done r _
  | load h =>
    dsimp only
    rw [Function.update_self, Nat.add_sub_cancel]
    exact h _
  | store h =>
    dsimp only
    rw [Function.update_self, Nat.add_sub_cancel]
    exact h

/-- **Wait-free**: the turns of a thread count, those of the others do not matter. -/
theorem ends_run {s : Machine ι C W R} {i : ι} {r : R} {n : Nat} (h : (s.threads i).Ends r n)
    (turns : List ι) : ((run step s turns).threads i).Ends r (n - turns.count i) := by
  induction turns generalizing s n with
  | nil => exact h
  | cons j turns ih =>
    rw [run_cons, List.count_cons]
    by_cases hij : j = i
    · subst hij
      have hrest := ih (ends_step_self h)
      rw [if_pos (beq_self_eq_true j)]
      rwa [Nat.sub_sub, Nat.add_comm] at hrest
    · rw [if_neg (by simpa using hij), Nat.add_zero]
      refine ih ?_
      rw [step_threads_of_ne s (Ne.symm hij)]
      exact h

end Machine

end Effect
