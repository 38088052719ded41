import Mathlib.Data.List.DropRight
import Mathlib.Data.List.Nodup
import Mathlib.Tactic

/-!
# Maps in the order of access

A map as the list of its entries from the one used longest ago to the one used last, over
arbitrary keys and values. `touch` makes an entry the last one, `remove` takes it out, and
evicting keeps a suffix (`List.rtake`, `trim`).

- `total w`: the sum of the weights of the entries; `total_touch`, `total_remove`.
- `Includes m small big`: the inclusion property of least recently used maps. The small map
  is a sublist of the big one, which has at most `m` entries more; all operations keep it.
- `touch_behind`, `rtake_behind`: what stands behind an entry, and when it is evicted.
-/

namespace Recency

variable {K V M : Type} [DecidableEq K]

/-! ## Operations -/

def lookup (key : K) (l : List (K × V)) : Option V :=
  (l.find? fun entry => entry.1 = key).map Prod.snd

def remove (key : K) (l : List (K × V)) : List (K × V) :=
  l.filter fun entry => entry.1 ≠ key

/-- The entry under `key` is the last one. -/
def touch (key : K) (value : V) (l : List (K × V)) : List (K × V) :=
  remove key l ++ [(key, value)]

def keys (l : List (K × V)) : List K :=
  l.map Prod.fst

omit [DecidableEq K] in
@[simp] theorem keys_nil : keys ([] : List (K × V)) = [] := rfl

omit [DecidableEq K] in
@[simp] theorem keys_cons (entry : K × V) (l : List (K × V)) :
    keys (entry :: l) = entry.1 :: keys l := rfl

omit [DecidableEq K] in
@[simp] theorem keys_append (l l' : List (K × V)) : keys (l ++ l') = keys l ++ keys l' :=
  List.map_append

theorem mem_keys_remove {key k : K} {l : List (K × V)} :
    k ∈ keys (remove key l) ↔ k ≠ key ∧ k ∈ keys l := by
  simp only [keys, remove, List.mem_map, List.mem_filter, decide_eq_true_eq, ne_eq]
  constructor
  · rintro ⟨entry, ⟨hmem, hne⟩, rfl⟩
    exact ⟨hne, entry, hmem, rfl⟩
  · rintro ⟨hne, entry, hmem, rfl⟩
    exact ⟨entry, ⟨hmem, hne⟩, rfl⟩

theorem mem_keys_touch {key k : K} {value : V} {l : List (K × V)} :
    k ∈ keys (touch key value l) ↔ k = key ∨ k ∈ keys l := by
  simp only [touch, keys_append, List.mem_append, mem_keys_remove, keys_cons, keys_nil,
    List.mem_singleton]
  tauto

/-- What is not there is not removed. -/
theorem remove_of_notMem {key : K} {l : List (K × V)} (h : key ∉ keys l) : remove key l = l := by
  refine List.filter_eq_self.mpr fun entry hentry => decide_eq_true fun heq => h ?_
  exact List.mem_map.mpr ⟨entry, hentry, heq⟩

theorem nodup_remove {key : K} {l : List (K × V)} (h : (keys l).Nodup) :
    (keys (remove key l)).Nodup :=
  h.sublist (List.filter_sublist.map _)

theorem nodup_touch {key : K} {value : V} {l : List (K × V)} (h : (keys l).Nodup) :
    (keys (touch key value l)).Nodup := by
  rw [touch, keys_append]
  refine List.nodup_append'.mpr ⟨nodup_remove h, List.nodup_singleton _, ?_⟩
  intro k hk hsingle
  obtain rfl := List.mem_singleton.mp hsingle
  exact (mem_keys_remove.mp hk).1 rfl

/-! ## Lookup -/

theorem lookup_cons (key : K) (entry : K × V) (l : List (K × V)) :
    lookup key (entry :: l) = if entry.1 = key then some entry.2 else lookup key l := by
  unfold lookup
  by_cases h : entry.1 = key
  · rw [List.find?_cons_of_pos (by simpa using h), if_pos h, Option.map_some]
  · rw [List.find?_cons_of_neg (by simpa using h), if_neg h]

theorem mem_of_lookup {key : K} {value : V} {l : List (K × V)} (h : lookup key l = some value) :
    (key, value) ∈ l := by
  induction l with
  | nil => cases h
  | cons entry l ih =>
    rw [lookup_cons] at h
    split at h
    · rename_i heq
      obtain rfl := Option.some.inj h
      rw [← heq]
      exact List.mem_cons_self
    · exact List.mem_cons_of_mem _ (ih h)

theorem lookup_eq_none {key : K} {l : List (K × V)} : lookup key l = none ↔ key ∉ keys l := by
  unfold lookup keys
  rw [Option.map_eq_none_iff, List.find?_eq_none]
  simp only [List.mem_map, not_exists, not_and, decide_eq_true_eq]

theorem lookup_isSome {key : K} {l : List (K × V)} : (lookup key l).isSome ↔ key ∈ keys l := by
  rw [Option.isSome_iff_ne_none, ne_eq, lookup_eq_none, not_not]

/-- Where no key stands twice, every entry is found. -/
theorem lookup_of_mem {key : K} {value : V} {l : List (K × V)} (hnodup : (keys l).Nodup)
    (h : (key, value) ∈ l) : lookup key l = some value := by
  induction l with
  | nil => cases h
  | cons entry l ih =>
    obtain ⟨hnew, hrest⟩ := List.nodup_cons.mp hnodup
    rw [lookup_cons]
    rcases List.mem_cons.mp h with rfl | hmem
    · exact if_pos rfl
    · rw [if_neg, ih hrest hmem]
      rintro rfl
      exact hnew (List.mem_map.mpr ⟨_, hmem, rfl⟩)

/-! ## Sums of weights -/

section Total

variable [AddCommMonoid M] (w : K → V → M)

def total (l : List (K × V)) : M :=
  (l.map fun entry => w entry.1 entry.2).sum

omit [DecidableEq K] in
@[simp] theorem total_nil : total w [] = 0 := rfl

omit [DecidableEq K] in
@[simp] theorem total_cons (entry : K × V) (l : List (K × V)) :
    total w (entry :: l) = w entry.1 entry.2 + total w l :=
  List.sum_cons

omit [DecidableEq K] in
@[simp] theorem total_append (l l' : List (K × V)) :
    total w (l ++ l') = total w l + total w l' := by
  rw [total, List.map_append, List.sum_append]
  rfl

theorem total_touch (key : K) (value : V) (l : List (K × V)) :
    total w (touch key value l) = total w (remove key l) + w key value := by
  rw [touch, total_append, total_cons, total_nil, add_zero]

/-- Taking an entry out takes its weight out. -/
theorem total_remove {key : K} {value : V} {l : List (K × V)} (hnodup : (keys l).Nodup)
    (h : lookup key l = some value) : total w (remove key l) + w key value = total w l := by
  induction l with
  | nil => cases h
  | cons entry l ih =>
    obtain ⟨hnew, hrest⟩ := List.nodup_cons.mp hnodup
    rw [lookup_cons] at h
    by_cases hentry : entry.1 = key
    · rw [if_pos hentry] at h
      obtain rfl := Option.some.inj h
      have hout : remove key (entry :: l) = l := by
        rw [remove, List.filter_cons_of_neg (by simpa using hentry), ← remove]
        exact remove_of_notMem (hentry ▸ hnew)
      rw [hout, total_cons, hentry, add_comm]
    · rw [if_neg hentry] at h
      have hkept : remove key (entry :: l) = entry :: remove key l := by
        rw [remove, List.filter_cons_of_pos (by simpa using hentry), remove]
      rw [hkept, total_cons, total_cons, add_assoc, ih hrest h]

end Total

omit [DecidableEq K] in
theorem total_nonneg {w : K → V → Int} (hw : ∀ k v, 0 ≤ w k v) (l : List (K × V)) :
    0 ≤ total w l := by
  refine List.sum_nonneg ?_
  intro x hx
  obtain ⟨entry, -, rfl⟩ := List.mem_map.mp hx
  exact hw _ _

/-! ## Evicting the eldest entries -/

/-- Evict until the sum of the weights is within the bound or nothing is left. -/
def trim (w : K → V → Int) (bound : Int) : List (K × V) → List (K × V)
  | [] => []
  | entry :: l => if total w (entry :: l) ≤ bound then entry :: l else trim w bound l

section Trim

variable {w : K → V → Int} {bound : Int}

variable (w bound) in
omit [DecidableEq K] in
theorem total_trim (l : List (K × V)) : total w (trim w bound l) ≤ bound ∨ trim w bound l = [] := by
  induction l with
  | nil => exact .inr rfl
  | cons entry l ih =>
    rw [trim]
    split
    · exact .inl ‹_›
    · exact ih

omit [DecidableEq K] in
theorem trim_of_le {l : List (K × V)} (h : total w l ≤ bound) : trim w bound l = l := by
  cases l with
  | nil => rfl
  | cons entry l => rw [trim, if_pos h]

omit [DecidableEq K] in
/-- Where all weights are one, as many of the last entries stay as fit. -/
theorem trim_one (l : List (K × V)) (n : Nat) : trim (fun _ _ => 1) n l = l.rtake n := by
  induction l with
  | nil => rw [trim, List.rtake_nil]
  | cons entry l ih =>
    have htotal : total (fun (_ : K) (_ : V) => (1 : Int)) (entry :: l) = l.length + 1 := by
      rw [total, List.map_const', List.sum_replicate, List.length_cons]
      simp
    rw [trim, htotal]
    split
    · rw [List.rtake, Nat.sub_eq_zero_of_le (by rw [List.length_cons]; omega), List.drop_zero]
    · rw [ih, List.rtake, List.rtake, List.length_cons, Nat.succ_sub (by omega), List.drop_succ_cons]

end Trim

/-! ## Inclusion -/

theorem length_remove (key : K) (l : List (K × V)) :
    l.length = (l.filter fun entry => entry.1 = key).length + (remove key l).length := by
  have h := List.length_eq_length_filter_add (l := l) fun entry => decide (entry.1 = key)
  simpa [remove] using h

theorem length_touch (key : K) (value : V) (l : List (K × V)) :
    (touch key value l).length = (remove key l).length + 1 := by
  rw [touch, List.length_append, List.length_singleton]

/-- Used again, an entry takes no more room. -/
theorem length_touch_of_mem {key : K} {l : List (K × V)} (value : V) (h : key ∈ keys l) :
    (touch key value l).length ≤ l.length := by
  obtain ⟨entry, hentry, rfl⟩ := List.mem_map.mp h
  have hout : 0 < (l.filter fun e => e.1 = entry.1).length :=
    List.length_pos_of_mem (List.mem_filter.mpr ⟨hentry, decide_eq_true rfl⟩)
  have hparts := length_remove entry.1 l
  rw [length_touch]
  omega

theorem length_touch_le (key : K) (value : V) (l : List (K × V)) :
    (touch key value l).length ≤ l.length + 1 := by
  have := length_remove key l
  rw [length_touch]
  omega

/-- The small map is part of the big one, which has at most `m` entries more. -/
structure Includes (m : Nat) (small big : List (K × V)) : Prop where
  sublist : small.Sublist big
  length : big.length ≤ small.length + m

namespace Includes

variable {m : Nat} {small big : List (K × V)}

theorem remove (h : Includes m small big) (key : K) :
    Includes m (remove key small) (remove key big) where
  sublist := h.sublist.filter _
  length := by
    have hsmall := length_remove key small
    have hbig := length_remove key big
    have hless := (h.sublist.filter fun entry => decide (entry.1 = key)).length_le
    have hlength := h.length
    omega

theorem touch (h : Includes m small big) (key : K) (value : V) :
    Includes m (touch key value small) (touch key value big) where
  sublist := (h.remove key).sublist.append_right _
  length := by
    rw [length_touch, length_touch]
    have := (h.remove key).length
    omega

/-- An entry that only the big map has may be used there. -/
theorem touch_big (h : Includes m small big) {key : K} (value : V) (hsmall : key ∉ keys small)
    (hbig : key ∈ keys big) : Includes m small (Recency.touch key value big) where
  sublist := by
    have hsub := (h.remove key).sublist
    rw [remove_of_notMem hsmall] at hsub
    exact hsub.trans (List.sublist_append_left _ _)
  length := (length_touch_of_mem value hbig).trans h.length

omit [DecidableEq K] in
/-- Both maps are cut to their sizes. -/
theorem rtake (h : Includes m small big) (n : Nat) :
    Includes m (small.rtake n) (big.rtake (n + m)) where
  sublist := by
    have hlength := h.length
    -- the small map loses at least as many of its eldest entries as the big one
    have hdrop : small.rtake n <:+ small.drop (big.length - (n + m)) := by
      rw [List.rtake, show small.length - n =
        (big.length - (n + m)) + (small.length - n - (big.length - (n + m))) by omega,
        ← List.drop_drop]
      exact List.drop_suffix _ _
    exact hdrop.sublist.trans (h.sublist.drop _)
  length := by
    have hlength := h.length
    rw [List.rtake, List.rtake, List.length_drop, List.length_drop]
    omega

/-- What the small map finds, the big one finds. -/
theorem lookup (h : Includes m small big) (hnodup : (keys big).Nodup) {key : K} {value : V}
    (hfound : lookup key small = some value) : Recency.lookup key big = some value :=
  lookup_of_mem hnodup (h.sublist.subset (mem_of_lookup hfound))

end Includes

/-! ## What was used after a key -/

section Behind

variable {key k : K} {value v : V} {before behind : List (K × V)}

/-- Another key is used: `key` keeps its entry, and the other key now stands behind it. -/
theorem touch_behind (hne : k ≠ key) :
    touch k v (before ++ (key, value) :: behind) =
      remove k before ++ (key, value) :: touch k v behind := by
  have hkept : remove k ((key, value) :: behind) = (key, value) :: remove k behind :=
    List.filter_cons_of_pos (decide_eq_true (Ne.symm hne))
  have hparts : remove k (before ++ (key, value) :: behind) =
      remove k before ++ remove k ((key, value) :: behind) := List.filter_append _ _
  rw [touch, hparts, hkept, touch, List.append_assoc, List.cons_append]

variable (key value before) in
omit [DecidableEq K] in
/-- The entry is evicted iff as many entries stand behind it as fit. -/
theorem rtake_behind {n : Nat} (h : behind.length < n) :
    ∃ rest, (before ++ (key, value) :: behind).rtake n = rest ++ (key, value) :: behind ∧
      rest <:+ before := by
  refine ⟨before.drop ((before ++ (key, value) :: behind).length - n), ?_, List.drop_suffix _ _⟩
  rw [List.rtake, List.drop_append_of_le_length]
  rw [List.length_append, List.length_cons]
  omega

omit [DecidableEq K] in
theorem rtake_of_le {n : Nat} (h : n ≤ behind.length) :
    (before ++ (key, value) :: behind).rtake n = behind.rtake n := by
  have hsplit : before ++ (key, value) :: behind = (before ++ [(key, value)]) ++ behind := by
    rw [List.append_assoc, List.singleton_append]
  rw [hsplit, List.rtake, List.rtake, List.length_append,
    show (before ++ [(key, value)]).length + behind.length - n =
      (before ++ [(key, value)]).length + (behind.length - n) by omega]
  exact List.drop_length_add_append _

end Behind

end Recency
