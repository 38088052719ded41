import Wson.Java.Rendering

/-!
# Cutting cycles

`Builder.writeObject` replaces a container by null when `refs.contains` finds it
on the stack. Here that is compared with the purpose of the check, which is to
cut a container exactly when the same object is being written already.

- `unfoldIdentity`: the unfolding that cuts by identity. On a finite graph it
  exists, whatever cycles there are (`eventually_unfoldIdentity`).
- `Occurs root path o`: the writer meets `o` when the containers `path` are being
  written. `refs.contains` is asked at these occurrences, and the document that is
  written is the one cut by identity iff it gives the identity answer at each of
  them (`unfold_eq_of_exact`, `exact_of_unfold_doc_eq`).
-/

namespace Wson.Java

open Filter Wire

variable {O : Type} (P : Platform) (H : Heap O)

/-! ## More stack, same answer -/

namespace Heap

variable {H}

theorem equalsElements_mono {eq eq' : O → O → Option Bool}
    (h : ∀ {x y r}, eq x y = some r → eq' x y = some r) :
    ∀ {xs ys : List O} {r : Bool}, equalsElements eq xs ys = some r →
      equalsElements eq' xs ys = some r
  | [], [], _, hr => hr
  | [], _ :: _, _, hr => hr
  | _ :: _, [], _, hr => hr
  | x :: xs, y :: ys, r, hr => by
    rw [equalsElements] at hr ⊢
    obtain ⟨b, hb, hr⟩ := Option.bind_eq_some_iff.mp hr
    rw [h hb]
    cases b with
    | true => exact equalsElements_mono h hr
    | false => exact hr

theorem equalsEntries_mono {eq eq' : O → O → Option Bool}
    (h : ∀ {x y r}, eq x y = some r → eq' x y = some r) {other : List (Key × O)} :
    ∀ {entries : List (Key × O)} {r : Bool}, H.equalsEntries eq other entries = some r →
      H.equalsEntries eq' other entries = some r
  | [], _, hr => hr
  | (key, value) :: entries, r, hr => by
    rw [equalsEntries] at hr ⊢
    by_cases hnull : H.isNull value
    · rw [if_pos hnull] at hr ⊢
      by_cases hany : (mapGet key other).any H.isNull
      · rw [if_pos hany] at hr ⊢
        exact equalsEntries_mono h hr
      · rw [if_neg hany] at hr ⊢
        exact hr
    · rw [if_neg hnull] at hr ⊢
      obtain ⟨b, hb, hr⟩ := Option.bind_eq_some_iff.mp hr
      rw [h hb]
      cases b with
      | true => exact equalsEntries_mono h hr
      | false => exact hr

variable [DecidableEq O]

theorem equals_mono :
    ∀ {n : Nat} {a b : O} {r : Bool}, H.equals n a b = some r → H.equals (n + 1) a b = some r
  | n + 1, a, b, r, hr => by
    have ih : ∀ {x y r}, H.equals n x y = some r → H.equals (n + 1) x y = some r := equals_mono
    rw [equals] at hr ⊢
    generalize H.view a = va at hr ⊢
    generalize H.view b = vb at hr ⊢
    cases va <;> cases vb <;> try exact hr
    · next es fs =>
      by_cases hab : a = b
      · simpa only [if_pos hab] using hr
      · by_cases hlen : es.length = fs.length
        · simp only [if_neg hab, if_pos hlen] at hr ⊢
          exact equalsEntries_mono ih hr
        · simpa only [if_neg hab, if_neg hlen] using hr
    · next xs ys =>
      by_cases hab : a = b
      · simpa only [if_pos hab] using hr
      · simp only [if_neg hab] at hr ⊢
        exact equalsElements_mono ih hr

theorem contains_mono {n : Nat} :
    ∀ {refs : List O} {o : O} {r : Bool}, H.contains n refs o = some r →
      H.contains (n + 1) refs o = some r
  | [], _, _, hr => hr
  | e :: es, o, r, hr => by
    rw [contains] at hr ⊢
    obtain ⟨b, hb, hr⟩ := Option.bind_eq_some_iff.mp hr
    rw [equals_mono hb]
    cases b with
    | true => exact hr
    | false => exact contains_mono hr

theorem eventually_contains {n : Nat} {refs : List O} {o : O} {r : Bool}
    (h : H.contains n refs o = some r) : ∀ᶠ m in atTop, H.contains m refs o = some r :=
  eventually_atTop.mpr ⟨n, fun m hm => by
    induction hm with
    | refl => exact h
    | step _ ih => exact contains_mono ih⟩

end Heap

/-! ## The unfolding, container by container -/

/-- The writer checks the stack before it writes the object. -/
def Heap.isContainer (o : O) : Bool :=
  match H.view o with
  | .string _ | .number _ | .boolean _ | .null | .date _ => false
  | _ => true

/-- The values of a map that are written. -/
def Heap.writtenValues (entries : List (Key × O)) : List O :=
  (entries.map Prod.snd).filter fun v => !H.isNull v

/-- The objects written inside a container. -/
def Heap.children (special : Utf16 → Bool) (o : O) : List O :=
  match H.view o with
  | .map entries => H.writtenValues entries
  | .list elements | .array elements | .collection elements => elements
  | .enum json => [json]
  | .bean key getters =>
    if special key then [H.toJSON o]
    else
      match Builder.toMap H getters with
      | .ok entries => H.writtenValues entries
      | .error _ => []
  | _ => []

/-- A container unfolded, given how the objects inside it are. -/
def unfoldBody {e : Endian} (special : Utf16 → Bool) (one : O → Option (Written e)) (o : O) :
    Option (Written e) :=
  match H.view o with
  | .map entries => (unfoldEntries H one entries).map .map
  | .list elements | .array elements | .collection elements =>
    (unfoldElements one elements).map .array
  | .enum json => one json
  | .bean key getters =>
    if special key then one (H.toJSON o)
    else do
      let entries ← (Builder.toMap H getters).toOption
      (unfoldEntries H one entries).map .map
  | _ => none

variable {special : Utf16 → Bool} {cut cut' : Nat → List O → O → Option Bool}

theorem unfold_of_isContainer {o : O} (h : H.isContainer o) (n : Nat) (path : List O) :
    unfold P H special cut (n + 1) path o
      = unfoldContainer cut n path o fun path =>
          unfoldBody H special (unfold P H special cut n path) o := by
  unfold Heap.isContainer at h
  unfold unfoldBody
  rw [unfold]
  cases hv : H.view o <;> simp_all

theorem unfold_of_not_isContainer {o : O} (h : ¬ H.isContainer o) (n n' : Nat)
    (path path' : List O) :
    unfold P H special cut (n + 1) path o = unfold P H special cut' (n' + 1) path' o := by
  unfold Heap.isContainer at h
  rw [unfold, unfold]
  cases hv : H.view o <;> simp_all

/-! ### What the unfolding of a container says about the objects inside -/

section Body

variable {e : Endian} {one one' : O → Option (Written e)}

theorem unfoldElements_congr :
    ∀ {os : List O}, (∀ o ∈ os, one o = one' o) → unfoldElements one os = unfoldElements one' os
  | [], _ => rfl
  | o :: os, h => by
    rw [unfoldElements, unfoldElements, h o List.mem_cons_self,
      unfoldElements_congr fun x hx => h x (List.mem_cons_of_mem o hx)]

theorem unfoldEntries_congr :
    ∀ {entries : List (Key × O)}, (∀ o ∈ H.writtenValues entries, one o = one' o) →
      unfoldEntries H one entries = unfoldEntries H one' entries
  | [], _ => rfl
  | (key, value) :: entries, h => by
    rw [unfoldEntries, unfoldEntries]
    by_cases hnull : H.isNull value
    · rw [if_pos hnull, if_pos hnull]
      exact unfoldEntries_congr fun o ho => h o (by
        simpa [Heap.writtenValues, hnull] using ho)
    · rw [if_neg hnull, if_neg hnull, h value (by simp [Heap.writtenValues, hnull]),
        unfoldEntries_congr fun o ho => h o (by
          simp only [Heap.writtenValues, List.map_cons] at ho ⊢
          exact List.mem_filter.mpr ⟨List.mem_cons_of_mem _ (List.mem_filter.mp ho).1,
            (List.mem_filter.mp ho).2⟩)]

theorem unfoldElements_isSome :
    ∀ {os : List O}, (∀ o ∈ os, (one o).isSome) → (unfoldElements one os).isSome
  | [], _ => rfl
  | o :: os, h => by
    obtain ⟨w, hw⟩ := Option.isSome_iff_exists.mp (h o List.mem_cons_self)
    obtain ⟨ws, hws⟩ := Option.isSome_iff_exists.mp
      (unfoldElements_isSome fun x hx => h x (List.mem_cons_of_mem o hx))
    rw [unfoldElements, hw, hws]
    rfl

/-- Every key of the map has a text. -/
def StringKeys (entries : List (Key × O)) : Prop :=
  ∀ entry ∈ entries, ∃ s, entry.1 = .string s

theorem unfoldEntries_isSome :
    ∀ {entries : List (Key × O)}, StringKeys entries →
      (∀ o ∈ H.writtenValues entries, (one o).isSome) → (unfoldEntries H one entries).isSome
  | [], _, _ => rfl
  | (key, value) :: entries, hkeys, h => by
    have hkeys' : StringKeys entries := fun x hx => hkeys x (List.mem_cons_of_mem _ hx)
    obtain ⟨s, hs⟩ := hkeys (key, value) List.mem_cons_self
    obtain rfl : key = .string s := hs
    rw [unfoldEntries]
    by_cases hnull : H.isNull value
    · rw [if_pos hnull]
      exact unfoldEntries_isSome hkeys' fun o ho => h o (by
        simpa [Heap.writtenValues, hnull] using ho)
    · obtain ⟨w, hw⟩ := Option.isSome_iff_exists.mp
        (h value (by simp [Heap.writtenValues, hnull]))
      obtain ⟨ws, hws⟩ := Option.isSome_iff_exists.mp
        (unfoldEntries_isSome hkeys' fun o ho => h o (by
          simp only [Heap.writtenValues, List.map_cons] at ho ⊢
          exact List.mem_filter.mpr ⟨List.mem_cons_of_mem _ (List.mem_filter.mp ho).1,
            (List.mem_filter.mp ho).2⟩))
      rw [if_neg hnull, hw, hws]
      rfl

/-- The two unfoldings of the object exist and are the same document. -/
def SameDoc (one one' : O → Option (Written e)) (o : O) : Prop :=
  ∃ w w', one o = some w ∧ one' o = some w' ∧ w.doc = w'.doc

theorem sameDoc_of_elements :
    ∀ {os : List O} {ws ws' : List (Written e)}, unfoldElements one os = some ws →
      unfoldElements one' os = some ws' → ws.map Written.doc = ws'.map Written.doc →
        ∀ o ∈ os, SameDoc one one' o
  | [], _, _, _, _, _ => fun _ h => absurd h (by simp)
  | o :: os, ws, ws', h, h', hdoc => by
    rw [unfoldElements] at h h'
    obtain ⟨w, hw, h⟩ := Option.bind_eq_some_iff.mp h
    obtain ⟨vs, hvs, h⟩ := Option.bind_eq_some_iff.mp h
    obtain ⟨w', hw', h'⟩ := Option.bind_eq_some_iff.mp h'
    obtain ⟨vs', hvs', h'⟩ := Option.bind_eq_some_iff.mp h'
    obtain rfl := Option.some.inj h
    obtain rfl := Option.some.inj h'
    obtain ⟨hhead, htail⟩ := List.cons.inj hdoc
    intro x hx
    rcases List.mem_cons.mp hx with rfl | hx
    · exact ⟨w, w', hw, hw', hhead⟩
    · exact sameDoc_of_elements hvs hvs' htail x hx

theorem sameDoc_of_entries :
    ∀ {entries : List (Key × O)} {ws ws' : List (Utf16 × Written e)},
      unfoldEntries H one entries = some ws → unfoldEntries H one' entries = some ws' →
        ws.map (fun x => (x.1, x.2.doc)) = ws'.map (fun x => (x.1, x.2.doc)) →
          ∀ o ∈ H.writtenValues entries, SameDoc one one' o
  | [], _, _, _, _, _ => fun _ h => absurd h (by simp [Heap.writtenValues])
  | (key, value) :: entries, ws, ws', h, h', hdoc => by
    rw [unfoldEntries] at h h'
    by_cases hnull : H.isNull value
    · rw [if_pos hnull] at h h'
      intro x hx
      exact sameDoc_of_entries h h' hdoc x (by simpa [Heap.writtenValues, hnull] using hx)
    · rw [if_neg hnull] at h h'
      obtain ⟨k, hk, h⟩ := Option.bind_eq_some_iff.mp h
      obtain ⟨w, hw, h⟩ := Option.bind_eq_some_iff.mp h
      obtain ⟨vs, hvs, h⟩ := Option.bind_eq_some_iff.mp h
      obtain ⟨k', hk', h'⟩ := Option.bind_eq_some_iff.mp h'
      obtain ⟨w', hw', h'⟩ := Option.bind_eq_some_iff.mp h'
      obtain ⟨vs', hvs', h'⟩ := Option.bind_eq_some_iff.mp h'
      obtain rfl := Option.some.inj h
      obtain rfl := Option.some.inj h'
      obtain ⟨hhead, htail⟩ := List.cons.inj hdoc
      intro x hx
      have hx : x = value ∨ x ∈ H.writtenValues entries := by
        simpa [Heap.writtenValues, List.filter_cons, hnull] using hx
      rcases hx with rfl | hx
      · exact ⟨w, w', hw, hw', (Prod.mk.inj hhead).2⟩
      · exact sameDoc_of_entries hvs hvs' htail x hx

/-- A graph of lists, arrays, collections, maps with string keys, scalars, and beans whose
properties can be read and whose class is written property by property. -/
structure Graph (H : Heap O) (special : Utf16 → Bool) : Prop where
  not_enum : ∀ o json, H.view o ≠ .enum json
  keys : ∀ o entries, H.view o = .map entries → StringKeys entries
  bean : ∀ o key getters, H.view o = .bean key getters →
    special key = false ∧ ∃ entries, Builder.toMap H getters = .ok entries

theorem stringKeys_mapPut (name : Utf16) (value : O) :
    ∀ {entries : List (Key × O)}, StringKeys entries →
      StringKeys (mapPut (.string name) value entries)
  | [], _ => by
    rintro entry hentry
    obtain rfl : entry = (.string name, value) := by simpa [mapPut] using hentry
    exact ⟨name, rfl⟩
  | (k, v) :: entries, h => by
    have hrest := stringKeys_mapPut name value fun x hx => h x (List.mem_cons_of_mem (k, v) hx)
    intro entry hentry
    rw [mapPut] at hentry
    split at hentry
    · rcases List.mem_cons.mp hentry with rfl | hentry
      · exact h (k, v) List.mem_cons_self
      · exact h entry (List.mem_cons_of_mem _ hentry)
    · rcases List.mem_cons.mp hentry with rfl | hentry
      · exact h (k, v) List.mem_cons_self
      · exact hrest entry hentry

theorem stringKeys_foldlM :
    ∀ {getters : List (Utf16 × Except Throwable O)} {map entries : List (Key × O)},
      StringKeys map → getters.foldlM (fun map getter => do
        let value ← getter.2
        pure (if H.isNull value then map else mapPut (.string getter.1) value map)) map
          = .ok entries → StringKeys entries
  | [], _, _, hmap, h => by
    obtain rfl := Except.ok.inj h
    exact hmap
  | (name, .error err) :: getters, _, _, _, h => nomatch h
  | (name, .ok value) :: getters, map, entries, hmap, h => by
    have hput : StringKeys (if H.isNull value then map else mapPut (.string name) value map) := by
      split
      · exact hmap
      · exact stringKeys_mapPut name value hmap
    exact stringKeys_foldlM hput h

/-- The properties of a bean are named by strings. -/
theorem stringKeys_toMap {getters : Except Throwable (List (Utf16 × Except Throwable O))}
    {entries : List (Key × O)} (h : Builder.toMap H getters = .ok entries) :
    StringKeys entries := by
  cases getters with
  | error err => exact nomatch h
  | ok gs => exact stringKeys_foldlM H (fun _ hx => absurd hx (by simp)) h

theorem unfoldBody_congr {o : O} (h : ∀ c ∈ H.children special o, one c = one' c) :
    unfoldBody H special one o = unfoldBody H special one' o := by
  unfold Heap.children at h
  unfold unfoldBody
  cases hv : H.view o <;> simp only [hv] at h ⊢
  case map entries => rw [unfoldEntries_congr H h]
  case list os | array os | collection os => rw [unfoldElements_congr h]
  case enum json => exact h json (by simp)
  case bean key getters =>
    by_cases hs : special key
    · simp only [hs, if_true] at h ⊢
      exact h _ (by simp)
    · simp only [if_neg hs] at h ⊢
      cases hmap : Builder.toMap H getters with
      | error err => rfl
      | ok entries =>
        rw [hmap] at h
        show (unfoldEntries H one entries).map _ = (unfoldEntries H one' entries).map _
        rw [unfoldEntries_congr H h]

/-- In a graph, a container can be unfolded when the objects inside it can. -/
theorem unfoldBody_isSome (hg : Graph H special) {o : O} (ho : H.isContainer o)
    (h : ∀ c ∈ H.children special o, (one c).isSome) :
    ∃ w, unfoldBody H special one o = some w := by
  unfold Heap.children at h
  unfold Heap.isContainer at ho
  unfold unfoldBody
  cases hv : H.view o <;> simp only [hv] at h ho ⊢
  case map entries =>
    obtain ⟨ws, hws⟩ := Option.isSome_iff_exists.mp (unfoldEntries_isSome H (hg.keys o _ hv) h)
    exact ⟨_, by rw [hws]; rfl⟩
  case list os | array os | collection os =>
    obtain ⟨ws, hws⟩ := Option.isSome_iff_exists.mp (unfoldElements_isSome h)
    exact ⟨_, by rw [hws]; rfl⟩
  case enum json => exact absurd hv (hg.not_enum o json)
  case bean key getters =>
    obtain ⟨hs, entries, hmap⟩ := hg.bean o key getters hv
    simp only [hs, hmap, Bool.false_eq_true, if_false] at h ⊢
    obtain ⟨ws, hws⟩ := Option.isSome_iff_exists.mp
      (unfoldEntries_isSome H (stringKeys_toMap H hmap) h)
    exact ⟨_, by
      show (unfoldEntries H one entries).map _ = _
      rw [hws]
      rfl⟩
  all_goals exact absurd ho (by simp)

/-- A container that is not cut does not become null. -/
theorem doc_ne_null_of_unfoldBody (hg : Graph H special) {o : O} {w : Written e}
    (h : unfoldBody H special one o = some w) : w.doc ≠ .null := by
  unfold unfoldBody at h
  cases hv : H.view o <;> simp only [hv] at h
  case map entries =>
    obtain ⟨ws, -, rfl⟩ := Option.map_eq_some_iff.mp h
    exact Doc.noConfusion
  case list os | array os | collection os =>
    obtain ⟨ws, -, rfl⟩ := Option.map_eq_some_iff.mp h
    exact Doc.noConfusion
  case enum json => exact absurd hv (hg.not_enum o json)
  case bean key getters =>
    obtain ⟨hs, entries, hmap⟩ := hg.bean o key getters hv
    simp only [hs, hmap, Bool.false_eq_true, if_false] at h
    obtain ⟨ws, -, rfl⟩ := Option.map_eq_some_iff.mp h
    exact Doc.noConfusion
  all_goals exact nomatch h

theorem sameDoc_of_unfoldBody {o : O} {w w' : Written e}
    (h : unfoldBody H special one o = some w) (h' : unfoldBody H special one' o = some w')
    (hdoc : w.doc = w'.doc) : ∀ c ∈ H.children special o, SameDoc one one' c := by
  unfold Heap.children
  unfold unfoldBody at h h'
  cases hv : H.view o <;> simp only [hv] at h h' ⊢
  case map entries =>
    obtain ⟨ws, hws, rfl⟩ := Option.map_eq_some_iff.mp h
    obtain ⟨ws', hws', rfl⟩ := Option.map_eq_some_iff.mp h'
    exact sameDoc_of_entries H hws hws' (Doc.map.inj hdoc)
  case list os | array os | collection os =>
    obtain ⟨ws, hws, rfl⟩ := Option.map_eq_some_iff.mp h
    obtain ⟨ws', hws', rfl⟩ := Option.map_eq_some_iff.mp h'
    exact sameDoc_of_elements hws hws' (Doc.array.inj hdoc)
  case enum json =>
    intro c hc
    obtain rfl : c = json := by simpa using hc
    exact ⟨w, w', h, h', hdoc⟩
  case bean key getters =>
    by_cases hs : special key
    · simp only [hs, if_true] at h h' ⊢
      intro c hc
      obtain rfl : c = H.toJSON o := by simpa using hc
      exact ⟨w, w', h, h', hdoc⟩
    · simp only [if_neg hs] at h h' ⊢
      cases hmap : Builder.toMap H getters with
      | error err => rw [hmap] at h; exact nomatch h
      | ok entries =>
        rw [hmap] at h h'
        obtain ⟨ws, hws, rfl⟩ := Option.map_eq_some_iff.mp h
        obtain ⟨ws', hws', rfl⟩ := Option.map_eq_some_iff.mp h'
        exact sameDoc_of_entries H hws hws' (Doc.map.inj hdoc)
  all_goals exact nomatch h

end Body

/-! ## Cutting by identity -/

theorem nodup_concat {path : List O} {o : O} (hp : path.Nodup) (ho : o ∉ path) :
    (path ++ [o]).Nodup :=
  List.nodup_append.mpr ⟨hp, by simp, by
    rintro x hx y hy rfl
    obtain rfl : x = o := by simpa using hy
    exact ho hx⟩

theorem unfold_isSome_of_not_isContainer {o : O} (h : ¬ H.isContainer o) (n : Nat)
    (path : List O) : ∃ w, unfold P H special cut (n + 1) path o = some w := by
  unfold Heap.isContainer at h
  rw [unfold]
  cases hv : H.view o <;> simp_all

/-- `o` is met inside the containers `path`, none of which was met inside itself. -/
inductive Occurs (special : Utf16 → Bool) (root : O) : List O → O → Prop where
  | root : Occurs special root [] root
  | child {path : List O} {o c : O} : Occurs special root path o → H.isContainer o → o ∉ path →
      c ∈ H.children special o → Occurs special root (path ++ [o]) c

variable {H} in
theorem Occurs.nodup {root : O} {path : List O} {o : O} (h : Occurs H special root path o) :
    path.Nodup := by
  induction h with
  | root => exact List.nodup_nil
  | child _ _ ho _ ih => exact nodup_concat ih ho

variable [DecidableEq O]

/-- A container is cut when it is itself on the path. -/
def identityCut (_ : Nat) (path : List O) (o : O) : Option Bool :=
  some (decide (o ∈ path))

/-- The unfolding of an object that is cut by identity. -/
def unfoldIdentity (special : Utf16 → Bool) : Nat → List O → O → Option (Written P.endian) :=
  unfold P H special identityCut

/-- Whether `refs.contains` ends and answers whether the object itself is on the path, at
every container that is met. -/
def ContainsByIdentity (special : Utf16 → Bool) (root : O) : Prop :=
  ∀ path o, Occurs H special root path o → H.isContainer o →
    ∃ n, H.contains n path o = some (decide (o ∈ path))

section Finite

variable {H} {root : O}

variable [Fintype O]

/-- **Termination**: a path holds no object twice, so on a finite graph the unfolding cut
by identity exists. -/
theorem unfoldIdentity_isSome (hg : Graph H special) :
    ∀ {n : Nat} {path : List O} {o : O}, path.Nodup → Fintype.card O < n + path.length →
      ∃ w, unfoldIdentity P H special n path o = some w
  | 0, path, o, hp, hn => absurd hp.length_le_card (by omega)
  | n + 1, path, o, hp, hn => by
    by_cases ho : H.isContainer o
    · rw [unfoldIdentity, unfold_of_isContainer P H ho, unfoldContainer, identityCut]
      by_cases hmem : o ∈ path
      · simp [hmem]
      · simp only [hmem, decide_false]
        exact unfoldBody_isSome H hg ho fun c _ =>
          Option.isSome_iff_exists.mpr (unfoldIdentity_isSome hg (n := n) (nodup_concat hp hmem)
            (by rw [List.length_append, List.length_singleton]; omega))
    · exact unfold_isSome_of_not_isContainer P H ho n path

/-- Beyond the number of objects, more stack does not change the unfolding. -/
theorem unfoldIdentity_eq :
    ∀ {n m : Nat} {path : List O} {o : O}, path.Nodup → Fintype.card O < n + path.length →
      Fintype.card O < m + path.length →
        unfoldIdentity P H special n path o = unfoldIdentity P H special m path o
  | 0, _, path, _, hp, hn, _ => absurd hp.length_le_card (by omega)
  | _ + 1, 0, path, _, hp, _, hm => absurd hp.length_le_card (by omega)
  | n + 1, m + 1, path, o, hp, hn, hm => by
    by_cases ho : H.isContainer o
    · rw [unfoldIdentity, unfold_of_isContainer P H ho, unfold_of_isContainer P H ho, unfoldContainer,
        unfoldContainer, identityCut, identityCut]
      by_cases hmem : o ∈ path
      · simp [hmem]
      · simp only [hmem, decide_false]
        refine unfoldBody_congr H fun c _ => unfoldIdentity_eq (nodup_concat hp hmem) ?_ ?_ <;>
          rw [List.length_append, List.length_singleton] <;> omega
    · exact unfold_of_not_isContainer P H ho n m path path

theorem eventually_succ {p : Nat → Prop} (h : ∀ᶠ n in atTop, p (n + 1)) : ∀ᶠ n in atTop, p n := by
  obtain ⟨n₀, h⟩ := eventually_atTop.mp h
  refine eventually_atTop.mpr ⟨n₀ + 1, fun n hn => ?_⟩
  obtain ⟨m, rfl⟩ : ∃ m, n = m + 1 := ⟨n - 1, by omega⟩
  exact h m (by omega)

/-- Where `refs.contains` answers by identity, the writer's unfolding is the one cut by
identity. -/
theorem unfold_eq_of_exact (hexact : ContainsByIdentity H special root) :
    ∀ {k : Nat} {path : List O} {o : O}, Fintype.card O - path.length = k →
      Occurs H special root path o →
        ∀ᶠ n in atTop, unfold P H special H.contains n path o = unfoldIdentity P H special n path o := by
  intro k
  induction k using Nat.strong_induction_on with
  | _ k ih =>
    intro path o hk hocc
    refine eventually_succ ?_
    by_cases ho : H.isContainer o
    · obtain ⟨n, hn⟩ := hexact path o hocc ho
      have hcontains := Heap.eventually_contains hn
      by_cases hmem : o ∈ path
      · filter_upwards [hcontains] with m hm
        rw [unfoldIdentity, unfold_of_isContainer P H ho, unfold_of_isContainer P H ho,
          unfoldContainer, unfoldContainer, hm, identityCut]
        simp [hmem]
      · have hlen := (nodup_concat hocc.nodup hmem).length_le_card
        rw [List.length_append, List.length_singleton] at hlen
        have hchildren : ∀ᶠ m in atTop, ∀ c ∈ H.children special o,
            unfold P H special H.contains m (path ++ [o]) c
              = unfoldIdentity P H special m (path ++ [o]) c := by
          refine (eventually_all_finite (List.finite_toSet _)).mpr fun c hc => ?_
          exact ih _ (by rw [List.length_append, List.length_singleton]; omega) rfl
            (.child hocc ho hmem hc)
        filter_upwards [hcontains, hchildren] with m hm hcs
        rw [unfoldIdentity, unfold_of_isContainer P H ho, unfold_of_isContainer P H ho,
          unfoldContainer, unfoldContainer, hm, identityCut]
        simp only [hmem, decide_false]
        exact unfoldBody_congr H hcs
    · exact .of_forall fun n => unfold_of_not_isContainer P H ho n n path path

omit [Fintype O] in
/-- Where the two unfoldings of a container are the same document, neither is null unless
both are: `refs.contains` gave the identity answer, and the objects inside agree too. -/
theorem sameDoc_step (hg : Graph H special) {n : Nat} {path : List O} {o : O}
    (ho : H.isContainer o)
    (h : SameDoc (unfold P H special H.contains (n + 1) path)
      (unfoldIdentity P H special (n + 1) path) o) :
    H.contains n path o = some (decide (o ∈ path)) ∧
      (o ∉ path → ∀ c ∈ H.children special o,
        SameDoc (unfold P H special H.contains n (path ++ [o]))
          (unfoldIdentity P H special n (path ++ [o])) c) := by
  obtain ⟨w, w', hw, hw', hdoc⟩ := h
  rw [unfoldIdentity, unfold_of_isContainer P H ho, unfoldContainer, identityCut] at hw'
  rw [unfold_of_isContainer P H ho, unfoldContainer] at hw
  cases hc : H.contains n path o with
  | none =>
    rw [hc] at hw
    cases hw
  | some r =>
    rw [hc] at hw
    by_cases hmem : o ∈ path <;> cases r <;>
      simp only [hmem, decide_true, decide_false] at hw hw' ⊢
    · obtain rfl := Option.some.inj hw'
      exact absurd hdoc (doc_ne_null_of_unfoldBody H hg hw)
    · exact ⟨trivial, fun h => absurd trivial h⟩
    · exact ⟨trivial, fun _ => sameDoc_of_unfoldBody H hw hw' hdoc⟩
    · obtain rfl := Option.some.inj hw
      exact absurd hdoc.symm (doc_ne_null_of_unfoldBody H hg hw')

omit [Fintype O] in
/-- Conversely, the writer's unfolding is the same document only where `refs.contains`
answers by identity. -/
theorem exact_of_unfold_doc_eq (hg : Graph H special) (n₀ : Nat)
    (h : ∀ n ≥ n₀, SameDoc (unfold P H special H.contains n [])
      (unfoldIdentity P H special n []) root) :
    ContainsByIdentity H special root := by
  have hall : ∀ {path o}, Occurs H special root path o → ∀ n, n₀ ≤ n + path.length →
      SameDoc (unfold P H special H.contains n path) (unfoldIdentity P H special n path) o := by
    intro path o hocc
    induction hocc with
    | root => exact fun n hn => h n (by simpa using hn)
    | child _ ho hmem hc ih =>
      intro n hn
      rw [List.length_append, List.length_singleton] at hn
      exact (sameDoc_step P hg ho (ih (n + 1) (by omega))).2 hmem _ hc
  intro path o hocc ho
  exact ⟨n₀, (sameDoc_step P hg ho (hall hocc (n₀ + 1) (by omega))).1⟩

/-- The document of a graph: its unfolding cut by identity. -/
def graphDocument (H : Heap O) (special : Utf16 → Bool) (root : O) : Option (Written P.endian) :=
  unfoldIdentity P H special (Fintype.card O + 1) [] root

/-- With enough stack `writeObject` returns, has abandoned no bean, and has appended the
document in which exactly the containers on their own path are null. -/
def CutsByIdentity (H : Heap O) (b : Builder O) (root : O) : Prop :=
  ∃ n₀, ∀ n ≥ n₀, ∃ b' w, Builder.Quiet (Builder.writeObject P H n root) b b' ∧
    b'.refs = b.refs ∧ unfoldIdentity P H b.marked n [] root = some w ∧
    b'.output.written = b.output.written ++ w.doc.encode P.endian

/-- **Cycle cutting**: the writer ends on a graph and cuts exactly the containers that are on
their own path iff `refs.contains` ends with the identity answer at every container met, and
no `ensureCapacity` call asks for a negative length. -/
theorem cutsByIdentity_iff {b : Builder O} (hg : Graph H b.marked) (hv : b.output.Valid)
    (hrefs : b.refs = []) :
    ∃ w, graphDocument P H b.marked root = some w ∧
      (CutsByIdentity P H b root ↔ ContainsByIdentity H b.marked root ∧
        Output.fits w.chunks b.output.buffer.length b.output.position) := by
  obtain ⟨w, hw⟩ := unfoldIdentity_isSome P hg (n := Fintype.card O + 1) (o := root)
    List.nodup_nil (by simp)
  have hdoc : ∀ n > Fintype.card O, unfoldIdentity P H b.marked n [] root = some w := by
    intro n hn
    rw [← hw]
    exact unfoldIdentity_eq P List.nodup_nil (by simpa using hn) (by simp)
  have hspecial := b.specialIs_marked
  -- what a quiet run says about the two unfoldings
  have hrun : ∀ {n b'}, Builder.Quiet (Builder.writeObject P H n root) b b' →
      ∃ w', unfold P H b.marked H.contains n [] root = some w' ∧
        Builder.Emitted b.marked w'.chunks b b' := by
    intro n b' hq
    obtain ⟨cs, hcs, he⟩ := (Builder.emits_writeObject H n root).sound hspecial hq
    rw [hrefs] at hcs
    obtain ⟨w', hw', rfl⟩ := Option.map_eq_some_iff.mp hcs
    exact ⟨w', hw', he⟩
  refine ⟨w, hw, ⟨?_, ?_⟩⟩
  · rintro ⟨n₀, h⟩
    -- both runs write the same bytes on every large stack, so `contains` by value cuts nothing else
    have hexact : ContainsByIdentity H b.marked root := by
      refine exact_of_unfold_doc_eq P hg n₀ fun n hn => ?_
      obtain ⟨b', v, hq, -, hv', hwritten⟩ := h n hn
      obtain ⟨w', hw', he⟩ := hrun hq
      obtain ⟨-, hlen, hwritten'⟩ := Builder.written_of_emitted hv he
      rw [hwritten'] at hwritten
      have henc := List.append_cancel_left hwritten
      rw [w'.bytes_eq_of_lt (by omega)] at hlen
      exact ⟨w', v, hw', hv', Doc.encode_injective (Doc.sized_of_encode_lt P.endian (by omega))
        (Doc.sized_of_encode_lt P.endian (by rw [← henc]; omega)) henc⟩
    obtain ⟨n₁, heq⟩ := eventually_atTop.mp
      (unfold_eq_of_exact P hexact rfl .root)
    refine ⟨hexact, ?_⟩
    -- a stack that is large enough for all three facts
    let n := max n₀ (max n₁ (Fintype.card O + 1))
    obtain ⟨b', v, hq, -, hv', -⟩ := h n (by omega)
    obtain ⟨w', hw', he⟩ := hrun hq
    rw [heq n (by omega), hdoc n (by omega)] at hw'
    obtain rfl := Option.some.inj hw'
    rw [← Output.play_isSome, he.output]
    rfl
  · rintro ⟨hexact, hfits⟩
    obtain ⟨n₁, heq⟩ := eventually_atTop.mp
      (unfold_eq_of_exact P hexact rfl .root)
    refine ⟨max n₁ (Fintype.card O + 1), fun n hn => ?_⟩
    rw [← Output.play_isSome] at hfits
    obtain ⟨o, ho⟩ := Option.isSome_iff_exists.mp hfits
    obtain ⟨b', hq, -, he⟩ := (Builder.emits_writeObject H n root).complete hspecial
      (by rw [hrefs, heq n (by omega), hdoc n (by omega)]; rfl) ho
    exact ⟨b', w, hq, he.refs, hdoc n (by omega), (Builder.written_of_emitted hv he).2.2⟩

end Finite

/-! ## Two lists that contain each other -/

/-- The lists `1` and `2` with `2` the only element of `1`, and `1` the only element of `2`. -/
def mutualLists : Heap (Fin 3) where
  null := 0
  view o := if o = 0 then .null else if o = 1 then .list [2] else .list [1]
  view_null := rfl
  view_map o entries h := by fin_cases o <;> exact nomatch h
  ownEquals a b := a = b
  toJSON := id

/-- Comparing the two lists compares their elements, which are the two lists again. -/
theorem equals_mutualLists :
    ∀ n, mutualLists.equals n 2 1 = none ∧ mutualLists.equals n 1 2 = none
  | 0 => ⟨rfl, rfl⟩
  | n + 1 => by
    obtain ⟨h₁, h₂⟩ := equals_mutualLists n
    constructor
    · show (Option.bind (mutualLists.equals n 1 2) _) = none
      rw [h₂]
      rfl
    · show (Option.bind (mutualLists.equals n 2 1) _) = none
      rw [h₁]
      rfl

theorem graph_mutualLists (special : Utf16 → Bool) : Graph mutualLists special where
  not_enum o json h := by fin_cases o <;> exact nomatch h
  keys o entries h := by fin_cases o <;> exact nomatch h
  bean o key getters h := by fin_cases o <;> exact nomatch h

theorem cutsByIdentity_mutualLists_iff :
    ∃ w, graphDocument Platform.plain mutualLists (Builder.fresh (Fin 3)).marked 1 = some w ∧
      (CutsByIdentity Platform.plain mutualLists (Builder.fresh (Fin 3)) 1 ↔
        ContainsByIdentity mutualLists (Builder.fresh (Fin 3)).marked 1 ∧
          Output.fits w.chunks (Builder.fresh (Fin 3)).output.buffer.length 0) :=
  cutsByIdentity_iff Platform.plain (graph_mutualLists _) (Builder.fresh_valid _) rfl

/-- No amount of stack is enough to write either list. -/
theorem not_cutsByIdentity_mutualLists :
    Graph mutualLists (Builder.fresh (Fin 3)).marked ∧ (Builder.fresh (Fin 3)).output.Valid ∧
      ¬ CutsByIdentity Platform.plain mutualLists (Builder.fresh (Fin 3)) 1 := by
  refine ⟨graph_mutualLists _, Builder.fresh_valid _, ?_⟩
  rintro ⟨n₀, h⟩
  obtain ⟨b', w, hq, -⟩ := h (n₀ + 2) (by omega)
  obtain ⟨cs, hcs, -⟩ := (Builder.emits_writeObject mutualLists (n₀ + 2) 1).sound
    (Builder.fresh (Fin 3)).specialIs_marked hq
  have hcontains : mutualLists.contains n₀ [1] 2 = none := by
    show Option.bind (mutualLists.equals n₀ 2 1) _ = none
    rw [(equals_mutualLists n₀).1]
    rfl
  have hinner : unfold Platform.plain mutualLists (Builder.fresh (Fin 3)).marked
      mutualLists.contains (n₀ + 1) [1] 2 = none := by
    rw [unfold_of_isContainer _ _ (by decide), unfoldContainer, hcontains]
  have houter : unfold Platform.plain mutualLists (Builder.fresh (Fin 3)).marked
      mutualLists.contains (n₀ + 2) [] 1 = none := by
    rw [unfold_of_isContainer _ _ (by decide)]
    show (Option.bind (unfold _ _ _ _ (n₀ + 1) [1] 2) _).map _ = none
    rw [hinner]
    rfl
  rw [show (Builder.fresh (Fin 3)).refs = [] from rfl, houter] at hcs
  cases hcs

end Wson.Java
