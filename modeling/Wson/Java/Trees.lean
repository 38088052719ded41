import Wson.Java.Cycles
import Wson.Java.Value

/-!
# Trees on the heap

`Represents H v o`: followed through the heap, the object `o` unfolds to the value
`v`. Objects may be shared in any way; only cycles are excluded, since `v` is finite.

- `equals_represents`: comparing two such objects ends, and objects that are equal
  are nested equally deep. So no object equals one that contains it.
- `unfold_represents`: hence nothing is cut, and what the builder writes for `o` is
  the document of `v`.
-/

namespace Wson.Java

open Wire

variable {O : Type} (H : Heap O)

mutual

/-- The object unfolds to the value. -/
def Represents : JValue → O → Prop
  | .null, o => H.view o = .null
  | .boolean b, o => H.view o = .boolean b
  | .number n, o => H.view o = .number n
  | .string s, o => H.view o = .string s
  | .list vs, o => ∃ os, H.view o = .list os ∧ RepresentsItems vs os
  | .map entries, o => ∃ os, H.view o = .map os ∧ RepresentsEntries entries os

def RepresentsItems : List JValue → List O → Prop
  | [], os => os = []
  | v :: vs, os => ∃ o os', os = o :: os' ∧ Represents v o ∧ RepresentsItems vs os'

def RepresentsEntries : List (Utf16 × JValue) → List (Key × O) → Prop
  | [], os => os = []
  | (k, v) :: entries, os =>
    ∃ o os', os = (.string k, o) :: os' ∧ Represents v o ∧ RepresentsEntries entries os'

end

variable {H}

theorem RepresentsItems.length_eq : ∀ {vs : List JValue} {os : List O},
    RepresentsItems H vs os → os.length = vs.length
  | [], _, h => by rw [h, List.length_nil, List.length_nil]
  | _ :: _, _, ⟨_, _, h, _, h'⟩ => by
    rw [h, List.length_cons, List.length_cons, RepresentsItems.length_eq h']

theorem RepresentsEntries.length_eq : ∀ {entries : List (Utf16 × JValue)} {os : List (Key × O)},
    RepresentsEntries H entries os → os.length = entries.length
  | [], _, h => by rw [h, List.length_nil, List.length_nil]
  | (_, _) :: _, _, ⟨_, _, h, _, h'⟩ => by
    rw [h, List.length_cons, List.length_cons, RepresentsEntries.length_eq h']

theorem exists_of_mem_items : ∀ {vs : List JValue} {os : List O}, RepresentsItems H vs os →
    ∀ o ∈ os, ∃ v ∈ vs, Represents H v o
  | [], _, h => by
    rw [h]
    exact fun _ h => absurd h List.not_mem_nil
  | v :: vs, _, ⟨o, os, h, hv, hvs⟩ => by
    subst h
    intro x hx
    rcases List.mem_cons.mp hx with rfl | hx
    · exact ⟨v, List.mem_cons_self, hv⟩
    · obtain ⟨w, hw, hwx⟩ := exists_of_mem_items hvs x hx
      exact ⟨w, List.mem_cons_of_mem v hw, hwx⟩

theorem exists_of_mem_entries : ∀ {entries : List (Utf16 × JValue)} {os : List (Key × O)},
    RepresentsEntries H entries os → ∀ x ∈ os, ∃ e ∈ entries, Represents H e.2 x.2
  | [], _, h => by
    rw [h]
    exact fun _ h => absurd h List.not_mem_nil
  | (k, v) :: entries, _, ⟨o, os, h, hv, hes⟩ => by
    subst h
    intro x hx
    rcases List.mem_cons.mp hx with rfl | hx
    · exact ⟨(k, v), List.mem_cons_self, hv⟩
    · obtain ⟨w, hw, hwx⟩ := exists_of_mem_entries hes x hx
      exact ⟨w, List.mem_cons_of_mem _ hw, hwx⟩

theorem JValue.regular_of_mem_items : ∀ {vs : List JValue}, RegularItems vs →
    ∀ v ∈ vs, v.Regular
  | _ :: _, h, v, hv => by
    rcases List.mem_cons.mp hv with rfl | hv
    · exact h.1
    · exact regular_of_mem_items h.2 v hv

theorem JValue.regular_of_mem_entries : ∀ {entries : List (Utf16 × JValue)},
    RegularEntries entries → ∀ e ∈ entries, e.2.Regular
  | _ :: _, h, e, he => by
    rcases List.mem_cons.mp he with rfl | he
    · exact h.1
    · exact regular_of_mem_entries h.2 e he

theorem isNull_represents {v : JValue} {o : O} (h : Represents H v o) :
    H.isNull o = v.isNull := by
  unfold Heap.isNull
  cases v with
  | null | boolean b | number n | string s =>
    rw [show H.view o = _ from h]
    rfl
  | list vs | map entries =>
    obtain ⟨os, hview, -⟩ := h
    rw [hview]
    rfl

mutual

/-- An object unfolds to one value only. -/
theorem represents_unique : ∀ {v w : JValue} {o : O}, Represents H v o → Represents H w o → v = w
  | .list vs, .list ws, _, ⟨os, hos, hvs⟩, ⟨os', hos', hws⟩ => by
    obtain rfl := View.list.inj (hos.symm.trans hos')
    rw [representsItems_unique hvs hws]
  | .map es, .map fs, _, ⟨os, hos, hes⟩, ⟨os', hos', hfs⟩ => by
    obtain rfl := View.map.inj (hos.symm.trans hos')
    rw [representsEntries_unique hes hfs]
  | .null, w, _, hv, hw | .boolean _, w, _, hv, hw | .number _, w, _, hv, hw
  | .string _, w, _, hv, hw => by
    simp only [Represents] at hv
    cases w <;> simp_all [Represents]
  | .list _, .null, _, ⟨_, hos, _⟩, hw | .list _, .boolean _, _, ⟨_, hos, _⟩, hw
  | .list _, .number _, _, ⟨_, hos, _⟩, hw | .list _, .string _, _, ⟨_, hos, _⟩, hw
  | .map _, .null, _, ⟨_, hos, _⟩, hw | .map _, .boolean _, _, ⟨_, hos, _⟩, hw
  | .map _, .number _, _, ⟨_, hos, _⟩, hw | .map _, .string _, _, ⟨_, hos, _⟩, hw =>
    nomatch hos.symm.trans hw
  | .list _, .map _, _, ⟨_, hos, _⟩, ⟨_, hos', _⟩ | .map _, .list _, _, ⟨_, hos, _⟩, ⟨_, hos', _⟩ =>
    nomatch hos.symm.trans hos'

theorem representsItems_unique : ∀ {vs ws : List JValue} {os : List O},
    RepresentsItems H vs os → RepresentsItems H ws os → vs = ws
  | [], [], _, _, _ => rfl
  | [], _ :: _, _, h, ⟨_, _, h', _⟩ => nomatch h.symm.trans h'
  | _ :: _, [], _, ⟨_, _, h, _⟩, h' => nomatch h.symm.trans h'
  | v :: vs, w :: ws, _, ⟨o, os, h, hv, hvs⟩, ⟨o', os', h', hw, hws⟩ => by
    obtain ⟨rfl, rfl⟩ := List.cons.inj (h.symm.trans h')
    rw [represents_unique hv hw, representsItems_unique hvs hws]

theorem representsEntries_unique : ∀ {es fs : List (Utf16 × JValue)} {os : List (Key × O)},
    RepresentsEntries H es os → RepresentsEntries H fs os → es = fs
  | [], [], _, _, _ => rfl
  | [], (_, _) :: _, _, h, ⟨_, _, h', _⟩ => nomatch h.symm.trans h'
  | (_, _) :: _, [], _, ⟨_, _, h, _⟩, h' => nomatch h.symm.trans h'
  | (k, v) :: es, (k', w) :: fs, _, ⟨o, os, h, hv, hvs⟩, ⟨o', os', h', hw, hws⟩ => by
    obtain ⟨hhead, rfl⟩ := List.cons.inj (h.symm.trans h')
    obtain ⟨hk, rfl⟩ := Prod.mk.inj hhead
    rw [Key.string.inj hk, represents_unique hv hw, representsEntries_unique hvs hws]

end

/-! ## Equal objects are nested equally deep -/

namespace JValue

theorem le_heightItems : ∀ {vs : List JValue} {v : JValue}, v ∈ vs → v.height ≤ heightItems vs
  | w :: vs, v, h => by
    rw [heightItems]
    rcases List.mem_cons.mp h with rfl | h
    · exact Nat.le_max_left _ _
    · exact (le_heightItems h).trans (Nat.le_max_right _ _)

theorem le_heightEntries : ∀ {entries : List (Utf16 × JValue)} {k : Utf16} {v : JValue},
    (k, v) ∈ entries → v.height ≤ heightEntries entries
  | (k', w) :: entries, k, v, h => by
    rw [heightEntries]
    rcases List.mem_cons.mp h with h | h
    · rw [(Prod.mk.inj h).2]
      exact Nat.le_max_left _ _
    · exact (le_heightEntries h).trans (Nat.le_max_right _ _)

theorem heightEntries_le {m : Nat} : ∀ {entries : List (Utf16 × JValue)},
    (∀ k v, (k, v) ∈ entries → v.height ≤ m) → heightEntries entries ≤ m
  | [], _ => Nat.zero_le m
  | (k, v) :: entries, h => by
    rw [heightEntries]
    exact Nat.max_le.mpr ⟨h k v List.mem_cons_self,
      heightEntries_le fun k' w hw => h k' w (List.mem_cons_of_mem _ hw)⟩

/-- Two maps with the same number of distinct keys: when every entry of the first has its
counterpart of the same height in the second, the heights are the same. -/
theorem heightEntries_eq {es fs : List (Utf16 × JValue)} (hlen : es.length = fs.length)
    (hes : (es.map Prod.fst).Nodup) (hfs : (fs.map Prod.fst).Nodup)
    (h : ∀ k v, (k, v) ∈ es → ∃ w, (k, w) ∈ fs ∧ v.height = w.height) :
    heightEntries es = heightEntries fs := by
  have hsub : es.map Prod.fst ⊆ fs.map Prod.fst := by
    intro k hk
    obtain ⟨⟨k, v⟩, hv, rfl⟩ := List.mem_map.mp hk
    obtain ⟨w, hw, -⟩ := h k v hv
    exact List.mem_map.mpr ⟨(k, w), hw, rfl⟩
  have hperm : (es.map Prod.fst).Perm (fs.map Prod.fst) :=
    (hes.subperm hsub).perm_of_length_le (by simp [hlen])
  apply Nat.le_antisymm
  · refine heightEntries_le ?_
    intro k v hv
    obtain ⟨w, hw, hvw⟩ := h k v hv
    rw [hvw]
    exact le_heightEntries hw
  · refine heightEntries_le ?_
    intro k w hw
    obtain ⟨⟨k, v⟩, hv, rfl⟩ :=
      List.mem_map.mp (hperm.mem_iff.mpr (List.mem_map.mpr ⟨(k, w), hw, rfl⟩))
    obtain ⟨w', hw', hvw⟩ := h _ v hv
    obtain rfl : w = w' := by
      have := List.inj_on_of_nodup_map hfs hw hw' rfl
      exact (Prod.mk.inj this).2
    rw [← hvw]
    exact le_heightEntries hv

end JValue

variable [DecidableEq O]

/-- Comparing the objects ends, and objects that are equal are nested equally deep. -/
def Compared (H : Heap O) (n : Nat) (u v : JValue) (a b : O) : Prop :=
  ∃ r, H.equals n a b = some r ∧ (r = true → u.height = v.height ∧ u.isNull = v.isNull)

omit [DecidableEq O] in
/-- What `map.get` finds is the value of an entry. -/
theorem exists_of_mapGet {k : Utf16} {o : O} :
    ∀ {entries : List (Utf16 × JValue)} {os : List (Key × O)}, RepresentsEntries H entries os →
      JValue.RegularEntries entries → mapGet (.string k) os = some o →
        ∃ v, (k, v) ∈ entries ∧ Represents H v o ∧ v.Regular
  | [], _, h, _, hget => by
    rw [h] at hget
    exact nomatch hget
  | (k', v) :: entries, _, ⟨o', os, h, hv, hrest⟩, hreg, hget => by
    subst h
    by_cases hk : k' = k
    · subst hk
      obtain rfl : o' = o := by simpa [mapGet] using hget
      exact ⟨v, List.mem_cons_self, hv, hreg.1⟩
    · obtain ⟨w, hw, hwo⟩ := exists_of_mapGet hrest hreg.2 (by simpa [mapGet, hk] using hget)
      exact ⟨w, List.mem_cons_of_mem _ hw, hwo⟩

/-- An object that is no container is equal only to objects that are none either. -/
theorem compared_scalar {u v : JValue} {a b : O} {n : Nat} (ha : Represents H u a)
    (hb : Represents H v b) (hu : u.height = 0) : Compared H (n + 1) u v a b := by
  have hnull := isNull_represents hb
  unfold Compared
  rw [Heap.equals]
  cases u with
  | list _ | map _ => exact absurd hu (Nat.succ_ne_zero _)
  | null | boolean b | number n | string s =>
    simp only [Represents] at ha
    rw [ha]
    cases v with
    | list _ | map _ =>
      obtain ⟨os, hb, -⟩ := hb
      simp [hb, hnull, JValue.isNull]
    | null | boolean b | number n | string s =>
      simp only [Represents] at hb
      simp [hb, hnull, JValue.isNull, JValue.height]

mutual

theorem equals_represents : ∀ {u v : JValue} {a b : O} {n : Nat}, Represents H u a →
    Represents H v b → u.Regular → v.Regular → u.height < n → Compared H n u v a b
  | .null, _, _, _, _ + 1, ha, hb, _, _, _ | .boolean _, _, _, _, _ + 1, ha, hb, _, _, _
  | .number _, _, _, _, _ + 1, ha, hb, _, _, _ | .string _, _, _, _, _ + 1, ha, hb, _, _, _ =>
    compared_scalar ha hb rfl
  | .list us, v, a, b, n + 1, ⟨as, ha, hus⟩, hb, hu, hv, hn => by
    unfold Compared
    rw [Heap.equals, ha]
    by_cases hab : a = b
    · subst hab
      obtain rfl := represents_unique (v := .list us) ⟨as, ha, hus⟩ hb
      rw [ha]
      exact ⟨true, if_pos rfl, fun _ => ⟨rfl, rfl⟩⟩
    · cases v with
      | list vs =>
        obtain ⟨bs, hbs, hvs⟩ := hb
        simp only [hbs, if_neg hab]
        obtain ⟨r, hr, hheight⟩ :=
          equalsElements_represents hus hvs hu hv (Nat.lt_of_succ_lt_succ hn)
        refine ⟨r, hr, fun h => ⟨?_, rfl⟩⟩
        rw [JValue.height, JValue.height, hheight h]
      | map es =>
        obtain ⟨bs, hbs, -⟩ := hb
        rw [hbs]
        exact ⟨false, rfl, by simp⟩
      | null | boolean x | number x | string s =>
        rw [show H.view b = _ from hb]
        exact ⟨false, rfl, by simp⟩
  | .map us, v, a, b, n + 1, ⟨as, ha, hus⟩, hb, hu, hv, hn => by
    unfold Compared
    rw [Heap.equals, ha]
    by_cases hab : a = b
    · subst hab
      obtain rfl := represents_unique (v := .map us) ⟨as, ha, hus⟩ hb
      rw [ha]
      exact ⟨true, if_pos rfl, fun _ => ⟨rfl, rfl⟩⟩
    · cases v with
      | map vs =>
        obtain ⟨bs, hbs, hvs⟩ := hb
        simp only [hbs, if_neg hab, hus.length_eq, hvs.length_eq]
        split
        · next hlen =>
          -- maps of one size: each entry of the one is looked up in the other
          obtain ⟨r, hr, hfound⟩ :=
            equalsEntries_represents hus hvs hu.2 hv.2 (Nat.lt_of_succ_lt_succ hn)
          refine ⟨r, hr, fun h => ⟨?_, rfl⟩⟩
          rw [JValue.height, JValue.height, JValue.heightEntries_eq hlen hu.1 hv.1 (hfound h)]
        · exact ⟨false, rfl, by simp⟩
      | list vs =>
        obtain ⟨bs, hbs, -⟩ := hb
        rw [hbs]
        exact ⟨false, rfl, by simp⟩
      | null | boolean x | number x | string s =>
        rw [show H.view b = _ from hb]
        exact ⟨false, rfl, by simp⟩

/-- The elements are compared as long as both lists have one. -/
theorem equalsElements_represents : ∀ {us vs : List JValue} {as bs : List O} {n : Nat},
    RepresentsItems H us as → RepresentsItems H vs bs → JValue.RegularItems us →
      JValue.RegularItems vs → JValue.heightItems us < n →
        ∃ r, Heap.equalsElements (H.equals n) as bs = some r ∧
          (r = true → JValue.heightItems us = JValue.heightItems vs)
  | [], [], _, _, _, ha, hb, _, _, _ => by
    rw [ha, hb]
    exact ⟨true, rfl, fun _ => rfl⟩
  | [], _ :: _, _, _, _, ha, ⟨b, bs, hb, _, _⟩, _, _, _ => by
    rw [ha, hb]
    exact ⟨false, rfl, by simp⟩
  | _ :: _, [], _, _, _, ⟨a, as, ha, _, _⟩, hb, _, _, _ => by
    rw [ha, hb]
    exact ⟨false, rfl, by simp⟩
  | u :: us, v :: vs, _, _, n, ⟨a, as, ha, hu, hus⟩, ⟨b, bs, hb, hv, hvs⟩, hu', hv', hn => by
    subst ha hb
    rw [JValue.heightItems, Nat.max_lt] at hn
    obtain ⟨r, hr, hheight⟩ := equals_represents hu hv hu'.1 hv'.1 hn.1
    rw [Heap.equalsElements, hr, Option.bind_eq_bind, Option.bind_some]
    cases r with
    | false => exact ⟨false, rfl, by simp⟩
    | true =>
      obtain ⟨r', hr', hrest⟩ :=
        equalsElements_represents hus hvs hu'.2 hv'.2 hn.2
      refine ⟨r', by simpa using hr', fun h => ?_⟩
      rw [JValue.heightItems, JValue.heightItems, (hheight rfl).1, hrest h]

theorem equalsEntries_represents : ∀ {us vs : List (Utf16 × JValue)} {as bs : List (Key × O)}
    {n : Nat}, RepresentsEntries H us as → RepresentsEntries H vs bs →
      JValue.RegularEntries us → JValue.RegularEntries vs → JValue.heightEntries us < n →
        ∃ r, H.equalsEntries (H.equals n) bs as = some r ∧ (r = true →
          ∀ k u, (k, u) ∈ us → ∃ v, (k, v) ∈ vs ∧ u.height = v.height)
  | [], _, _, _, _, ha, _, _, _, _ => by
    rw [ha]
    exact ⟨true, rfl, fun _ _ _ h => absurd h List.not_mem_nil⟩
  | (k, u) :: us, vs, _, bs, n, ⟨a, as, ha, hu, hus⟩, hb, hu', hv', hn => by
    subst ha
    rw [JValue.heightEntries, Nat.max_lt] at hn
    obtain ⟨r', hr', hrest⟩ := equalsEntries_represents hus hb hu'.2 hv' hn.2
    -- what is still to be shown about the first entry
    have hcons : (∃ v, (k, v) ∈ vs ∧ u.height = v.height) → r' = true →
        ∀ k' u', (k', u') ∈ (k, u) :: us → ∃ v, (k', v) ∈ vs ∧ u'.height = v.height := by
      intro hfirst hr k' u' hmem
      rcases List.mem_cons.mp hmem with h | h
      · obtain ⟨rfl, rfl⟩ := Prod.mk.inj h
        exact hfirst
      · exact hrest hr k' u' h
    rw [Heap.equalsEntries]
    by_cases hnull : H.isNull a
    · rw [if_pos hnull]
      rw [isNull_represents hu] at hnull
      split
      · next hany =>
        obtain ⟨o, ho, hnull'⟩ := (Option.any_eq_true _ _).mp hany
        obtain ⟨v, hmem, hv, -⟩ := exists_of_mapGet hb hv' ho
        rw [isNull_represents hv] at hnull'
        refine ⟨r', hr', fun h => hcons ⟨v, hmem, ?_⟩ h⟩
        cases u <;> cases v <;> simp_all [JValue.isNull]
      · exact ⟨false, rfl, by simp⟩
    · rw [if_neg hnull]
      rw [isNull_represents hu] at hnull
      obtain ⟨v, hv, hvreg, hfound⟩ : ∃ v, Represents H v ((mapGet (.string k) bs).getD H.null) ∧
          v.Regular ∧ (v.isNull = false → (k, v) ∈ vs) := by
        cases hget : mapGet (.string k) bs with
        | none => exact ⟨.null, H.view_null, trivial, fun h => nomatch h⟩
        | some o =>
          obtain ⟨v, hmem, hv, hreg⟩ := exists_of_mapGet hb hv' hget
          exact ⟨v, hv, hreg, fun _ => hmem⟩
      obtain ⟨r, hr, hheight⟩ := equals_represents hu hv hu'.1 hvreg hn.1
      rw [hr, Option.bind_eq_bind, Option.bind_some]
      cases r with
      | false => exact ⟨false, rfl, by simp⟩
      | true =>
        obtain ⟨hh, hnulls⟩ := hheight rfl
        refine ⟨r', by simpa using hr', fun h => hcons ⟨v, hfound ?_, hh⟩ h⟩
        rw [← hnulls]
        simpa using hnull

end

/-! ## Nothing is cut -/

/-- No tree nested at most `h` deep equals an object of the path. -/
def Unmatched (H : Heap O) (h : Nat) (path : List O) : Prop :=
  ∀ a ∈ path, ∀ {u x n}, Represents H u x → u.Regular → u.height ≤ h → u.height < n →
    H.equals n x a = some false

theorem unmatched_nil (h : Nat) : Unmatched H h [] :=
  fun _ ha => absurd ha List.not_mem_nil

theorem Unmatched.mono {h h' : Nat} {path : List O} (hp : Unmatched H h path) (hle : h' ≤ h) :
    Unmatched H h' path :=
  fun a ha _ _ _ hx hu hh hn => hp a ha hx hu (hh.trans hle) hn

/-- **No descendant equals an ancestor**, being nested less deep. -/
theorem Unmatched.concat {v : JValue} {h : Nat} {path : List O} {o : O}
    (hp : Unmatched H v.height path) (ho : Represents H v o) (hr : v.Regular)
    (hlt : h < v.height) : Unmatched H h (path ++ [o]) := by
  intro a ha u x n hx hu hh hn
  rcases List.mem_append.mp ha with ha | ha
  · exact hp a ha hx hu (by omega) hn
  · obtain rfl : a = o := by simpa using ha
    obtain ⟨r, hr', hheight⟩ := equals_represents hx ho hu hr hn
    cases r with
    | true => exact absurd (hheight rfl).1 (by omega)
    | false => exact hr'

/-- The check of the stack ends and finds nothing. -/
theorem contains_represents {v : JValue} {o : O} (ho : Represents H v o) (hr : v.Regular)
    {n : Nat} (hn : v.height < n) :
    ∀ {path : List O}, Unmatched H v.height path → H.contains n path o = some false
  | [], _ => rfl
  | a :: path, hp => by
    rw [Heap.contains, hp a List.mem_cons_self ho hr (Nat.le_refl _) hn, Option.bind_eq_bind,
      Option.bind_some]
    exact contains_represents ho hr hn fun x hx => hp x (List.mem_cons_of_mem a hx)

variable (P : Platform) {special : Utf16 → Bool}

mutual

/-- **The builder writes the document of the value**: nothing in a tree is cut. -/
theorem unfold_represents : ∀ {v : JValue} {o : O} {n : Nat} {path : List O},
    Represents H v o → v.Regular → v.height + 1 < n → Unmatched H v.height path →
      unfold P H special H.contains n path o = some (v.written P)
  | .null, _, n + 1, _, ho, _, _, _ | .boolean _, _, n + 1, _, ho, _, _, _
  | .number _, _, n + 1, _, ho, _, _, _ | .string _, _, n + 1, _, ho, _, _, _ => by
    rw [unfold, show H.view _ = _ from ho]
    rfl
  | .list vs, o, n + 1, path, ⟨os, ho, hvs⟩, hr, hn, hp => by
    have hcontains := contains_represents (v := .list vs) ⟨os, ho, hvs⟩ hr
      (Nat.lt_of_succ_lt_succ hn) hp
    rw [unfold, ho]
    simp only [unfoldContainer, hcontains]
    rw [unfoldElements_represents hvs hr (Nat.lt_of_succ_lt_succ hn)
      (hp.concat ⟨os, ho, hvs⟩ hr (Nat.lt_succ_self _))]
    rfl
  | .map es, o, n + 1, path, ⟨os, ho, hes⟩, hr, hn, hp => by
    have hcontains := contains_represents (v := .map es) ⟨os, ho, hes⟩ hr
      (Nat.lt_of_succ_lt_succ hn) hp
    rw [unfold, ho]
    simp only [unfoldContainer, hcontains]
    rw [unfoldEntries_represents hes hr.2 (Nat.lt_of_succ_lt_succ hn)
      (hp.concat ⟨os, ho, hes⟩ hr (Nat.lt_succ_self _))]
    rfl

theorem unfoldElements_represents : ∀ {vs : List JValue} {os : List O} {n : Nat} {path : List O},
    RepresentsItems H vs os → JValue.RegularItems vs → JValue.heightItems vs + 1 < n →
      Unmatched H (JValue.heightItems vs) path →
        unfoldElements (unfold P H special H.contains n path) os = some (JValue.writtenItems P vs)
  | [], _, _, _, h, _, _, _ => by
    rw [h]
    rfl
  | v :: vs, _, n, path, ⟨o, os, h, hv, hvs⟩, hr, hn, hp => by
    subst h
    have hmax : v.height ≤ JValue.heightItems (v :: vs) ∧
        JValue.heightItems vs ≤ JValue.heightItems (v :: vs) :=
      ⟨Nat.le_max_left _ _, Nat.le_max_right _ _⟩
    rw [unfoldElements, unfold_represents hv hr.1 (by omega) (hp.mono hmax.1),
      unfoldElements_represents hvs hr.2 (by omega) (hp.mono hmax.2)]
    rfl

theorem unfoldEntries_represents : ∀ {es : List (Utf16 × JValue)} {os : List (Key × O)} {n : Nat}
    {path : List O}, RepresentsEntries H es os → JValue.RegularEntries es →
      JValue.heightEntries es + 1 < n → Unmatched H (JValue.heightEntries es) path →
        unfoldEntries H (unfold P H special H.contains n path) os
          = some (JValue.writtenEntries P es)
  | [], _, _, _, h, _, _, _ => by
    rw [h]
    rfl
  | (k, v) :: es, _, n, path, ⟨o, os, h, hv, hes⟩, hr, hn, hp => by
    subst h
    have hmax : v.height ≤ JValue.heightEntries ((k, v) :: es) ∧
        JValue.heightEntries es ≤ JValue.heightEntries ((k, v) :: es) :=
      ⟨Nat.le_max_left _ _, Nat.le_max_right _ _⟩
    have hrest : unfoldEntries H (unfold P H special H.contains n path) os = _ :=
      unfoldEntries_represents hes hr.2 (by omega) (hp.mono hmax.2)
    rw [unfoldEntries, JValue.writtenEntries, isNull_represents hv]
    split
    · exact hrest
    · rw [unfold_represents hv hr.1 (by omega) (hp.mono hmax.1), hrest]
      rfl

end

end Wson.Java
