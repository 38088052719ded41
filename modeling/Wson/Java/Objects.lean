import Wson.Java.Contents

/-!
# Objects of an application

What `writeObject` makes of beans, dates and enum constants among lists, arrays,
collections and maps: a bean becomes the map of its properties that are not null, a date
its time, and an enum constant its string.

- `Depicts`: the objects below a reference show a value.
- `EqualsByContents`: what the classes are to say with their own `equals`. It is enough
  for `refs.contains` to find nothing (`contains_depicts`), since objects that are equal
  are nested equally deep.
- `objectsRoundTrip`: so the value comes back, and no class is marked.
-/

namespace Wson.Java

open Effect Wire

section Depicts

variable {O : Type} (H : Heap O) (special : Utf16 → Bool)

/-- A number, or a date. -/
def ShowsNumber (n : JNumber) (o : O) : Prop :=
  H.view o = .number n ∨
    ∃ time : BitVec 64, H.view o = .date time ∧ n = .double (Binary64.ofInt time.toInt)

/-- A string, or an enum constant. -/
def ShowsString (s : Utf16) (o : O) : Prop :=
  H.view o = .string s ∨ ∃ json, H.view o = .enum json ∧ H.view json = .string s

/-- The entries of a map, or the properties of a bean whose class is not marked. -/
def HasEntries (os : List (Key × O)) (o : O) : Prop :=
  H.view o = .map os ∨ ∃ key getters, H.view o = .bean key getters ∧ special key = false ∧
    Builder.toMap H getters = .ok os

mutual

/-- The objects below the reference show the value. -/
def Depicts : JValue → O → Prop
  | .null, o => H.view o = .null
  | .boolean b, o => H.view o = .boolean b
  | .number n, o => ShowsNumber H n o
  | .string s, o => ShowsString H s o
  | .list vs, o => ∃ os, (∃ kind : Sequence, H.view o = kind.view os) ∧ DepictsItems vs os
  | .map entries, o => ∃ os, HasEntries H special os o ∧ DepictsEntries entries os

def DepictsItems : List JValue → List O → Prop
  | [], os => os = []
  | v :: vs, os => ∃ o os', os = o :: os' ∧ Depicts v o ∧ DepictsItems vs os'

def DepictsEntries : List (Utf16 × JValue) → List (Key × O) → Prop
  | [], os => os = []
  | (k, v) :: entries, os =>
    ∃ o os', os = (.string k, o) :: os' ∧ Depicts v o ∧ DepictsEntries entries os'

end

/-- Objects that a class of its own calls equal are nested equally deep. Identity is like this, and
so is any comparison of the contents. -/
def EqualsByContents : Prop :=
  ∀ {u v : JValue} {a b : O}, H.ownEquals a b = true → Depicts H special u a → Depicts H special v b →
    u.height = v.height ∧ u.isNull = v.isNull

variable {H special}

theorem isNull_depicts {v : JValue} {o : O} (h : Depicts H special v o) : H.isNull o = v.isNull := by
  unfold Heap.isNull
  cases v with
  | null | boolean b =>
    rw [show H.view o = _ from h]
    rfl
  | number n =>
    rcases h with hview | ⟨time, hview, -⟩
    · rw [hview]
      rfl
    · rw [hview]
      rfl
  | string s =>
    rcases h with hview | ⟨json, hview, -⟩
    · rw [hview]
      rfl
    · rw [hview]
      rfl
  | list vs =>
    obtain ⟨os, ⟨kind, hview⟩, -⟩ := h
    rw [hview]
    cases kind <;> rfl
  | map entries =>
    obtain ⟨os, hview | ⟨key, getters, hview, -⟩, -⟩ := h
    · rw [hview]
      rfl
    · rw [hview]
      rfl

theorem DepictsItems.length_eq : ∀ {vs : List JValue} {os : List O},
    DepictsItems H special vs os → os.length = vs.length
  | [], _, h => by rw [h, List.length_nil, List.length_nil]
  | _ :: _, _, ⟨_, _, h, _, h'⟩ => by
    rw [h, List.length_cons, List.length_cons, DepictsItems.length_eq h']

theorem DepictsEntries.length_eq : ∀ {entries : List (Utf16 × JValue)} {os : List (Key × O)},
    DepictsEntries H special entries os → os.length = entries.length
  | [], _, h => by rw [h, List.length_nil, List.length_nil]
  | (_, _) :: _, _, ⟨_, _, h, _, h'⟩ => by
    rw [h, List.length_cons, List.length_cons, DepictsEntries.length_eq h']

/-! ## What a view says about the value -/

theorem depicts_list {v : JValue} {o : O} {os : List O} (h : Depicts H special v o)
    (hview : H.view o = .list os) : ∃ vs, v = .list vs ∧ DepictsItems H special vs os := by
  cases v with
  | list vs =>
    obtain ⟨os', ⟨kind, hview'⟩, hvs⟩ := h
    cases kind with
    | list =>
      obtain rfl := View.list.inj (hview.symm.trans hview')
      exact ⟨vs, rfl, hvs⟩
    | array => cases hview.symm.trans hview'
    | collection => cases hview.symm.trans hview'
  | null | boolean b => cases hview.symm.trans h
  | number n =>
    rcases h with h | ⟨time, h, -⟩
    · cases hview.symm.trans h
    · cases hview.symm.trans h
  | string s =>
    rcases h with h | ⟨json, h, -⟩
    · cases hview.symm.trans h
    · cases hview.symm.trans h
  | map entries =>
    obtain ⟨os', h | ⟨key, getters, h, -⟩, -⟩ := h
    · cases hview.symm.trans h
    · cases hview.symm.trans h

theorem depicts_map {v : JValue} {o : O} {os : List (Key × O)} (h : Depicts H special v o)
    (hview : H.view o = .map os) : ∃ es, v = .map es ∧ DepictsEntries H special es os := by
  cases v with
  | map es =>
    obtain ⟨os', h | ⟨key, getters, h, -⟩, hes⟩ := h
    · obtain rfl := View.map.inj (hview.symm.trans h)
      exact ⟨es, rfl, hes⟩
    · cases hview.symm.trans h
  | null | boolean b => cases hview.symm.trans h
  | number n =>
    rcases h with h | ⟨time, h, -⟩
    · cases hview.symm.trans h
    · cases hview.symm.trans h
  | string s =>
    rcases h with h | ⟨json, h, -⟩
    · cases hview.symm.trans h
    · cases hview.symm.trans h
  | list vs =>
    obtain ⟨os', ⟨kind, h⟩, -⟩ := h
    cases kind <;> cases hview.symm.trans h

/-- The values that are compared by class and value. -/
theorem depicts_scalar {v : JValue} {o : O} (h : Depicts H special v o)
    (hview : (∃ s, H.view o = .string s) ∨ (∃ n, H.view o = .number n) ∨ ∃ b, H.view o = .boolean b) :
    v.height = 0 ∧ v.isNull = false := by
  cases v with
  | boolean b | number n | string s => exact ⟨rfl, rfl⟩
  | null =>
    rcases hview with ⟨s, hview⟩ | ⟨n, hview⟩ | ⟨b, hview⟩
    · cases hview.symm.trans h
    · cases hview.symm.trans h
    · cases hview.symm.trans h
  | list vs =>
    obtain ⟨os', ⟨kind, h⟩, -⟩ := h
    rcases hview with ⟨s, hview⟩ | ⟨n, hview⟩ | ⟨b, hview⟩ <;> cases kind <;> cases hview.symm.trans h
  | map entries =>
    obtain ⟨os', h | ⟨key, getters, h, -⟩, -⟩ := h
    · rcases hview with ⟨s, hview⟩ | ⟨n, hview⟩ | ⟨b, hview⟩ <;> cases hview.symm.trans h
    · rcases hview with ⟨s, hview⟩ | ⟨n, hview⟩ | ⟨b, hview⟩ <;> cases hview.symm.trans h

/-- What `map.get` finds is the value of an entry. -/
theorem exists_of_depictsEntries {k : Utf16} {o : O} :
    ∀ {entries : List (Utf16 × JValue)} {os : List (Key × O)}, DepictsEntries H special entries os →
      JValue.RegularEntries entries → mapGet (.string k) os = some o →
        ∃ v, (k, v) ∈ entries ∧ Depicts H special v o ∧ v.Regular
  | [], _, h, _, hget => by
    rw [h] at hget
    cases hget
  | (k', v) :: entries, _, ⟨o', os, h, hv, hrest⟩, hreg, hget => by
    subst h
    by_cases hk : k' = k
    · subst hk
      obtain rfl : o' = o := by simpa [mapGet] using hget
      exact ⟨v, List.mem_cons_self, hv, hreg.1⟩
    · obtain ⟨w, hw, hwo⟩ := exists_of_depictsEntries hrest hreg.2 (by simpa [mapGet, hk] using hget)
      exact ⟨w, List.mem_cons_of_mem _ hw, hwo⟩

/-! ## One value for an object -/

/-- What a view can show. -/
def View.shape : View O → Nat
  | .null => 0
  | .boolean _ => 1
  | .number _ | .date _ => 2
  | .string _ | .enum _ => 3
  | .list _ | .array _ | .collection _ => 4
  | .map _ | .bean _ _ => 5

def JValue.shape : JValue → Nat
  | .null => 0
  | .boolean _ => 1
  | .number _ => 2
  | .string _ => 3
  | .list _ => 4
  | .map _ => 5

theorem shape_depicts {v : JValue} {o : O} (h : Depicts H special v o) : (H.view o).shape = v.shape := by
  cases v with
  | null | boolean b =>
    rw [show H.view o = _ from h]
    rfl
  | number n =>
    rcases h with hview | ⟨time, hview, -⟩
    · rw [hview]
      rfl
    · rw [hview]
      rfl
  | string s =>
    rcases h with hview | ⟨json, hview, -⟩
    · rw [hview]
      rfl
    · rw [hview]
      rfl
  | list vs =>
    obtain ⟨os, ⟨kind, hview⟩, -⟩ := h
    rw [hview]
    cases kind <;> rfl
  | map entries =>
    obtain ⟨os, hview | ⟨key, getters, hview, -⟩, -⟩ := h
    · rw [hview]
      rfl
    · rw [hview]
      rfl

theorem ShowsNumber.unique {m n : JNumber} {o : O} (hm : ShowsNumber H m o) (hn : ShowsNumber H n o) :
    m = n := by
  rcases hm with hm | ⟨time, hm, rfl⟩
  · rcases hn with hn | ⟨time', hn, -⟩
    · exact View.number.inj (hm.symm.trans hn)
    · cases hm.symm.trans hn
  · rcases hn with hn | ⟨time', hn, rfl⟩
    · cases hm.symm.trans hn
    · rw [View.date.inj (hm.symm.trans hn)]

theorem ShowsString.unique {s t : Utf16} {o : O} (hs : ShowsString H s o) (ht : ShowsString H t o) :
    s = t := by
  rcases hs with hs | ⟨json, hs, hjson⟩
  · rcases ht with ht | ⟨json', ht, -⟩
    · exact View.string.inj (hs.symm.trans ht)
    · cases hs.symm.trans ht
  · rcases ht with ht | ⟨json', ht, hjson'⟩
    · cases hs.symm.trans ht
    · obtain rfl := View.enum.inj (hs.symm.trans ht)
      exact View.string.inj (hjson.symm.trans hjson')

theorem Sequence.view_unique {kind kind' : Sequence} {os os' : List O}
    (h : kind.view os = kind'.view os') : os = os' := by
  cases kind with
  | list =>
    cases kind' with
    | list => exact View.list.inj h
    | array => cases h
    | collection => cases h
  | array =>
    cases kind' with
    | list => cases h
    | array => exact View.array.inj h
    | collection => cases h
  | collection =>
    cases kind' with
    | list => cases h
    | array => cases h
    | collection => exact View.collection.inj h

theorem HasEntries.unique {os os' : List (Key × O)} {o : O} (h : HasEntries H special os o)
    (h' : HasEntries H special os' o) : os = os' := by
  rcases h with hview | ⟨key, getters, hview, -, hentries⟩
  · rcases h' with hview' | ⟨key', getters', hview', -⟩
    · exact View.map.inj (hview.symm.trans hview')
    · cases hview.symm.trans hview'
  · rcases h' with hview' | ⟨key', getters', hview', -, hentries'⟩
    · cases hview.symm.trans hview'
    · obtain ⟨rfl, rfl⟩ := View.bean.inj (hview.symm.trans hview')
      exact Except.ok.inj (hentries.symm.trans hentries')

mutual

/-- An object shows one value only. -/
theorem depicts_unique : ∀ {u v : JValue} {o : O}, Depicts H special u o → Depicts H special v o → u = v
  | .null, v, _, hu, hv => by
    have hshape := (shape_depicts hu).symm.trans (shape_depicts hv)
    cases v with
    | null => rfl
    | boolean b | number n | string s | list vs | map entries => cases hshape
  | .boolean b, v, o, hu, hv => by
    have hshape := (shape_depicts hu).symm.trans (shape_depicts hv)
    cases v with
    | boolean b' => rw [View.boolean.inj ((show H.view o = .boolean b from hu).symm.trans hv)]
    | null | number n | string s | list vs | map entries => cases hshape
  | .number m, v, _, hu, hv => by
    have hshape := (shape_depicts hu).symm.trans (shape_depicts hv)
    cases v with
    | number n => rw [ShowsNumber.unique hu hv]
    | null | boolean b | string s | list vs | map entries => cases hshape
  | .string s, v, _, hu, hv => by
    have hshape := (shape_depicts hu).symm.trans (shape_depicts hv)
    cases v with
    | string t => rw [ShowsString.unique hu hv]
    | null | boolean b | number n | list vs | map entries => cases hshape
  | .list us, v, _, hu, hv => by
    have hshape := (shape_depicts hu).symm.trans (shape_depicts hv)
    cases v with
    | list vs =>
      obtain ⟨os, ⟨kind, hview⟩, hus⟩ := hu
      obtain ⟨os', ⟨kind', hview'⟩, hvs⟩ := hv
      obtain rfl := Sequence.view_unique (hview.symm.trans hview')
      rw [depictsItems_unique hus hvs]
    | null | boolean b | number n | string s | map entries => cases hshape
  | .map es, v, _, hu, hv => by
    have hshape := (shape_depicts hu).symm.trans (shape_depicts hv)
    cases v with
    | map fs =>
      obtain ⟨os, hos, hes⟩ := hu
      obtain ⟨os', hos', hfs⟩ := hv
      obtain rfl := hos.unique hos'
      rw [depictsEntries_unique hes hfs]
    | null | boolean b | number n | string s | list vs => cases hshape

theorem depictsItems_unique : ∀ {us vs : List JValue} {os : List O}, DepictsItems H special us os →
    DepictsItems H special vs os → us = vs
  | [], vs, _, hu, hv => by
    have hlen := hv.length_eq
    rw [hu] at hlen
    exact (List.eq_nil_of_length_eq_zero hlen.symm).symm
  | u :: us, [], _, ⟨o, os', h, _⟩, hv => by
    cases h.symm.trans hv
  | u :: us, v :: vs, _, ⟨o, os, h, hu, hus⟩, ⟨o', os', h', hv, hvs⟩ => by
    obtain ⟨rfl, rfl⟩ := List.cons.inj (h.symm.trans h')
    rw [depicts_unique hu hv, depictsItems_unique hus hvs]

theorem depictsEntries_unique : ∀ {es fs : List (Utf16 × JValue)} {os : List (Key × O)},
    DepictsEntries H special es os → DepictsEntries H special fs os → es = fs
  | [], fs, _, he, hf => by
    have hlen := hf.length_eq
    rw [he] at hlen
    exact (List.eq_nil_of_length_eq_zero hlen.symm).symm
  | (k, u) :: es, [], _, ⟨o, os', h, _⟩, hf => by
    cases h.symm.trans hf
  | (k, u) :: es, (k', v) :: fs, _, ⟨o, os, h, hu, hes⟩, ⟨o', os', h', hv, hfs⟩ => by
    obtain ⟨hhead, rfl⟩ := List.cons.inj (h.symm.trans h')
    obtain ⟨hk, rfl⟩ := Prod.mk.inj hhead
    rw [Key.string.inj hk, depicts_unique hu hv, depictsEntries_unique hes hfs]

end

/-! ## Equal objects are nested equally deep -/

variable [DecidableEq O]

/-- A class of its own decides by its `equals`. -/
theorem compared_own (hequals : EqualsByContents H special) {u v : JValue} {a b : O} {n : Nat}
    (ha : Depicts H special u a) (hb : Depicts H special v b)
    (h : H.equals (n + 1) a b = some (H.ownEquals a b)) : Compared H (n + 1) u v a b :=
  ⟨_, h, fun hr => hequals hr ha hb⟩

/-- What is compared by its class and value is equal to such objects only. -/
theorem compared_value {u v : JValue} {a b : O} {n : Nat} (ha : Depicts H special u a)
    (hb : Depicts H special v b)
    (hview : (∃ s, H.view a = .string s) ∨ (∃ m, H.view a = .number m) ∨ ∃ x, H.view a = .boolean x) :
    Compared H (n + 1) u v a b := by
  obtain ⟨hheight, hnull⟩ := depicts_scalar ha hview
  -- equal objects have views of one kind
  suffices h : ∃ r, H.equals (n + 1) a b = some r ∧ (r = true →
      (∃ s, H.view b = .string s) ∨ (∃ m, H.view b = .number m) ∨ ∃ x, H.view b = .boolean x) by
    obtain ⟨r, hr, hkind⟩ := h
    refine ⟨r, hr, fun htrue => ?_⟩
    obtain ⟨hheight', hnull'⟩ := depicts_scalar hb (hkind htrue)
    exact ⟨hheight.trans hheight'.symm, hnull.trans hnull'.symm⟩
  rw [Heap.equals]
  rcases hview with ⟨s, hview⟩ | ⟨m, hview⟩ | ⟨x, hview⟩
  · rw [hview]
    cases H.view b <;> simp
  · rw [hview]
    cases H.view b <;> simp
  · rw [hview]
    cases H.view b <;> simp

mutual

/-- Comparing two such objects ends, and only objects that are nested equally deep are equal. -/
theorem equals_depicts (hequals : EqualsByContents H special) : ∀ {u v : JValue} {a b : O} {n : Nat},
    Depicts H special u a → Depicts H special v b → u.Regular → v.Regular → u.height < n →
      Compared H n u v a b
  | .null, v, a, b, n + 1, ha, hb, _, _, _ => by
    have hview : H.view a = .null := ha
    refine ⟨H.isNull b, by rw [Heap.equals, hview], fun hr => ?_⟩
    rw [isNull_depicts hb] at hr
    cases v with
    | null => exact ⟨rfl, rfl⟩
    | boolean b | number m | string s | list vs | map entries => cases hr
  | .boolean x, _, _, _, _ + 1, ha, hb, _, _, _ => compared_value ha hb (.inr (.inr ⟨x, ha⟩))
  | .number m, _, a, _, _ + 1, ha, hb, _, _, _ => by
    rcases show ShowsNumber H m a from ha with hview | ⟨time, hview, -⟩
    · exact compared_value ha hb (.inr (.inl ⟨m, hview⟩))
    · exact compared_own hequals ha hb (by rw [Heap.equals, hview])
  | .string s, _, a, _, _ + 1, ha, hb, _, _, _ => by
    rcases show ShowsString H s a from ha with hview | ⟨json, hview, -⟩
    · exact compared_value ha hb (.inl ⟨s, hview⟩)
    · exact compared_own hequals ha hb (by rw [Heap.equals, hview])
  | .list us, v, a, b, n + 1, ha, hb, hu, hv, hn => by
    obtain ⟨as, ⟨kind, hview⟩, hus⟩ := show ∃ os, (∃ kind : Sequence, _) ∧ _ from ha
    cases kind with
    | array => exact compared_own hequals ha hb (by rw [Heap.equals, hview]; rfl)
    | collection => exact compared_own hequals ha hb (by rw [Heap.equals, hview]; rfl)
    | list =>
      have hview : H.view a = .list as := hview
      by_cases hab : a = b
      · subst hab
        obtain rfl := depicts_unique ha hb
        refine ⟨true, ?_, fun _ => ⟨rfl, rfl⟩⟩
        rw [Heap.equals, hview]
        exact if_pos rfl
      by_cases hlist : ∃ bs, H.view b = .list bs
      · obtain ⟨bs, hbs⟩ := hlist
        obtain ⟨vs, rfl, hvs⟩ := depicts_list hb hbs
        unfold Compared
        simp only [Heap.equals, hview, hbs, if_neg hab]
        obtain ⟨r, hr, hheight⟩ :=
          equalsElements_depicts hequals hus hvs hu hv (Nat.lt_of_succ_lt_succ hn)
        refine ⟨r, hr, fun h => ⟨?_, rfl⟩⟩
        rw [JValue.height, JValue.height, hheight h]
      · refine ⟨false, ?_, by simp⟩
        rw [Heap.equals, hview]
        cases hvb : H.view b with
        | list bs => exact absurd ⟨bs, hvb⟩ hlist
        | _ => rfl
  | .map us, v, a, b, n + 1, ha, hb, hu, hv, hn => by
    obtain ⟨as, hview | ⟨key, getters, hview, -⟩, hus⟩ := show ∃ os, HasEntries H special os a ∧ _ from ha
    · by_cases hab : a = b
      · subst hab
        obtain rfl := depicts_unique ha hb
        refine ⟨true, ?_, fun _ => ⟨rfl, rfl⟩⟩
        rw [Heap.equals, hview]
        exact if_pos rfl
      by_cases hmap : ∃ bs, H.view b = .map bs
      · obtain ⟨bs, hbs⟩ := hmap
        obtain ⟨vs, rfl, hvs⟩ := depicts_map hb hbs
        unfold Compared
        simp only [Heap.equals, hview, hbs, if_neg hab, hus.length_eq, hvs.length_eq]
        by_cases hlen : us.length = vs.length
        · obtain ⟨r, hr, hfound⟩ :=
            equalsEntries_depicts hequals hus hvs hu.2 hv.2 (Nat.lt_of_succ_lt_succ hn)
          rw [if_pos hlen]
          refine ⟨r, hr, fun h => ⟨?_, rfl⟩⟩
          rw [JValue.height, JValue.height, JValue.heightEntries_eq hlen hu.1 hv.1 (hfound h)]
        · rw [if_neg hlen]
          exact ⟨false, rfl, by simp⟩
      · refine ⟨false, ?_, by simp⟩
        rw [Heap.equals, hview]
        cases hvb : H.view b with
        | map bs => exact absurd ⟨bs, hvb⟩ hmap
        | _ => rfl
    · exact compared_own hequals ha hb (by rw [Heap.equals, hview])

theorem equalsElements_depicts (hequals : EqualsByContents H special) : ∀ {us vs : List JValue}
    {as bs : List O} {n : Nat}, DepictsItems H special us as → DepictsItems H special vs bs →
      JValue.RegularItems us → JValue.RegularItems vs → JValue.heightItems us < n →
        ∃ r, Heap.equalsElements (H.equals n) as bs = some r ∧
          (r = true → JValue.heightItems us = JValue.heightItems vs)
  | [], [], _, _, _, ha, hb, _, _, _ => by
    rw [ha, hb]
    exact ⟨true, rfl, fun _ => rfl⟩
  | [], _ :: _, _, _, _, ha, ⟨b, bs, hb, _, _⟩, _, _, _ => by
    rw [ha, hb]
    exact ⟨false, rfl, by simp⟩
  | _ :: _, [], _, _, _, ⟨a, as, ha, _, _⟩, hb, _, _, _ => by
    rw [ha, hb]
    exact ⟨false, rfl, by simp⟩
  | u :: us, v :: vs, _, _, n, ⟨a, as, ha, hu, hus⟩, ⟨b, bs, hb, hv, hvs⟩, hu', hv', hn => by
    subst ha hb
    rw [JValue.heightItems, Nat.max_lt] at hn
    obtain ⟨r, hr, hheight⟩ := equals_depicts hequals hu hv hu'.1 hv'.1 hn.1
    rw [Heap.equalsElements, hr, Option.bind_eq_bind, Option.bind_some]
    cases r with
    | false => exact ⟨false, rfl, by simp⟩
    | true =>
      obtain ⟨r', hr', hrest⟩ :=
        equalsElements_depicts hequals hus hvs hu'.2 hv'.2 hn.2
      refine ⟨r', by simpa using hr', fun h => ?_⟩
      rw [JValue.heightItems, JValue.heightItems, (hheight rfl).1, hrest h]

theorem equalsEntries_depicts (hequals : EqualsByContents H special) :
    ∀ {us vs : List (Utf16 × JValue)} {as bs : List (Key × O)} {n : Nat},
      DepictsEntries H special us as → DepictsEntries H special vs bs → JValue.RegularEntries us →
        JValue.RegularEntries vs → JValue.heightEntries us < n →
          ∃ r, H.equalsEntries (H.equals n) bs as = some r ∧ (r = true →
            ∀ k u, (k, u) ∈ us → ∃ v, (k, v) ∈ vs ∧ u.height = v.height)
  | [], _, _, _, _, ha, _, _, _, _ => by
    rw [ha]
    exact ⟨true, rfl, fun _ _ _ h => absurd h List.not_mem_nil⟩
  | (k, u) :: us, vs, _, bs, n, ⟨a, as, ha, hu, hus⟩, hb, hu', hv', hn => by
    subst ha
    rw [JValue.heightEntries, Nat.max_lt] at hn
    obtain ⟨r', hr', hrest⟩ := equalsEntries_depicts hequals hus hb hu'.2 hv' hn.2
    -- what is still to be shown about the first entry
    have hcons : (∃ v, (k, v) ∈ vs ∧ u.height = v.height) → r' = true →
        ∀ k' u', (k', u') ∈ (k, u) :: us → ∃ v, (k', v) ∈ vs ∧ u'.height = v.height := by
      intro hfirst hr k' u' hmem
      rcases List.mem_cons.mp hmem with h | h
      · obtain ⟨rfl, rfl⟩ := Prod.mk.inj h
        exact hfirst
      · exact hrest hr k' u' h
    rw [Heap.equalsEntries]
    by_cases hnull : H.isNull a
    · rw [if_pos hnull]
      rw [isNull_depicts hu] at hnull
      split
      · next hany =>
        obtain ⟨o, ho, hnull'⟩ := (Option.any_eq_true _ _).mp hany
        obtain ⟨v, hmem, hv, -⟩ := exists_of_depictsEntries hb hv' ho
        rw [isNull_depicts hv] at hnull'
        refine ⟨r', hr', fun h => hcons ⟨v, hmem, ?_⟩ h⟩
        cases u <;> cases v <;> simp_all [JValue.isNull]
      · exact ⟨false, rfl, by simp⟩
    · rw [if_neg hnull]
      rw [isNull_depicts hu] at hnull
      obtain ⟨v, hv, hvreg, hfound⟩ :
          ∃ v, Depicts H special v ((mapGet (.string k) bs).getD H.null) ∧ v.Regular ∧
            (v.isNull = false → (k, v) ∈ vs) := by
        cases hget : mapGet (.string k) bs with
        | none => exact ⟨.null, H.view_null, trivial, by simp [JValue.isNull]⟩
        | some o =>
          obtain ⟨v, hmem, hv, hreg⟩ := exists_of_depictsEntries hb hv' hget
          exact ⟨v, hv, hreg, fun _ => hmem⟩
      obtain ⟨r, hr, hheight⟩ := equals_depicts hequals hu hv hu'.1 hvreg hn.1
      rw [hr, Option.bind_eq_bind, Option.bind_some]
      cases r with
      | false => exact ⟨false, rfl, by simp⟩
      | true =>
        obtain ⟨hh, hnulls⟩ := hheight rfl
        refine ⟨r', by simpa using hr', fun h => hcons ⟨v, hfound ?_, hh⟩ h⟩
        rw [← hnulls]
        simpa using hnull

end

/-! ## Nothing is cut -/

/-- No object nested at most `h` deep equals an object of the path. -/
def Apart (H : Heap O) (special : Utf16 → Bool) (h : Nat) (path : List O) : Prop :=
  ∀ a ∈ path, ∀ {u x n}, Depicts H special u x → u.Regular → u.height ≤ h → u.height < n →
    H.equals n x a = some false

theorem apart_nil (h : Nat) : Apart H special h [] :=
  fun _ ha => absurd ha List.not_mem_nil

theorem Apart.mono {h h' : Nat} {path : List O} (hp : Apart H special h path) (hle : h' ≤ h) :
    Apart H special h' path :=
  fun a ha _ _ _ hx hu hh hn => hp a ha hx hu (hh.trans hle) hn

theorem Apart.concat (hequals : EqualsByContents H special) {v : JValue} {h : Nat} {path : List O}
    {o : O} (hp : Apart H special v.height path) (ho : Depicts H special v o) (hr : v.Regular)
    (hlt : h < v.height) : Apart H special h (path ++ [o]) := by
  intro a ha u x n hx hu hh hn
  rcases List.mem_append.mp ha with ha | ha
  · exact hp a ha hx hu (by omega) hn
  · obtain rfl : a = o := by simpa using ha
    obtain ⟨r, hr', hheight⟩ := equals_depicts hequals hx ho hu hr hn
    cases r with
    | true => exact absurd (hheight rfl).1 (by omega)
    | false => exact hr'

/-- The check of the stack ends and finds nothing. -/
theorem contains_depicts {v : JValue} {o : O} (ho : Depicts H special v o) (hr : v.Regular) {n : Nat}
    (hn : v.height < n) {path : List O} (hp : Apart H special v.height path) :
    H.contains n path o = some false := by
  induction path with
  | nil => rfl
  | cons a path ih =>
    rw [Heap.contains, hp a List.mem_cons_self ho hr (Nat.le_refl _) hn, Option.bind_eq_bind,
      Option.bind_some]
    exact ih fun x hx => hp x (List.mem_cons_of_mem a hx)

/-! ## What is written -/

variable {P : Platform}

omit [DecidableEq O] in
/-- A container that is not cut. -/
theorem unfoldContainer_of_uncut {cut : Nat → List O → O → Option Bool} {n : Nat} {path : List O} {o : O}
    {body : List O → Option (Written P.endian)} (h : cut n path o = some false) :
    unfoldContainer cut n path o body = body (path ++ [o]) := by
  rw [unfoldContainer, h]

mutual

/-- **The document of the value**: a date is written in a chunk of its own size, so that only the
documents agree. -/
theorem unfold_depicts (hequals : EqualsByContents H special) : ∀ {v : JValue} {o : O} {n : Nat}
    {path : List O}, Depicts H special v o → v.Regular → v.height + 1 < n →
    Apart H special v.height path →
      ∃ w, unfold P H special H.contains n path o = some w ∧ w.doc = (v.written P).doc
  | .null, _, n + 1, _, ho, _, _, _ | .boolean _, _, n + 1, _, ho, _, _, _ => by
    rw [unfold, show H.view _ = _ from ho]
    exact ⟨_, rfl, rfl⟩
  | .number m, o, n + 1, path, ho, _, _, _ => by
    rw [unfold]
    rcases show ShowsNumber H m o from ho with hview | ⟨time, hview, rfl⟩
    · rw [hview]
      exact ⟨_, rfl, rfl⟩
    · rw [hview]
      exact ⟨_, rfl, rfl⟩
  | .string s, o, n + 1, path, ho, hr, hn, hp => by
    rcases show ShowsString H s o from ho with hview | ⟨json, hview, hjson⟩
    · rw [unfold, hview]
      exact ⟨_, rfl, rfl⟩
    · have hcontains := contains_depicts ho hr (Nat.lt_of_succ_lt_succ hn) hp
      obtain ⟨m, rfl⟩ : ∃ m, n = m + 1 := ⟨n - 1, by simp only [JValue.height] at hn; omega⟩
      rw [unfold, hview]
      dsimp only
      rw [unfoldContainer_of_uncut hcontains, unfold, hjson]
      exact ⟨_, rfl, rfl⟩
  | .list vs, o, n + 1, path, ho, hr, hn, hp => by
    have hcontains := contains_depicts ho hr (Nat.lt_of_succ_lt_succ hn) hp
    have hpath := hp.concat hequals ho hr (Nat.lt_succ_self (JValue.heightItems vs))
    obtain ⟨os, ⟨kind, hview⟩, hvs⟩ := show ∃ os, (∃ kind : Sequence, _) ∧ _ from ho
    obtain ⟨ws, hws, hdocs⟩ := unfoldElements_depicts hequals hvs hr (Nat.lt_of_succ_lt_succ hn) hpath
    refine ⟨.array ws, ?_, congrArg Doc.array hdocs⟩
    rw [unfold_sequence hview, unfoldContainer_of_uncut hcontains, hws]
    rfl
  | .map es, o, n + 1, path, ho, hr, hn, hp => by
    have hcontains := contains_depicts ho hr (Nat.lt_of_succ_lt_succ hn) hp
    have hpath := hp.concat hequals ho hr (Nat.lt_succ_self (JValue.heightEntries es))
    obtain ⟨os, hentries, hes⟩ := show ∃ os, HasEntries H special os o ∧ _ from ho
    obtain ⟨ws, hws, hdocs⟩ := unfoldEntries_depicts hequals hes hr.2 (Nat.lt_of_succ_lt_succ hn) hpath
    refine ⟨.map ws, ?_, congrArg Doc.map hdocs⟩
    rcases hentries with hview | ⟨key, getters, hview, hspecial, hmap⟩
    · rw [unfold, hview]
      dsimp only
      rw [unfoldContainer_of_uncut hcontains, hws]
      rfl
    · rw [unfold, hview]
      dsimp only
      rw [unfoldContainer_of_uncut hcontains, hspecial, hmap, if_neg Bool.false_ne_true]
      show (unfoldEntries H _ os).map Written.map = _
      rw [hws]
      rfl

theorem unfoldElements_depicts (hequals : EqualsByContents H special) : ∀ {vs : List JValue}
    {os : List O} {n : Nat} {path : List O},
    DepictsItems H special vs os → JValue.RegularItems vs → JValue.heightItems vs + 1 < n →
      Apart H special (JValue.heightItems vs) path →
        ∃ ws, unfoldElements (unfold P H special H.contains n path) os = some ws ∧
          ws.map Written.doc = (JValue.writtenItems P vs).map Written.doc
  | [], _, _, _, h, _, _, _ => by
    rw [h]
    exact ⟨[], rfl, rfl⟩
  | v :: vs, _, n, path, ⟨o, os, h, hv, hvs⟩, hr, hn, hp => by
    subst h
    have hmax : v.height ≤ JValue.heightItems (v :: vs) ∧
        JValue.heightItems vs ≤ JValue.heightItems (v :: vs) :=
      ⟨Nat.le_max_left _ _, Nat.le_max_right _ _⟩
    obtain ⟨w, hw, hdoc⟩ := unfold_depicts (n := n) hequals hv hr.1 (by omega) (hp.mono hmax.1)
    obtain ⟨ws, hws, hdocs⟩ := unfoldElements_depicts (n := n) hequals hvs hr.2 (by omega) (hp.mono hmax.2)
    refine ⟨w :: ws, by rw [unfoldElements, hw, hws]; rfl, ?_⟩
    rw [JValue.writtenItems, List.map_cons, List.map_cons, hdoc, hdocs]

theorem unfoldEntries_depicts (hequals : EqualsByContents H special) :
    ∀ {es : List (Utf16 × JValue)} {os : List (Key × O)} {n : Nat} {path : List O},
    DepictsEntries H special es os → JValue.RegularEntries es →
      JValue.heightEntries es + 1 < n → Apart H special (JValue.heightEntries es) path →
        ∃ ws, unfoldEntries H (unfold P H special H.contains n path) os = some ws ∧
          ws.map (fun entry => (entry.1, entry.2.doc))
            = (JValue.writtenEntries P es).map fun entry => (entry.1, entry.2.doc)
  | [], _, _, _, h, _, _, _ => by
    rw [h]
    exact ⟨[], rfl, rfl⟩
  | (k, v) :: es, _, n, path, ⟨o, os, h, hv, hes⟩, hr, hn, hp => by
    subst h
    have hmax : v.height ≤ JValue.heightEntries ((k, v) :: es) ∧
        JValue.heightEntries es ≤ JValue.heightEntries ((k, v) :: es) :=
      ⟨Nat.le_max_left _ _, Nat.le_max_right _ _⟩
    obtain ⟨ws, hws, hdocs⟩ := unfoldEntries_depicts (n := n) hequals hes hr.2 (by omega) (hp.mono hmax.2)
    rw [unfoldEntries, JValue.writtenEntries, isNull_depicts hv]
    cases v.isNull with
    | true => exact ⟨ws, hws, hdocs⟩
    | false =>
      obtain ⟨w, hw, hdoc⟩ := unfold_depicts (n := n) hequals hv hr.1 (by omega) (hp.mono hmax.1)
      refine ⟨(k, w) :: ws, by rw [if_neg Bool.false_ne_true, hw, hws]; rfl, ?_⟩
      rw [if_neg Bool.false_ne_true, List.map_cons, List.map_cons, hdoc, hdocs]

end

/-! ## The round trip -/

open Builder

/-- **Objects come back as the values they show**, and writing them marks no class. -/
theorem objectsRoundTrip {b : Builder O} {v : JValue} {o : O} {n : Nat}
    (hequals : EqualsByContents H b.marked) (ho : Depicts H b.marked v o) (hr : v.Regular)
    (hreadable : v.Readable P)
    (hn : v.height + 1 < n) (hv : b.output.Valid) (hp : b.output.position = 0) (hrefs : b.refs = [])
    (hlen : ((v.written P).doc.encode P.endian).length + 11 < 2 ^ 30) :
    ∃ bytes b', toWson P H n o b = .ok bytes b' ∧ bytes = (v.written P).doc.encode P.endian ∧
      b'.specialClass.putCount = b.specialClass.putCount ∧ b'.marked = b.marked ∧ b'.refs = [] ∧
      ∀ (before after : Bytes) (cache : BitVec 11 → Option Utf16), ∃ w cache',
        parse P.endian n (before ++ bytes ++ after) before.length cache = .ok w cache' ∧
          w.Equals (v.norm P) := by
  obtain ⟨w, hw, hdoc⟩ := @unfold_depicts _ _ _ _ P hequals _ _ _ b.refs ho hr hn
    (by rw [hrefs]; exact apart_nil _)
  -- the chunks fit, being short
  have hsized : w.doc.Sized := by
    rw [hdoc]
    exact Doc.sized_of_encode_lt P.endian (by omega)
  have hbytes := w.bytes_eq hsized
  rw [hdoc] at hbytes
  have hfits : Output.fits w.chunks b.output.buffer.length 0 := by
    rw [← hbytes] at hlen
    have hsmall := hv.small
    exact Output.fits_of_small (Int.le_refl 0) (by omega) (by omega) (w.tight (by omega))
      (by push_cast; omega)
  have hplay : (Output.play b.output w.chunks).isSome = _ := Output.play_isSome _
  rw [hp, show ((0 : Nat) : Int) = 0 from rfl, hfits] at hplay
  obtain ⟨out, hout⟩ := Option.isSome_iff_exists.mp hplay
  obtain ⟨b', hquiet, -, he⟩ := (emits_writeObject H n o).complete b.specialIs_marked
    (by rw [hw]; rfl) hout
  obtain ⟨hwson, hlen', -⟩ := toWson_of_emitted hv hp hquiet.1 he
  rw [hdoc] at hwson hlen' hsized
  refine ⟨_, b', hwson, rfl, hquiet.2, funext he.special, he.refs.trans hrefs, ?_⟩
  -- what is read back is an equal value of the canonical types
  intro before after cache
  have hheight := JValue.height_written P v
  obtain ⟨cache', hparse⟩ := parse_encodes (Doc.encodes_encode P.endian hsized)
    (JValue.meaning_written P hr hreadable) (show _ < n by omega) hlen' before after cache
  exact ⟨_, cache', hparse, JValue.equals_canonical _⟩

end Depicts

/-! ### An array with one bean twice -/

/-- The bean has a date and a property that is null. -/
def datesHeap : Heap (Fin 4) where
  null := 0
  view o := match o with
    | 0 => .null
    | 1 => .date 1000
    | 2 => .bean [0x42] (.ok [([0x74], .ok 1), ([0x6E], .ok 0)])
    | 3 => .array [2, 2]
  view_null := rfl
  view_map o es h := by
    match o, h with
    | 0, h | 1, h | 2, h | 3, h => exact nomatch h
  ownEquals a b := a = b
  toJSON := id

/-- Objects of the heap are equal to themselves only. -/
theorem equalsByContents_datesHeap (special : Utf16 → Bool) : EqualsByContents datesHeap special := by
  intro u v a b hab hu hv
  obtain rfl : a = b := of_decide_eq_true hab
  obtain rfl := depicts_unique hu hv
  exact ⟨rfl, rfl⟩

/-- `[{"t": 1000.0}, {"t": 1000.0}]`. -/
def datesValue : JValue :=
  .list (List.replicate 2 (.map [([0x74], .number (.double (Binary64.ofInt 1000)))]))

theorem depicts_dates : Depicts datesHeap (Builder.fresh (Fin 4)).marked datesValue 3 := by
  have hbean : Depicts datesHeap (Builder.fresh (Fin 4)).marked
      (.map [([0x74], .number (.double (Binary64.ofInt 1000)))]) 2 :=
    ⟨[(.string [0x74], 1)], .inr ⟨_, _, rfl, rfl, rfl⟩, 1, [], rfl, .inr ⟨1000, rfl, rfl⟩, rfl⟩
  exact ⟨[2, 2], ⟨.array, rfl⟩, 2, [2], rfl, hbean, 2, [], rfl, hbean, rfl⟩

open Builder in
theorem objectsRoundTrip_dates :
    ∃ bytes b', toWson Platform.plain datesHeap 4 3 (Builder.fresh (Fin 4)) = .ok bytes b' ∧
      bytes = (datesValue.written Platform.plain).doc.encode .little ∧
      b'.specialClass.putCount = (Builder.fresh (Fin 4)).specialClass.putCount ∧
      b'.marked = (Builder.fresh (Fin 4)).marked ∧ b'.refs = [] ∧
      ∀ (before after : Bytes) (cache : BitVec 11 → Option Utf16), ∃ w cache',
        parse .little 4 (before ++ bytes ++ after) before.length cache = .ok w cache' ∧
          w.Equals (datesValue.norm Platform.plain) :=
  objectsRoundTrip (equalsByContents_datesHeap _) depicts_dates
    ⟨⟨List.nodup_singleton _, trivial, trivial⟩, ⟨List.nodup_singleton _, trivial, trivial⟩, trivial⟩
    ⟨⟨trivial, trivial⟩, ⟨trivial, trivial⟩, trivial⟩ (by decide) (Builder.fresh_valid _) rfl rfl
    (by decide)

end Wson.Java
