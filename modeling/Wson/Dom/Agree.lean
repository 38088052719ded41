import Wson.Dom.Collect
import Wson.Jsc.Reading

/-!
# The two parsers of render objects

`Wson2RenderObject` switches between two parsers. One makes a node when it reads `type` and
returns null where there is none; the other makes a node of every map.

- `own_eq`: where there is a type, both make the same object, whatever the order in which they
  add to it.
- `treeOf_eq_iff`: where no field comes twice, the trees are the same iff every node has a type.
- `agree_iff`: so do the parsers agree.
- `Agree.wson2RenderObject`: it does not matter then which of them is taken.
-/

namespace Wson.Dom

open Effect Text Wire Native Native.Buffer Native.Parser

/-! ## Keyed collections -/

/-- Attributes and styles are maps: what is added under different keys does not depend on the
order. -/
structure RenderClasses.Keyed {ν : Type} (classes : RenderClasses ν) : Prop where
  addAttr_comm : ∀ key value key' value' own, key ≠ key' →
    classes.addAttr key value (classes.addAttr key' value' own) =
      classes.addAttr key' value' (classes.addAttr key value own)
  addStyle_comm : ∀ key value key' value' reserve own, key ≠ key' →
    classes.addStyle key value reserve (classes.addStyle key' value' reserve own) =
      classes.addStyle key' value' reserve (classes.addStyle key value reserve own)

theorem insert_perm {key value : Bytes} : ∀ {m : StringMap}, key ∉ m.map Prod.fst →
    (m.insert key value).Perm ((key, value) :: m)
  | [], _ => .refl _
  | entry :: m, h => by
    rw [List.map_cons, List.mem_cons, not_or] at h
    rw [StringMap.insert, if_neg (Ne.symm h.1)]
    by_cases hlt : key < entry.1
    · rw [if_pos hlt]
    · rw [if_neg hlt]
      exact ((insert_perm h.2).cons entry).trans (.swap _ _ _)

/-- A map sorts its entries. -/
theorem insertAll_perm {m : StringMap} {pairs : List (Bytes × Bytes)}
    (h : ((m ++ pairs).map Prod.fst).Nodup) : (m.insertAll pairs).Perm (m ++ pairs) := by
  induction pairs generalizing m with
  | nil =>
    rw [List.append_nil]
    exact .refl m
  | cons x pairs ih =>
    have hmiddle : ((x :: (m ++ pairs)).map Prod.fst).Nodup :=
      (List.perm_middle.map Prod.fst).nodup_iff.mp h
    have hnew : x.1 ∉ m.map Prod.fst := by
      intro hmem
      rw [List.map_cons, List.map_append, List.nodup_cons] at hmiddle
      exact hmiddle.1 (List.mem_append_left _ hmem)
    have hinsert : (m.insert x.1 x.2).Perm (x :: m) := insert_perm hnew
    have happend : ((m.insert x.1 x.2) ++ pairs).Perm (x :: (m ++ pairs)) := hinsert.append_right pairs
    have hnodup := (happend.map Prod.fst).nodup_iff.mpr hmiddle
    exact (ih hnodup).trans (happend.trans List.perm_middle.symm)

/-- Pairs with different keys may be added in any order. -/
theorem foldl_perm {α β : Type} {f : α → β × β → α}
    (hcomm : ∀ x y : β × β, x.1 ≠ y.1 → ∀ a, f (f a x) y = f (f a y) x) {xs ys : List (β × β)}
    (h : xs.Perm ys) (hnodup : (xs.map Prod.fst).Nodup) (a : α) : xs.foldl f a = ys.foldl f a := by
  refine h.foldl_eq' (fun x hx y hy a => ?_) a
  by_cases hkey : x.1 = y.1
  · rw [List.inj_on_of_nodup_map hnodup hx hy hkey]
  · exact hcomm x y hkey a

section Own

variable {ν : Type} {classes : RenderClasses ν} {libc : Libc} {pageId : Bytes} {reserveStyles : Bool}

theorem addAttrs_insertAll (hkeyed : classes.Keyed) {pairs : List (Bytes × Bytes)}
    (h : (pairs.map Prod.fst).Nodup) (own : ν) :
    addAttrs classes (StringMap.insertAll [] pairs) own = addAttrs classes pairs own := by
  have hperm := insertAll_perm (m := []) h
  exact (foldl_perm (fun x y hne own => (hkeyed.addAttr_comm _ _ _ _ own hne).symm) hperm.symm h own).symm

theorem addStyles_insertAll (hkeyed : classes.Keyed) {pairs : List (Bytes × Bytes)}
    (h : (pairs.map Prod.fst).Nodup) (own : ν) :
    addStyles classes reserveStyles (StringMap.insertAll [] pairs) own =
      addStyles classes reserveStyles pairs own := by
  have hperm := insertAll_perm (m := []) h
  exact (foldl_perm (fun x y hne own => (hkeyed.addStyle_comm _ _ _ _ _ own hne).symm) hperm.symm h own).symm

/-- What is collected where no field is found twice. -/
theorem foldl_add_eq {es : List (Utf16 × Doc)} (hnodup : ((takenEntries es).map Prod.fst).Nodup)
    (c : Contents) :
    es.foldl (Contents.add libc) c =
      { ref := (valueOf .ref (takenEntries es)).elim c.ref (textOf libc)
        renderType := (valueOf .type (takenEntries es)).elim c.renderType (textOf libc)
        attrs := c.attrs.insertAll (collect .attr (pairsOf libc) (takenEntries es))
        styles := c.styles.insertAll (collect .style (pairsOf libc) (takenEntries es))
        events := c.events ++ collect .event (eventsOf libc) (takenEntries es) } := by
  induction es generalizing c with
  | nil =>
    show c = _
    rw [takenEntries, collect_nil, collect_nil, collect_nil, List.append_nil]
    rfl
  | cons x es ih =>
    obtain ⟨hnew, hnodup⟩ := List.nodup_cons.mp hnodup
    have hnew : takenKey x.1 ∉ (takenEntries es).map Prod.fst := hnew
    have hcons : takenEntries (x :: es) = takenEntry x :: takenEntries es := rfl
    have hkeys : (takenEntry x).1 = takenKey x.1 := rfl
    rw [List.foldl_cons, ih hnodup, Contents.add, hcons]
    simp only [valueOf_cons, collect_cons, hkeys, takenKey_eq]
    cases hfield : fieldOf (utf8 x.1) with
    | none => simp only [reduceCtorEq, if_false, List.nil_append]
    | some f =>
      have hkey : takenKey x.1 = f.key := takenKey_eq.mpr hfield
      have hnone : valueOf f (takenEntries es) = none := valueOf_eq_none (hkey ▸ hnew)
      have hvalue (hne : f ≠ .children) : (takenEntry x).2 = x.2 :=
        (value_of_taken rfl (by rw [hkey, ne_eq, Field.key_inj]; exact hne)).symm
      simp only [Option.some.injEq]
      cases f with
      | ref | type =>
        simp only [reduceCtorEq, if_true, if_false, List.nil_append, hnone, hvalue (by decide)]
        rfl
      | attr | style =>
        simp only [reduceCtorEq, if_true, if_false, List.nil_append, StringMap.insertAll, List.foldl_append,
          hvalue (by decide)]
      | event =>
        simp only [reduceCtorEq, if_true, if_false, List.nil_append, List.append_assoc, hvalue (by decide)]
      | children => simp only [reduceCtorEq, if_false, List.nil_append]

theorem nodup_pairsOf {d : Doc} (h : Jsc.DistinctKeys d) : ((pairsOf libc d).map Prod.fst).Nodup := by
  cases d with
  | map es =>
    have hkeys : (pairsOf libc (.map es)).map Prod.fst = (es.map Prod.fst).map utf8 := by
      simp only [pairsOf, List.map_map]
      rfl
    rw [hkeys]
    exact h.1.map utf8_injective
  | _ => exact List.nodup_nil

theorem distinctKeys_of_mem {es : List (Utf16 × Doc)} {x : Utf16 × Doc} (h : Jsc.DistinctKeysEntries es)
    (hx : x ∈ es) : Jsc.DistinctKeys x.2 := by
  induction es with
  | nil => exact nomatch hx
  | cons y es ih =>
    rcases List.mem_cons.mp hx with rfl | hx
    · exact h.1
    · exact ih h.2 hx

/-- The keys of the attributes, or of the styles, of a node are different. -/
theorem nodup_collect_pairs {es : List (Utf16 × Doc)} (hnodup : ((takenEntries es).map Prod.fst).Nodup)
    (hdistinct : Jsc.DistinctKeysEntries es) {f : Field} (hf : f ≠ .children) :
    ((collect f (pairsOf libc) (takenEntries es)).map Prod.fst).Nodup := by
  rw [collect_eq _ _ hnodup]
  cases hvalue : valueOf f (takenEntries es) with
  | none => exact List.nodup_nil
  | some d =>
    have hmem := mem_of_valueOf hvalue
    rw [takenEntries_eq] at hmem
    obtain ⟨x, hx, htaken⟩ := List.mem_map.mp hmem
    obtain rfl := value_of_taken htaken (by rw [ne_eq, Field.key_inj]; exact hf)
    exact nodup_pairsOf (distinctKeys_of_mem hdistinct hx)

/-- **Both make the same object** of a node. -/
theorem own_eq (hlaw : classes.Lawful) (hkeyed : classes.Keyed) {es : List (Utf16 × Doc)}
    (hnodup : ((takenEntries es).map Prod.fst).Nodup) (hdistinct : Jsc.DistinctKeysEntries es) :
    (es.foldl (Contents.add libc) .empty).own classes pageId reserveStyles =
      ownOf classes libc pageId reserveStyles (takenEntries es) := by
  rw [foldl_add_eq hnodup, Contents.own, ownOf, foldl_addEntry hlaw]
  show addEvents classes ([] ++ _) (addStyles classes reserveStyles (StringMap.insertAll [] _)
    (addAttrs classes (StringMap.insertAll [] _) _)) = _
  rw [List.nil_append, addStyles_insertAll hkeyed (nodup_collect_pairs hnodup hdistinct (by decide)),
    addAttrs_insertAll hkeyed (nodup_collect_pairs hnodup hdistinct (by decide))]
  rfl

end Own

/-! ## The trees -/

/-- One of the keys is taken for `type`. -/
def HasType (es : List (Utf16 × Doc)) : Prop :=
  ∃ x ∈ es, fieldOf (utf8 x.1) = some .type

mutual

/-- Every node that is reached from the document has a type. -/
def Typed : Doc → Prop
  | .map es => HasType es ∧ TypedEntries es
  | _ => True

def TypedEntries : List (Utf16 × Doc) → Prop
  | [] => True
  | (k, d) :: es => (fieldOf (utf8 k) = some .children → TypedValue d) ∧ TypedEntries es

def TypedValue : Doc → Prop
  | .array ds => TypedItems ds
  | _ => True

def TypedItems : List Doc → Prop
  | [] => True
  | d :: ds => Typed d ∧ TypedItems ds

end

mutual

/-- In every node that is reached below types, no two keys are taken for the same field. -/
def FieldsOnce : Doc → Prop
  | .map es => (es.filterMap fun x => fieldOf (utf8 x.1)).Nodup ∧ (HasType es → FieldsOnceEntries es)
  | _ => True

def FieldsOnceEntries : List (Utf16 × Doc) → Prop
  | [] => True
  | (k, d) :: es => (fieldOf (utf8 k) = some .children → FieldsOnceValue d) ∧ FieldsOnceEntries es

def FieldsOnceValue : Doc → Prop
  | .array ds => FieldsOnceItems ds
  | _ => True

def FieldsOnceItems : List Doc → Prop
  | [] => True
  | d :: ds => FieldsOnce d ∧ FieldsOnceItems ds

end

theorem isSome_valueOf_type {es : List (Utf16 × Doc)} :
    (valueOf .type (takenEntries es)).isSome ↔ HasType es := by
  rw [valueOf, Option.isSome_map, List.find?_isSome, takenEntries_eq]
  constructor
  · rintro ⟨_, hmem, hkey⟩
    obtain ⟨x, hx, rfl⟩ := List.mem_map.mp hmem
    exact ⟨x, hx, takenKey_eq.mp (of_decide_eq_true hkey)⟩
  · rintro ⟨x, hx, hfield⟩
    exact ⟨takenEntry x, List.mem_map_of_mem hx, decide_eq_true (takenKey_eq.mpr hfield)⟩

/-- Different keys that are taken for one another are taken for one field. -/
theorem nodup_takenEntries {es : List (Utf16 × Doc)} (hnodup : (es.map Prod.fst).Nodup)
    (honce : (es.filterMap fun x => fieldOf (utf8 x.1)).Nodup) :
    ((takenEntries es).map Prod.fst).Nodup := by
  induction es with
  | nil => exact List.nodup_nil
  | cons x es ih =>
    obtain ⟨hnew, hnodup⟩ := List.nodup_cons.mp hnodup
    have hrest : (es.filterMap fun x => fieldOf (utf8 x.1)).Nodup :=
      honce.sublist ((List.sublist_cons_self x es).filterMap _)
    refine List.nodup_cons.mpr ⟨fun hmem => ?_, ih hnodup hrest⟩
    have hmem : takenKey x.1 ∈ (takenEntries es).map Prod.fst := hmem
    rw [takenEntries_eq, List.map_map] at hmem
    obtain ⟨y, hy, hkeys⟩ := List.mem_map.mp hmem
    have hkeys : takenKey y.1 = takenKey x.1 := hkeys
    have hfields : fieldOf (utf8 y.1) = fieldOf (utf8 x.1) := by
      rw [← fieldNamed_takenKey, hkeys, fieldNamed_takenKey]
    cases hfield : fieldOf (utf8 x.1) with
    | none =>
      rw [takenKey, takenKey, hfields, hfield] at hkeys
      have hsame : y.1 = x.1 := hkeys
      exact hnew (hsame ▸ List.mem_map_of_mem hy)
    | some f =>
      rw [List.filterMap_cons, hfield] at honce
      exact (List.nodup_cons.mp honce).1 (List.mem_filterMap.mpr ⟨y, hy, hfields.trans hfield⟩)

mutual

theorem FieldsOnce.regular : ∀ {d : Doc}, Jsc.DistinctKeys d → FieldsOnce d → Regular (taken d)
  | .map es, hdistinct, honce => by
    refine ⟨nodup_takenEntries hdistinct.1 honce.1, fun y hy => ?_, fun htyped => ?_⟩
    · rw [takenEntries_eq] at hy
      obtain ⟨x, -, rfl⟩ := List.mem_map.mp hy
      exact plain_takenKey x.1
    · exact FieldsOnceEntries.regular hdistinct.2 (honce.2 (isSome_valueOf_type.mp htyped))
  | .null, _, _ | .boolean _, _, _ | .int _, _, _ | .long _, _, _ | .float _, _, _ | .double _, _, _
  | .text _ _, _, _ | .uint8String _, _, _ | .array _, _, _ => trivial

theorem FieldsOnceEntries.regular : ∀ {es : List (Utf16 × Doc)}, Jsc.DistinctKeysEntries es →
    FieldsOnceEntries es → RegularEntries (takenEntries es)
  | [], _, _ => trivial
  | (k, d) :: es, hdistinct, honce => by
    refine ⟨fun hkey => ?_, FieldsOnceEntries.regular hdistinct.2 honce.2⟩
    rw [if_pos hkey]
    exact FieldsOnceValue.regular hdistinct.1 (honce.1 (takenKey_eq.mp hkey))

theorem FieldsOnceValue.regular : ∀ {d : Doc}, Jsc.DistinctKeys d → FieldsOnceValue d →
    RegularValue (takenValue d)
  | .array _, hdistinct, honce => FieldsOnceItems.regular hdistinct honce
  | .null, _, _ | .boolean _, _, _ | .int _, _, _ | .long _, _, _ | .float _, _, _ | .double _, _, _
  | .text _ _, _, _ | .uint8String _, _, _ | .map _, _, _ => trivial

theorem FieldsOnceItems.regular : ∀ {ds : List Doc}, Jsc.DistinctKeysItems ds → FieldsOnceItems ds →
    RegularItems (takenItems ds)
  | [], _, _ => trivial
  | _ :: _, hdistinct, honce =>
    ⟨FieldsOnce.regular hdistinct.1 honce.1, FieldsOnceItems.regular hdistinct.2 honce.2⟩

end

section Trees

variable {ν : Type} {classes : RenderClasses ν} {libc : Libc} {pageId : Bytes} {reserveStyles : Bool}

/-- The second parser makes no fewer trees. -/
theorem length_treeOf_le (d : Doc) : (treeOf classes libc pageId reserveStyles (taken d)).toList.length ≤
    (newTreeOf libc classes pageId reserveStyles d).toList.length := by
  cases d with
  | map es =>
    rw [taken, treeOf, newTreeOf]
    split
    · exact Nat.le_refl 1
    · exact Nat.zero_le 1
  | _ => exact Nat.le_refl 0

theorem length_treesItems_le (ds : List Doc) :
    (treesItems classes libc pageId reserveStyles (takenItems ds)).length ≤
      (newTreesItems libc classes pageId reserveStyles ds).length := by
  induction ds with
  | nil => exact Nat.le_refl 0
  | cons d ds ih =>
    have hd : (treeOf classes libc pageId reserveStyles (taken d)).toList.length ≤ _ := length_treeOf_le d
    rw [takenItems, treesItems, newTreesItems, List.length_append, List.length_append]
    omega

theorem length_treesValue_le (d : Doc) :
    (treesValue classes libc pageId reserveStyles (takenValue d)).length ≤
      (newTreesValue libc classes pageId reserveStyles d).length := by
  cases d with
  | array ds => exact length_treesItems_le ds
  | _ => exact Nat.le_refl 0

theorem treesEntries_taken (k : Utf16) (d : Doc) (es : List (Utf16 × Doc)) :
    treesEntries classes libc pageId reserveStyles (takenEntries ((k, d) :: es)) =
      (if fieldOf (utf8 k) = some .children then treesValue classes libc pageId reserveStyles (takenValue d)
        else []) ++ treesEntries classes libc pageId reserveStyles (takenEntries es) := by
  rw [takenEntries, treesEntries]
  simp only [takenKey_eq]
  split <;> rfl

theorem length_treesEntries_le (es : List (Utf16 × Doc)) :
    (treesEntries classes libc pageId reserveStyles (takenEntries es)).length ≤
      (newTreesEntries libc classes pageId reserveStyles es).length := by
  induction es with
  | nil => exact Nat.le_refl 0
  | cons x es ih =>
    have hvalue : (treesValue classes libc pageId reserveStyles (takenValue x.2)).length ≤ _ :=
      length_treesValue_le x.2
    rw [treesEntries_taken, newTreesEntries, List.length_append, List.length_append]
    split
    · omega
    · exact Nat.add_le_add_left ih _

theorem toList_eq_iff {α : Type} {o o' : Option α} : o.toList = o'.toList ↔ o = o' := by
  cases o <;> cases o' <;> simp

/-- Two lists whose parts are no longer than those of the other two. -/
theorem append_eq_iff_of_length_le {α : Type} {xs ys xs' ys' : List α} (hx : xs.length ≤ xs'.length)
    (hy : ys.length ≤ ys'.length) : xs ++ ys = xs' ++ ys' ↔ xs = xs' ∧ ys = ys' := by
  constructor
  · intro h
    have hlength := congrArg List.length h
    rw [List.length_append, List.length_append] at hlength
    exact List.append_inj h (by omega)
  · rintro ⟨rfl, rfl⟩
    rfl

mutual

/-- **The trees are the same** iff every node that is reached has a type. -/
theorem treeOf_eq_iff (hlaw : classes.Lawful) (hkeyed : classes.Keyed) : ∀ {d : Doc}, Jsc.DistinctKeys d →
    FieldsOnce d → (treeOf classes libc pageId reserveStyles (taken d) =
      newTreeOf libc classes pageId reserveStyles d ↔ Typed d)
  | .map es, hdistinct, honce => by
    rw [taken, treeOf, newTreeOf, Typed]
    by_cases htype : HasType es
    · have hnodup := nodup_takenEntries hdistinct.1 honce.1
      have hentries := treesEntries_eq_iff hlaw hkeyed hdistinct.2 (honce.2 htype)
      rw [if_pos (isSome_valueOf_type.mpr htype), own_eq hlaw hkeyed hnodup hdistinct.2, Option.some.injEq,
        RenderTree.node.injEq, hentries]
      exact ⟨fun h => ⟨htype, h.2⟩, fun h => ⟨rfl, h.2⟩⟩
    · rw [if_neg (htype ∘ isSome_valueOf_type.mp)]
      exact ⟨nofun, fun h => absurd h.1 htype⟩
  | .null, _, _ | .boolean _, _, _ | .int _, _, _ | .long _, _, _ | .float _, _, _ | .double _, _, _
  | .text _ _, _, _ | .uint8String _, _, _ | .array _, _, _ => ⟨fun _ => trivial, fun _ => rfl⟩

theorem treesEntries_eq_iff (hlaw : classes.Lawful) (hkeyed : classes.Keyed) :
    ∀ {es : List (Utf16 × Doc)}, Jsc.DistinctKeysEntries es → FieldsOnceEntries es →
      (treesEntries classes libc pageId reserveStyles (takenEntries es) =
        newTreesEntries libc classes pageId reserveStyles es ↔ TypedEntries es)
  | [], _, _ => ⟨fun _ => trivial, fun _ => rfl⟩
  | (k, d) :: es, hdistinct, honce => by
    have hrest := treesEntries_eq_iff hlaw hkeyed hdistinct.2 honce.2
    have hle : (treesEntries classes libc pageId reserveStyles (takenEntries es)).length ≤ _ :=
      length_treesEntries_le es
    rw [treesEntries_taken, newTreesEntries, TypedEntries]
    by_cases hchildren : fieldOf (utf8 k) = some .children
    · have hvalue := treesValue_eq_iff hlaw hkeyed hdistinct.1 (honce.1 hchildren)
      rw [if_pos hchildren, if_pos hchildren, append_eq_iff_of_length_le (length_treesValue_le d) hle, hvalue,
        hrest]
      exact ⟨fun h => ⟨fun _ => h.1, h.2⟩, fun h => ⟨h.1 hchildren, h.2⟩⟩
    · rw [if_neg hchildren, if_neg hchildren, List.nil_append, List.nil_append, hrest]
      exact ⟨fun h => ⟨fun hkey => absurd hkey hchildren, h⟩, fun h => h.2⟩

theorem treesValue_eq_iff (hlaw : classes.Lawful) (hkeyed : classes.Keyed) : ∀ {d : Doc}, Jsc.DistinctKeys d →
    FieldsOnceValue d → (treesValue classes libc pageId reserveStyles (takenValue d) =
      newTreesValue libc classes pageId reserveStyles d ↔ TypedValue d)
  | .array _, hdistinct, honce => treesItems_eq_iff hlaw hkeyed hdistinct honce
  | .null, _, _ | .boolean _, _, _ | .int _, _, _ | .long _, _, _ | .float _, _, _ | .double _, _, _
  | .text _ _, _, _ | .uint8String _, _, _ | .map _, _, _ => ⟨fun _ => trivial, fun _ => rfl⟩

theorem treesItems_eq_iff (hlaw : classes.Lawful) (hkeyed : classes.Keyed) : ∀ {ds : List Doc},
    Jsc.DistinctKeysItems ds → FieldsOnceItems ds →
      (treesItems classes libc pageId reserveStyles (takenItems ds) =
        newTreesItems libc classes pageId reserveStyles ds ↔ TypedItems ds)
  | [], _, _ => ⟨fun _ => trivial, fun _ => rfl⟩
  | d :: ds, hdistinct, honce => by
    have hd := treeOf_eq_iff hlaw hkeyed hdistinct.1 honce.1
    have hds := treesItems_eq_iff hlaw hkeyed hdistinct.2 honce.2
    rw [takenItems, treesItems, newTreesItems, TypedItems,
      append_eq_iff_of_length_le (length_treeOf_le d) (length_treesItems_le ds), toList_eq_iff, hd, hds]

end

end Trees

/-! ## The parsers -/

section Unique

variable {ν : Type}

mutual

/-- A pointer shows one tree. -/
theorem Holds.unique {lo lo' : Nat} {heap : Heap ν} : ∀ {t t' : RenderTree ν} {p : Nat},
    Holds lo heap t p → Holds lo' heap t' p → t = t'
  | .node own ts, .node own' ts', p, ⟨_, kids, hp, hkids⟩, ⟨_, kids', hp', hkids'⟩ => by
    have hobject := Option.some.inj (hp.symm.trans hp')
    injection hobject with hown hkids_eq
    subst hown hkids_eq
    rw [HoldsAll.unique hkids hkids']

theorem HoldsAll.unique {lo lo' : Nat} {heap : Heap ν} : ∀ {ts ts' : List (RenderTree ν)}
    {kids : List Nat}, HoldsAll lo heap ts kids → HoldsAll lo' heap ts' kids → ts = ts'
  | [], [], _, _, _ => rfl
  | [], _ :: _, _, h, ⟨_, _, h', _, _⟩ => nomatch (Eq.symm h).trans h'
  | _ :: _, [], _, ⟨_, _, h', _, _⟩, h => nomatch (Eq.symm h).trans h'
  | t :: ts, t' :: ts', _, ⟨p, rest, h, hp, hrest⟩, ⟨p', rest', h', hp', hrest'⟩ => by
    have hkids := h.symm.trans h'
    injection hkids with hpointer hrests
    subst hpointer hrests
    rw [Holds.unique hp hp', HoldsAll.unique hrest hrest']

end

theorem Grown.unique {heap heap' : Heap ν} {tree tree' : Option (RenderTree ν)} {render : Option Nat}
    (h : Grown none 0 heap tree render heap') (h' : Grown none 0 heap tree' render heap') : tree = tree' := by
  cases tree with
  | none =>
    obtain ⟨rfl, -⟩ := h
    cases tree' with
    | none => rfl
    | some t' => exact nomatch h'
  | some t =>
    obtain ⟨p, rfl, -, hp⟩ := h
    cases tree' with
    | none => exact nomatch h'.1
    | some t' =>
      obtain ⟨q, hq, -, hq'⟩ := h'
      obtain rfl := Option.some.inj hq
      rw [hp.unique hq']

end Unique

section Agree

variable {ν : Type} (length : Nat)

/-- `parse` moves from `before` to behind `bs` and builds the tree. -/
def BuildsAt (parse : Heap ν → BufferM (Option Nat × Heap ν)) (before bs after : Bytes) (heap : Heap ν)
    (tree : Option (RenderTree ν)) : Prop :=
  ∃ render heap', returns (parse heap) ⟨before ++ bs ++ after, before.length, length⟩ =
      some ((render, heap'), ⟨before ++ bs ++ after, (before ++ bs).length, length⟩) ∧
    Grown none 0 heap tree render heap'

variable (classes : RenderClasses ν) (e : Endian) (libc : Libc) (pageId : Bytes) (reserveStyles : Bool)

/-- **The two parsers agree** on the document: where any encoding of it stands with its types below the
declared length, both move behind it, and build one tree or return null both. -/
def Agree (d : Doc) : Prop :=
  ∀ (n : Nat) (before bs after : Bytes) (heap : Heap ν),
    d.height + 1 < n → d.EncodesBelow e length before.length bs → bs.length < 2 ^ 30 →
      (before ++ bs ++ after).length < 2 ^ 32 →
      ∃ tree,
        BuildsAt length (parserWson2RenderObject classes e libc pageId reserveStyles n none 0)
          before bs after heap tree ∧
        BuildsAt length (parserWson2RenderObjectNew classes e libc pageId reserveStyles n 0)
          before bs after heap tree

variable {length classes e libc pageId reserveStyles}

theorem BuildsAt.unique {parse : Heap ν → BufferM (Option Nat × Heap ν)} {before bs after : Bytes}
    {heap : Heap ν} {tree tree' : Option (RenderTree ν)}
    (h : BuildsAt length parse before bs after heap tree)
    (h' : BuildsAt length parse before bs after heap tree') : tree = tree' := by
  obtain ⟨render, heap', hrun, hgrown⟩ := h
  obtain ⟨render', heap'', hrun', hgrown'⟩ := h'
  have hresult := congrArg Prod.fst (Option.some.inj (hrun.symm.trans hrun'))
  injection hresult with hrender hheap
  subst hrender hheap
  exact hgrown.unique hgrown'

theorem Builds.at {d : Doc} {tree : Option (RenderTree ν)}
    (h : Builds classes e libc pageId reserveStyles length d tree) {n : Nat} {before bs after : Bytes}
    (heap : Heap ν) (hn : d.height + 1 < n) (hbs : d.EncodesBelow e length before.length bs)
    (hlength : bs.length < 2 ^ 30) (hdata : (before ++ bs ++ after).length < 2 ^ 32) :
    BuildsAt length (parserWson2RenderObject classes e libc pageId reserveStyles n none 0)
      before bs after heap tree :=
  h n before bs after none 0 heap hn hbs hlength hdata nofun

/-- The second parser builds the tree of all nodes. -/
theorem buildsAt_newTreeOf {d : Doc} {n : Nat} {before bs after : Bytes}
    (heap : Heap ν) (hn : d.height + 1 < n) (hbs : d.EncodesBelow e length before.length bs)
    (hlength : bs.length < 2 ^ 30) (hdata : (before ++ bs ++ after).length < 2 ^ 32) :
    BuildsAt length (parserWson2RenderObjectNew classes e libc pageId reserveStyles n 0)
      before bs after heap (newTreeOf libc classes pageId reserveStyles d) := by
  have hw : d.Within (2 ^ 30) := hbs.encodes.within hlength
  obtain ⟨render, heap', hrun, hgrown⟩ := collects hdata hn hw _ bs 0 heap hbs
  exact ⟨render, heap', returns_of_consumesAt hrun, hgrown⟩

/-- **The parsers agree** iff every node that is reached has a type. -/
theorem agree_iff (hlaw : classes.Lawful) (hkeyed : classes.Keyed) {d : Doc}
    (hdistinct : Jsc.DistinctKeys d) (honce : FieldsOnce d) (hencodes : d.EncodesBelow e length 0 (d.encode e))
    (hlength : (d.encode e).length < 2 ^ 30) :
    Agree length classes e libc pageId reserveStyles d ↔ Typed d := by
  have htrees : treeOf classes libc pageId reserveStyles (taken d) = _ ↔ Typed d :=
    treeOf_eq_iff hlaw hkeyed hdistinct honce
  have hbuilds : Builds classes e libc pageId reserveStyles length d _ :=
    builds_taken hlaw (honce.regular hdistinct)
  rw [← htrees]
  constructor
  · intro hagree
    -- the document alone in the data is enough, as each parser builds one tree from it
    have hstart : d.EncodesBelow e length ([] : Bytes).length (d.encode e) := hencodes
    have hdata : ([] ++ d.encode e ++ []).length < 2 ^ 32 := by
      rw [List.nil_append, List.append_nil]
      omega
    obtain ⟨tree, h, hnew⟩ :=
      hagree (d.height + 2) [] (d.encode e) [] [] (Nat.lt_succ_self _) hstart hlength hdata
    rw [(hbuilds.at [] (Nat.lt_succ_self _) hstart hlength hdata).unique h]
    exact hnew.unique (buildsAt_newTreeOf [] (Nat.lt_succ_self _) hstart hlength hdata)
  · intro hsame n before bs after heap hn hbs hlength hdata
    refine ⟨_, hbuilds.at heap hn hbs hlength hdata, ?_⟩
    rw [hsame]
    exact buildsAt_newTreeOf heap hn hbs hlength hdata

/-- **`Wson2RenderObject`** returns one tree, with or without the runtime API, where its parsers agree. -/
theorem Agree.wson2RenderObject {d : Doc}
    (h : Agree declaredLength classes e libc pageId reserveStyles d) {n : Nat} {bs after : Bytes}
    (hn : d.height + 1 < n) (hbs : d.EncodesBelow e declaredLength 0 bs)
    (hlength : bs.length < 2 ^ 30) (hdata : (bs ++ after).length < 2 ^ 32) :
    ∃ tree, ∀ isUseRunTimeApi, ∃ render heap,
      wson2RenderObject classes e libc n pageId reserveStyles isUseRunTimeApi (bs ++ after) =
          .ok (render, heap) ⟨bs ++ after, bs.length, declaredLength⟩ ∧
        Grown none 0 [] tree render heap := by
  obtain ⟨tree, ⟨render, heap, hrun, hgrown⟩, render', heap', hrun', hgrown'⟩ :=
    h n [] bs after [] hn hbs hlength hdata
  refine ⟨tree, fun isUseRunTimeApi => ?_⟩
  cases isUseRunTimeApi with
  | false => exact ⟨render, heap, returns_eq_some.mp hrun, hgrown⟩
  | true => exact ⟨render', heap', returns_eq_some.mp hrun', hgrown'⟩

end Agree

theorem StringMap.assign_comm {key key' : Bytes} (h : key ≠ key') (value value' : Bytes) (m : StringMap) :
    (m.assign key' value').assign key value = (m.assign key value).assign key' value' := by
  induction m with
  | nil => grind [assign]
  | cons entry m ih => grind [assign]

theorem keyed_elements : elements.Keyed where
  addAttr_comm := fun _ value _ value' own h =>
    congrArg (fun attrs => { own with attrs := attrs }) (StringMap.assign_comm h value value' own.attrs)
  addStyle_comm := fun _ value _ value' _ own h =>
    congrArg (fun styles => { own with styles := styles }) (StringMap.assign_comm h value value' own.styles)

theorem agree_lateType : Agree declaredLength elements .little .ofIntegers [] false lateType := by
  have hencodes : lateType.Encodes .little (lateType.encode .little) :=
    Doc.encodes_encode .little (Doc.sized_of_encode_lt .little (by decide +kernel))
  refine (agree_iff lawful_elements keyed_elements ?_ ?_ (hencodes.below (by decide +kernel))
    (by decide +kernel)).mpr ?_
  · exact ⟨by decide, ⟨⟨by decide, trivial, trivial, trivial⟩, trivial⟩, trivial, trivial⟩
  · exact ⟨by decide, fun _ => ⟨fun _ => ⟨⟨by decide, fun _ => ⟨nofun, nofun, trivial⟩⟩, trivial⟩, nofun, trivial⟩⟩
  · exact ⟨⟨_, .tail _ (.head _), by decide⟩,
      fun _ => ⟨⟨⟨_, .tail _ (.head _), by decide⟩, nofun, nofun, trivial⟩, trivial⟩, nofun, trivial⟩

/-- Of `{}` one makes nothing, and the other a node without a type. -/
theorem not_agree_empty : Jsc.DistinctKeys (.map []) ∧
    ¬ Agree declaredLength elements .little .ofIntegers [] false (.map []) := by
  refine ⟨⟨.nil, trivial⟩, fun hagree => ?_⟩
  obtain ⟨tree, ⟨render, heap, hrun, hgrown⟩, render', heap', hrun', hgrown'⟩ :=
    hagree 3 [] ((Doc.map []).encode .little) [] [] (by decide)
      ((Doc.encodes_encode .little (Doc.sized_of_encode_lt .little (by decide))).below (by decide))
      (by decide) (by decide)
  have hnone : (returns (parserWson2RenderObject elements .little .ofIntegers [] false 3 none 0 [])
      ⟨(Doc.map []).encode .little, 0, declaredLength⟩).map (fun x => x.1.1) = some none := by decide +kernel
  have hsome : (returns (parserWson2RenderObjectNew elements .little .ofIntegers [] false 3 0 [])
      ⟨(Doc.map []).encode .little, 0, declaredLength⟩).map (fun x => x.1.1) = some (some 0) := by
    decide +kernel
  have hrender : render = none := by
    have h := (congrArg (Option.map fun x => x.1.1) hrun).symm.trans hnone
    exact Option.some.inj h
  have hrender' : render' = some 0 := by
    have h := (congrArg (Option.map fun x => x.1.1) hrun').symm.trans hsome
    exact Option.some.inj h
  cases tree with
  | none => exact nomatch hrender'.symm.trans hgrown'.1
  | some t =>
    obtain ⟨p, hp, -⟩ := hgrown
    exact nomatch hrender.symm.trans hp

end Wson.Dom
