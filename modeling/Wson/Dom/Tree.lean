import Wson.Dom.Render

/-!
# The tree of a document

What the parsers of render objects should build, and when a heap holds it.

- `Holds`: below the pointer stands this tree; changes elsewhere do not matter (`Holds.congr`).
- `treeOf`: the tree of a document, of the nodes that have a type.
- `RenderClasses.Lawful`: what is assumed of the classes; `foldl_addEntry`: with it the
  order of the entries does not matter for the object itself.
-/

namespace Wson.Dom

open Text Wire Native

/-- An object and the trees of its children. -/
inductive RenderTree (ν : Type) where
  | node (own : ν) (children : List (RenderTree ν))

section Holds

variable {ν : Type}

mutual

/-- The tree stands below the pointer `p`, at pointers from `lo` on. -/
def Holds (lo : Nat) (heap : Heap ν) : RenderTree ν → Nat → Prop
  | .node own ts, p => lo ≤ p ∧ ∃ kids, heap[p]? = some ⟨own, kids⟩ ∧ HoldsAll lo heap ts kids

def HoldsAll (lo : Nat) (heap : Heap ν) : List (RenderTree ν) → List Nat → Prop
  | [], kids => kids = []
  | t :: ts, kids => ∃ p rest, kids = p :: rest ∧ Holds lo heap t p ∧ HoldsAll lo heap ts rest

end

mutual

/-- Only the objects from `lo` on matter. -/
theorem Holds.congr {lo : Nat} {heap heap' : Heap ν}
    (h : ∀ q, lo ≤ q → q < heap.length → heap'[q]? = heap[q]?) :
    ∀ {t : RenderTree ν} {p : Nat}, Holds lo heap t p → Holds lo heap' t p
  | .node _ _, p, ⟨hlo, kids, hp, hkids⟩ => by
    obtain ⟨hlt, -⟩ := List.getElem?_eq_some_iff.mp hp
    exact ⟨hlo, kids, (h p hlo hlt).trans hp, HoldsAll.congr h hkids⟩

theorem HoldsAll.congr {lo : Nat} {heap heap' : Heap ν}
    (h : ∀ q, lo ≤ q → q < heap.length → heap'[q]? = heap[q]?) :
    ∀ {ts : List (RenderTree ν)} {kids : List Nat}, HoldsAll lo heap ts kids → HoldsAll lo heap' ts kids
  | [], _, hkids => hkids
  | _ :: _, _, ⟨p, rest, hkids, hp, hrest⟩ => ⟨p, rest, hkids, Holds.congr h hp, HoldsAll.congr h hrest⟩

end

mutual

theorem Holds.mono {lo lo' : Nat} {heap : Heap ν} (h : lo' ≤ lo) :
    ∀ {t : RenderTree ν} {p : Nat}, Holds lo heap t p → Holds lo' heap t p
  | .node _ _, _, ⟨hlo, kids, hp, hkids⟩ => ⟨Nat.le_trans h hlo, kids, hp, HoldsAll.mono h hkids⟩

theorem HoldsAll.mono {lo lo' : Nat} {heap : Heap ν} (h : lo' ≤ lo) :
    ∀ {ts : List (RenderTree ν)} {kids : List Nat}, HoldsAll lo heap ts kids → HoldsAll lo' heap ts kids
  | [], _, hkids => hkids
  | _ :: _, _, ⟨p, rest, hkids, hp, hrest⟩ => ⟨p, rest, hkids, Holds.mono h hp, HoldsAll.mono h hrest⟩

end

theorem HoldsAll.append {lo : Nat} {heap : Heap ν} {ts ts' : List (RenderTree ν)} {kids kids' : List Nat}
    (h : HoldsAll lo heap ts kids) (h' : HoldsAll lo heap ts' kids') :
    HoldsAll lo heap (ts ++ ts') (kids ++ kids') := by
  induction ts generalizing kids with
  | nil =>
    obtain rfl := h
    exact h'
  | cons t ts ih =>
    obtain ⟨p, rest, rfl, hp, hrest⟩ := h
    exact ⟨p, rest ++ kids', rfl, hp, ih hrest⟩

theorem HoldsAll.length_eq {lo : Nat} {heap : Heap ν} {ts : List (RenderTree ν)} {kids : List Nat}
    (h : HoldsAll lo heap ts kids) : kids.length = ts.length := by
  induction ts generalizing kids with
  | nil =>
    obtain rfl := h
    rfl
  | cons t ts ih =>
    obtain ⟨p, rest, rfl, -, hrest⟩ := h
    rw [List.length_cons, List.length_cons, ih hrest]

end Holds

/-! ## The assumptions -/

/-- A field of an object is independent of the others, and `set_ref` sets the ref only. -/
structure RenderClasses.Lawful {ν : Type} (classes : RenderClasses ν) : Prop where
  setRef_create : ∀ ref ref' renderType pageId,
    classes.setRef ref' (classes.setPageId pageId (classes.createRender renderType ref)) =
      classes.setPageId pageId (classes.createRender renderType ref')
  setRef_addAttr : ∀ ref key value own,
    classes.setRef ref (classes.addAttr key value own) = classes.addAttr key value (classes.setRef ref own)
  setRef_addStyle : ∀ ref key value reserve own,
    classes.setRef ref (classes.addStyle key value reserve own) =
      classes.addStyle key value reserve (classes.setRef ref own)
  setRef_addEvent : ∀ ref event own,
    classes.setRef ref (classes.addEvent event own) = classes.addEvent event (classes.setRef ref own)
  addAttr_addStyle : ∀ key value key' value' reserve own,
    classes.addAttr key value (classes.addStyle key' value' reserve own) =
      classes.addStyle key' value' reserve (classes.addAttr key value own)
  addAttr_addEvent : ∀ key value event own,
    classes.addAttr key value (classes.addEvent event own) =
      classes.addEvent event (classes.addAttr key value own)
  addStyle_addEvent : ∀ key value reserve event own,
    classes.addStyle key value reserve (classes.addEvent event own) =
      classes.addEvent event (classes.addStyle key value reserve own)

section Own

variable {ν : Type} (classes : RenderClasses ν) (reserveStyles : Bool)

def addAttrs (attrs : List (Bytes × Bytes)) (own : ν) : ν :=
  attrs.foldl (fun own x => classes.addAttr x.1 x.2 own) own

def addStyles (styles : List (Bytes × Bytes)) (own : ν) : ν :=
  styles.foldl (fun own x => classes.addStyle x.1 x.2 reserveStyles own) own

def addEvents (events : List Bytes) (own : ν) : ν :=
  events.foldl (fun own event => classes.addEvent event own) own

variable (libc : Libc)

/-- What an entry of a node adds to the object. -/
def addEntry (own : ν) (x : Utf16 × Doc) : ν :=
  match fieldNamed x.1 with
  | some .attr => addAttrs classes (pairsOf libc x.2) own
  | some .style => addStyles classes reserveStyles (pairsOf libc x.2) own
  | some .event => addEvents classes (eventsOf libc x.2) own
  | _ => own

end Own

/-! ## The tree -/

/-- The value of a field. -/
def valueOf (f : Field) (es : List (Utf16 × Doc)) : Option Doc :=
  (es.find? fun x => x.1 = f.key).map Prod.snd

section Tree

variable {ν : Type} (classes : RenderClasses ν) (libc : Libc) (pageId : Bytes) (reserveStyles : Bool)

/-- The text of a field, or the empty one. -/
def textField (f : Field) (es : List (Utf16 × Doc)) : Bytes :=
  (valueOf f es).elim [] (textOf libc)

/-- The object of a node, without its defaults. -/
def ownOf (es : List (Utf16 × Doc)) : ν :=
  es.foldl (addEntry classes reserveStyles libc)
    (create classes pageId (textField libc .type es) (textField libc .ref es))

mutual

/-- The tree of a document; a node without a type is none, and nothing is made of its children. -/
def treeOf : Doc → Option (RenderTree ν)
  | .map es =>
    if (valueOf .type es).isSome then
      some (.node (applyDefaults classes reserveStyles (ownOf classes libc pageId reserveStyles es))
        (treesEntries es))
    else none
  | _ => none

/-- The trees of the children. -/
def treesEntries : List (Utf16 × Doc) → List (RenderTree ν)
  | [] => []
  | (k, d) :: es => (if k = Field.children.key then treesValue d else []) ++ treesEntries es

def treesValue : Doc → List (RenderTree ν)
  | .array ds => treesItems ds
  | _ => []

def treesItems : List Doc → List (RenderTree ν)
  | [] => []
  | d :: ds => (treeOf d).toList ++ treesItems ds

end

end Tree

/-! ### Fields -/

/-- What is made of the values of a field, in the order of the entries. -/
def collect {α : Type} (f : Field) (g : Doc → List α) (es : List (Utf16 × Doc)) : List α :=
  es.flatMap fun x => if x.1 = f.key then g x.2 else []

theorem valueOf_cons (f : Field) (x : Utf16 × Doc) (es : List (Utf16 × Doc)) :
    valueOf f (x :: es) = if x.1 = f.key then some x.2 else valueOf f es := by
  rw [valueOf, List.find?_cons]
  by_cases h : x.1 = f.key
  · rw [if_pos h, decide_eq_true h]
    rfl
  · rw [if_neg h, decide_eq_false h]
    rfl

theorem valueOf_append (f : Field) (es es' : List (Utf16 × Doc)) :
    valueOf f (es ++ es') = (valueOf f es).or (valueOf f es') := by
  rw [valueOf, List.find?_append, Option.map_or]
  rfl

theorem valueOf_eq_none {f : Field} {es : List (Utf16 × Doc)} (h : f.key ∉ es.map Prod.fst) :
    valueOf f es = none := by
  rw [valueOf, Option.map_eq_none_iff, List.find?_eq_none]
  intro x hx hkey
  exact h (of_decide_eq_true hkey ▸ List.mem_map_of_mem hx)

theorem mem_of_valueOf {f : Field} {es : List (Utf16 × Doc)} {d : Doc} (h : valueOf f es = some d) :
    (f.key, d) ∈ es := by
  obtain ⟨x, hx, rfl⟩ := Option.map_eq_some_iff.mp h
  have hkey : x.1 = f.key := by simpa using List.find?_some hx
  rw [← hkey]
  exact List.mem_of_find?_eq_some hx

theorem valueOf_of_mem {f : Field} {es : List (Utf16 × Doc)} {d : Doc} (hnodup : (es.map Prod.fst).Nodup)
    (h : (f.key, d) ∈ es) : valueOf f es = some d := by
  induction es with
  | nil => exact nomatch h
  | cons x es ih =>
    obtain ⟨hx, hnodup⟩ := List.nodup_cons.mp hnodup
    rw [valueOf_cons]
    rcases List.mem_cons.mp h with rfl | h
    · rw [if_pos rfl]
    · have hkey : x.1 ≠ f.key := by
        intro hkey
        exact hx (hkey ▸ List.mem_map_of_mem h)
      rw [if_neg hkey, ih hnodup h]

/-- The value of a field does not depend on the order of the entries. -/
theorem valueOf_perm {es es' : List (Utf16 × Doc)} (h : es.Perm es') (hnodup : (es.map Prod.fst).Nodup)
    (f : Field) : valueOf f es' = valueOf f es := by
  have hnodup' : (es'.map Prod.fst).Nodup := (h.map Prod.fst).nodup_iff.mp hnodup
  ext d
  constructor
  · intro hd
    exact valueOf_of_mem hnodup (h.mem_iff.mpr (mem_of_valueOf hd))
  · intro hd
    exact valueOf_of_mem hnodup' (h.mem_iff.mp (mem_of_valueOf hd))

section Collect

variable {α : Type} (f : Field) (g : Doc → List α)

@[simp] theorem collect_nil : collect f g [] = [] := rfl

theorem collect_cons (x : Utf16 × Doc) (es : List (Utf16 × Doc)) :
    collect f g (x :: es) = (if x.1 = f.key then g x.2 else []) ++ collect f g es := rfl

theorem collect_append (es es' : List (Utf16 × Doc)) :
    collect f g (es ++ es') = collect f g es ++ collect f g es' :=
  List.flatMap_append

theorem collect_eq_nil {es : List (Utf16 × Doc)} (h : f.key ∉ es.map Prod.fst) :
    collect f g es = [] := by
  rw [collect, List.flatMap_eq_nil_iff]
  intro x hx
  rw [if_neg]
  intro hkey
  exact h (hkey ▸ List.mem_map_of_mem hx)

theorem collect_eq {es : List (Utf16 × Doc)} (hnodup : (es.map Prod.fst).Nodup) :
    collect f g es = (valueOf f es).elim [] g := by
  induction es with
  | nil => rfl
  | cons x es ih =>
    obtain ⟨hx, hnodup⟩ := List.nodup_cons.mp hnodup
    rw [collect_cons, valueOf_cons]
    by_cases hkey : x.1 = f.key
    · rw [if_pos hkey, if_pos hkey, collect_eq_nil f g (by rwa [hkey] at hx), List.append_nil]
      rfl
    · rw [if_neg hkey, if_neg hkey, List.nil_append, ih hnodup]

end Collect

/-! ### The object of a node -/

section Lawful

variable {ν : Type} {classes : RenderClasses ν} {libc : Libc} {reserveStyles : Bool}

theorem setRef_addAttrs (hlaw : classes.Lawful) (ref : Bytes) (attrs : List (Bytes × Bytes)) (own : ν) :
    classes.setRef ref (addAttrs classes attrs own) = addAttrs classes attrs (classes.setRef ref own) :=
  (List.foldl_hom _ fun _ _ => (hlaw.setRef_addAttr ..).symm).symm

theorem setRef_addStyles (hlaw : classes.Lawful) (ref : Bytes) (styles : List (Bytes × Bytes)) (own : ν) :
    classes.setRef ref (addStyles classes reserveStyles styles own) =
      addStyles classes reserveStyles styles (classes.setRef ref own) :=
  (List.foldl_hom _ fun _ _ => (hlaw.setRef_addStyle ..).symm).symm

theorem setRef_addEvents (hlaw : classes.Lawful) (ref : Bytes) (events : List Bytes) (own : ν) :
    classes.setRef ref (addEvents classes events own) = addEvents classes events (classes.setRef ref own) :=
  (List.foldl_hom _ fun _ _ => (hlaw.setRef_addEvent ..).symm).symm

theorem setRef_addEntry (hlaw : classes.Lawful) (ref : Bytes) (own : ν) (x : Utf16 × Doc) :
    classes.setRef ref (addEntry classes reserveStyles libc own x) =
      addEntry classes reserveStyles libc (classes.setRef ref own) x := by
  unfold addEntry
  split
  · exact setRef_addAttrs hlaw _ _ _
  · exact setRef_addStyles hlaw _ _ _
  · exact setRef_addEvents hlaw _ _ _
  · rfl

/-- A reference may be set before or after the entries. -/
theorem setRef_foldl (hlaw : classes.Lawful) (ref : Bytes) (es : List (Utf16 × Doc)) (own : ν) :
    classes.setRef ref (es.foldl (addEntry classes reserveStyles libc) own) =
      es.foldl (addEntry classes reserveStyles libc) (classes.setRef ref own) :=
  (List.foldl_hom _ fun _ _ => (setRef_addEntry hlaw ..).symm).symm

theorem addAttrs_addStyles (hlaw : classes.Lawful) (attrs styles : List (Bytes × Bytes)) (own : ν) :
    addAttrs classes attrs (addStyles classes reserveStyles styles own) =
      addStyles classes reserveStyles styles (addAttrs classes attrs own) := by
  refine (List.foldl_hom (addAttrs classes attrs) fun own x => ?_).symm
  exact (List.foldl_hom (classes.addStyle x.1 x.2 reserveStyles) fun _ _ =>
    hlaw.addAttr_addStyle ..).symm

theorem addAttrs_addEvents (hlaw : classes.Lawful) (attrs : List (Bytes × Bytes)) (events : List Bytes)
    (own : ν) : addAttrs classes attrs (addEvents classes events own) =
      addEvents classes events (addAttrs classes attrs own) := by
  refine (List.foldl_hom (addAttrs classes attrs) fun own event => ?_).symm
  exact (List.foldl_hom (classes.addEvent event) fun _ _ => hlaw.addAttr_addEvent ..).symm

theorem addStyles_addEvents (hlaw : classes.Lawful) (styles : List (Bytes × Bytes)) (events : List Bytes)
    (own : ν) : addStyles classes reserveStyles styles (addEvents classes events own) =
      addEvents classes events (addStyles classes reserveStyles styles own) := by
  refine (List.foldl_hom (addStyles classes reserveStyles styles) fun own event => ?_).symm
  exact (List.foldl_hom (classes.addEvent event) fun _ _ => hlaw.addStyle_addEvent ..).symm

/-- **The order of the entries** does not matter: the attributes can come first, then the styles and
then the events. -/
theorem foldl_addEntry (hlaw : classes.Lawful) (es : List (Utf16 × Doc)) (own : ν) :
    es.foldl (addEntry classes reserveStyles libc) own =
      addEvents classes (collect .event (eventsOf libc) es)
        (addStyles classes reserveStyles (collect .style (pairsOf libc) es)
          (addAttrs classes (collect .attr (pairsOf libc) es) own)) := by
  induction es generalizing own with
  | nil => rfl
  | cons x es ih =>
    rw [List.foldl_cons, ih, addEntry, collect_cons, collect_cons, collect_cons]
    cases hfield : fieldNamed x.1 with
    | none =>
      have hne (f : Field) : x.1 ≠ f.key := fun hkey =>
        nomatch hfield.symm.trans (fieldNamed_eq_some.mpr hkey)
      rw [if_neg (hne _), if_neg (hne _), if_neg (hne _)]
      rfl
    | some f =>
      have hkey : x.1 = f.key := fieldNamed_eq_some.mp hfield
      rw [hkey]
      cases f with
      | ref | type | children => rfl
      | attr =>
        rw [if_neg (by decide), if_neg (by decide), if_pos rfl, List.nil_append, List.nil_append]
        simp only [addAttrs, List.foldl_append]
      | style =>
        rw [if_neg (by decide), if_pos rfl, if_neg (by decide), List.nil_append, List.nil_append,
          addAttrs_addStyles hlaw]
        simp only [addStyles, List.foldl_append]
      | event =>
        rw [if_pos rfl, if_neg (by decide), if_neg (by decide), List.nil_append, List.nil_append,
          addAttrs_addEvents hlaw, addStyles_addEvents hlaw]
        simp only [addEvents, List.foldl_append]

end Lawful

section Trees

variable {ν : Type} (classes : RenderClasses ν) (libc : Libc) (pageId : Bytes) (reserveStyles : Bool)

theorem treesEntries_eq (es : List (Utf16 × Doc)) :
    treesEntries classes libc pageId reserveStyles es =
      collect .children (treesValue classes libc pageId reserveStyles) es := by
  induction es with
  | nil => rfl
  | cons x es ih => rw [treesEntries, collect_cons, ih]

/-- Permuting the entries of a node, with distinct keys, leaves its tree. -/
theorem treeOf_perm {classes : RenderClasses ν} (hlaw : classes.Lawful) {es es' : List (Utf16 × Doc)}
    (h : es.Perm es') (hnodup : (es.map Prod.fst).Nodup) :
    treeOf classes libc pageId reserveStyles (.map es') = treeOf classes libc pageId reserveStyles (.map es) := by
  have hnodup' : (es'.map Prod.fst).Nodup := (h.map Prod.fst).nodup_iff.mp hnodup
  have hvalue (f : Field) : valueOf f es' = valueOf f es := valueOf_perm h hnodup f
  simp only [treeOf, ownOf, textField, treesEntries_eq, foldl_addEntry hlaw, collect_eq _ _ hnodup,
    collect_eq _ _ hnodup', hvalue]

end Trees

end Wson.Dom
