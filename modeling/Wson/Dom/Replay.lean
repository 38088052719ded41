import Wson.Dom.Agree
import Wson.Dom.Generate

/-!
# Replaying the calls of `WsonGenerate`

`WsonGenerate` does not build objects: it calls `genObject` with what a node holds, the reference
of the parent and the index. Here a receiver of these calls makes an object of each and inserts
it where the call says; the code that receives them is not in the repository.

- `Page.receive`: what the receiver does with a call.
- `fieldsOf_eq`: what the first pass over a node keeps; `ownOfCall_eq`: the object of it is the
  one that the parser of render objects makes.
- `replays_emitted`: the calls of a document build its tree.
- `buildsSameTree`: the calls and `parserWson2RenderObject` build the same tree.
-/

namespace Wson.Dom

open Effect Text Wire Native Native.Buffer Native.Parser

/-! ## The receiver -/

/-- The objects that have been made, and their references. -/
structure Page (ν : Type) where
  heap : Heap ν
  refs : List Bytes

namespace Page

variable {ν : Type}

/-- The object with this reference. -/
def find (page : Page ν) (ref : Bytes) : Option Nat :=
  page.refs.idxOf? ref

variable (classes : RenderClasses ν) (pageId : Bytes) (reserveStyles : Bool)

/-- The object of a call, with its defaults. -/
def ownOfCall (call : GenObject) : ν :=
  applyDefaults classes reserveStyles
    (addEvents classes call.events (addStyles classes reserveStyles call.styles
      (addAttrs classes call.attrs (create classes pageId call.type call.ref))))

/-- The object of the call is inserted at the index below the parent, if there is such an object. -/
def receive (page : Page ν) (call : GenObject) : Page ν where
  heap := Heap.update (page.find call.parentRef) (.addRenderObject call.index.toNat page.heap.length)
    (page.heap ++ [⟨ownOfCall classes pageId reserveStyles call, []⟩])
  refs := page.refs ++ [call.ref]

def replay (page : Page ν) (calls : List GenObject) : Page ν :=
  calls.foldl (receive classes pageId reserveStyles) page

/-- Every object has a reference. -/
def Labelled (page : Page ν) : Prop :=
  page.refs.length = page.heap.length

variable {classes pageId reserveStyles} {page : Page ν}

theorem labelled_receive (h : page.Labelled) (call : GenObject) :
    (page.receive classes pageId reserveStyles call).Labelled := by
  have h : page.refs.length = page.heap.length := h
  show (page.refs ++ [call.ref]).length = (Heap.update _ _ _).length
  rw [Heap.length_update, List.length_append, List.length_append, h]
  rfl

theorem labelled_replay (h : page.Labelled) (calls : List GenObject) :
    (page.replay classes pageId reserveStyles calls).Labelled := by
  induction calls generalizing page with
  | nil => exact h
  | cons call calls ih => exact ih (labelled_receive h call)

@[simp] theorem refs_replay (calls : List GenObject) :
    (page.replay classes pageId reserveStyles calls).refs = page.refs ++ calls.map GenObject.ref := by
  induction calls generalizing page with
  | nil => exact (List.append_nil _).symm
  | cons call calls ih =>
    have hrefs : page.refs ++ (call :: calls).map GenObject.ref =
        page.refs ++ [call.ref] ++ calls.map GenObject.ref := by
      rw [List.append_assoc]
      rfl
    rw [hrefs]
    exact ih

theorem replay_append (calls calls' : List GenObject) :
    page.replay classes pageId reserveStyles (calls ++ calls') =
      (page.replay classes pageId reserveStyles calls).replay classes pageId reserveStyles calls' :=
  List.foldl_append

theorem find_lt (h : page.Labelled) {ref : Bytes} : ∀ p ∈ page.find ref, p < page.heap.length := by
  intro p hp
  have hlt := (List.idxOf?_eq_some_iff.mp hp).1
  exact Nat.lt_of_lt_of_eq hlt h

/-- What has been found is found later on. -/
theorem find_replay {ref : Bytes} {p : Nat} (hp : page.find ref = some p) (calls : List GenObject) :
    (page.replay classes pageId reserveStyles calls).find ref = some p := by
  have hp : page.refs.findIdx? (· == ref) = some p := hp
  rw [find, refs_replay, List.idxOf?, List.findIdx?_append, hp]
  rfl

/-- A new reference is that of the object of the call. -/
theorem find_receive (h : page.Labelled) {call : GenObject} (hnew : call.ref ∉ page.refs) :
    (page.receive classes pageId reserveStyles call).find call.ref = some page.heap.length := by
  have hnone : page.refs.findIdx? (· == call.ref) = none := List.idxOf?_eq_none_iff.mpr hnew
  have h : page.refs.length = page.heap.length := h
  show List.findIdx? _ (page.refs ++ [call.ref]) = _
  rw [List.findIdx?_append, hnone, List.findIdx?_singleton, beq_self_eq_true, if_pos rfl, ← h]
  simp

end Page

/-! ## What the first pass keeps -/

/-- Events are a set. -/
structure RenderClasses.EventSet {ν : Type} (classes : RenderClasses ν) : Prop where
  addEvent_comm : ∀ event event' own,
    classes.addEvent event (classes.addEvent event' own) = classes.addEvent event' (classes.addEvent event own)
  addEvent_self : ∀ event own, classes.addEvent event (classes.addEvent event own) = classes.addEvent event own

section Fields

variable {ν : Type} {classes : RenderClasses ν} {libc : Libc} {pageId : Bytes} {reserveStyles : Bool}

/-- Of a new key, both ways of adding it to a map do the same. -/
theorem StringMap.assign_eq_insert {key value : Bytes} {m : StringMap} (h : key ∉ m.map Prod.fst) :
    m.assign key value = m.insert key value := by
  induction m with
  | nil => rfl
  | cons entry m ih =>
    rw [List.map_cons, List.mem_cons, not_or] at h
    have hne : entry.1 ≠ key := Ne.symm h.1
    rw [StringMap.assign, StringMap.insert, if_neg hne, if_neg hne, ih h.2]

theorem foldl_assign {m : StringMap} {pairs : List (Bytes × Bytes)} (h : ((m ++ pairs).map Prod.fst).Nodup) :
    pairs.foldl (fun m x => m.assign x.1 x.2) m = m.insertAll pairs := by
  induction pairs generalizing m with
  | nil => rfl
  | cons x pairs ih =>
    have hmiddle : ((x :: (m ++ pairs)).map Prod.fst).Nodup :=
      (List.perm_middle.map Prod.fst).nodup_iff.mp h
    have hnew : x.1 ∉ m.map Prod.fst := by
      intro hmem
      rw [List.map_cons, List.map_append, List.nodup_cons] at hmiddle
      exact hmiddle.1 (List.mem_append_left _ hmem)
    have hinsert : (m.insert x.1 x.2 ++ pairs).Perm (x :: (m ++ pairs)) :=
      (insert_perm hnew).append_right pairs
    rw [List.foldl_cons, StringMap.assign_eq_insert hnew]
    exact ih ((hinsert.map Prod.fst).nodup_iff.mpr hmiddle)

section Events

variable (hset : classes.EventSet)
include hset

theorem addEvents_addEvent (events : List Bytes) (event : Bytes) (own : ν) :
    addEvents classes events (classes.addEvent event own) = classes.addEvent event (addEvents classes events own) :=
  List.foldl_hom (classes.addEvent event) fun _ _ => hset.addEvent_comm ..

/-- What is in the set already adds nothing. -/
theorem addEvents_insert (event : Bytes) (events : StringSet) (own : ν) :
    addEvents classes (StringSet.insert event events) own = classes.addEvent event (addEvents classes events own) := by
  induction events generalizing own with
  | nil => rfl
  | cons element events ih =>
    have hcons (own : ν) : addEvents classes (element :: events) own =
        addEvents classes events (classes.addEvent element own) := rfl
    rw [StringSet.insert]
    split
    · next hsame =>
      rw [hsame] at hcons ⊢
      rw [hcons, addEvents_addEvent hset, hset.addEvent_self]
    · split
      · exact addEvents_addEvent hset (element :: events) event own
      · rw [hcons]
        exact ih _

theorem addEvents_foldl (events : List Bytes) (known : StringSet) (own : ν) :
    addEvents classes (events.foldl (fun events value => StringSet.insert value events) known) own =
      addEvents classes events (addEvents classes known own) := by
  induction events generalizing known with
  | nil => rfl
  | cons event events ih =>
    rw [List.foldl_cons, ih, addEvents_insert hset]
    rfl

end Events

/-- What the first pass keeps of a node whose keys are distinct. -/
theorem foldl_fields_eq {es : List (Utf16 × Doc)} (hnodup : (es.map Prod.fst).Nodup) (fields : Fields) :
    es.foldl (Fields.add libc) fields =
      { ref := (valueOf .ref es).elim fields.ref (textOf libc)
        renderType := (valueOf .type es).elim fields.renderType (textOf libc)
        styles := (collect .style (pairsOf libc) es).foldl (fun styles y => styles.assign y.1 y.2) fields.styles
        attrs := (collect .attr (pairsOf libc) es).foldl (fun attrs y => attrs.assign y.1 y.2) fields.attrs
        events := (collect .event (eventsOf libc) es).foldl
          (fun events value => StringSet.insert value events) fields.events } := by
  induction es generalizing fields with
  | nil => rfl
  | cons x es ih =>
    obtain ⟨hnew, hnodup⟩ := List.nodup_cons.mp hnodup
    rw [List.foldl_cons, ih hnodup, Fields.add]
    simp only [valueOf_cons, collect_cons]
    cases hfield : fieldNamed x.1 with
    | none =>
      have hne (f : Field) : x.1 ≠ f.key := by
        intro hkey
        cases hfield.symm.trans (fieldNamed_eq_some.mpr hkey)
      simp only [hne, if_false, List.nil_append]
    | some f =>
      have hkey : x.1 = f.key := fieldNamed_eq_some.mp hfield
      have hnone : valueOf f es = none := valueOf_eq_none (hkey ▸ hnew)
      simp only [hkey, Field.key_inj]
      cases f with
      | ref | type =>
        simp only [reduceCtorEq, if_true, if_false, List.nil_append, hnone]
        rfl
      | attr | style | event =>
        simp only [reduceCtorEq, if_true, if_false, List.nil_append, List.foldl_append]
      | children => simp only [reduceCtorEq, if_false, List.nil_append]

theorem nodup_collect {es : List (Utf16 × Doc)} (hnodup : (es.map Prod.fst).Nodup)
    (hdistinct : Jsc.DistinctKeysEntries es) (f : Field) :
    ((collect f (pairsOf libc) es).map Prod.fst).Nodup := by
  rw [collect_eq _ _ hnodup]
  cases hvalue : valueOf f es with
  | none => exact List.nodup_nil
  | some d => exact nodup_pairsOf (distinctKeys_of_mem hdistinct (mem_of_valueOf hvalue))

/-- **The object of a call** is the one that the parser of render objects makes of the node. -/
theorem ownOfCall_eq (hlaw : classes.Lawful) (hkeyed : classes.Keyed) (hset : classes.EventSet)
    {es : List (Utf16 × Doc)} (hnodup : (es.map Prod.fst).Nodup) (hdistinct : Jsc.DistinctKeysEntries es)
    {fields : Fields} (hfields : fields = fieldsOf libc es) (parentRef : Bytes) (index : Int) :
    Page.ownOfCall classes pageId reserveStyles ⟨fields.ref, fields.renderType, parentRef, fields.styles,
        fields.attrs, fields.events, index⟩ =
      applyDefaults classes reserveStyles (ownOf classes libc pageId reserveStyles es) := by
  have hattrs : ((collect .attr (pairsOf libc) es).map Prod.fst).Nodup := nodup_collect hnodup hdistinct .attr
  have hstyles : ((collect .style (pairsOf libc) es).map Prod.fst).Nodup :=
    nodup_collect hnodup hdistinct .style
  rw [hfields, fieldsOf, foldl_fields_eq hnodup, Page.ownOfCall, ownOf, foldl_addEntry hlaw]
  congr 1
  have hsorted (pairs : List (Bytes × Bytes)) (h : (pairs.map Prod.fst).Nodup) :
      pairs.foldl (fun m y => StringMap.assign y.1 y.2 m) [] = StringMap.insertAll [] pairs :=
    foldl_assign h
  simp only [Fields.empty]
  rw [addEvents_foldl hset, hsorted _ hattrs, hsorted _ hstyles, addStyles_insertAll hkeyed hstyles,
    addAttrs_insertAll hkeyed hattrs]
  rfl

end Fields

/-! ## The tree of the calls -/

section Named

variable (libc : Libc)

mutual

/-- Every node that is reached below types has a text for its type and for its reference. -/
def Named : Doc → Prop
  | .map es => (valueOf .type es).isSome → (fieldsOf libc es).Complete ∧ NamedEntries es
  | _ => True

def NamedEntries : List (Utf16 × Doc) → Prop
  | [] => True
  | (k, d) :: es => (k = Field.children.key → NamedValue d) ∧ NamedEntries es

def NamedValue : Doc → Prop
  | .array ds => NamedItems ds
  | _ => True

def NamedItems : List Doc → Prop
  | [] => True
  | d :: ds => Named d ∧ NamedItems ds

end

end Named

section Replay

variable {ν : Type} {classes : RenderClasses ν} {libc : Libc} {pageId : Bytes} {reserveStyles : Bool}

/-- A node without a type makes no call. -/
theorem emitted_of_untyped {es : List (Utf16 × Doc)} (hnodup : (es.map Prod.fst).Nodup)
    (h : ¬ (valueOf .type es).isSome) (parentRef : Bytes) (index : Int) :
    emitted libc (.map es) parentRef index = [] := by
  have hnone : valueOf .type es = none := Option.not_isSome_iff_eq_none.mp h
  rw [emitted, if_neg]
  intro hcomplete
  apply hcomplete.1
  rw [fieldsOf, foldl_fields_eq hnodup, hnone]
  rfl

theorem emittedEntries_eq_nil {es : List (Utf16 × Doc)} (h : Field.children.key ∉ es.map Prod.fst)
    (ref : Bytes) : emittedEntries libc es ref = [] := by
  induction es with
  | nil => rfl
  | cons x es ih =>
    obtain ⟨k, d⟩ := x
    rw [List.map_cons, List.mem_cons, not_or] at h
    rw [emittedEntries, if_neg (Ne.symm h.1), List.nil_append, ih h.2]

/-- The children that the calls have added to the object at `p`. -/
def Adds (classes : RenderClasses ν) (pageId : Bytes) (reserveStyles : Bool) (page : Page ν) (p : Nat)
    (calls : List GenObject) (trees : List (RenderTree ν)) : Prop :=
  ∃ kids, After page.heap (some p) (appendChildren kids)
      (page.replay classes pageId reserveStyles calls).heap ∧
    HoldsAll page.heap.length (page.replay classes pageId reserveStyles calls).heap trees kids

theorem adds_nil (page : Page ν) (p : Nat) : Adds classes pageId reserveStyles page p [] [] :=
  ⟨[], after_refl page.heap p, rfl⟩

/-- **The first child** and then the others. -/
theorem Adds.cons {page : Page ν} {p index : Nat} {own : ν} {kids : List Nat} {calls calls' : List GenObject}
    {tree : Option (RenderTree ν)} {trees : List (RenderTree ν)} {render : Option Nat}
    (hp : page.heap[p]? = some ⟨own, kids⟩) (hindex : kids.length ≤ index)
    (hchild : Result (some p) index page.heap tree render (page.replay classes pageId reserveStyles calls).heap)
    (hrest : ∀ kids : List Nat, kids.length ≤ index + 1 →
      (page.replay classes pageId reserveStyles calls).heap[p]? = some ⟨own, kids⟩ →
        Adds classes pageId reserveStyles (page.replay classes pageId reserveStyles calls) p calls' trees) :
    Adds classes pageId reserveStyles page p (calls ++ calls') (tree.toList ++ trees) := by
  unfold Adds
  rw [Page.replay_append]
  cases tree with
  | none =>
    obtain ⟨-, hsame⟩ := hchild
    have hsame : (page.replay classes pageId reserveStyles calls).heap = page.heap := hsame
    obtain ⟨kids', hafter, hholds⟩ := hrest kids (Nat.le_succ_of_le hindex) (by rw [hsame, hp])
    rw [hsame] at hafter hholds
    exact ⟨kids', hafter, hholds⟩
  | some t =>
    obtain ⟨-, hafter₁, hholds₁⟩ := hchild
    obtain ⟨hlt, -⟩ := List.getElem?_eq_some_iff.mp hp
    have hadded : RenderObject.addRenderObject index page.heap.length ⟨own, kids⟩ =
        appendChildren [page.heap.length] ⟨own, kids⟩ := addRenderObject_of_le hindex
    have hp₁ := (hafter₁.getElem?_self hp).trans (congrArg some hadded)
    have hindex₁ : (kids ++ [page.heap.length]).length ≤ index + 1 := by
      rw [List.length_append]
      exact Nat.add_le_add_right hindex 1
    obtain ⟨kids', hafter, hholds⟩ := hrest _ hindex₁ hp₁
    refine ⟨page.heap.length :: kids', ?_, ?_⟩
    · refine (hafter₁.trans hafter).congr hp ?_
      rw [Function.comp_apply, hadded, appendChildren, appendChildren, appendChildren, List.append_assoc]
      rfl
    · -- The first child stands behind the parent, where the others change nothing.
      have hle := hafter₁.length_le
      refine ⟨page.heap.length, kids', rfl, hholds₁.congr fun q hq hq' => ?_, hholds.mono hle⟩
      exact hafter.getElem? (by omega) hq'

mutual

/-- **The calls of a document build its tree**, below the object that the parent's reference names. -/
theorem replays_emitted (hlaw : classes.Lawful) (hkeyed : classes.Keyed) (hset : classes.EventSet) :
    ∀ {d : Doc} {page : Page ν} (parentRef : Bytes) (index : Nat), page.Labelled → Jsc.DistinctKeys d →
      Named libc d → (page.refs ++ (emitted libc d parentRef index).map GenObject.ref).Nodup →
      ∃ render, Result (page.find parentRef) index page.heap (treeOf classes libc pageId reserveStyles d) render
        (page.replay classes pageId reserveStyles (emitted libc d parentRef index)).heap
  | .map es, page, parentRef, index, hpage, hdistinct, hnamed, hrefs => by
    by_cases htype : (valueOf .type es).isSome
    · obtain ⟨hcomplete, hnamed⟩ := hnamed htype
      obtain ⟨fields, hfields⟩ : ∃ fields, fields = fieldsOf libc es := ⟨_, rfl⟩
      rw [emitted, ← hfields, if_pos (hfields ▸ hcomplete)] at hrefs ⊢
      rw [treeOf, if_pos htype, ← ownOfCall_eq hlaw hkeyed hset hdistinct.1 hdistinct.2 hfields parentRef index]
      generalize hcall : (⟨fields.ref, fields.renderType, parentRef, fields.styles, fields.attrs, fields.events,
        (index : Int)⟩ : GenObject) = call at hrefs ⊢
      have href : call.ref = fields.ref := by rw [← hcall]
      have hparent : call.parentRef = parentRef := by rw [← hcall]
      have hindex : call.index.toNat = index := by rw [← hcall, Int.toNat_natCast]
      rw [List.map_cons] at hrefs
      have hnew : call.ref ∉ page.refs := by
        intro hmem
        exact (List.nodup_append.mp hrefs).2.2 _ hmem _ List.mem_cons_self rfl
      -- The object itself comes first, without children.
      have hbuilt : Built page.heap (page.find parentRef) index []
          (Page.ownOfCall classes pageId reserveStyles call)
          (page.receive classes pageId reserveStyles call).heap := by
        rw [← hparent, ← hindex]
        exact built_create (Page.find_lt hpage) _
      obtain ⟨kids, hnode, hkids⟩ := hbuilt.node
      obtain rfl : kids = [] := hkids
      have hfound : (page.receive classes pageId reserveStyles call).find fields.ref = some page.heap.length :=
        href ▸ Page.find_receive hpage hnew
      have hrefs' : ((page.receive classes pageId reserveStyles call).refs ++
          (emittedEntries libc es fields.ref).map GenObject.ref).Nodup := by
        rw [← List.singleton_append, ← List.append_assoc] at hrefs
        exact hrefs
      obtain ⟨kids, hafter, hholds⟩ := replays_emittedEntries hlaw hkeyed hset (Page.labelled_receive hpage call)
        hdistinct.1 hdistinct.2 hnamed hfound hnode hrefs'
      exact ⟨some page.heap.length, (hbuilt.children hafter hholds).result⟩
    · rw [emitted_of_untyped hdistinct.1 htype, treeOf, if_neg htype]
      exact ⟨none, rfl, rfl⟩
  | .null, _, _, _, _, _, _, _ | .boolean _, _, _, _, _, _, _, _ | .int _, _, _, _, _, _, _, _
  | .long _, _, _, _, _, _, _, _ | .float _, _, _, _, _, _, _, _ | .double _, _, _, _, _, _, _, _
  | .text _ _, _, _, _, _, _, _, _ | .uint8String _, _, _, _, _, _, _, _ | .array _, _, _, _, _, _, _, _ =>
    ⟨none, rfl, rfl⟩

theorem replays_emittedEntries (hlaw : classes.Lawful) (hkeyed : classes.Keyed) (hset : classes.EventSet) :
    ∀ {es : List (Utf16 × Doc)} {page : Page ν} {ref : Bytes} {p : Nat} {own : ν}, page.Labelled →
      (es.map Prod.fst).Nodup → Jsc.DistinctKeysEntries es → NamedEntries libc es → page.find ref = some p →
      page.heap[p]? = some ⟨own, []⟩ → (page.refs ++ (emittedEntries libc es ref).map GenObject.ref).Nodup →
      Adds classes pageId reserveStyles page p (emittedEntries libc es ref)
        (treesEntries classes libc pageId reserveStyles es)
  | [], page, _, p, _, _, _, _, _, _, _, _ => adds_nil page p
  | (k, d) :: es, page, ref, p, own, hpage, hnodup, hdistinct, hnamed, hfound, hnode, hrefs => by
    obtain ⟨hnew, hnodup⟩ := List.nodup_cons.mp hnodup
    rw [emittedEntries, treesEntries] at *
    by_cases hchildren : k = Field.children.key
    · -- The keys are distinct: these are all the children.
      have hnone : treesEntries classes libc pageId reserveStyles es = [] := by
        rw [treesEntries_eq]
        exact collect_eq_nil _ _ (hchildren ▸ hnew)
      rw [if_pos hchildren, emittedEntries_eq_nil (hchildren ▸ hnew), List.append_nil] at hrefs ⊢
      rw [if_pos hchildren, hnone, List.append_nil]
      exact replays_emittedValue hlaw hkeyed hset hpage hdistinct.1 (hnamed.1 hchildren) hfound hnode hrefs
    · rw [if_neg hchildren, List.nil_append] at hrefs ⊢
      rw [if_neg hchildren, List.nil_append]
      exact replays_emittedEntries hlaw hkeyed hset hpage hnodup hdistinct.2 hnamed.2 hfound hnode hrefs

theorem replays_emittedValue (hlaw : classes.Lawful) (hkeyed : classes.Keyed) (hset : classes.EventSet) :
    ∀ {d : Doc} {page : Page ν} {ref : Bytes} {p : Nat} {own : ν}, page.Labelled → Jsc.DistinctKeys d →
      NamedValue libc d → page.find ref = some p → page.heap[p]? = some ⟨own, []⟩ →
      (page.refs ++ (emittedValue libc d ref).map GenObject.ref).Nodup →
      Adds classes pageId reserveStyles page p (emittedValue libc d ref)
        (treesValue classes libc pageId reserveStyles d)
  | .array _, _, _, _, _, hpage, hdistinct, hnamed, hfound, hnode, hrefs =>
    replays_emittedItems hlaw hkeyed hset 0 hpage hdistinct hnamed hfound hnode (Nat.le_refl 0) hrefs
  | .null, page, _, p, _, _, _, _, _, _, _ | .boolean _, page, _, p, _, _, _, _, _, _, _
  | .int _, page, _, p, _, _, _, _, _, _, _ | .long _, page, _, p, _, _, _, _, _, _, _
  | .float _, page, _, p, _, _, _, _, _, _, _ | .double _, page, _, p, _, _, _, _, _, _, _
  | .text _ _, page, _, p, _, _, _, _, _, _, _ | .uint8String _, page, _, p, _, _, _, _, _, _, _
  | .map _, page, _, p, _, _, _, _, _, _, _ => adds_nil page p

theorem replays_emittedItems (hlaw : classes.Lawful) (hkeyed : classes.Keyed) (hset : classes.EventSet) :
    ∀ {ds : List Doc} {page : Page ν} {ref : Bytes} {p : Nat} {own : ν} {kids : List Nat} (index : Nat),
      page.Labelled → Jsc.DistinctKeysItems ds → NamedItems libc ds → page.find ref = some p →
      page.heap[p]? = some ⟨own, kids⟩ → kids.length ≤ index →
      (page.refs ++ (emittedItems libc ds ref index).map GenObject.ref).Nodup →
      Adds classes pageId reserveStyles page p (emittedItems libc ds ref index)
        (treesItems classes libc pageId reserveStyles ds)
  | [], page, _, p, _, _, _, _, _, _, _, _, _, _ => adds_nil page p
  | d :: ds, page, ref, p, own, kids, index, hpage, hdistinct, hnamed, hfound, hnode, hindex, hrefs => by
    rw [emittedItems, List.map_append, ← List.append_assoc] at hrefs
    obtain ⟨render, hchild⟩ := replays_emitted hlaw hkeyed hset ref index hpage hdistinct.1 hnamed.1
      (List.nodup_append.mp hrefs).1
    rw [hfound] at hchild
    rw [emittedItems, treesItems]
    refine Adds.cons hnode hindex hchild ?_
    intro kids hkids hnode'
    rw [← Page.refs_replay] at hrefs
    exact replays_emittedItems hlaw hkeyed hset (index + 1) (Page.labelled_replay hpage _) hdistinct.2 hnamed.2
      (Page.find_replay hfound _) hnode' hkids hrefs

end

/-! ## Both ways -/

/-- From the same objects, with the same parent and index, the calls of `WsonGenerate` and the parser of
render objects make the same tree where the encoding `bs` stands, and both parsers end behind it. -/
def BuildsSameTree (classes : RenderClasses ν) (e : Endian) (libc : Libc) (pageId : Bytes) (reserveStyles : Bool)
    (n : Nat) (before bs after : Bytes) (page : Page ν) (parentRef : Bytes) (index : Nat) : Prop :=
  ∃ (calls : List GenObject) (render render' : Option Nat) (heap : Heap ν) (tree : Option (RenderTree ν)),
    returns (wsonGenerate e libc n parentRef index) ⟨before ++ bs ++ after, before.length, declaredLength⟩ =
        some (calls, ⟨before ++ bs ++ after, (before ++ bs).length, declaredLength⟩) ∧
      returns (parserWson2RenderObject classes e libc pageId reserveStyles n (page.find parentRef) index page.heap)
          ⟨before ++ bs ++ after, before.length, declaredLength⟩ =
        some ((render, heap), ⟨before ++ bs ++ after, (before ++ bs).length, declaredLength⟩) ∧
      Grown (page.find parentRef) index page.heap tree render heap ∧
      Grown (page.find parentRef) index page.heap tree render'
        (page.replay classes pageId reserveStyles calls).heap

/-- **Generating and parsing agree**, where the references are distinct. -/
theorem buildsSameTree {e : Endian} {n : Nat} (hlaw : classes.Lawful) (hkeyed : classes.Keyed)
    (hset : classes.EventSet) {d : Doc} (hgen : Generable libc d) (hregular : Regular d)
    (hdistinct : Jsc.DistinctKeys d) (hnamed : Named libc d) {page : Page ν} (hpage : page.Labelled)
    {parentRef : Bytes} {index : Nat}
    (hrefs : (page.refs ++ (emitted libc d parentRef index).map GenObject.ref).Nodup)
    {before bs after : Bytes} (hbs : d.EncodesBelow e declaredLength before.length bs) (hn : d.height + 1 < n)
    (hlength : bs.length < 2 ^ 30) (hdata : (before ++ bs ++ after).length < 2 ^ 32) :
    BuildsSameTree classes e libc pageId reserveStyles n before bs after page parentRef index := by
  have hw : d.Within (2 ^ 30) := hbs.encodes.within hlength
  -- the calls that are made, the tree that is built, and the replay of the calls that builds it, too
  have hcalls := returns_of_consumesAt (consumes_wsonGenerate hdata hbs hn hw hgen parentRef index)
  have hbuilds : Builds classes e libc pageId reserveStyles declaredLength d _ := builds_treeOf hlaw hregular
  obtain ⟨render, heap, hparsed, hgrown⟩ := hbuilds n before bs after (page.find parentRef) index page.heap hn hbs
    hlength hdata (Page.find_lt hpage)
  obtain ⟨render', hresult⟩ := replays_emitted hlaw hkeyed hset parentRef index hpage hdistinct hnamed hrefs
  exact ⟨_, render, render', heap, _, hcalls, hparsed, hgrown, hresult.grown⟩

end Replay

/-- Elements whose events are a set. -/
def elementsWithSets : RenderClasses Element :=
  { elements with addEvent := fun event own => { own with events := StringSet.insert event own.events } }

theorem StringSet.insert_comm (event event' : Bytes) (events : StringSet) :
    StringSet.insert event (StringSet.insert event' events) =
      StringSet.insert event' (StringSet.insert event events) := by
  induction events with
  | nil => grind [StringSet.insert]
  | cons element events ih => grind [StringSet.insert]

theorem StringSet.insert_self (event : Bytes) (events : StringSet) :
    StringSet.insert event (StringSet.insert event events) = StringSet.insert event events := by
  induction events with
  | nil => grind [StringSet.insert]
  | cons element events ih => grind [StringSet.insert]

theorem eventSet_elementsWithSets : elementsWithSets.EventSet where
  addEvent_comm := fun event event' own =>
    congrArg (fun events => { own with events := events }) (StringSet.insert_comm event event' own.events)
  addEvent_self := fun event own =>
    congrArg (fun events => { own with events := events }) (StringSet.insert_self event own.events)

theorem lawful_elementsWithSets : elementsWithSets.Lawful where
  setRef_create := fun _ _ _ _ => rfl
  setRef_addAttr := fun _ _ _ _ => rfl
  setRef_addStyle := fun _ _ _ _ _ => rfl
  setRef_addEvent := fun _ _ _ => rfl
  addAttr_addStyle := fun _ _ _ _ _ _ => rfl
  addAttr_addEvent := fun _ _ _ _ => rfl
  addStyle_addEvent := fun _ _ _ _ _ => rfl

theorem keyed_elementsWithSets : elementsWithSets.Keyed where
  addAttr_comm := keyed_elements.addAttr_comm
  addStyle_comm := keyed_elements.addStyle_comm

/-- `{ref: "1", children: [null, {ref: "2", type: "b", event: ["x", "x"]}], type: "a"}`. -/
def clickedNode : Doc :=
  .map [(Field.ref.key, .uint8String [0x31]),
    (Field.children.key, .array [.null, .map [(Field.ref.key, .uint8String [0x32]),
      (Field.type.key, .uint8String [0x62]),
      (Field.event.key, .array [.uint8String [0x78], .uint8String [0x78]])]]),
    (Field.type.key, .uint8String [0x61])]

theorem generable_clickedNode : Generable .ofIntegers clickedNode := by
  have hother {f : Field} (hf : f ≠ .children) {P : Prop} (hkey : fieldOf (utf8 f.key) = some .children) : P :=
    absurd (Option.some.inj ((fieldOf_key f).symm.trans hkey)) hf
  have hsteady {f : Field} {d : Doc} (hf : f = .ref ∨ f = .type ∨ f = .children) : Steady (f.key, d) := by
    refine ⟨.inl (plain_key f), ?_⟩
    rcases hf with rfl | rfl | rfl <;> exact trivial
  refine ⟨?_, fun _ => ⟨hother (by decide), fun _ => ⟨rfl, .inl ⟨trivial, ⟨?_, fun _ => ?_⟩, trivial⟩⟩,
    hother (by decide), trivial⟩⟩
  · simp only [List.forall_mem_cons]
    exact ⟨hsteady (by decide), hsteady (by decide), hsteady (by decide), List.forall_mem_nil _⟩
  · simp only [List.forall_mem_cons]
    exact ⟨hsteady (by decide), hsteady (by decide), ⟨.inl (plain_key .event), trivial⟩, List.forall_mem_nil _⟩
  · exact ⟨hother (by decide), hother (by decide), hother (by decide), trivial⟩

theorem regular_clickedNode : Regular clickedNode := by
  have hother {f : Field} (hf : f ≠ .children) {P : Prop} (hkey : f.key = Field.children.key) : P :=
    absurd (Field.key_inj.mp hkey) hf
  refine ⟨by decide, by decide, fun _ => ⟨hother (by decide), fun _ => ⟨trivial, ⟨by decide, by decide, fun _ => ?_⟩,
    trivial⟩, hother (by decide), trivial⟩⟩
  exact ⟨hother (by decide), hother (by decide), hother (by decide), trivial⟩

theorem buildsSameTree_clicked : BuildsSameTree elementsWithSets .little .ofIntegers [] false 6 []
    (clickedNode.encode .little) [] ⟨[], []⟩ [0x30] 0 := by
  have hempty : (⟨[], []⟩ : Page Element).Labelled := rfl
  have hencodes : clickedNode.Encodes .little (clickedNode.encode .little) :=
    Doc.encodes_encode .little (Doc.sized_of_encode_lt .little (by decide +kernel))
  refine buildsSameTree lawful_elementsWithSets keyed_elementsWithSets eventSet_elementsWithSets
    generable_clickedNode regular_clickedNode ?_ ?_ hempty (by decide) (hencodes.below (by decide +kernel))
    (by decide) (by decide +kernel) (by decide +kernel)
  · exact ⟨by decide, trivial, ⟨trivial, ⟨by decide, trivial, trivial, ⟨trivial, trivial, trivial⟩, trivial⟩,
      trivial⟩, trivial, trivial⟩
  · have hother {f : Field} (hf : f ≠ .children) {P : Prop} (hkey : f.key = Field.children.key) : P :=
      absurd (Field.key_inj.mp hkey) hf
    exact fun _ => ⟨by decide, hother (by decide), fun _ => ⟨trivial, fun _ => ⟨by decide, hother (by decide),
      hother (by decide), hother (by decide), trivial⟩, trivial⟩, hother (by decide), trivial⟩

end Wson.Dom
