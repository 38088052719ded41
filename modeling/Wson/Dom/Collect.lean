import Wson.Dom.Reorder

/-!
# `parserWson2RenderObjectNew` builds a tree

Its loop collects what a node holds, in any order of the keys, and the object is made behind
it.

- `Contents.own`: the object that is made of what has been collected.
- `newTreeOf`: the tree of a document, of all its nodes.
- `collects`: every document is parsed to this tree.
-/

namespace Wson.Dom

open Effect Text Wire Native Native.Buffer Native.Parser

/-! ## What is collected -/

/-- What the loop collects, without the children. -/
structure Contents where
  ref : Bytes
  renderType : Bytes
  attrs : StringMap
  styles : StringMap
  events : List Bytes
  deriving DecidableEq, Repr

def Contents.empty : Contents where
  ref := []
  renderType := []
  attrs := []
  styles := []
  events := []

def Collected.contents {ν : Type} (s : Collected ν) : Contents where
  ref := s.ref
  renderType := s.renderType
  attrs := s.attrs
  styles := s.styles
  events := s.events

/-- `insert` for each of the pairs. -/
def StringMap.insertAll (m : StringMap) (pairs : List (Bytes × Bytes)) : StringMap :=
  pairs.foldl (fun m x => m.insert x.1 x.2) m

section Contents

variable (libc : Libc)

/-- An entry of a node. -/
def Contents.add (c : Contents) (x : Utf16 × Doc) : Contents :=
  match fieldOf (utf8 x.1) with
  | some .ref => { c with ref := textOf libc x.2 }
  | some .type => { c with renderType := textOf libc x.2 }
  | some .attr => { c with attrs := c.attrs.insertAll (pairsOf libc x.2) }
  | some .style => { c with styles := c.styles.insertAll (pairsOf libc x.2) }
  | some .event => { c with events := c.events ++ eventsOf libc x.2 }
  | _ => c

variable {ν : Type} (classes : RenderClasses ν) (pageId : Bytes) (reserveStyles : Bool)

/-- The object, without its defaults. -/
def Contents.own (c : Contents) : ν :=
  addEvents classes c.events (addStyles classes reserveStyles c.styles
    (addAttrs classes c.attrs (create classes pageId c.renderType c.ref)))

mutual

/-- The tree of a document: every map is a node. -/
def newTreeOf : Doc → Option (RenderTree ν)
  | .map es =>
    some (.node (applyDefaults classes reserveStyles
      ((es.foldl (Contents.add libc) .empty).own classes pageId reserveStyles)) (newTreesEntries es))
  | _ => none

def newTreesEntries : List (Utf16 × Doc) → List (RenderTree ν)
  | [] => []
  | (k, d) :: es =>
    (if fieldOf (utf8 k) = some .children then newTreesValue d else []) ++ newTreesEntries es

def newTreesValue : Doc → List (RenderTree ν)
  | .array ds => newTreesItems ds
  | _ => []

def newTreesItems : List Doc → List (RenderTree ν)
  | [] => []
  | d :: ds => (newTreeOf d).toList ++ newTreesItems ds

end

end Contents

/-! ## The object behind the loop -/

section Build

variable {ν : Type}

/-- The children are appended one by one. -/
theorem addAll_eq {heap : Heap ν} {p : Nat} {own : ν} {kids : List Nat} {index : Nat}
    (childrens : List Nat) (hp : heap[p]? = some ⟨own, kids⟩) (hindex : kids.length ≤ index) :
    addAll (some p) index childrens heap = heap.modify p (appendChildren childrens) := by
  induction childrens generalizing heap kids index with
  | nil =>
    have hid : (appendChildren [] : RenderObject ν → RenderObject ν) = id := by
      funext render
      rw [appendChildren, List.append_nil]
      rfl
    rw [hid, List.modify_id]
    rfl
  | cons child childrens ih =>
    have hadded : heap.modify p (.addRenderObject index child) = heap.modify p (appendChildren [child]) :=
      modify_congr hp (addRenderObject_of_le hindex)
    have hp' : (heap.modify p (appendChildren [child]))[p]? = some ⟨own, kids ++ [child]⟩ := by
      rw [List.getElem?_modify_eq, hp]
      rfl
    have hindex' : (kids ++ [child]).length ≤ index + 1 := by
      rw [List.length_append]
      exact Nat.add_le_add_right hindex 1
    show addAll (some p) (index + 1) childrens (heap.modify p (.addRenderObject index child)) = _
    rw [hadded, ih hp' hindex', List.modify_modify_eq]
    congr 1
    funext render
    simp only [Function.comp_apply, appendChildren, List.append_assoc, List.singleton_append]

theorem modify_concat (heap : Heap ν) (x : RenderObject ν) (f : RenderObject ν → RenderObject ν) :
    (heap ++ [x]).modify heap.length f = heap ++ [f x] := by
  rw [List.modify_eq_take_cons_drop (by simp)]
  simp

variable {classes : RenderClasses ν} {pageId : Bytes} {reserveStyles : Bool}

/-- **The object** comes last, with all the children. -/
theorem build_eq (s : Collected ν) :
    s.build classes pageId reserveStyles = (some s.heap.length, s.heap ++
      [⟨applyDefaults classes reserveStyles (s.contents.own classes pageId reserveStyles), s.childrens⟩]) := by
  have hp (own : ν) : (s.heap ++ [⟨own, []⟩])[s.heap.length]? = some (⟨own, []⟩ : RenderObject ν) :=
    List.getElem?_concat_length
  rw [Collected.build, addAll_eq s.childrens (hp _) (Nat.zero_le 0), modify_concat]
  show (_, List.modify _ _ _) = _
  rw [modify_concat]
  rfl

end Build

/-! ## The loops -/

section Collect

variable {ν : Type} {classes : RenderClasses ν} {e : Endian} {libc : Libc} {n : Nat} {pageId : Bytes}
  {reserveStyles : Bool} {data : Bytes} {length p : Nat} {parse : Nat → Heap ν → BufferM (Option Nat × Heap ν)}

/-- Where an encoding of `d` stands, `parse` moves behind it and builds the new tree. -/
def Collects (classes : RenderClasses ν) (e : Endian) (libc : Libc) (pageId : Bytes) (reserveStyles : Bool)
    (data : Bytes) (length : Nat) (parse : Nat → Heap ν → BufferM (Option Nat × Heap ν)) (d : Doc) : Prop :=
  ∀ (p : Nat) (bs : Bytes) (index : Nat) (heap : Heap ν), d.EncodesBelow e length p bs → ∃ render heap',
    ConsumesAt data (At data length) p (returns (parse index heap)) bs (render, heap') ∧
      Grown none 0 heap (newTreeOf libc classes pageId reserveStyles d) render heap'

theorem after_none {heap heap' : Heap ν} {f : RenderObject ν → RenderObject ν} :
    After heap none f heap' ↔ heap <+: heap' := by
  rw [List.prefix_iff_eq_take]
  exact eq_comm

/-- What is in a heap stays in a longer one. -/
theorem HoldsAll.of_prefix {lo : Nat} {heap heap' : Heap ν} {ts : List (RenderTree ν)} {kids : List Nat}
    (h : HoldsAll lo heap ts kids) (hfront : heap <+: heap') : HoldsAll lo heap' ts kids :=
  h.congr fun q _ hq => by rw [List.prefix_iff_getElem?.mp hfront q hq, List.getElem?_eq_getElem hq]

/-- **The loop over the children** collects their trees. -/
theorem consumes_collectItems {ds : List Doc}
    (hparse : ∀ d ∈ ds, Collects classes e libc pageId reserveStyles data length parse d) {bs : Bytes}
    (hds : Doc.EncodesItemsBelow e length ds p bs) (index : Nat) (childrens : List Nat) (heap : Heap ν) :
    ∃ kids heap', ConsumesAt data (At data length) p
        (returns (collectItems parse ds.length index (childrens, heap))) bs (childrens ++ kids, heap') ∧
      heap <+: heap' ∧
      HoldsAll heap.length heap' (newTreesItems libc classes pageId reserveStyles ds) kids := by
  induction ds generalizing p bs index childrens heap with
  | nil =>
    obtain rfl := hds
    refine ⟨[], heap, ?_, List.prefix_refl heap, rfl⟩
    rw [List.append_nil]
    exact (consumes_pure _).consumesAt
  | cons d ds ih =>
    obtain ⟨b₁, b₂, h₁, h₂, rfl⟩ := hds
    obtain ⟨hd, hds⟩ := List.forall_mem_cons.mp hparse
    obtain ⟨render, heap₁, hrun, hgrown⟩ := hd p b₁ index heap h₁
    obtain ⟨kids, heap', hrest, hfront, hholds⟩ :=
      ih hds h₂ (index + 1) (childrens ++ render.toList) heap₁
    have hthen : ConsumesAt data (At data length) p
        (returns (collectItems parse (d :: ds).length index (childrens, heap))) (b₁ ++ b₂)
        (childrens ++ render.toList ++ kids, heap') := by
      rw [List.length_cons, collectItems, returns_bind_eq]
      exact hrun.bind hrest
    rw [List.append_assoc] at hthen
    rw [newTreesItems]
    cases htree : newTreeOf libc classes pageId reserveStyles d with
    | none =>
      rw [htree] at hgrown
      obtain ⟨rfl, rfl⟩ := hgrown
      exact ⟨kids, heap', hthen, hfront, hholds⟩
    | some t =>
      rw [htree] at hgrown
      obtain ⟨p, rfl, hafter, hnode⟩ := hgrown
      have hfront₁ := after_none.mp hafter
      have hchild : HoldsAll heap.length heap₁ [t] [p] := ⟨p, [], rfl, hnode, rfl⟩
      exact ⟨p :: kids, heap', hthen, hfront₁.trans hfront,
        (hchild.of_prefix hfront).append (hholds.mono hfront₁.length_le)⟩

/-- Where the loop stands behind the entries `done`. -/
structure Collecting (classes : RenderClasses ν) (libc : Libc) (pageId : Bytes) (reserveStyles : Bool)
    (heap₀ : Heap ν) (done : List (Utf16 × Doc)) (s : Collected ν) : Prop where
  contents : s.contents = done.foldl (Contents.add libc) .empty
  heap : heap₀ <+: s.heap
  childrens : HoldsAll heap₀.length s.heap (newTreesEntries libc classes pageId reserveStyles done) s.childrens

variable {heap₀ : Heap ν} {done : List (Utf16 × Doc)} {s : Collected ν} {k : Utf16} {d : Doc}

theorem collecting_nil :
    Collecting classes libc pageId reserveStyles heap₀ [] ⟨[], [], [], [], [], [], heap₀⟩ where
  contents := rfl
  heap := List.prefix_refl heap₀
  childrens := rfl

theorem newTreesEntries_concat :
    newTreesEntries libc classes pageId reserveStyles (done ++ [(k, d)]) =
      newTreesEntries libc classes pageId reserveStyles done ++
        if fieldOf (utf8 k) = some .children then newTreesValue libc classes pageId reserveStyles d else [] := by
  induction done with
  | nil => rw [List.nil_append, newTreesEntries, newTreesEntries, newTreesEntries, List.append_nil, List.nil_append]
  | cons x done ih => rw [List.cons_append, newTreesEntries, newTreesEntries, ih, List.append_assoc]

/-- An entry that is no list of children. -/
theorem Collecting.concat (h : Collecting classes libc pageId reserveStyles heap₀ done s)
    (hfield : fieldOf (utf8 k) ≠ some .children) {s' : Collected ν}
    (hcontents : s'.contents = s.contents.add libc (k, d)) (hheap : s'.heap = s.heap)
    (hchildrens : s'.childrens = s.childrens) :
    Collecting classes libc pageId reserveStyles heap₀ (done ++ [(k, d)]) s' := by
  constructor
  · rw [hcontents, h.contents, List.foldl_append]
    rfl
  · rw [hheap]
    exact h.heap
  · rw [hheap, hchildrens, newTreesEntries_concat, if_neg hfield, List.append_nil]
    exact h.childrens

section Fields

variable (hdata : data.length < 2 ^ Library.bits .c)
include hdata

/-- **One turn of the loop.** -/
theorem consumes_collectField (hcollecting : Collecting classes libc pageId reserveStyles heap₀ done s)
    {h bs : Bytes} (hk : VarUInt (2 * k.length) h) (hshort : 2 * k.length < 2 ^ 30)
    (hd : d.EncodesBelow e length (p + (h ++ units e k).length) bs) (hn : d.height < n) (hw : d.Within (2 ^ 30))
    (hparse : ∀ ds, d = .array ds → ∀ u ∈ ds, Collects classes e libc pageId reserveStyles data length parse u) :
    ∃ s', ConsumesAt data (At data length) p (returns (collectField e libc n parse s)) (h ++ units e k ++ bs) s' ∧
      Collecting classes libc pageId reserveStyles heap₀ (done ++ [(k, d)]) s' := by
  refine exists_consumes_bind (consumes_nextMapKeyUTF8 hdata hk hshort) ?_
  cases hfield : fieldOf (utf8 k) with
  | none =>
    -- a field that is none of the parser's is skipped
    refine ⟨s, consumes_passed hdata hd hn hw fun _ => rfl, hcollecting.concat ?_ ?_ rfl rfl⟩
    · rw [hfield]
      rintro ⟨⟩
    · rw [Contents.add, hfield]
  | some f =>
    cases f with
    | ref | type =>
      refine ⟨_, consumesAt_wrap (consumes_nextString hdata hd hn hw), hcollecting.concat ?_ ?_ rfl rfl⟩
      · rw [hfield]
        decide
      · rw [Contents.add, hfield]
        rfl
    | attr =>
      refine ⟨_, consumes_foldPairs hdata hd hn hw (fun attrs key value => attrs.insert key value)
        s.attrs (fun attrs => { s with attrs := attrs }) (if_pos rfl) fun t ht => if_neg ht,
        hcollecting.concat ?_ ?_ rfl rfl⟩
      · rw [hfield]
        decide
      · rw [Contents.add, hfield]
        rfl
    | style =>
      refine ⟨_, consumes_foldPairs hdata hd hn hw (fun styles key value => styles.insert key value)
        s.styles (fun styles => { s with styles := styles }) (if_pos rfl) fun t ht => if_neg ht,
        hcollecting.concat ?_ ?_ rfl rfl⟩
      · rw [hfield]
        decide
      · rw [Contents.add, hfield]
        rfl
    | event =>
      refine ⟨_, consumes_foldEvents hdata hd hn hw (fun events value => events ++ [value])
        s.events (fun events => { s with events := events }) (if_pos rfl) fun t ht => if_neg ht,
        hcollecting.concat ?_ ?_ rfl rfl⟩
      · rw [hfield]
        decide
      · have hevents (values events : List Bytes) :
            values.foldl (fun events value => events ++ [value]) events = events ++ values := by
          induction values generalizing events with
          | nil => exact (List.append_nil events).symm
          | cons value values ih => rw [List.foldl_cons, ih, List.append_assoc, List.singleton_append]
        rw [Contents.add, hfield, hevents]
        rfl
    | children =>
      cases d with
      | array ds =>
        -- each child is a whole tree of its own, above what is in the heap
        have hnode := hd
        obtain ⟨-, h, body, hc, hds, rfl⟩ := hd
        obtain ⟨kids, heap', hrun, hfront, hholds⟩ :=
          consumes_collectItems (hparse ds rfl) hds 0 s.childrens s.heap
        refine ⟨{ s with childrens := s.childrens ++ kids, heap := heap' },
          consumes_nextType hdata hnode fun tl htl => ?_, ?_, ?_, ?_⟩
        · obtain rfl : h ++ body = tl := (List.cons.inj htl).2
          show ConsumesAt data _ _ (returns do
            let childSize ← nextArraySize .c
            let collected ← collectItems parse childSize.toNat 0 (s.childrens, s.heap)
            return { s with childrens := collected.1, heap := collected.2 }) _ _
          rw [returns_bind_eq]
          refine (consumes_nextMapSize hdata hc (Nat.lt_trans hw.1 (by decide))).bind ?_
          rw [Int.toNat_natCast]
          exact consumesAt_wrap (f := fun collected : List Nat × Heap ν =>
            { s with childrens := collected.1, heap := collected.2 }) hrun
        · have hcontents : s.contents = done.foldl (Contents.add libc) .empty := hcollecting.contents
          rw [List.foldl_append, ← hcontents]
          show s.contents = s.contents.add libc (k, .array ds)
          rw [Contents.add, hfield]
        · exact hcollecting.heap.trans hfront
        · rw [newTreesEntries_concat, if_pos hfield]
          exact (hcollecting.childrens.of_prefix hfront).append (hholds.mono hcollecting.heap.length_le)
      | _ =>
        refine ⟨s, consumes_skipped (k := .array) hdata hd hn hw (by rintro ⟨⟩) fun t ht => if_neg ht,
          ?_, hcollecting.heap, ?_⟩
        · rw [List.foldl_append, ← hcollecting.contents]
          show s.contents = s.contents.add libc (k, _)
          rw [Contents.add, hfield]
        · rw [newTreesEntries_concat, if_pos hfield]
          simp only [newTreesValue, List.append_nil]
          exact hcollecting.childrens

theorem consumes_collectFields {es : List (Utf16 × Doc)} {bs : Bytes}
    (hcollecting : Collecting classes libc pageId reserveStyles heap₀ done s)
    (hes : Doc.EncodesEntriesBelow e length es p bs) (hn : Doc.heightEntries es < n)
    (hw : Doc.WithinEntries (2 ^ 30) es)
    (hparse : ∀ x ∈ es, ∀ ds, x.2 = .array ds →
      ∀ u ∈ ds, Collects classes e libc pageId reserveStyles data length parse u) :
    ∃ s', ConsumesAt data (At data length) p (returns (collectFields e libc n parse es.length s)) bs s' ∧
      Collecting classes libc pageId reserveStyles heap₀ (done ++ es) s' := by
  induction es generalizing p bs done s with
  | nil =>
    obtain rfl := hes
    rw [List.append_nil]
    exact ⟨s, (consumes_pure s).consumesAt, hcollecting⟩
  | cons x es ih =>
    obtain ⟨h, b₁, b₂, hk, h₁, h₂, rfl⟩ := hes
    rw [Doc.heightEntries, Nat.max_lt] at hn
    obtain ⟨hx, hparse⟩ := List.forall_mem_cons.mp hparse
    obtain ⟨s₁, hrun, hcollecting₁⟩ :=
      consumes_collectField hdata hcollecting hk hw.1 h₁ hn.1 hw.2.1 hx
    obtain ⟨s', hrest, hcollecting'⟩ := ih hcollecting₁ h₂ hn.2 hw.2.2 hparse
    refine ⟨s', ?_, ?_⟩
    · rw [List.length_cons, collectFields, returns_bind_eq]
      exact hrun.bind hrest
    · rwa [List.append_assoc] at hcollecting'

end Fields

/-- What the object behind the loop holds. -/
theorem Collecting.grown (h : Collecting classes libc pageId reserveStyles heap₀ done s) :
    Grown none 0 heap₀ (newTreeOf libc classes pageId reserveStyles (.map done))
      (s.build classes pageId reserveStyles).1 (s.build classes pageId reserveStyles).2 := by
  have hlast : s.heap <+: s.heap ++
      [⟨applyDefaults classes reserveStyles (s.contents.own classes pageId reserveStyles), s.childrens⟩] :=
    List.prefix_append _ _
  rw [build_eq, newTreeOf, ← h.contents]
  refine ⟨s.heap.length, rfl, after_none.mpr (h.heap.trans hlast), h.heap.length_le, s.childrens, ?_,
    h.childrens.of_prefix hlast⟩
  exact List.getElem?_concat_length

/-- **Every document is parsed** to the tree of all its nodes, as far as the parser has room. -/
theorem collects (hdata : data.length < 2 ^ Library.bits .c) :
    ∀ {n : Nat} {d : Doc}, d.height + 1 < n → d.Within (2 ^ 30) →
      Collects classes e libc pageId reserveStyles data length
        (parserWson2RenderObjectNew classes e libc pageId reserveStyles n) d := by
  intro n
  induction n with
  | zero => exact fun hn => absurd hn (Nat.not_lt_zero _)
  | succ n ih =>
    intro d hn hw p bs index heap hd
    cases d with
    | map es =>
      rw [Doc.height, Nat.add_lt_add_iff_right] at hn
      have hparse (x : Utf16 × Doc) (hx : x ∈ es) (ds : List Doc) (hds : x.2 = .array ds) (u : Doc)
          (hu : u ∈ ds) : Collects classes e libc pageId reserveStyles data length
            (parserWson2RenderObjectNew classes e libc pageId reserveStyles n) u := by
        have hwithin := (hw.2.of_mem hx).2
        have hheight := Doc.height_le_of_mem_entries hx
        have hle := Doc.height_le_of_mem hu
        rw [hds] at hwithin hheight
        rw [Doc.height] at hheight
        exact ih (by omega) (hwithin.2.of_mem hu)
      suffices ∃ a : Option Nat × Heap ν, ConsumesAt data (At data length) p (returns
          (parserWson2RenderObjectNew classes e libc pageId reserveStyles (n + 1) index heap)) bs a ∧
            Grown none 0 heap (newTreeOf libc classes pageId reserveStyles (.map es)) a.1 a.2 by
        obtain ⟨⟨render, heap'⟩, hrun, hgrown⟩ := this
        exact ⟨render, heap', hrun, hgrown⟩
      rw [parserWson2RenderObjectNew]
      refine exists_consumes_nextMap hdata hd hw (if_neg (not_not_intro rfl)) ?_
      intro q body hes
      have hnil : Collecting classes libc pageId reserveStyles heap [] ⟨[], [], [], [], [], [], heap⟩ :=
        collecting_nil
      obtain ⟨s, hrun, hcollecting⟩ := consumes_collectFields hdata hnil hes
        (Nat.lt_of_succ_lt hn) hw.2 hparse
      rw [List.nil_append] at hcollecting
      rw [Int.toNat_natCast]
      exact ⟨_, consumesAt_wrap hrun, hcollecting.grown⟩
    | _ =>
      refine ⟨none, heap, ?_, rfl, rfl⟩
      rw [parserWson2RenderObjectNew]
      exact consumes_skipped (k := .map) hdata hd (Nat.lt_of_succ_lt_succ hn) hw (by rintro ⟨⟩)
        fun _ ht => if_pos ht

end Collect

end Wson.Dom
