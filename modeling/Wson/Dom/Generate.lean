import Wson.Dom.Fields

/-!
# `WsonGenerate`

A tree of nodes is turned into calls of `genObject`, in two passes over each node: the
first one reads the fields of the node, the second one its children.

`generatesTree`: on a document whose fields have the types that are expected, or a value
of no bytes behind its tag, the calls are those of its nodes in pre-order, and every node
is read up to its end.
-/

namespace Wson.Dom

open Effect Text Wire Native Native.Buffer Native.Parser

/-- `std::set<std::string>`. -/
abbrev StringSet := List Bytes

/-- `set->insert(value)`. -/
def StringSet.insert (value : Bytes) : StringSet → StringSet
  | [] => [value]
  | element :: elements =>
    if element = value then element :: elements
    else if value < element then value :: element :: elements
    else element :: insert value elements

/-- A call of `genObject`. -/
structure GenObject where
  ref : Bytes
  type : Bytes
  parentRef : Bytes
  styles : StringMap
  attrs : StringMap
  events : StringSet
  index : Int
  deriving DecidableEq, Repr

/-- What the first pass reads. -/
structure Fields where
  ref : Bytes
  renderType : Bytes
  styles : StringMap
  attrs : StringMap
  events : StringSet
  deriving DecidableEq, Repr

namespace Fields

def empty : Fields where
  ref := []
  renderType := []
  styles := []
  attrs := []
  events := []

/-- The condition under which there is an object. -/
def Complete (fields : Fields) : Prop :=
  fields.renderType ≠ [] ∧ fields.ref ≠ []

instance (fields : Fields) : Decidable fields.Complete :=
  inferInstanceAs (Decidable (_ ∧ _))

end Fields

section Generate

variable (e : Endian) (libc : Libc) (n : Nat)

/-- One turn of the first loop. Where a field has another type, only its tag is read. -/
def generateField (fields : Fields) : BufferM Fields := do
  let objectKey ← nextMapKeyUTF8 .c e
  match fieldOf objectKey with
  | some .ref => return { fields with ref := ← nextString e libc n }
  | some .type => return { fields with renderType := ← nextString e libc n }
  | some .attr =>
    let attrType ← nextType .c
    if attrType = Tag.map then
      let attrMapSize ← nextMapSize .c
      let attrs ← readPairs e libc n (fun attrs key value => attrs.assign key value)
        attrMapSize.toNat fields.attrs
      return { fields with attrs := attrs }
    else return fields
  | some .style =>
    let styleType ← nextType .c
    if styleType = Tag.map then
      let styleMapSize ← nextMapSize .c
      let styles ← readPairs e libc n (fun styles key value => styles.assign key value)
        styleMapSize.toNat fields.styles
      return { fields with styles := styles }
    else return fields
  | some .event =>
    let eventType ← nextType .c
    if eventType = Tag.array then
      let eventSize ← nextArraySize .c
      let events ← readEvents e libc n (fun events value => events.insert value)
        eventSize.toNat fields.events
      return { fields with events := events }
    else return fields
  | _ =>
    skipValue .c n (← nextType .c)
    return fields

def generateFields : Nat → Fields → BufferM Fields
  | 0, fields => pure fields
  | size + 1, fields => do generateFields size (← generateField e libc n fields)

/-- The loop over the elements of `children`. -/
def generateItems (generate : Int → BufferM (List GenObject)) : Nat → Int → BufferM (List GenObject)
  | 0, _ => pure []
  | size + 1, childIndex => do
    let calls ← generate childIndex
    let rest ← generateItems generate size (childIndex + 1)
    return calls ++ rest

/-- The second loop. It ends where the children are no array. -/
def generateChildren (generate : Int → BufferM (List GenObject)) : Nat → BufferM (List GenObject)
  | 0 => pure []
  | size + 1 => do
    let objectKey ← nextMapKeyUTF8 .c e
    if fieldOf objectKey = some .children then
      let childType ← nextType .c
      if childType = Tag.array then
        let childSize ← nextArraySize .c
        let calls ← generateItems generate childSize.toNat 0
        let rest ← generateChildren generate size
        return calls ++ rest
      else return []
    else
      skipValue .c n (← nextType .c)
      generateChildren generate size

/-- `WsonGenerate`: the calls of `genObject` in their order. -/
def wsonGenerate : Nat → Bytes → Int → BufferM (List GenObject)
  | 0, _, _ => throw .stackOverflow
  | n + 1, parentRef, index => do
    let objectType ← nextType .c
    if objectType ≠ Tag.map then
      skipValue .c n objectType
      return []
    else
      let size ← nextMapSize .c
      let state ← getState
      let fields ← generateFields e libc n size.toNat .empty
      if fields.Complete then
        restoreToState state
        let calls ← generateChildren e n (wsonGenerate n fields.ref) size.toNat
        return ⟨fields.ref, fields.renderType, parentRef, fields.styles, fields.attrs, fields.events,
          index⟩ :: calls
      else return []

end Generate

/-! ## What a tree of nodes should generate -/

section Spec

variable (libc : Libc)

/-- An entry of a node; fields of another type count as absent. -/
def Fields.add (fields : Fields) (x : Utf16 × Doc) : Fields :=
  match fieldNamed x.1 with
  | some .ref => { fields with ref := textOf libc x.2 }
  | some .type => { fields with renderType := textOf libc x.2 }
  | some .attr => { fields with
      attrs := (pairsOf libc x.2).foldl (fun attrs y => attrs.assign y.1 y.2) fields.attrs }
  | some .style => { fields with
      styles := (pairsOf libc x.2).foldl (fun styles y => styles.assign y.1 y.2) fields.styles }
  | some .event => { fields with
      events := (eventsOf libc x.2).foldl (fun events value => events.insert value) fields.events }
  | _ => fields

def fieldsOf (es : List (Utf16 × Doc)) : Fields :=
  es.foldl (Fields.add libc) .empty

mutual

/-- The nodes that are reached from a document over nodes with a `ref` and a `type`, in pre-order. -/
def emitted : Doc → Bytes → Int → List GenObject
  | .map es, parentRef, index =>
    let fields := fieldsOf libc es
    if fields.Complete then
      ⟨fields.ref, fields.renderType, parentRef, fields.styles, fields.attrs, fields.events, index⟩ ::
        emittedEntries es fields.ref
    else []
  | _, _, _ => []

def emittedEntries : List (Utf16 × Doc) → Bytes → List GenObject
  | [], _ => []
  | (k, d) :: es, ref =>
    (if k = Field.children.key then emittedValue d ref else []) ++ emittedEntries es ref

/-- The value of `children`. -/
def emittedValue : Doc → Bytes → List GenObject
  | .array ds, ref => emittedItems ds ref 0
  | _, _ => []

def emittedItems : List Doc → Bytes → Int → List GenObject
  | [], _, _ => []
  | d :: ds, ref, childIndex => emitted d ref childIndex ++ emittedItems ds ref (childIndex + 1)

end

/-- Nothing stands behind the tag of the value. -/
def IsTag : Doc → Prop
  | .null | .boolean _ => True
  | _ => False

theorem IsTag.cases {d : Doc} (h : IsTag d) : d = .null ∨ ∃ b, d = .boolean b := by
  cases d with
  | null => exact .inl rfl
  | boolean b => exact .inr ⟨b, rfl⟩
  | _ => exact h.elim

/-- The first pass stays aligned at the entry. It skips what it takes for `children`, as it does with
keys that are none of the fields. -/
def Steady (x : Utf16 × Doc) : Prop :=
  (Plain x.1 ∨ fieldOf (utf8 x.1) = some .children) ∧ match fieldNamed x.1, x.2 with
    | some .attr, .map _ | some .style, .map _ | some .event, .array _ => True
    | some .attr, d | some .style, d | some .event, d => IsTag d
    | _, _ => True

mutual

/-- Both passes stay aligned at every node that is reached. -/
def Generable : Doc → Prop
  | .map es => (∀ x ∈ es, Steady x) ∧ ((fieldsOf libc es).Complete → GenerableEntries es)
  | _ => True

def GenerableEntries : List (Utf16 × Doc) → Prop
  | [] => True
  | (k, d) :: es => (fieldOf (utf8 k) = some .children →
      k = Field.children.key ∧ (GenerableValue d ∨ IsTag d ∧ es = [])) ∧ GenerableEntries es

def GenerableValue : Doc → Prop
  | .array ds => GenerableItems ds
  | _ => False

def GenerableItems : List Doc → Prop
  | [] => True
  | d :: ds => Generable d ∧ GenerableItems ds

end

mutual

/-- The document and the values for which `WsonGenerate` is called in it. -/
def reached : Doc → List Doc
  | .map es => .map es :: if (fieldsOf libc es).Complete then reachedEntries es else []
  | d => [d]

def reachedEntries : List (Utf16 × Doc) → List Doc
  | [] => []
  | (k, d) :: es => (if k = Field.children.key then reachedValue d else []) ++ reachedEntries es

def reachedValue : Doc → List Doc
  | .array ds => reachedItems ds
  | _ => []

def reachedItems : List Doc → List Doc
  | [] => []
  | d :: ds => reached d ++ reachedItems ds

end

end Spec

/-! ## The first pass -/

variable {e : Endian} {libc : Libc} {data : Bytes} {length n p : Nat}

section Consumes

variable (hdata : data.length < 2 ^ Library.bits .c)
include hdata

/-- A value without a body: its tag is all there is to read. -/
theorem consumes_tag {α : Type} {d : Doc} {bs : Bytes} (hd : d.EncodesBelow e length p bs) (htag : IsTag d)
    {m : Byte → BufferM α} {a : α} (hm : m d.kind.tag = pure a) :
    ConsumesAt data (At data length) p (returns (do m (← nextType .c))) bs a := by
  refine consumes_nextType hdata hd ?_
  intro tl htl
  obtain rfl : tl = [] := by
    obtain rfl | ⟨b, rfl⟩ := htag.cases <;> exact (List.cons.inj (htl.symm.trans hd.2)).2
  rw [hm]
  exact (consumes_pure a).consumesAt

/-- A field of pairs: its entries, or a tag. -/
theorem consumes_pairsField {d : Doc} {bs : Bytes} (hd : d.EncodesBelow e length p bs) (hn : d.height < n + 1)
    (hw : d.Within (2 ^ 30)) (htype : IsTag d ∨ ∃ es, d = .map es) (m : StringMap)
    (set : StringMap → Fields) {fields : Fields} (hset : set m = fields) :
    ConsumesAt data (At data length) p (returns (do
      let attrType ← nextType .c
      if attrType = Tag.map then
        let attrMapSize ← nextMapSize .c
        let attrs ← readPairs e libc n (fun attrs key value => attrs.assign key value)
          attrMapSize.toNat m
        return set attrs
      else return fields)) bs
      (set ((pairsOf libc d).foldl (fun attrs y => attrs.assign y.1 y.2) m)) := by
  rcases htype with htag | ⟨es, rfl⟩
  · refine consumes_tag hdata hd htag ?_
    rw [← hset]
    obtain rfl | ⟨_ | _, rfl⟩ := htag.cases <;> rfl
  · refine consumes_nextMap hdata hd hw (if_pos rfl) ?_
    intro q body hes
    rw [Int.toNat_natCast]
    exact consumesAt_wrap (consumes_readPairs hdata _ hes (Nat.lt_of_succ_lt_succ hn) hw.2 m)

/-- **The first pass** over an entry. -/
theorem consumes_generateField {k : Utf16} {d : Doc} {h bs : Bytes} (hk : VarUInt (2 * k.length) h)
    (hshort : 2 * k.length < 2 ^ 30) (hd : d.EncodesBelow e length (p + (h ++ units e k).length) bs)
    (hn : d.height < n) (hw : d.Within (2 ^ 30)) (hsteady : Steady (k, d)) (fields : Fields) :
    ConsumesAt data (At data length) p (returns (generateField e libc n fields)) (h ++ units e k ++ bs)
      (fields.add libc (k, d)) := by
  have hskip : ConsumesAt data (At data length) (p + (h ++ units e k).length)
      (returns (do skipValue .c n (← nextType .c); return fields)) bs fields := by
    have hthen := consumesAt_wrap (f := fun _ => fields) (consumes_nextSkip hdata hd hn hw)
    simp only [bind_assoc] at hthen
    exact hthen
  rw [generateField, returns_bind_eq]
  refine (consumes_nextMapKeyUTF8 hdata hk hshort).bind ?_
  obtain ⟨hplain | hchildren, htype⟩ := hsteady
  rotate_left
  · -- the value is skipped, and adds nothing
    have hnothing : fields.add libc (k, d) = fields := by
      cases hfield : fieldNamed k with
      | none => simp only [Fields.add, hfield]
      | some f =>
        rw [fieldNamed_eq_some.mp hfield, fieldOf_key] at hchildren
        obtain rfl := Option.some.inj hchildren
        simp only [Fields.add, hfield]
    rw [hchildren, hnothing]
    exact hskip
  have hplain : fieldOf (utf8 k) = fieldNamed k := hplain
  rw [hplain, Fields.add]
  simp only at htype ⊢
  cases hfield : fieldNamed k with
  | none => exact hskip
  | some f =>
    rw [hfield] at htype
    cases f with
    | ref | type => exact consumesAt_wrap (consumes_nextString hdata hd hn hw)
    | attr =>
      refine consumes_pairsField hdata hd (Nat.lt_succ_of_lt hn) hw ?_ fields.attrs
        (fun attrs => { fields with attrs := attrs }) rfl
      cases d with
      | map es => exact .inr ⟨es, rfl⟩
      | _ => exact .inl htype
    | style =>
      refine consumes_pairsField hdata hd (Nat.lt_succ_of_lt hn) hw ?_ fields.styles
        (fun styles => { fields with styles := styles }) rfl
      cases d with
      | map es => exact .inr ⟨es, rfl⟩
      | _ => exact .inl htype
    | event =>
      cases d with
      | array ds =>
        refine consumes_nextArray hdata hd hw (if_pos rfl) ?_
        intro q body hds
        rw [Int.toNat_natCast]
        exact consumesAt_wrap (consumes_readEvents hdata _ hds (Nat.lt_of_succ_lt hn) hw.2 _)
      | _ =>
        refine consumes_tag hdata hd htype ?_
        obtain h | ⟨_ | _, h⟩ := IsTag.cases htype <;> cases h <;> rfl
    | children => exact hskip

theorem consumes_generateFields {es : List (Utf16 × Doc)} {bs : Bytes}
    (hes : Doc.EncodesEntriesBelow e length es p bs) (hn : Doc.heightEntries es < n)
    (hw : Doc.WithinEntries (2 ^ 30) es) (hsteady : ∀ x ∈ es, Steady x) (fields : Fields) :
    ConsumesAt data (At data length) p (returns (generateFields e libc n es.length fields)) bs
      (es.foldl (Fields.add libc) fields) := by
  induction es generalizing p bs fields with
  | nil =>
    obtain rfl := hes
    exact (consumes_pure fields).consumesAt
  | cons x es ih =>
    obtain ⟨h, b₁, b₂, hk, h₁, h₂, rfl⟩ := hes
    rw [Doc.heightEntries, Nat.max_lt] at hn
    obtain ⟨hx, hrest⟩ := List.forall_mem_cons.mp hsteady
    rw [List.length_cons, generateFields, returns_bind_eq]
    exact (consumes_generateField hdata hk hw.1 h₁ hn.1 hw.2.1 hx fields).bind
      (ih h₂ hn.2 hw.2.2 hrest _)

/-! ## The second pass -/

end Consumes

mutual

/-- **Generating** the calls of a document. -/
theorem consumes_wsonGenerate (hdata : data.length < 2 ^ Library.bits .c) :
    ∀ {d : Doc} {p : Nat} {bs : Bytes} {n : Nat}, d.EncodesBelow e length p bs → d.height + 1 < n →
      d.Within (2 ^ 30) → Generable libc d → ∀ (parentRef : Bytes) (index : Int),
      ConsumesAt data (At data length) p (returns (wsonGenerate e libc n parentRef index)) bs
        (emitted libc d parentRef index)
  | .map es, _, _, n + 1, hd, hn, hw, hgen, parentRef, index => by
    rw [Doc.height, Nat.add_lt_add_iff_right] at hn
    rw [wsonGenerate]
    refine consumes_nextMap hdata hd hw (if_neg (not_not_intro rfl)) ?_
    intro q body hes
    rw [Int.toNat_natCast]
    have hfields : ConsumesAt data (At data length) q (returns (generateFields e libc n es.length .empty)) body
        (fieldsOf libc es) :=
      consumes_generateFields hdata hes (Nat.lt_of_succ_lt hn) hw.2 hgen.1 _
    rw [emitted]
    by_cases hcomplete : (fieldsOf libc es).Complete
    · rw [if_pos hcomplete]
      have hchildren := consumes_generateChildren hdata hes hn hw.2 (hgen.2 hcomplete) (fieldsOf libc es).ref
      exact consumes_twice hfields (fun state => if_pos hcomplete) (consumesAt_wrap hchildren)
    · rw [if_neg hcomplete]
      exact consumes_once hfields fun state => if_neg hcomplete
  | .null, _, _, n + 1, hd, hn, hw, _, _, _ | .boolean _, _, _, n + 1, hd, hn, hw, _, _, _
  | .int _, _, _, n + 1, hd, hn, hw, _, _, _ | .long _, _, _, n + 1, hd, hn, hw, _, _, _
  | .float _, _, _, n + 1, hd, hn, hw, _, _, _ | .double _, _, _, n + 1, hd, hn, hw, _, _, _
  | .text _ _, _, _, n + 1, hd, hn, hw, _, _, _ | .uint8String _, _, _, n + 1, hd, hn, hw, _, _, _
  | .array _, _, _, n + 1, hd, hn, hw, _, _, _ =>
    consumes_skipped (k := .map) hdata hd (Nat.lt_of_succ_lt_succ hn) hw nofun
      fun _ ht => if_pos ht

theorem consumes_generateChildren (hdata : data.length < 2 ^ Library.bits .c) :
    ∀ {es : List (Utf16 × Doc)} {p : Nat} {bs : Bytes} {n : Nat},
    Doc.EncodesEntriesBelow e length es p bs → Doc.heightEntries es + 1 < n → Doc.WithinEntries (2 ^ 30) es →
      GenerableEntries libc es → ∀ ref : Bytes,
        ConsumesAt data (At data length) p
          (returns (generateChildren e n (wsonGenerate e libc n ref) es.length)) bs
          (emittedEntries libc es ref)
  | [], _, _, _, hes, _, _, _, _ => by
    obtain rfl := hes
    exact (consumes_pure []).consumesAt
  | (k, d) :: es, p, _, n, ⟨h, b₁, b₂, hk, h₁, h₂, hes⟩, hn, hw, hgen, ref => by
    obtain rfl := hes
    have hd : d.height + 1 < n := by
      rw [Doc.heightEntries] at hn
      omega
    have hes : Doc.heightEntries es + 1 < n := by
      rw [Doc.heightEntries] at hn
      omega
    rw [List.length_append, ← Nat.add_assoc] at h₂
    have hrest := consumes_generateChildren hdata h₂ hes hw.2.2 hgen.2 ref
    rw [List.length_cons, generateChildren, returns_bind_eq, List.append_assoc, emittedEntries]
    refine (consumes_nextMapKeyUTF8 hdata hk hw.1).bind ?_
    by_cases hchildren : fieldOf (utf8 k) = some .children
    · obtain ⟨rfl, hvalue⟩ := hgen.1 hchildren
      rw [if_pos hchildren, if_pos rfl]
      rcases hvalue with hvalue | ⟨htag, rfl⟩
      · obtain ⟨ds, rfl, hitems⟩ := consumes_generateValue hdata hd hw.2.1 hvalue ref
        refine consumes_nextArray_append hdata h₁ hw.2.1 (if_pos rfl) ?_
        intro q body hend hds
        rw [Int.toNat_natCast, returns_bind_eq]
        refine (hitems q body hds).bind ?_
        rw [hend]
        exact consumesAt_wrap hrest
      · -- The loop ends in front of nothing.
        obtain rfl := h₂
        rw [List.append_nil]
        have hnone : emittedValue libc d ref ++ emittedEntries libc [] ref = [] := by
          obtain rfl | ⟨b, rfl⟩ := htag.cases <;> rfl
        rw [hnone]
        refine consumes_tag hdata h₁ htag ?_
        obtain rfl | ⟨_ | _, rfl⟩ := htag.cases <;> rfl
    · have hne : k ≠ Field.children.key := by
        rintro rfl
        exact hchildren (fieldOf_key .children)
      rw [if_neg hchildren, if_neg hne, List.nil_append, ← bind_assoc, returns_bind_eq]
      exact (consumes_nextSkip hdata h₁ (Nat.lt_of_succ_lt hd) hw.2.1).bind hrest

theorem consumes_generateValue (hdata : data.length < 2 ^ Library.bits .c) :
    ∀ {d : Doc} {n : Nat}, d.height + 1 < n → d.Within (2 ^ 30) →
    GenerableValue libc d → ∀ ref : Bytes, ∃ ds, d = .array ds ∧
      ∀ p body, Doc.EncodesItemsBelow e length ds p body →
        ConsumesAt data (At data length) p (returns (generateItems (wsonGenerate e libc n ref) ds.length 0)) body
          (emittedItems libc ds ref 0)
  | .array ds, _, hn, hw, hgen, ref =>
    ⟨ds, rfl, fun _ _ hds => consumes_generateItems hdata hds (Nat.lt_of_succ_lt hn) hw.2 hgen ref 0⟩

theorem consumes_generateItems (hdata : data.length < 2 ^ Library.bits .c) :
    ∀ {ds : List Doc} {p : Nat} {bs : Bytes} {n : Nat},
    Doc.EncodesItemsBelow e length ds p bs → Doc.heightItems ds + 1 < n → Doc.WithinItems (2 ^ 30) ds →
      GenerableItems libc ds → ∀ (ref : Bytes) (childIndex : Int),
        ConsumesAt data (At data length) p
          (returns (generateItems (wsonGenerate e libc n ref) ds.length childIndex)) bs
          (emittedItems libc ds ref childIndex)
  | [], _, _, _, hds, _, _, _, _, _ => by
    obtain rfl := hds
    exact (consumes_pure []).consumesAt
  | d :: ds, _, _, n, ⟨b₁, b₂, h₁, h₂, hds⟩, hn, hw, hgen, ref, childIndex => by
    obtain rfl := hds
    have hd : d.height + 1 < n := by
      rw [Doc.heightItems] at hn
      omega
    have hds : Doc.heightItems ds + 1 < n := by
      rw [Doc.heightItems] at hn
      omega
    rw [List.length_cons, generateItems, returns_bind_eq, emittedItems]
    refine (consumes_wsonGenerate hdata h₁ hd hw.1 hgen.1 ref childIndex).bind ?_
    exact consumesAt_wrap (consumes_generateItems hdata h₂ hds hw.2 hgen.2 ref (childIndex + 1))

end

/-! ## Whole documents -/

mutual

theorem Generable.of_reached : ∀ {d u : Doc}, Generable libc d → u ∈ reached libc d → Generable libc u
  | .map es, u, h, hu => by
    rw [reached, List.mem_cons] at hu
    obtain rfl | hu := hu
    · exact h
    · split at hu
      · next hcomplete => exact GenerableEntries.of_reached (h.2 hcomplete) hu
      · exact nomatch hu
  | .null, _, h, hu | .boolean _, _, h, hu | .int _, _, h, hu | .long _, _, h, hu
  | .float _, _, h, hu | .double _, _, h, hu | .text _ _, _, h, hu | .uint8String _, _, h, hu
  | .array _, _, h, hu => List.mem_singleton.mp hu ▸ h

theorem GenerableEntries.of_reached : ∀ {es : List (Utf16 × Doc)} {u : Doc}, GenerableEntries libc es →
    u ∈ reachedEntries libc es → Generable libc u
  | (k, d) :: es, u, h, hu => by
    rw [reachedEntries, List.mem_append] at hu
    obtain hu | hu := hu
    · split at hu
      · next hk =>
        obtain ⟨-, hvalue⟩ := h.1 (hk ▸ fieldOf_key .children)
        rcases hvalue with hvalue | ⟨htag, -⟩
        · exact GenerableValue.of_reached hvalue hu
        · obtain rfl | ⟨b, rfl⟩ := htag.cases <;> exact nomatch hu
      · exact nomatch hu
    · exact GenerableEntries.of_reached h.2 hu

theorem GenerableValue.of_reached : ∀ {d u : Doc}, GenerableValue libc d → u ∈ reachedValue libc d →
    Generable libc u
  | .array _, _, h, hu => GenerableItems.of_reached h hu

theorem GenerableItems.of_reached : ∀ {ds : List Doc} {u : Doc}, GenerableItems libc ds →
    u ∈ reachedItems libc ds → Generable libc u
  | _ :: _, _, h, hu => by
    rw [reachedItems, List.mem_append] at hu
    obtain hu | hu := hu
    · exact Generable.of_reached h.1 hu
    · exact GenerableItems.of_reached h.2 hu

end

/-- Where the encoding `bs` of `d` stands, the calls are those of its nodes, and the parser ends
behind it. -/
def GeneratesTree (e : Endian) (libc : Libc) (n : Nat) (before bs after : Bytes) (d : Doc) : Prop :=
  ∀ (parentRef : Bytes) (index : Int),
    returns (wsonGenerate e libc n parentRef index)
        ⟨before ++ bs ++ after, before.length, declaredLength⟩ =
      some (emitted libc d parentRef index,
        ⟨before ++ bs ++ after, (before ++ bs).length, declaredLength⟩)

/-- **The tree is generated**, at the root and at every value that is reached from it. -/
theorem generatesTree {d u : Doc} (hgen : Generable libc d) (hu : u ∈ reached libc d)
    {before bs after : Bytes} (hbs : u.EncodesBelow e declaredLength before.length bs) (hn : u.height + 1 < n)
    (hlength : bs.length < 2 ^ 30) (hdata : (before ++ bs ++ after).length < 2 ^ 32) :
    GeneratesTree e libc n before bs after u := by
  intro parentRef index
  -- no text or key is longer than the encoding
  have hw : u.Within (2 ^ 30) := hbs.encodes.within hlength
  exact returns_of_consumesAt (consumes_wsonGenerate hdata hbs hn hw (hgen.of_reached hu) parentRef index)

/-- A node whose keys come in another order, with one child. -/
def sampleNode : Doc :=
  .map [(Field.children.key, .array [.map [(Field.type.key, .uint8String [0x62])], .null]),
    (Field.type.key, .uint8String [0x61]), (Field.attr.key, .null), (Field.ref.key, .uint8String [0x31])]

theorem generable_sampleNode : Generable .ofIntegers sampleNode := by
  refine ⟨?_, fun _ => ⟨fun _ => ⟨rfl, .inl ⟨⟨?_, fun hcomplete => ?_⟩, trivial, trivial⟩⟩,
    fun h => absurd h (by decide), fun h => absurd h (by decide), fun h => absurd h (by decide), trivial⟩⟩
  · simp only [List.forall_mem_cons]
    exact ⟨⟨.inl (by decide), trivial⟩, ⟨.inl (by decide), trivial⟩, ⟨.inl (by decide), trivial⟩,
      ⟨.inl (by decide), trivial⟩, nofun⟩
  · simp only [List.forall_mem_cons]
    exact ⟨⟨.inl (by decide), trivial⟩, nofun⟩
  · exact absurd hcomplete (by decide)

theorem generatesTree_sample :
    GeneratesTree .little .ofIntegers 5 [] (sampleNode.encode .little) [] sampleNode :=
  generatesTree generable_sampleNode List.mem_cons_self
    ((Doc.encodes_encode .little (Doc.sized_of_encode_lt .little (by decide +kernel))).below (by decide +kernel))
    (by decide) (by decide +kernel) (by decide +kernel)

/-- `{ref: "1", type: "a", children: null, x: null}`. -/
def stoppedNode : Doc :=
  .map [(Field.ref.key, .uint8String [0x31]), (Field.type.key, .uint8String [0x61]),
    (Field.children.key, .null), ([0x78], .null)]

/-- The second loop ends at `children`, in front of the last entry. -/
theorem not_generatesTree_stopped :
    ¬ GeneratesTree .little .ofIntegers 3 [] (stoppedNode.encode .little) [] stoppedNode := by
  intro h
  have hposition := congrArg (Option.map (·.2.position)) (h [] 0)
  exact absurd hposition (by decide +kernel)

end Wson.Dom
