import Wson.Dom.Order

/-!
# The order of the keys

`sameTree_of_reordered`: a document and the same one with its nodes in another order, at
all levels, are built to one tree, as far as its keys are compared as they are.
-/

namespace Wson.Dom

open Effect Text Wire Native Native.Buffer Native.Parser

/-! ## Other orders -/

mutual

/-- The document `d` with the entries of its nodes in another order, at all levels. -/
def Reordered : Doc → Doc → Prop
  | .map es, d' => ∃ es₁ es₂, ReorderedEntries es es₁ ∧ es₁.Perm es₂ ∧ d' = .map es₂
  | d, d' => d' = d
termination_by structural d => d

/-- The entries in their order, with other nodes below `children`. -/
def ReorderedEntries : List (Utf16 × Doc) → List (Utf16 × Doc) → Prop
  | [], es' => es' = []
  | (k, d) :: es, es' => ∃ d₁ es₁, (k = Field.children.key → ReorderedValue d d₁) ∧
      (k ≠ Field.children.key → d₁ = d) ∧ ReorderedEntries es es₁ ∧ es' = (k, d₁) :: es₁
termination_by structural es => es

def ReorderedValue : Doc → Doc → Prop
  | .array ds, d' => ∃ ds₁, ReorderedItems ds ds₁ ∧ d' = .array ds₁
  | d, d' => d' = d
termination_by structural d => d

def ReorderedItems : List Doc → List Doc → Prop
  | [], ds' => ds' = []
  | d :: ds, ds' => ∃ d₁ ds₁, Reordered d d₁ ∧ ReorderedItems ds ds₁ ∧ ds' = d₁ :: ds₁
termination_by structural ds => ds

end

section Reordered

variable {ν : Type} {classes : RenderClasses ν} {libc : Libc} {pageId : Bytes} {reserveStyles : Bool}

/-- An entry and the same one with something else under `children`. -/
def SameEntry (x y : Utf16 × Doc) : Prop :=
  y.1 = x.1 ∧ (x.1 ≠ Field.children.key → y.2 = x.2)

theorem ReorderedEntries.same : ∀ {es es' : List (Utf16 × Doc)}, ReorderedEntries es es' →
    List.Forall₂ SameEntry es es'
  | [], _, h => by
    obtain rfl := h
    exact .nil
  | (_, _) :: _, _, ⟨_, _, _, hd, hes, h⟩ => by
    obtain rfl := h
    exact .cons ⟨rfl, hd⟩ hes.same

section SameEntry

variable {es es' : List (Utf16 × Doc)}

theorem keys_same (h : List.Forall₂ SameEntry es es') : es'.map Prod.fst = es.map Prod.fst := by
  induction h with
  | nil => rfl
  | cons hentry _ ih => rw [List.map_cons, List.map_cons, hentry.1, ih]

theorem valueOf_same (h : List.Forall₂ SameEntry es es') {f : Field} (hf : f ≠ .children) :
    valueOf f es' = valueOf f es := by
  induction h with
  | nil => rfl
  | cons hentry _ ih =>
    obtain ⟨hkey, hvalue⟩ := hentry
    rw [valueOf_cons, valueOf_cons, ih, hkey]
    split
    · next hfield => rw [hvalue (by rw [hfield, ne_eq, Field.key_inj]; exact hf)]
    · rfl

theorem foldl_addEntry_same (h : List.Forall₂ SameEntry es es') (own : ν) :
    es'.foldl (addEntry classes reserveStyles libc) own = es.foldl (addEntry classes reserveStyles libc) own := by
  induction h generalizing own with
  | nil => rfl
  | @cons x y _ _ hentry _ ih =>
    obtain ⟨hkey, hvalue⟩ := hentry
    have hadd : addEntry classes reserveStyles libc own y = addEntry classes reserveStyles libc own x := by
      rw [addEntry, addEntry, hkey]
      by_cases hchildren : x.1 = Field.children.key
      · rw [hchildren]
        rfl
      · rw [hvalue hchildren]
    rw [List.foldl_cons, List.foldl_cons, hadd, ih]

/-- A node with other children. -/
theorem treeOf_same (h : List.Forall₂ SameEntry es es') (htrees : (valueOf .type es).isSome →
      treesEntries classes libc pageId reserveStyles es' = treesEntries classes libc pageId reserveStyles es) :
    treeOf classes libc pageId reserveStyles (.map es') = treeOf classes libc pageId reserveStyles (.map es) := by
  have htype : valueOf .type es' = valueOf .type es := valueOf_same h (by decide)
  have href : valueOf .ref es' = valueOf .ref es := valueOf_same h (by decide)
  rw [treeOf, treeOf, htype]
  by_cases htyped : (valueOf .type es).isSome
  · rw [if_pos htyped, if_pos htyped, ownOf, ownOf, textField, textField, textField, textField, htype, href,
      foldl_addEntry_same h, htrees htyped]
  · rw [if_neg htyped, if_neg htyped]

theorem regular_same (h : List.Forall₂ SameEntry es es') (hregular : Regular (.map es))
    (hbelow : (valueOf .type es).isSome → RegularEntries es') : Regular (.map es') := by
  obtain ⟨hnodup, hplain, -⟩ := hregular
  have hkeys := keys_same h
  refine ⟨by rwa [hkeys], fun x hx => ?_, fun htyped => ?_⟩
  · have hmem : x.1 ∈ es.map Prod.fst := by
      rw [← hkeys]
      exact List.mem_map_of_mem hx
    obtain ⟨y, hy, hxy⟩ := List.mem_map.mp hmem
    rw [← hxy]
    exact hplain y hy
  · rw [valueOf_same h (by decide)] at htyped
    exact hbelow htyped

end SameEntry

theorem regular_perm {es es' : List (Utf16 × Doc)} (h : es.Perm es') (hregular : Regular (.map es)) :
    Regular (.map es') := by
  obtain ⟨hnodup, hplain, hbelow⟩ := hregular
  refine ⟨(h.map Prod.fst).nodup_iff.mp hnodup, fun x hx => hplain x (h.mem_iff.mpr hx), fun htyped => ?_⟩
  rw [valueOf_perm h hnodup] at htyped
  rw [regularEntries_iff]
  exact fun x hx => regularEntries_iff.mp (hbelow htyped) x (h.mem_iff.mpr hx)

mutual

/-- **The tree of a document** does not depend on the order, nor does it matter for whether it is
regular. -/
theorem Reordered.same (hlaw : classes.Lawful) : ∀ {d d' : Doc}, Reordered d d' → Regular d →
    treeOf classes libc pageId reserveStyles d' = treeOf classes libc pageId reserveStyles d ∧
      Regular d'
  | .map es, _, ⟨es₁, es₂, hes, hperm, h⟩, hregular => by
    obtain rfl := h
    have hsame := hes.same
    have hregular₁ := regular_same hsame hregular fun htyped =>
      (ReorderedEntries.trees hlaw hes (hregular.2.2 htyped)).2
    refine ⟨?_, regular_perm hperm hregular₁⟩
    rw [treeOf_perm libc pageId reserveStyles hlaw hperm hregular₁.1]
    exact treeOf_same hsame fun htyped => (ReorderedEntries.trees hlaw hes (hregular.2.2 htyped)).1
  | .null, _, h, hr | .boolean _, _, h, hr | .int _, _, h, hr | .long _, _, h, hr | .float _, _, h, hr
  | .double _, _, h, hr | .text _ _, _, h, hr | .uint8String _, _, h, hr | .array _, _, h, hr =>
    by
    obtain rfl := h
    exact ⟨rfl, hr⟩

theorem ReorderedEntries.trees (hlaw : classes.Lawful) : ∀ {es es' : List (Utf16 × Doc)},
    ReorderedEntries es es' → RegularEntries es →
      treesEntries classes libc pageId reserveStyles es' = treesEntries classes libc pageId reserveStyles es ∧
        RegularEntries es'
  | [], _, h, _ => by
    obtain rfl := h
    exact ⟨rfl, trivial⟩
  | (k, d) :: es, _, ⟨d₁, es₁, hd, _, hes, h⟩, hr => by
    obtain rfl := h
    obtain ⟨htrees, hregular⟩ := ReorderedEntries.trees hlaw hes hr.2
    rw [treesEntries, treesEntries, htrees]
    by_cases hkey : k = Field.children.key
    · obtain ⟨htree, hvalue⟩ := ReorderedValue.trees hlaw (hd hkey) (hr.1 hkey)
      rw [if_pos hkey, if_pos hkey, htree]
      exact ⟨rfl, fun _ => hvalue, hregular⟩
    · rw [if_neg hkey, if_neg hkey]
      exact ⟨rfl, fun h => absurd h hkey, hregular⟩

theorem ReorderedValue.trees (hlaw : classes.Lawful) : ∀ {d d' : Doc}, ReorderedValue d d' →
    RegularValue d →
      treesValue classes libc pageId reserveStyles d' = treesValue classes libc pageId reserveStyles d ∧
        RegularValue d'
  | .array ds, _, ⟨ds₁, hds, h⟩, hr => by
    obtain rfl := h
    exact ReorderedItems.trees hlaw hds hr
  | .null, _, h, hr | .boolean _, _, h, hr | .int _, _, h, hr | .long _, _, h, hr | .float _, _, h, hr
  | .double _, _, h, hr | .text _ _, _, h, hr | .uint8String _, _, h, hr | .map _, _, h, hr =>
    by
    obtain rfl := h
    exact ⟨rfl, hr⟩

theorem ReorderedItems.trees (hlaw : classes.Lawful) : ∀ {ds ds' : List Doc}, ReorderedItems ds ds' →
    RegularItems ds →
      treesItems classes libc pageId reserveStyles ds' = treesItems classes libc pageId reserveStyles ds ∧
        RegularItems ds'
  | [], _, h, _ => by
    obtain rfl := h
    exact ⟨rfl, trivial⟩
  | d :: ds, _, ⟨d₁, ds₁, hd, hds, h⟩, hr => by
    obtain rfl := h
    obtain ⟨htree, hregular⟩ := Reordered.same hlaw hd hr.1
    obtain ⟨htrees, hregulars⟩ := ReorderedItems.trees hlaw hds hr.2
    rw [treesItems, treesItems, htree, htrees]
    exact ⟨rfl, hregular, hregulars⟩

end

theorem same_takenEntries {es : List (Utf16 × Doc)} (hplain : ∀ x ∈ es, Plain x.1) :
    List.Forall₂ SameEntry es (takenEntries es) := by
  induction es with
  | nil => exact .nil
  | cons x es ih =>
    obtain ⟨hx, hplain⟩ := List.forall_mem_cons.mp hplain
    have hkey := takenKey_of_plain hx
    refine .cons ⟨hkey, fun hne => ?_⟩ (ih hplain)
    exact if_neg (by rwa [hkey])

mutual

/-- What is regular is built as it stands. -/
theorem Regular.taken_same : ∀ {d : Doc}, Regular d →
    treeOf classes libc pageId reserveStyles (taken d) = treeOf classes libc pageId reserveStyles d ∧
      Regular (taken d)
  | .map es, hregular => by
    have hsame := same_takenEntries hregular.2.1
    have hbelow (htyped : (valueOf .type es).isSome) :=
      RegularEntries.taken_same hregular.2.1 (hregular.2.2 htyped)
    exact ⟨treeOf_same hsame fun htyped => (hbelow htyped).1,
      regular_same hsame hregular fun htyped => (hbelow htyped).2⟩
  | .null, h | .boolean _, h | .int _, h | .long _, h | .float _, h | .double _, h | .text _ _, h
  | .uint8String _, h | .array _, h => ⟨rfl, h⟩

theorem RegularEntries.taken_same : ∀ {es : List (Utf16 × Doc)}, (∀ x ∈ es, Plain x.1) →
    RegularEntries es →
      treesEntries classes libc pageId reserveStyles (takenEntries es) =
          treesEntries classes libc pageId reserveStyles es ∧ RegularEntries (takenEntries es)
  | [], _, _ => ⟨rfl, trivial⟩
  | (k, d) :: es, hplain, hr => by
    obtain ⟨hk, hplain⟩ := List.forall_mem_cons.mp hplain
    have hk : takenKey k = k := takenKey_of_plain hk
    obtain ⟨htrees, hregular⟩ := RegularEntries.taken_same hplain hr.2
    rw [takenEntries, treesEntries, treesEntries, htrees, hk]
    by_cases hkey : k = Field.children.key
    · obtain ⟨htree, hvalue⟩ := RegularValue.taken_same (hr.1 hkey)
      rw [if_pos hkey, if_pos hkey, if_pos hkey, htree]
      exact ⟨rfl, fun _ => hvalue, hregular⟩
    · rw [if_neg hkey, if_neg hkey, if_neg hkey]
      exact ⟨rfl, fun h => absurd h hkey, hregular⟩

theorem RegularValue.taken_same : ∀ {d : Doc}, RegularValue d →
    treesValue classes libc pageId reserveStyles (takenValue d) =
        treesValue classes libc pageId reserveStyles d ∧ RegularValue (takenValue d)
  | .array _, hr => RegularItems.taken_same hr
  | .null, h | .boolean _, h | .int _, h | .long _, h | .float _, h | .double _, h | .text _ _, h
  | .uint8String _, h | .map _, h => ⟨rfl, h⟩

theorem RegularItems.taken_same : ∀ {ds : List Doc}, RegularItems ds →
    treesItems classes libc pageId reserveStyles (takenItems ds) =
        treesItems classes libc pageId reserveStyles ds ∧ RegularItems (takenItems ds)
  | [], _ => ⟨rfl, trivial⟩
  | d :: ds, hr => by
    obtain ⟨htree, hregular⟩ := Regular.taken_same hr.1
    obtain ⟨htrees, hregulars⟩ := RegularItems.taken_same hr.2
    rw [takenItems, treesItems, treesItems, htree, htrees]
    exact ⟨rfl, hregular, hregulars⟩

end

end Reordered

/-! ## The same tree -/

section SameTree

variable {ν : Type} (classes : RenderClasses ν) (e : Endian) (libc : Libc) (pageId : Bytes)
  (reserveStyles : Bool) (length : Nat)

/-- The objects of the tree are new ones, and the one on top has been added to the parent. -/
def Grown (parent : Option Nat) (index : Nat) (heap : Heap ν) :
    Option (RenderTree ν) → Option Nat → Heap ν → Prop
  | none, render, heap' => render = none ∧ heap' = heap
  | some t, render, heap' => ∃ p, render = some p ∧ After heap parent (.addRenderObject index p) heap' ∧
      Holds heap.length heap' t p

/-- `parserWson2RenderObject` builds `tree` where any encoding of `d` stands with its types below the
declared length, and ends behind it. -/
def Builds (d : Doc) (tree : Option (RenderTree ν)) : Prop :=
  ∀ (n : Nat) (before bs after : Bytes) (parent : Option Nat) (index : Nat) (heap : Heap ν),
    d.height + 1 < n → d.EncodesBelow e length before.length bs → bs.length < 2 ^ 30 →
    (before ++ bs ++ after).length < 2 ^ 32 → (∀ p ∈ parent, p < heap.length) → ∃ render heap',
      returns (parserWson2RenderObject classes e libc pageId reserveStyles n parent index heap)
          ⟨before ++ bs ++ after, before.length, length⟩ =
        some ((render, heap'), ⟨before ++ bs ++ after, (before ++ bs).length, length⟩) ∧
      Grown parent index heap tree render heap'

variable {classes e libc pageId reserveStyles length}

theorem Result.grown {parent : Option Nat} {index : Nat} {heap heap' : Heap ν}
    {tree : Option (RenderTree ν)} {render : Option Nat} (h : Result parent index heap tree render heap') :
    Grown parent index heap tree render heap' := by
  cases tree with
  | none => exact h
  | some t =>
    obtain ⟨hrender, hafter, hholds⟩ := h
    exact ⟨heap.length, hrender, hafter, hholds⟩

/-- What the pointer shows of the tree. -/
theorem Grown.node {parent : Option Nat} {index p : Nat} {heap heap' : Heap ν} {tree : Option (RenderTree ν)}
    (h : Grown parent index heap tree (some p) heap') {x : RenderObject ν} (hp : heap'[p]? = some x) :
    ∃ ts, tree = some (.node x.own ts) := by
  cases tree with
  | none => exact nomatch h.1
  | some t =>
    obtain ⟨q, hq, -, hholds⟩ := h
    obtain rfl := Option.some.inj hq
    cases t with
    | node own ts =>
      obtain ⟨-, kids, hnode, -⟩ := hholds
      obtain rfl := Option.some.inj (hp.symm.trans hnode)
      exact ⟨ts, rfl⟩

/-- Where no field of a node comes twice, the tree is that of the fields that are found. -/
theorem builds_taken (hlaw : classes.Lawful) {d : Doc}
    (hregular : Regular (taken d)) : Builds classes e libc pageId reserveStyles length d
      (treeOf classes libc pageId reserveStyles (taken d)) := by
  intro n before bs after parent index heap hn hbs hlength hdata hparent
  have hw : d.Within (2 ^ 30) := hbs.encodes.within hlength
  obtain ⟨render, heap', hrun, hresult⟩ :=
    parses hdata hlaw hn hw hregular _ bs parent index heap hbs hparent
  exact ⟨render, heap', returns_of_consumesAt hrun, hresult.grown⟩

theorem builds_treeOf (hlaw : classes.Lawful) {d : Doc} (hregular : Regular d) :
    Builds classes e libc pageId reserveStyles length d (treeOf classes libc pageId reserveStyles d) := by
  obtain ⟨hsame, htaken⟩ : treeOf classes libc pageId reserveStyles (taken d) = _ ∧ Regular (taken d) :=
    hregular.taken_same
  rw [← hsame]
  exact builds_taken hlaw htaken

/-- **The order of the keys does not matter**: a document and the same one with its nodes in another
order are built to one tree, to which every entry adds once. -/
theorem sameTree_of_reordered (hlaw : classes.Lawful) {d d' : Doc}
    (hregular : Regular d) (hreordered : Reordered d d') :
    Builds classes e libc pageId reserveStyles length d (treeOf classes libc pageId reserveStyles d) ∧
      Builds classes e libc pageId reserveStyles length d' (treeOf classes libc pageId reserveStyles d) := by
  obtain ⟨hsame, hregular'⟩ : treeOf classes libc pageId reserveStyles d' = _ ∧ Regular d' :=
    hreordered.same hlaw hregular
  refine ⟨builds_treeOf hlaw hregular, ?_⟩
  rw [← hsame]
  exact builds_treeOf hlaw hregular'

end SameTree

/-- A render object that keeps what it is given. -/
structure Element where
  type : Bytes
  ref : Bytes
  attrs : StringMap
  styles : StringMap
  events : List Bytes
  deriving DecidableEq, Repr

/-- Classes with independent collections, and without defaults. -/
def elements : RenderClasses Element where
  createRender renderType ref := ⟨renderType, ref, [], [], []⟩
  setPageId _ own := own
  setRef ref own := { own with ref := ref }
  addAttr key value own := { own with attrs := own.attrs.assign key value }
  addStyle key value _ own := { own with styles := own.styles.assign key value }
  addEvent event own := { own with events := own.events ++ [event] }
  applyDefaultStyle _ own := own
  applyDefaultAttr own := own

theorem lawful_elements : elements.Lawful where
  setRef_create := fun _ _ _ _ => rfl
  setRef_addAttr := fun _ _ _ _ => rfl
  setRef_addStyle := fun _ _ _ _ _ => rfl
  setRef_addEvent := fun _ _ _ => rfl
  addAttr_addStyle := fun _ _ _ _ _ _ => rfl
  addAttr_addEvent := fun _ _ _ _ => rfl
  addStyle_addEvent := fun _ _ _ _ _ => rfl

/-- `{children: [{ref: "2", type: "b"}], type: "a"}`. -/
def lateType : Doc :=
  .map [(Field.children.key, .array [.map [(Field.ref.key, .uint8String [0x32]),
    (Field.type.key, .uint8String [0x62])]]), (Field.type.key, .uint8String [0x61])]

/-- `{type: "a", children: [{type: "b", ref: "2"}]}`. -/
def earlyType : Doc :=
  .map [(Field.type.key, .uint8String [0x61]), (Field.children.key, .array [.map
    [(Field.type.key, .uint8String [0x62]), (Field.ref.key, .uint8String [0x32])]])]

theorem regular_lateType : Regular lateType := by
  refine ⟨by decide, by decide, fun _ => ⟨fun _ => ⟨⟨by decide, by decide, fun _ => ?_⟩, trivial⟩, nofun, trivial⟩⟩
  exact ⟨nofun, nofun, trivial⟩

theorem reordered_lateType : Reordered lateType earlyType := by
  refine ⟨_, _, ⟨_, _, fun _ => ⟨_, ⟨_, _, ⟨_, _, ?_, .swap _ _ _, rfl⟩, rfl, rfl⟩, rfl⟩,
    fun hne => absurd rfl hne, ⟨_, _, nofun, fun _ => rfl, rfl, rfl⟩, rfl⟩, .swap _ _ _, rfl⟩
  exact ⟨_, _, nofun, fun _ => rfl, ⟨_, _, nofun, fun _ => rfl, rfl, rfl⟩, rfl⟩

theorem sameTree_lateType :
    Builds elements .little .ofIntegers [] false declaredLength lateType
        (treeOf elements .ofIntegers [] false lateType) ∧
      Builds elements .little .ofIntegers [] false declaredLength earlyType
        (treeOf elements .ofIntegers [] false lateType) :=
  sameTree_of_reordered lawful_elements regular_lateType reordered_lateType

/-- `{type: "a", "type\0": "b"}`. -/
def twoTypes : Doc :=
  .map [(Field.type.key, .uint8String [0x61]), (Field.type.key ++ [0], .uint8String [0x62])]

/-- The same two entries the other way round. -/
def twoTypesSwapped : Doc :=
  .map [(Field.type.key ++ [0], .uint8String [0x62]), (Field.type.key, .uint8String [0x61])]

/-- What the pointer shows where `d` is parsed on its own. -/
def rootOf (d : Doc) : Option Element :=
  (returns (parserWson2RenderObject elements .little .ofIntegers [] false 5 none 0 [])
    ⟨d.encode .little, 0, declaredLength⟩).bind fun x => x.1.1.bind fun p => (x.1.2[p]?).map RenderObject.own

theorem node_of_rootOf {d : Doc} {tree : Option (RenderTree Element)} {own : Element}
    (hroot : rootOf d = some own)
    (h : Builds elements .little .ofIntegers [] false declaredLength d tree) (hheight : d.height < 4)
    (hsize : (d.encode .little).length ≤ declaredLength) : ∃ ts, tree = some (.node own ts) := by
  have hsized : d.Sized := Doc.sized_of_encode_lt .little (Nat.lt_of_le_of_lt hsize (by decide))
  obtain ⟨render, heap, hrun, hgrown⟩ := h 5 [] (d.encode .little) [] none 0 []
    (Nat.add_lt_add_right hheight 1)
    ((Doc.encodes_encode .little hsized).below (by rwa [List.length_nil, Nat.zero_add]))
    (Nat.lt_of_le_of_lt hsize (by decide))
    (by rw [List.nil_append, List.append_nil]; exact Nat.lt_of_le_of_lt hsize (by decide)) nofun
  rw [List.nil_append, List.append_nil] at hrun
  obtain ⟨x, hrun', hx⟩ := Option.bind_eq_some_iff.mp hroot
  obtain rfl := Option.some.inj (hrun.symm.trans hrun')
  obtain ⟨p, hp, hx⟩ := Option.bind_eq_some_iff.mp hx
  obtain ⟨object, hobject, rfl⟩ := Option.map_eq_some_iff.mp hx
  obtain rfl : render = some p := hp
  exact hgrown.node hobject

/-- The tree of the last type is built. -/
theorem not_sameTree_twoTypes : Reordered twoTypes twoTypesSwapped ∧
    ¬ ∃ tree, Builds elements .little .ofIntegers [] false declaredLength twoTypes tree ∧
      Builds elements .little .ofIntegers [] false declaredLength twoTypesSwapped tree := by
  constructor
  · exact ⟨_, _, ⟨_, _, nofun, fun _ => rfl, ⟨_, _, nofun, fun _ => rfl, rfl, rfl⟩, rfl⟩, .swap _ _ _, rfl⟩
  · rintro ⟨tree, h, h'⟩
    have hroot : rootOf twoTypes = some ⟨[0x62], [], [], [], []⟩ := by decide +kernel
    have hroot' : rootOf twoTypesSwapped = some ⟨[0x61], [], [], [], []⟩ := by decide +kernel
    obtain ⟨ts, rfl⟩ := node_of_rootOf hroot h (by decide) (by decide +kernel)
    obtain ⟨ts', htree⟩ := node_of_rootOf hroot' h' (by decide) (by decide +kernel)
    injection Option.some.inj htree with hown
    exact absurd hown (by decide)

end Wson.Dom
