import Wson.Dom.Taken

/-!
# `parserWson2RenderObject` builds the tree

The first loop adds to the object while the keys come in order, that is behind `type`; a
field that comes earlier clears `keyOrderRight`, nothing has been added by then, and the
second loop adds all of them.

- `Reading`: where the first loop stands; `Reading.parseFields`: all of it.
- `consumes_parseAllAgain`: the second loop.
- `parses`: a node none of whose fields comes twice is parsed to its tree.
-/

namespace Wson.Dom

open Effect Text Wire Native Native.Buffer Native.Parser

/-! ## Heaps -/

section Heaps

variable {ν : Type}

@[simp] theorem Heap.length_update (render : Option Nat) (f : RenderObject ν → RenderObject ν)
    (heap : Heap ν) : (heap.update render f).length = heap.length := by
  cases render with
  | none => rfl
  | some p => exact List.length_modify _ _ _

theorem modify_congr {heap : Heap ν} {p : Nat} {x : RenderObject ν} {f g : RenderObject ν → RenderObject ν}
    (hp : heap[p]? = some x) (h : f x = g x) : heap.modify p f = heap.modify p g := by
  ext1 q
  rw [List.getElem?_modify, List.getElem?_modify]
  by_cases hq : p = q
  · subst hq
    rw [hp]
    simp [h]
  · simp [hq]

/-- Adding to an object one by one is adding all of it. -/
theorem foldl_update {α : Type} (op : α → ν → ν) (xs : List α) (render : Option Nat) (heap : Heap ν) :
    xs.foldl (fun heap x => heap.update render (.onOwn (op x))) heap =
      heap.update render (.onOwn fun own => xs.foldl (fun own x => op x own) own) := by
  cases render with
  | none =>
    induction xs with
    | nil => rfl
    | cons x xs ih => exact ih
  | some p =>
    induction xs generalizing heap with
    | nil => exact (List.modify_id p heap).symm
    | cons x xs ih =>
      rw [List.foldl_cons, ih]
      exact List.modify_modify_eq _ _ p heap

/-- The objects of `heap` with something done to the parent, and more objects behind them. -/
def After (heap : Heap ν) (parent : Option Nat) (f : RenderObject ν → RenderObject ν) (heap' : Heap ν) :
    Prop :=
  heap'.take heap.length = heap.update parent f

theorem After.length_le {heap heap' : Heap ν} {parent : Option Nat} {f : RenderObject ν → RenderObject ν}
    (h : After heap parent f heap') : heap.length ≤ heap'.length := by
  have hlength := congrArg List.length h
  rw [List.length_take, Heap.length_update] at hlength
  omega

/-- What stands behind the parent has not changed. -/
theorem After.getElem? {heap heap' : Heap ν} {p q : Nat} {f : RenderObject ν → RenderObject ν}
    (h : After heap (some p) f heap') (hne : p ≠ q) (hq : q < heap.length) : heap'[q]? = heap[q]? := by
  have hget : (heap'.take heap.length)[q]? = (heap.modify p f)[q]? := congrArg (·[q]?) h
  rwa [List.getElem?_take_of_lt hq, List.getElem?_modify_ne _ _ hne] at hget

theorem After.getElem?_self {heap heap' : Heap ν} {p : Nat} {f : RenderObject ν → RenderObject ν}
    (h : After heap (some p) f heap') {x : RenderObject ν} (hp : heap[p]? = some x) :
    heap'[p]? = some (f x) := by
  obtain ⟨hlt, -⟩ := List.getElem?_eq_some_iff.mp hp
  have hget : (heap'.take heap.length)[p]? = (heap.modify p f)[p]? := congrArg (·[p]?) h
  rwa [List.getElem?_take_of_lt hlt, List.getElem?_modify_eq, hp] at hget

theorem After.congr {heap heap' : Heap ν} {p : Nat} {f g : RenderObject ν → RenderObject ν}
    (h : After heap (some p) f heap') {x : RenderObject ν} (hp : heap[p]? = some x) (hfg : f x = g x) :
    After heap (some p) g heap' :=
  Eq.trans h (modify_congr hp hfg)

theorem After.trans {heap heap₁ heap₂ : Heap ν} {p : Nat} {f g : RenderObject ν → RenderObject ν}
    (h₁ : After heap (some p) f heap₁) (h₂ : After heap₁ (some p) g heap₂) :
    After heap (some p) (g ∘ f) heap₂ := by
  have hle := h₁.length_le
  have hmin : heap₂.take heap.length = (heap₂.take heap₁.length).take heap.length := by
    rw [List.take_take, Nat.min_eq_left hle]
  have h₁ : heap₁.take heap.length = heap.modify p f := h₁
  have h₂ : heap₂.take heap₁.length = heap₁.modify p g := h₂
  rw [After, hmin, h₂, List.take_modify, h₁]
  exact List.modify_modify_eq _ _ p heap

end Heaps

/-! ## What a call does -/

section Result

variable {ν : Type}

/-- The object of a tree is the first one behind the heap, and it is added to the parent. -/
def Result (parent : Option Nat) (index : Nat) (heap : Heap ν) :
    Option (RenderTree ν) → Option Nat → Heap ν → Prop
  | none, render, heap' => render = none ∧ heap' = heap
  | some t, render, heap' => render = some heap.length ∧
      After heap parent (.addRenderObject index heap.length) heap' ∧ Holds heap.length heap' t heap.length

/-- The object at `p` gets these children. -/
def appendChildren (kids : List Nat) (render : RenderObject ν) : RenderObject ν :=
  { render with children := render.children ++ kids }

theorem addRenderObject_of_le {index child : Nat} {own : ν} {kids : List Nat} (h : kids.length ≤ index) :
    RenderObject.addRenderObject index child ⟨own, kids⟩ = appendChildren [child] ⟨own, kids⟩ := by
  rw [RenderObject.addRenderObject, appendChildren, List.take_of_length_le h, List.drop_of_length_le h]

theorem after_refl (heap : Heap ν) (p : Nat) : After heap (some p) (appendChildren []) heap := by
  have hid : (appendChildren [] : RenderObject ν → RenderObject ν) = id := by
    funext render
    rw [appendChildren, List.append_nil]
    rfl
  rw [After, List.take_length, hid]
  exact (List.modify_id p heap).symm

end Result

mutual

/-- In every node that is reached from the document the keys are distinct and each of them is taken
for what it is. -/
def Regular : Doc → Prop
  | .map es => (es.map Prod.fst).Nodup ∧ (∀ x ∈ es, Plain x.1) ∧
      ((valueOf .type es).isSome → RegularEntries es)
  | _ => True

def RegularEntries : List (Utf16 × Doc) → Prop
  | [] => True
  | (k, d) :: es => (k = Field.children.key → RegularValue d) ∧ RegularEntries es

/-- The value of `children`. -/
def RegularValue : Doc → Prop
  | .array ds => RegularItems ds
  | _ => True

def RegularItems : List Doc → Prop
  | [] => True
  | d :: ds => Regular d ∧ RegularItems ds

end

theorem RegularItems.of_mem {d : Doc} : ∀ {ds : List Doc}, RegularItems ds → d ∈ ds → Regular d
  | _ :: _, hregular, h => by
    obtain rfl | h := List.mem_cons.mp h
    · exact hregular.1
    · exact hregular.2.of_mem h

theorem regularEntries_iff : ∀ {es : List (Utf16 × Doc)},
    RegularEntries es ↔ ∀ x ∈ es, x.1 = Field.children.key → RegularValue x.2
  | [] => ⟨fun _ => nofun, fun _ => trivial⟩
  | (_, _) :: _ => by
    rw [List.forall_mem_cons, ← regularEntries_iff]
    exact Iff.rfl

section Parse

variable {ν : Type} {classes : RenderClasses ν} {e : Endian} {libc : Libc} {n : Nat} {pageId : Bytes}
  {reserveStyles : Bool} {data : Bytes} {length p : Nat}
  {parse : Option Nat → Nat → Heap ν → BufferM (Option Nat × Heap ν)}

/-- Where an encoding of `d` stands, `parse` moves behind it and builds the tree of `d` as its keys
are taken. -/
def Parses (classes : RenderClasses ν) (e : Endian) (libc : Libc) (pageId : Bytes) (reserveStyles : Bool)
    (data : Bytes) (length : Nat) (parse : Option Nat → Nat → Heap ν → BufferM (Option Nat × Heap ν))
    (d : Doc) : Prop :=
  ∀ (p : Nat) (bs : Bytes) (parent : Option Nat) (index : Nat) (heap : Heap ν), d.EncodesBelow e length p bs →
    (∀ q ∈ parent, q < heap.length) →
      ∃ render heap', ConsumesAt data (At data length) p (returns (parse parent index heap)) bs (render, heap') ∧
        Result parent index heap (treeOf classes libc pageId reserveStyles (taken d)) render heap'

/-- **The loop over the children** appends their trees to the object at `render`. -/
theorem consumes_parseItems {ds : List Doc}
    (hparse : ∀ d ∈ ds, Parses classes e libc pageId reserveStyles data length parse d) {render : Nat} {own : ν}
    {bs : Bytes} (hds : Doc.EncodesItemsBelow e length ds p bs) {kids : List Nat} {index : Nat} {heap : Heap ν}
    (hp : heap[render]? = some ⟨own, kids⟩) (hindex : kids.length ≤ index) :
    ∃ heap' kids', ConsumesAt data (At data length) p
        (returns (parseItems (parse (some render)) ds.length index heap)) bs heap' ∧
      After heap (some render) (appendChildren kids') heap' ∧
      HoldsAll heap.length heap' (treesItems classes libc pageId reserveStyles (takenItems ds)) kids' := by
  induction ds generalizing p bs kids index heap with
  | nil =>
    obtain rfl := hds
    exact ⟨heap, [], (consumes_pure heap).consumesAt, after_refl heap render, rfl⟩
  | cons d ds ih =>
    obtain ⟨b₁, b₂, h₁, h₂, rfl⟩ := hds
    obtain ⟨hd, hds⟩ := List.forall_mem_cons.mp hparse
    obtain ⟨hlt, -⟩ := List.getElem?_eq_some_iff.mp hp
    obtain ⟨child, heap₁, hrun, hresult⟩ := hd p b₁ (some render) index heap h₁ fun q hq => by
      obtain rfl := Option.mem_some_iff.mp hq
      exact hlt
    have hthen {heap' : Heap ν} (hrest : ConsumesAt data (At data length) (p + b₁.length)
        (returns (parseItems (parse (some render)) ds.length (index + 1) heap₁)) b₂ heap') :
        ConsumesAt data (At data length) p
          (returns (parseItems (parse (some render)) (d :: ds).length index heap)) (b₁ ++ b₂) heap' := by
      rw [List.length_cons, parseItems, returns_bind_eq]
      exact hrun.bind hrest
    rw [takenItems, treesItems]
    cases htree : treeOf classes libc pageId reserveStyles (taken d) with
    | none =>
      rw [htree] at hresult
      obtain ⟨-, rfl⟩ := hresult
      obtain ⟨heap', kids', hrest, hafter, hholds⟩ := ih hds h₂ hp (Nat.le_succ_of_le hindex)
      exact ⟨heap', kids', hthen hrest, hafter, hholds⟩
    | some t =>
      rw [htree] at hresult
      obtain ⟨-, hafter₁, hholds₁⟩ := hresult
      have hadded : RenderObject.addRenderObject index heap.length ⟨own, kids⟩ =
          appendChildren [heap.length] ⟨own, kids⟩ := addRenderObject_of_le hindex
      have hp₁ : heap₁[render]? = some ⟨own, kids ++ [heap.length]⟩ :=
        (hafter₁.getElem?_self hp).trans (congrArg some hadded)
      have hindex₁ : (kids ++ [heap.length]).length ≤ index + 1 := by
        rw [List.length_append]
        exact Nat.add_le_add_right hindex 1
      obtain ⟨heap', kids', hrest, hafter, hholds⟩ := ih hds h₂ hp₁ hindex₁
      refine ⟨heap', heap.length :: kids', hthen hrest, ?_, ?_⟩
      · refine (hafter₁.trans hafter).congr hp ?_
        rw [Function.comp_apply, hadded, appendChildren, appendChildren, appendChildren, List.append_assoc]
        rfl
      · have hle := hafter₁.length_le
        refine ⟨heap.length, kids', rfl, hholds₁.congr fun q hq hq' => ?_, hholds.mono hle⟩
        exact hafter.getElem? (by omega) hq'

/-! ## What one field adds -/

/-- The object behind the heap stands below the parent, with these children. -/
structure Built (heap₀ : Heap ν) (parent : Option Nat) (index : Nat)
    (trees : List (RenderTree ν)) (own : ν) (heap : Heap ν) : Prop where
  after : After heap₀ parent (.addRenderObject index heap₀.length) heap
  node : ∃ kids, heap[heap₀.length]? = some ⟨own, kids⟩ ∧ HoldsAll (heap₀.length + 1) heap trees kids

section Built

variable {heap₀ heap : Heap ν} {parent : Option Nat} {index : Nat} {trees : List (RenderTree ν)} {own : ν}

theorem Built.lt_length (h : Built heap₀ parent index trees own heap) : heap₀.length < heap.length := by
  obtain ⟨_, hp, -⟩ := h.node
  exact (List.getElem?_eq_some_iff.mp hp).1

/-- Nothing in front of the object changes. -/
theorem take_modify_self (f : RenderObject ν → RenderObject ν) :
    (heap.modify heap₀.length f).take heap₀.length = heap.take heap₀.length := by
  rw [List.take_modify]
  exact List.modify_eq_self (by rw [List.length_take]; exact Nat.min_le_left _ _)

theorem Built.onOwn (h : Built heap₀ parent index trees own heap) (f : ν → ν) :
    Built heap₀ parent index trees (f own) (heap.update (some heap₀.length) (.onOwn f)) := by
  constructor
  · exact (take_modify_self _).trans h.after
  · obtain ⟨kids, hp, hkids⟩ := h.node
    refine ⟨kids, ?_, hkids.congr fun q hq hq' => ?_⟩
    · rw [Heap.update, List.getElem?_modify_eq, hp]
      rfl
    · exact List.getElem?_modify_ne _ _ (by omega)

theorem Built.children (h : Built heap₀ parent index [] own heap) {heap' : Heap ν} {kids : List Nat}
    (hafter : After heap (some heap₀.length) (appendChildren kids) heap')
    (hkids : HoldsAll heap.length heap' trees kids) : Built heap₀ parent index trees own heap' := by
  obtain ⟨_, hp, rfl⟩ := h.node
  constructor
  · have hmin : heap'.take heap₀.length = (heap'.take heap.length).take heap₀.length := by
      rw [List.take_take, Nat.min_eq_left (Nat.le_of_lt h.lt_length)]
    have hafter : heap'.take heap.length = heap.modify heap₀.length (appendChildren kids) := hafter
    rw [After, hmin, hafter, take_modify_self]
    exact h.after
  · exact ⟨kids, hafter.getElem?_self hp, hkids.mono h.lt_length⟩

theorem Built.result (h : Built heap₀ parent index trees own heap) :
    Result parent index heap₀ (some (.node own trees)) (some heap₀.length) heap := by
  obtain ⟨kids, hp, hkids⟩ := h.node
  exact ⟨rfl, h.after, Nat.le_refl _, kids, hp, hkids.mono (Nat.le_succ _)⟩

/-- The object that `create` makes. -/
theorem built_create (hparent : ∀ p ∈ parent, p < heap₀.length) (own : ν) :
    Built heap₀ parent index [] own
      (Heap.update parent (.addRenderObject index heap₀.length) (heap₀ ++ [⟨own, []⟩])) := by
  have hlast : (heap₀ ++ [⟨own, []⟩])[heap₀.length]? = some ⟨own, []⟩ := List.getElem?_concat_length
  cases parent with
  | none =>
    constructor
    · exact List.take_left
    · exact ⟨[], hlast, rfl⟩
  | some p =>
    have hlt := hparent p rfl
    constructor
    · rw [After, Heap.update, List.take_modify, List.take_left]
      rfl
    · refine ⟨[], ?_, rfl⟩
      rw [Heap.update, List.getElem?_modify_ne _ _ (Nat.ne_of_lt hlt), hlast]

end Built

section Fields

variable (hdata : data.length < 2 ^ Library.bits .c)
include hdata

/-- The entries of a map are added one by one; another value is skipped and adds nothing. -/
theorem consumes_addPairs {α : Type} {d : Doc} {bs : Bytes} (hd : d.EncodesBelow e length p bs)
    (hn : d.height < n) (hw : d.Within (2 ^ 30)) (op : Bytes → Bytes → ν → ν) (render : Option Nat) (heap : Heap ν)
    (k : Heap ν → α) {m : Byte → BufferM α}
    (hmap : m Tag.map = do
      let size ← nextMapSize .c
      let heap ← readPairs e libc n (fun heap key value => heap.update render (.onOwn (op key value)))
        size.toNat heap
      return k heap)
    (hother : ∀ t, t ≠ Tag.map → m t = do skipValue .c n t; return k heap) :
    ConsumesAt data (At data length) p (returns (do m (← nextType .c))) bs
      (k (heap.update render (.onOwn fun own => (pairsOf libc d).foldl (fun own x => op x.1 x.2 own) own))) := by
  have hfold := foldl_update (fun x : Bytes × Bytes => op x.1 x.2) (pairsOf libc d) render heap
  exact (consumes_foldPairs hdata hd hn hw _ heap k hmap hother).of_eq rfl (congrArg k hfold)

/-- The same for the elements of an array. -/
theorem consumes_addEvents {α : Type} {d : Doc} {bs : Bytes} (hd : d.EncodesBelow e length p bs)
    (hn : d.height < n) (hw : d.Within (2 ^ 30)) (render : Option Nat) (heap : Heap ν) (k : Heap ν → α)
    {m : Byte → BufferM α}
    (harray : m Tag.array = do
      let size ← nextArraySize .c
      let heap ← readEvents e libc n (fun heap value => heap.update render (.onOwn (classes.addEvent value)))
        size.toNat heap
      return k heap)
    (hother : ∀ t, t ≠ Tag.array → m t = do skipValue .c n t; return k heap) :
    ConsumesAt data (At data length) p (returns (do m (← nextType .c))) bs
      (k (heap.update render (.onOwn (addEvents classes (eventsOf libc d))))) := by
  have hfold := foldl_update classes.addEvent (eventsOf libc d) render heap
  exact (consumes_foldEvents hdata hd hn hw _ heap k harray hother).of_eq rfl (congrArg k hfold)

/-- The nodes in the value of `children` are parsed. -/
theorem consumes_addChildren {α : Type} {d : Doc} {bs : Bytes} (hd : d.EncodesBelow e length p bs)
    (hn : d.height < n) (hw : d.Within (2 ^ 30))
    (hparse : ∀ ds, d = .array ds →
      ∀ u ∈ ds, Parses classes e libc pageId reserveStyles data length parse u)
    {heap₀ heap : Heap ν} {parent : Option Nat} {index : Nat} {own : ν}
    (hbuilt : Built heap₀ parent index [] own heap) (k : Heap ν → α) {m : Byte → BufferM α}
    (harray : m Tag.array = do
      let size ← nextArraySize .c
      let heap ← parseItems (parse (some heap₀.length)) size.toNat 0 heap
      return k heap)
    (hother : ∀ t, t ≠ Tag.array → m t = do skipValue .c n t; return k heap) :
    ∃ heap', ConsumesAt data (At data length) p (returns (do m (← nextType .c))) bs (k heap') ∧
      Built heap₀ parent index (treesValue classes libc pageId reserveStyles (takenValue d)) own heap' := by
  cases d with
  | array ds =>
    obtain ⟨kids, hp, hkids⟩ := hbuilt.node
    obtain rfl := hkids
    have hlt := hd.lt
    obtain ⟨-, h, body, hc, hds, rfl⟩ := hd
    obtain ⟨heap', kids', hrun, hafter, hholds⟩ :=
      consumes_parseItems (hparse ds rfl) hds hp (Nat.zero_le 0)
    refine ⟨heap', ?_, hbuilt.children hafter hholds⟩
    rw [returns_bind_eq]
    refine (consumes_type hdata hlt Tag.array).bind ?_
    rw [harray, returns_bind_eq]
    refine (consumes_nextMapSize hdata hc (Nat.lt_trans hw.1 (by decide))).bind ?_
    rw [Int.toNat_natCast]
    exact consumesAt_wrap hrun
  | _ => exact ⟨heap, consumes_skipped (k := .array) hdata hd hn hw nofun hother, hbuilt⟩

/-- A map is read, and what is found in it is not known before. -/
theorem exists_consumes_nextMap {α : Type} {es : List (Utf16 × Doc)} {bs : Bytes}
    (hd : (Doc.map es).EncodesBelow e length p bs) (hw : (Doc.map es).Within (2 ^ 30)) {m : Byte → BufferM α}
    {f : Int → BufferM α} {P : α → Prop} (hm : m Tag.map = do f (← nextMapSize .c))
    (hf : ∀ q body, Doc.EncodesEntriesBelow e length es q body →
      ∃ a, ConsumesAt data (At data length) q (returns (f es.length)) body a ∧ P a) :
    ∃ a, ConsumesAt data (At data length) p (returns (do m (← nextType .c))) bs a ∧ P a := by
  have hlt := hd.lt
  obtain ⟨-, h, body, hc, hes, rfl⟩ := hd
  obtain ⟨a, hrun, hp⟩ := hf _ body hes
  refine ⟨a, ?_, hp⟩
  rw [returns_bind_eq]
  refine (consumes_type hdata hlt Tag.map).bind ?_
  rw [hm, returns_bind_eq]
  exact (consumes_nextMapSize hdata hc (Nat.lt_trans hw.1 (by decide))).bind hrun

omit hdata in
theorem exists_consumes_bind {α β : Type} {m : BufferM α} {f : α → BufferM β} {xs ys : Bytes} {a : α}
    {P : β → Prop} (hm : ConsumesAt data (At data length) p (returns m) xs a)
    (hf : ∃ b, ConsumesAt data (At data length) (p + xs.length) (returns (f a)) ys b ∧ P b) :
    ∃ b, ConsumesAt data (At data length) p (returns (m >>= f)) (xs ++ ys) b ∧ P b := by
  obtain ⟨b, hb, hp⟩ := hf
  refine ⟨b, ?_, hp⟩
  rw [returns_bind_eq]
  exact hm.bind hb

/-! ## The second loop -/

variable {x : Utf16 × Doc} {k : Utf16} {d : Doc} {h bs : Bytes} {heap₀ heap : Heap ν}
  {parent : Option Nat} {index : Nat} {trees : List (RenderTree ν)} {own : ν}

/-- **The second loop** adds what the entry holds. -/
theorem consumes_parseAgain (hk : VarUInt (2 * x.1.length) h) (hshort : 2 * x.1.length < 2 ^ 30)
    (hd : x.2.EncodesBelow e length (p + (h ++ units e x.1).length) bs) (hn : x.2.height < n)
    (hw : x.2.Within (2 ^ 30)) (htaken : takenEntry x = (k, d))
    (hparse : k = Field.children.key → ∀ ds, x.2 = .array ds →
      ∀ u ∈ ds, Parses classes e libc pageId reserveStyles data length parse u)
    (hbuilt : Built heap₀ parent index trees own heap) (hfresh : k = Field.children.key → trees = []) :
    ∃ heap', ConsumesAt data (At data length) p (returns
        (parseAgain classes e libc n reserveStyles parse (some heap₀.length) heap)) (h ++ units e x.1 ++ bs)
        heap' ∧
      Built heap₀ parent index
        (trees ++ if k = Field.children.key then treesValue classes libc pageId reserveStyles d else [])
        (addEntry classes reserveStyles libc own (k, d)) heap' := by
  refine exists_consumes_bind (consumes_nextMapKeyUTF8 hdata hk hshort) ?_
  rw [fieldOf_of_taken htaken, addEntry]
  have hskip : ∀ (t : Byte), (do skipValue .c n t; return heap : BufferM (Heap ν)) = _ := fun _ => rfl
  cases hfield : fieldNamed k with
  | none =>
    have hne : k ≠ Field.children.key := by
      intro hkey
      cases hfield.symm.trans (fieldNamed_eq_some.mpr hkey)
    rw [if_neg hne, List.append_nil]
    exact ⟨heap, consumes_passed hdata hd hn hw hskip, hbuilt⟩
  | some f =>
    obtain rfl := fieldNamed_eq_some.mp hfield
    cases f with
    | ref | type =>
      rw [if_neg (by decide), List.append_nil]
      exact ⟨heap, consumes_passed hdata hd hn hw hskip, hbuilt⟩
    | attr =>
      obtain rfl := value_of_taken htaken (by decide)
      rw [if_neg (by decide), List.append_nil]
      exact ⟨_, consumes_addPairs hdata hd hn hw classes.addAttr _ heap id
        ((if_pos rfl).trans (by simp only [id_eq, bind_pure])) (fun t ht => if_neg ht),
        hbuilt.onOwn (addAttrs classes (pairsOf libc x.2))⟩
    | style =>
      obtain rfl := value_of_taken htaken (by decide)
      rw [if_neg (by decide), List.append_nil]
      exact ⟨_, consumes_addPairs hdata hd hn hw
        (fun key value => classes.addStyle key value reserveStyles) _ heap id
        ((if_pos rfl).trans (by simp only [id_eq, bind_pure])) (fun t ht => if_neg ht),
        hbuilt.onOwn (addStyles classes reserveStyles (pairsOf libc x.2))⟩
    | event =>
      obtain rfl := value_of_taken htaken (by decide)
      rw [if_neg (by decide), List.append_nil]
      exact ⟨_, consumes_addEvents hdata hd hn hw _ heap id
        ((if_pos rfl).trans (by simp only [id_eq, bind_pure])) (fun t ht => if_neg ht),
        hbuilt.onOwn (addEvents classes (eventsOf libc x.2))⟩
    | children =>
      obtain rfl := children_of_taken htaken
      rw [if_pos rfl, hfresh rfl, List.nil_append]
      rw [hfresh rfl] at hbuilt
      exact consumes_addChildren hdata hd hn hw (hparse rfl) hbuilt id
        ((if_pos rfl).trans (by simp only [id_eq, bind_pure])) (fun t ht => if_neg ht)

theorem consumes_parseAllAgain {es : List (Utf16 × Doc)} {bs : Bytes} {trees : List (RenderTree ν)}
    {own : ν} {heap : Heap ν} (hes : Doc.EncodesEntriesBelow e length es p bs) (hn : Doc.heightEntries es < n)
    (hw : Doc.WithinEntries (2 ^ 30) es) (hnodup : ((takenEntries es).map Prod.fst).Nodup)
    (hparse : ∀ x ∈ es, takenKey x.1 = Field.children.key → ∀ ds, x.2 = .array ds →
      ∀ u ∈ ds, Parses classes e libc pageId reserveStyles data length parse u)
    (hbuilt : Built heap₀ parent index trees own heap)
    (hfresh : Field.children.key ∈ (takenEntries es).map Prod.fst → trees = []) :
    ∃ heap', ConsumesAt data (At data length) p (returns
        (parseAllAgain classes e libc n reserveStyles parse (some heap₀.length) es.length heap)) bs heap' ∧
      Built heap₀ parent index (trees ++ treesEntries classes libc pageId reserveStyles (takenEntries es))
        ((takenEntries es).foldl (addEntry classes reserveStyles libc) own) heap' := by
  induction es generalizing p bs trees own heap with
  | nil =>
    obtain rfl := hes
    refine ⟨heap, (consumes_pure heap).consumesAt, ?_⟩
    rw [takenEntries, treesEntries, List.append_nil]
    exact hbuilt
  | cons x es ih =>
    obtain ⟨h, b₁, b₂, hk, h₁, h₂, rfl⟩ := hes
    rw [Doc.heightEntries, Nat.max_lt] at hn
    obtain ⟨hdistinct, hnodup⟩ := List.nodup_cons.mp hnodup
    obtain ⟨hparseₓ, hparse⟩ := List.forall_mem_cons.mp hparse
    obtain ⟨heap₁, hrun, hbuilt₁⟩ := consumes_parseAgain hdata hk hw.1 h₁ hn.1 hw.2.1 rfl hparseₓ
      hbuilt fun hkey => hfresh (List.mem_cons.mpr (.inl hkey.symm))
    have hfresh₁ : Field.children.key ∈ (takenEntries es).map Prod.fst → trees ++
        (if (takenEntry x).1 = Field.children.key then
          treesValue classes libc pageId reserveStyles (takenEntry x).2 else []) = [] := by
      intro hmem
      have hne : takenKey x.1 ≠ Field.children.key := by
        intro hkey
        exact hdistinct (hkey ▸ hmem)
      rw [hfresh (List.mem_cons_of_mem _ hmem)]
      exact if_neg hne
    obtain ⟨heap', hrest, hbuilt'⟩ := ih h₂ hn.2 hw.2.2 hnodup hparse hbuilt₁ hfresh₁
    refine ⟨heap', ?_, ?_⟩
    · rw [List.length_cons, parseAllAgain, returns_bind_eq]
      exact hrun.bind hrest
    · rw [List.append_assoc] at hbuilt'
      exact hbuilt'

end Fields

/-! ## The first loop -/

/-- The fields that add something to the object. -/
def IsContent (k : Utf16) : Prop :=
  ∃ f, fieldNamed k = some f ∧ f ≠ .ref ∧ f ≠ .type

theorem addEntry_of_not_content {k : Utf16} (h : ¬ IsContent k) (own : ν) (d : Doc) :
    addEntry classes reserveStyles libc own (k, d) = own := by
  unfold addEntry
  split
  · next hfield => exact absurd ⟨_, hfield, by decide, by decide⟩ h
  · next hfield => exact absurd ⟨_, hfield, by decide, by decide⟩ h
  · next hfield => exact absurd ⟨_, hfield, by decide, by decide⟩ h
  · rfl

theorem foldl_of_not_content {es : List (Utf16 × Doc)} (h : ∀ x ∈ es, ¬ IsContent x.1) (own : ν) :
    es.foldl (addEntry classes reserveStyles libc) own = own ∧
      treesEntries classes libc pageId reserveStyles es = [] := by
  induction es with
  | nil => exact ⟨rfl, rfl⟩
  | cons x es ih =>
    obtain ⟨hx, h⟩ := List.forall_mem_cons.mp h
    have hne : x.1 ≠ Field.children.key := fun hkey =>
      hx ⟨_, fieldNamed_eq_some.mpr hkey, by decide, by decide⟩
    rw [List.foldl_cons, addEntry_of_not_content hx, treesEntries, if_neg hne]
    exact ih h

/-- Where the first loop stands behind the entries `done`: while the keys come in order, all of them
have been added, otherwise none. -/
structure Reading (classes : RenderClasses ν) (libc : Libc) (pageId : Bytes) (reserveStyles : Bool)
    (heap₀ : Heap ν) (parent : Option Nat) (index : Nat) (done : List (Utf16 × Doc)) (s : Parsing ν) :
    Prop where
  ref : s.ref = textField libc .ref done
  waiting : valueOf .type done = none → s.render = none ∧ s.heap = heap₀ ∧
    (s.keyOrderRight = true → ∀ x ∈ done, ¬ IsContent x.1)
  started : ∀ t, valueOf .type done = some t → s.render = some heap₀.length ∧
    Built heap₀ parent index
      (treesEntries classes libc pageId reserveStyles (if s.keyOrderRight then done else []))
      ((if s.keyOrderRight then done else []).foldl (addEntry classes reserveStyles libc)
        (create classes pageId (textOf libc t) s.ref)) s.heap

section Reading

variable {heap₀ : Heap ν} {parent : Option Nat} {index : Nat} {done : List (Utf16 × Doc)} {s : Parsing ν}
  {k : Utf16} {d : Doc}

theorem reading_nil : Reading classes libc pageId reserveStyles heap₀ parent index [] ⟨[], none, true, heap₀⟩ where
  ref := rfl
  waiting := fun _ => ⟨rfl, rfl, fun _ => nofun⟩
  started := nofun

theorem valueOf_concat (f : Field) :
    valueOf f (done ++ [(k, d)]) = (valueOf f done).or (if k = f.key then some d else none) := by
  rw [valueOf_append, valueOf_cons]
  rfl

theorem valueOf_concat_of_ne {f : Field} (h : k ≠ f.key) :
    valueOf f (done ++ [(k, d)]) = valueOf f done := by
  rw [valueOf_concat, if_neg h, Option.or_none]

theorem treesEntries_concat :
    treesEntries classes libc pageId reserveStyles (done ++ [(k, d)]) =
      treesEntries classes libc pageId reserveStyles done ++
        if k = Field.children.key then treesValue classes libc pageId reserveStyles d else [] := by
  rw [treesEntries_eq, treesEntries_eq, collect_append, collect_cons, collect_nil, List.append_nil]

/-- An entry that adds nothing changes nothing, apart from the reference. -/
theorem Reading.concat (h : Reading classes libc pageId reserveStyles heap₀ parent index done s)
    (htype : k ≠ Field.type.key) (hcontent : ¬ IsContent k) {s' : Parsing ν} (hrender : s'.render = s.render)
    (horder : s'.keyOrderRight = s.keyOrderRight)
    (href : s'.ref = textField libc .ref (done ++ [(k, d)]))
    (hheap : s.render = none → s'.heap = s.heap)
    (hbuilt : ∀ {trees : List (RenderTree ν)} {es : List (Utf16 × Doc)} {renderType : Bytes},
      s.render = some heap₀.length →
      Built heap₀ parent index trees (es.foldl (addEntry classes reserveStyles libc)
        (create classes pageId renderType s.ref)) s.heap →
      Built heap₀ parent index trees (es.foldl (addEntry classes reserveStyles libc)
        (create classes pageId renderType s'.ref)) s'.heap) :
    Reading classes libc pageId reserveStyles heap₀ parent index (done ++ [(k, d)]) s' := by
  have hne : k ≠ Field.children.key := fun hkey =>
    hcontent ⟨_, fieldNamed_eq_some.mpr hkey, by decide, by decide⟩
  constructor
  · exact href
  · intro hnone
    rw [valueOf_concat_of_ne htype] at hnone
    obtain ⟨hr, hh, hright⟩ := h.waiting hnone
    refine ⟨hrender.trans hr, (hheap hr).trans hh, fun hs x hx => ?_⟩
    rcases List.mem_append.mp hx with hx | hx
    · exact hright (horder.symm.trans hs) x hx
    · obtain rfl := List.mem_singleton.mp hx
      exact hcontent
  · intro t ht
    rw [valueOf_concat_of_ne htype] at ht
    obtain ⟨hr, hb⟩ := h.started t ht
    refine ⟨hrender.trans hr, ?_⟩
    rw [horder]
    cases hs : s.keyOrderRight with
    | true =>
      rw [hs, if_pos rfl] at hb
      rw [if_pos rfl, treesEntries_concat, if_neg hne, List.append_nil, List.foldl_append]
      show Built _ _ _ _ (addEntry classes reserveStyles libc _ (k, d)) _
      rw [addEntry_of_not_content hcontent]
      exact hbuilt hr hb
    | false =>
      rw [hs] at hb
      exact hbuilt hr hb

/-- A field that adds something: it is added while the keys come in order, otherwise skipped. -/
theorem Reading.content (h : Reading classes libc pageId reserveStyles heap₀ parent index done s)
    (hcontent : IsContent k) (hk : k ∉ done.map Prod.fst) {m : BufferM (Parsing ν)} {bs : Bytes}
    (hadd : ∀ {trees : List (RenderTree ν)} {own : ν}, s.render = some heap₀.length →
      Built heap₀ parent index trees own s.heap → (k = Field.children.key → trees = []) →
      s.keysOrderAsExpect = true →
      ∃ heap', ConsumesAt data (At data length) p (returns m) bs { s with heap := heap' } ∧
        Built heap₀ parent index
          (trees ++ if k = Field.children.key then treesValue classes libc pageId reserveStyles d else [])
          (addEntry classes reserveStyles libc own (k, d)) heap')
    (hpass : s.keysOrderAsExpect = false →
      ConsumesAt data (At data length) p (returns m) bs { s with keyOrderRight := false }) :
    ∃ s', ConsumesAt data (At data length) p (returns m) bs s' ∧
      Reading classes libc pageId reserveStyles heap₀ parent index (done ++ [(k, d)]) s' := by
  obtain ⟨f, hfield, hneref, hnetype⟩ := hcontent
  have hkey : k = f.key := fieldNamed_eq_some.mp hfield
  have hne (g : Field) (hg : f ≠ g) : k ≠ g.key := by
    intro hkey'
    exact hg (Option.some.inj (hfield.symm.trans (fieldNamed_eq_some.mpr hkey')))
  have href : s.ref = textField libc .ref (done ++ [(k, d)]) := by
    rw [textField, valueOf_concat_of_ne (hne .ref hneref)]
    exact h.ref
  have htype : valueOf .type (done ++ [(k, d)]) = valueOf .type done :=
    valueOf_concat_of_ne (hne .type hnetype)
  cases hexpect : s.keysOrderAsExpect with
  | false =>
    refine ⟨_, hpass hexpect, href, fun hnone => ?_, fun t ht => ?_⟩
    · obtain ⟨hr, hh, -⟩ := h.waiting (htype.symm.trans hnone)
      refine ⟨hr, hh, ?_⟩
      rintro ⟨⟩
    · obtain ⟨hr, hb⟩ := h.started t (htype.symm.trans ht)
      have hwrong : s.keyOrderRight = false := by
        rw [Parsing.keysOrderAsExpect, hr] at hexpect
        exact hexpect
      rw [hwrong] at hb
      exact ⟨hr, hb⟩
  | true =>
    have hright : s.keyOrderRight = true := (Bool.and_eq_true_iff.mp hexpect).2
    cases hvalue : valueOf .type done with
    | none =>
      have hsome := (Bool.and_eq_true_iff.mp hexpect).1
      rw [(h.waiting hvalue).1] at hsome
      cases hsome
    | some t =>
      obtain ⟨hr, hb⟩ := h.started t hvalue
      rw [hright, if_pos rfl] at hb
      have hfresh : k = Field.children.key →
          treesEntries classes libc pageId reserveStyles done = [] := by
        intro hchildren
        rw [treesEntries_eq, collect_eq_nil]
        rwa [hchildren] at hk
      obtain ⟨heap', hrun, hbuilt⟩ := hadd hr hb hfresh hexpect
      refine ⟨_, hrun, href, fun hnone => ?_, fun t' ht' => ?_⟩
      · cases hvalue.symm.trans (htype.symm.trans hnone)
      · obtain rfl : t = t' := Option.some.inj (hvalue.symm.trans (htype.symm.trans ht'))
        refine ⟨hr, ?_⟩
        show Built _ _ _ (treesEntries classes libc pageId reserveStyles
          (if s.keyOrderRight then done ++ [(k, d)] else [])) _ _
        rw [hright, if_pos rfl, treesEntries_concat, List.foldl_append]
        exact hbuilt

/-- A field that adds to the object alone. -/
theorem Reading.own (h : Reading classes libc pageId reserveStyles heap₀ parent index done s) {f : Field}
    (hf : f ≠ .ref ∧ f ≠ .type ∧ f ≠ .children) (hk : f.key ∉ done.map Prod.fst) (add : ν → ν)
    (hentry : ∀ own, addEntry classes reserveStyles libc own (f.key, d) = add own)
    {m : BufferM (Parsing ν)} {bs : Bytes}
    (hadd : s.keysOrderAsExpect = true → ConsumesAt data (At data length) p (returns m) bs
      { s with heap := s.heap.update s.render (.onOwn add) })
    (hpass : s.keysOrderAsExpect = false →
      ConsumesAt data (At data length) p (returns m) bs { s with keyOrderRight := false }) :
    ∃ s', ConsumesAt data (At data length) p (returns m) bs s' ∧
      Reading classes libc pageId reserveStyles heap₀ parent index (done ++ [(f.key, d)]) s' := by
  have hne : f.key ≠ Field.children.key := by
    intro hkey
    exact hf.2.2 (Field.key_inj.mp hkey)
  refine h.content ⟨f, fieldNamed_eq_some.mpr rfl, hf.1, hf.2.1⟩ hk ?_ hpass
  intro trees own hr hb _ hexpect
  have hadded := hb.onOwn add
  rw [← hr] at hadded
  rw [if_neg hne, List.append_nil, hentry]
  exact ⟨_, hadd hexpect, hadded⟩

/-- The object is created at its type. -/
theorem Reading.create (h : Reading classes libc pageId reserveStyles heap₀ parent index done s)
    (hk : Field.type.key ∉ done.map Prod.fst) (hparent : ∀ p ∈ parent, p < heap₀.length) :
    Reading classes libc pageId reserveStyles heap₀ parent index (done ++ [(Field.type.key, d)])
      { s with
        render := some s.heap.length
        heap := (s.heap ++ [⟨create classes pageId (textOf libc d) s.ref, []⟩] : Heap ν).update parent
          (.addRenderObject index s.heap.length) } := by
  have hvalue : valueOf .type done = none := valueOf_eq_none hk
  obtain ⟨-, hheap, hright⟩ := h.waiting hvalue
  have htype : valueOf .type (done ++ [(Field.type.key, d)]) = some d := by
    rw [valueOf_concat, hvalue, if_pos rfl]
    rfl
  have hnot : ∀ x ∈ [(Field.type.key, d)], ¬ IsContent x.1 := by
    intro x hx
    obtain rfl := List.mem_singleton.mp hx
    rintro ⟨f, hf, -, hne⟩
    exact hne (Option.some.inj (hf.symm.trans (fieldNamed_eq_some.mpr rfl)))
  constructor
  · rw [textField, valueOf_concat_of_ne (by decide)]
    exact h.ref
  · intro hnone
    cases htype.symm.trans hnone
  · intro t ht
    obtain rfl : d = t := Option.some.inj (htype.symm.trans ht)
    rw [hheap]
    refine ⟨rfl, ?_⟩
    have hadded : ∀ x ∈ (if s.keyOrderRight then done ++ [(Field.type.key, d)] else []), ¬ IsContent x.1 := by
      cases hs : s.keyOrderRight with
      | true =>
        rw [if_pos rfl]
        intro x hx
        exact (List.mem_append.mp hx).elim (hright hs x) (hnot x)
      | false => exact List.forall_mem_nil _
    obtain ⟨hown, htrees⟩ :
        List.foldl (addEntry classes reserveStyles libc) (Dom.create classes pageId (textOf libc d) s.ref) _ = _ ∧
          treesEntries classes libc pageId reserveStyles _ = [] :=
      foldl_of_not_content hadded _
    show Built _ _ _ (treesEntries _ _ _ _ (if s.keyOrderRight then _ else [])) (List.foldl _ _
      (if s.keyOrderRight then _ else [])) _
    rw [hown, htrees]
    exact built_create hparent _

/-- **The first loop**, one turn of it. -/
theorem Reading.parseField (hdata : data.length < 2 ^ Library.bits .c)
    (hlaw : classes.Lawful) (hreading : Reading classes libc pageId reserveStyles heap₀ parent index done s)
    (hfresh : k ∉ done.map Prod.fst) (hparent : ∀ p ∈ parent, p < heap₀.length) {x : Utf16 × Doc}
    {h bs : Bytes} (hk : VarUInt (2 * x.1.length) h) (hshort : 2 * x.1.length < 2 ^ 30)
    (hd : x.2.EncodesBelow e length (p + (h ++ units e x.1).length) bs) (hn : x.2.height < n)
    (hw : x.2.Within (2 ^ 30)) (htaken : takenEntry x = (k, d))
    (hparse : (valueOf .type done).isSome → k = Field.children.key → ∀ ds, x.2 = .array ds →
      ∀ u ∈ ds, Parses classes e libc pageId reserveStyles data length parse u) :
    ∃ s', ConsumesAt data (At data length) p (returns
        (Dom.parseField classes e libc n pageId reserveStyles parse parent index s)) (h ++ units e x.1 ++ bs) s' ∧
      Reading classes libc pageId reserveStyles heap₀ parent index (done ++ [(k, d)]) s' := by
  refine exists_consumes_bind (consumes_nextMapKeyUTF8 hdata hk hshort) ?_
  rw [fieldOf_of_taken htaken]
  have hsame (hexpect : s.keysOrderAsExpect = true) :
      { s with keyOrderRight := s.keysOrderAsExpect } = s := by
    rw [hexpect, ← (Bool.and_eq_true_iff.mp hexpect).2]
  cases hfield : fieldNamed k with
  | none =>
    -- a field that is none of the parser's is skipped
    have hne (f : Field) : k ≠ f.key := by
      intro hkey
      cases hfield.symm.trans (fieldNamed_eq_some.mpr hkey)
    have hcontent : ¬ IsContent k := by
      rintro ⟨f, hf, -⟩
      cases hfield.symm.trans hf
    refine ⟨s, consumes_passed hdata hd hn hw fun _ => rfl, ?_⟩
    refine hreading.concat (hne _) hcontent rfl rfl ?_ (fun _ => rfl) fun _ hb => hb
    rw [textField, valueOf_concat_of_ne (hne _)]
    exact hreading.ref
  | some f =>
    obtain rfl := fieldNamed_eq_some.mp hfield
    cases f with
    | ref =>
      obtain rfl := value_of_taken htaken (by decide)
      refine ⟨_, consumesAt_wrap (consumes_nextString hdata hd hn hw), ?_⟩
      refine hreading.concat (by decide) ?_ rfl rfl ?_ ?_ fun {trees es renderType} hr hb => ?_
      · rintro ⟨f, hf, hne, -⟩
        exact hne (Option.some.inj (hf.symm.trans hfield))
      · rw [textField, valueOf_concat, valueOf_eq_none hfresh, if_pos rfl]
        rfl
      · intro hr
        rw [hr]
        rfl
      · rw [hr]
        have hset := hb.onOwn (classes.setRef (textOf libc x.2))
        rw [setRef_foldl hlaw, Dom.create, hlaw.setRef_create] at hset
        exact hset
    | type =>
      -- from here on the element exists, and later fields go to it
      obtain rfl := value_of_taken htaken (by decide)
      exact ⟨_, consumesAt_wrap (consumes_nextString hdata hd hn hw), hreading.create hfresh hparent⟩
    | attr =>
      obtain rfl := value_of_taken htaken (by decide)
      refine hreading.own (by decide) hfresh (addAttrs classes (pairsOf libc x.2)) (fun own => rfl)
        (fun hexpect => ?_) fun hexpect => consumes_passed hdata hd hn hw fun t => ?_
      · refine consumes_addPairs hdata hd hn hw classes.addAttr s.render s.heap
          (fun heap => { s with heap := heap }) ?_ fun t ht => ?_
        · exact if_pos ⟨rfl, hexpect⟩
        · rw [if_neg fun hif => ht hif.1, hsame hexpect]
      · rw [hexpect]
        exact if_neg (by rintro ⟨-, ⟨⟩⟩)
    | style =>
      obtain rfl := value_of_taken htaken (by decide)
      refine hreading.own (by decide) hfresh (addStyles classes reserveStyles (pairsOf libc x.2)) (fun own => rfl)
        (fun hexpect => ?_) fun hexpect => consumes_passed hdata hd hn hw fun t => ?_
      · refine consumes_addPairs hdata hd hn hw (fun key value => classes.addStyle key value reserveStyles)
          s.render s.heap (fun heap => { s with heap := heap }) ?_ fun t ht => ?_
        · exact if_pos ⟨rfl, hexpect⟩
        · rw [if_neg fun hif => ht hif.1, hsame hexpect]
      · rw [hexpect]
        exact if_neg (by rintro ⟨-, ⟨⟩⟩)
    | event =>
      obtain rfl := value_of_taken htaken (by decide)
      refine hreading.own (by decide) hfresh (addEvents classes (eventsOf libc x.2)) (fun own => rfl)
        (fun hexpect => ?_) fun hexpect => consumes_passed hdata hd hn hw fun t => ?_
      · refine consumes_addEvents hdata hd hn hw s.render s.heap
          (fun heap => { s with heap := heap }) ?_ fun t ht => ?_
        · exact if_pos ⟨rfl, hexpect⟩
        · rw [if_neg fun hif => ht hif.1, hsame hexpect]
      · rw [hexpect]
        exact if_neg (by rintro ⟨-, ⟨⟩⟩)
    | children =>
      obtain rfl := children_of_taken htaken
      refine hreading.content ⟨_, hfield, by decide, by decide⟩ hfresh ?_ fun hexpect =>
        consumes_passed hdata hd hn hw fun t => ?_
      -- the children are read into the element only where its type has come before them
      · intro trees own hr hb hnone hexpect
        rw [if_pos rfl, hnone rfl, List.nil_append]
        rw [hnone rfl] at hb
        have htyped : (valueOf .type done).isSome := by
          rw [Option.isSome_iff_ne_none]
          intro huntyped
          cases hr.symm.trans (hreading.waiting huntyped).1
        refine consumes_addChildren hdata hd hn hw (hparse htyped rfl) hb
          (fun heap => { s with heap := heap }) ?_ fun t ht => ?_
        · rw [if_pos ⟨rfl, hexpect⟩, hr]
        · rw [if_neg fun hif => ht hif.1, hsame hexpect]
      · rw [hexpect]
        exact if_neg (by rintro ⟨-, ⟨⟩⟩)

/-- **The first loop.** -/
theorem Reading.parseFields (hdata : data.length < 2 ^ Library.bits .c)
    (hlaw : classes.Lawful) {es : List (Utf16 × Doc)} {bs : Bytes}
    (hreading : Reading classes libc pageId reserveStyles heap₀ parent index done s)
    (hnodup : ((done ++ takenEntries es).map Prod.fst).Nodup) (hparent : ∀ p ∈ parent, p < heap₀.length)
    (hes : Doc.EncodesEntriesBelow e length es p bs) (hn : Doc.heightEntries es < n)
    (hw : Doc.WithinEntries (2 ^ 30) es)
    (hparse : (valueOf .type (done ++ takenEntries es)).isSome → ∀ x ∈ es,
      takenKey x.1 = Field.children.key → ∀ ds, x.2 = .array ds →
        ∀ u ∈ ds, Parses classes e libc pageId reserveStyles data length parse u) :
    ∃ s', ConsumesAt data (At data length) p (returns
        (Dom.parseFields classes e libc n pageId reserveStyles parse parent index es.length s)) bs s' ∧
      Reading classes libc pageId reserveStyles heap₀ parent index (done ++ takenEntries es) s' := by
  induction es generalizing p bs done s with
  | nil =>
    obtain rfl := hes
    rw [takenEntries, List.append_nil]
    exact ⟨s, (consumes_pure s).consumesAt, hreading⟩
  | cons x es ih =>
    obtain ⟨h, b₁, b₂, hk, h₁, h₂, rfl⟩ := hes
    rw [Doc.heightEntries, Nat.max_lt] at hn
    have hcons : done ++ takenEntries (x :: es) = done ++ [takenEntry x] ++ takenEntries es :=
      List.append_cons _ _ _
    rw [hcons] at hnodup hparse ⊢
    have hparseₓ (htyped : (valueOf .type done).isSome) := hparse (by
      rw [List.append_assoc, valueOf_append, Option.isSome_or, htyped]
      rfl) x List.mem_cons_self
    have hparse (htyped : (valueOf .type (done ++ [takenEntry x] ++ takenEntries es)).isSome) :=
      List.forall_mem_of_forall_mem_cons (hparse htyped)
    have hfresh : takenKey x.1 ∉ done.map Prod.fst := by
      intro hmem
      rw [List.append_assoc, List.map_append, List.nodup_append] at hnodup
      exact hnodup.2.2 _ hmem _ List.mem_cons_self rfl
    obtain ⟨s₁, hrun, hreading₁⟩ := hreading.parseField hdata hlaw hfresh hparent hk hw.1 h₁ hn.1
      hw.2.1 rfl hparseₓ
    obtain ⟨s', hrest, hreading'⟩ := ih hreading₁ hnodup h₂ hn.2 hw.2.2 hparse
    refine ⟨s', ?_, hreading'⟩
    rw [List.length_cons, Dom.parseFields, returns_bind_eq]
    exact hrun.bind hrest

end Reading

/-! ## Whole nodes -/

/-- **A node is parsed** to its tree, as far as its parser has room. -/
theorem parses (hdata : data.length < 2 ^ Library.bits .c)
    (hlaw : classes.Lawful) : ∀ {n : Nat} {d : Doc}, d.height + 1 < n → d.Within (2 ^ 30) →
      Regular (taken d) →
      Parses classes e libc pageId reserveStyles data length
        (parserWson2RenderObject classes e libc pageId reserveStyles n) d := by
  intro n
  induction n with
  | zero => exact fun hn => absurd hn (Nat.not_lt_zero _)
  | succ n ih =>
    intro d hn hw hregular p bs parent index heap hd hparent
    cases d with
    | map es =>
      obtain ⟨hnodup, -, hbelow⟩ := hregular
      rw [Doc.height, Nat.add_lt_add_iff_right] at hn
      have hparse (htyped : (valueOf .type (takenEntries es)).isSome) (x : Utf16 × Doc) (hx : x ∈ es)
          (hkey : takenKey x.1 = Field.children.key) (ds : List Doc) (hds : x.2 = .array ds) (u : Doc) (hu : u ∈ ds) :
          Parses classes e libc pageId reserveStyles data length
            (parserWson2RenderObject classes e libc pageId reserveStyles n) u := by
        have hmem : takenEntry x ∈ takenEntries es := by
          rw [takenEntries_eq]
          exact List.mem_map_of_mem hx
        have hvalue : RegularValue (takenEntry x).2 :=
          regularEntries_iff.mp (hbelow htyped) _ hmem hkey
        have hbelow : takenValue x.2 = (takenEntry x).2 := (if_pos hkey).symm
        have hwithin := (hw.2.of_mem hx).2
        have hheight := Doc.height_le_of_mem_entries hx
        have hle := Doc.height_le_of_mem hu
        rw [← hbelow, hds] at hvalue
        rw [hds] at hwithin hheight
        rw [Doc.height] at hheight
        have hvalue : RegularItems (takenItems ds) := hvalue
        rw [takenItems_eq] at hvalue
        exact ih (by omega) (hwithin.2.of_mem hu) (hvalue.of_mem (List.mem_map_of_mem hu))
      suffices ∃ a : Option Nat × Heap ν, ConsumesAt data (At data length) p (returns
          (parserWson2RenderObject classes e libc pageId reserveStyles (n + 1) parent index heap)) bs a ∧
            Result parent index heap (treeOf classes libc pageId reserveStyles (taken (.map es))) a.1 a.2 by
        obtain ⟨⟨render, heap'⟩, hrun, hresult⟩ := this
        exact ⟨render, heap', hrun, hresult⟩
      rw [parserWson2RenderObject]
      refine exists_consumes_nextMap hdata hd hw (if_neg (not_not_intro rfl)) ?_
      intro q body hes
      obtain ⟨s, hrun, hreading⟩ := reading_nil.parseFields hdata hlaw hnodup hparent hes
        (Nat.lt_of_succ_lt hn) hw.2 hparse
      rw [List.nil_append] at hreading
      rw [Int.toNat_natCast, taken, treeOf]
      cases htype : valueOf .type (takenEntries es) with
      | none =>
        obtain ⟨hrender, hheap, -⟩ := hreading.waiting htype
        refine ⟨(none, heap), consumes_once hrun fun state => ?_, rfl, rfl⟩
        rw [hrender, hheap]
        exact if_neg (by rintro ⟨-, ⟨⟩⟩)
      | some t =>
        obtain ⟨hrender, hbuilt⟩ := hreading.started t htype
        have htext : textOf libc t = textField libc .type (takenEntries es) := by
          rw [textField, htype]
          rfl
        rw [hreading.ref, htext] at hbuilt
        rw [if_pos (show (some t).isSome from rfl)]
        cases horder : s.keyOrderRight with
        | true =>
          rw [horder, if_pos rfl] at hbuilt
          have hresult := (hbuilt.onOwn (applyDefaults classes reserveStyles)).result
          refine ⟨(some heap.length, _), consumes_once hrun fun state => ?_, hresult⟩
          rw [horder, hrender]
          exact if_neg (by rintro ⟨⟨⟩, -⟩)
        | false =>
          rw [horder] at hbuilt
          obtain ⟨heap', hagain, hbuilt'⟩ := consumes_parseAllAgain hdata hes (Nat.lt_of_succ_lt hn)
            hw.2 hnodup (hparse (by rw [htype]; rfl)) hbuilt fun _ => rfl
          have hresult := (hbuilt'.onOwn (applyDefaults classes reserveStyles)).result
          have hthen := consumesAt_wrap (f := fun heap' : Heap ν => (some heap.length,
            heap'.update (some heap.length) (.onOwn (applyDefaults classes reserveStyles)))) hagain
          refine ⟨_, consumes_twice hrun (fun state => ?_) hthen, hresult⟩
          rw [hrender]
          exact if_pos ⟨horder, rfl⟩
    | _ =>
      refine ⟨none, heap, ?_, rfl, rfl⟩
      rw [parserWson2RenderObject]
      exact consumes_skipped (k := .map) hdata hd (Nat.lt_of_succ_lt_succ hn) hw (by rintro ⟨⟩)
        fun _ ht => if_pos ht

end Parse

end Wson.Dom
