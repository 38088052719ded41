import Wson.Dom.Fields

/-!
# The parsers of render objects

`parserWson2RenderObject` and `parserWson2RenderObjectNew`, over a heap of render objects.
The classes of these are not in the repository: what they do to a single object is a
parameter, and of the tree only the lists of children are known here.
-/

namespace Wson.Dom

open Effect Text Wire Native Native.Buffer Native.Parser

/-- `RenderCreator` and `RenderObject`, as far as one object without its children goes. -/
structure RenderClasses (ν : Type) where
  createRender : Bytes → Bytes → ν
  setPageId : Bytes → ν → ν
  setRef : Bytes → ν → ν
  addAttr : Bytes → Bytes → ν → ν
  addStyle : Bytes → Bytes → Bool → ν → ν
  addEvent : Bytes → ν → ν
  applyDefaultStyle : Bool → ν → ν
  applyDefaultAttr : ν → ν

/-- A `RenderObject`: what it is itself, and pointers to its children. -/
structure RenderObject (ν : Type) where
  own : ν
  children : List Nat
  deriving Repr, DecidableEq

/-- The objects in the order in which they were created. A pointer is an index, or null. -/
abbrev Heap (ν : Type) := List (RenderObject ν)

namespace RenderObject

variable {ν : Type}

def onOwn (f : ν → ν) (render : RenderObject ν) : RenderObject ν :=
  { render with own := f render.own }

/-- `AddRenderObject`: the child is inserted at the index, or appended where the index is past the
end. -/
def addRenderObject (index child : Nat) (render : RenderObject ν) : RenderObject ν :=
  { render with children := render.children.take index ++ child :: render.children.drop index }

end RenderObject

/-- What a method does to the object behind a pointer. -/
def Heap.update {ν : Type} (render : Option Nat) (f : RenderObject ν → RenderObject ν) (heap : Heap ν) :
    Heap ν :=
  match render with
  | some p => heap.modify p f
  | none => heap

section Parsers

variable {ν : Type} (classes : RenderClasses ν) (e : Endian) (libc : Libc) (n : Nat) (pageId : Bytes)
  (reserveStyles : Bool)

/-- `CreateRender` and `set_page_id`. -/
def create (renderType ref : Bytes) : ν :=
  classes.setPageId pageId (classes.createRender renderType ref)

/-- `ApplyDefaultStyle` and `ApplyDefaultAttr`. -/
def applyDefaults (own : ν) : ν :=
  classes.applyDefaultAttr (classes.applyDefaultStyle reserveStyles own)

/-- The loop over the elements of `children`; `parse` is called with the index and the heap. -/
def parseItems (parse : Nat → Heap ν → BufferM (Option Nat × Heap ν)) : Nat → Nat → Heap ν →
    BufferM (Heap ν)
  | 0, _, heap => pure heap
  | size + 1, childIndex, heap => do
    let (_, heap) ← parse childIndex heap
    parseItems parse size (childIndex + 1) heap

/-- The variables of the loop in `parserWson2RenderObject`, and the heap. -/
structure Parsing (ν : Type) where
  ref : Bytes
  render : Option Nat
  keyOrderRight : Bool
  heap : Heap ν

namespace Parsing

/-- `keys_order_as_expect`. -/
def keysOrderAsExpect (s : Parsing ν) : Bool :=
  s.render.isSome && s.keyOrderRight

end Parsing

/-- One turn of the first loop. -/
def parseField (parse : Option Nat → Nat → Heap ν → BufferM (Option Nat × Heap ν)) (parent : Option Nat)
    (index : Nat) (s : Parsing ν) : BufferM (Parsing ν) := do
  let objectKey ← nextMapKeyUTF8 .c e
  match fieldOf objectKey with
  | some .ref =>
    let ref ← nextString e libc n
    return { s with ref := ref, heap := s.heap.update s.render (.onOwn (classes.setRef ref)) }
  | some .type =>
    let renderType ← nextString e libc n
    let render := s.heap.length
    let heap := s.heap ++ [⟨create classes pageId renderType s.ref, []⟩]
    return { s with render := some render, heap := heap.update parent (.addRenderObject index render) }
  | some .attr =>
    let attrType ← nextType .c
    if attrType = Tag.map ∧ s.keysOrderAsExpect then
      let attrMapSize ← nextMapSize .c
      let heap ← readPairs e libc n
        (fun heap key value => heap.update s.render (.onOwn (classes.addAttr key value)))
        attrMapSize.toNat s.heap
      return { s with heap := heap }
    else
      skipValue .c n attrType
      return { s with keyOrderRight := s.keysOrderAsExpect }
  | some .style =>
    let styleType ← nextType .c
    if styleType = Tag.map ∧ s.keysOrderAsExpect then
      let styleMapSize ← nextMapSize .c
      let heap ← readPairs e libc n
        (fun heap key value => heap.update s.render (.onOwn (classes.addStyle key value reserveStyles)))
        styleMapSize.toNat s.heap
      return { s with heap := heap }
    else
      skipValue .c n styleType
      return { s with keyOrderRight := s.keysOrderAsExpect }
  | some .event =>
    let eventType ← nextType .c
    if eventType = Tag.array ∧ s.keysOrderAsExpect then
      let eventSize ← nextArraySize .c
      let heap ← readEvents e libc n
        (fun heap value => heap.update s.render (.onOwn (classes.addEvent value)))
        eventSize.toNat s.heap
      return { s with heap := heap }
    else
      skipValue .c n eventType
      return { s with keyOrderRight := s.keysOrderAsExpect }
  | some .children =>
    let childType ← nextType .c
    if childType = Tag.array ∧ s.keysOrderAsExpect then
      let childSize ← nextArraySize .c
      let heap ← parseItems (parse s.render) childSize.toNat 0 s.heap
      return { s with heap := heap }
    else
      skipValue .c n childType
      return { s with keyOrderRight := s.keysOrderAsExpect }
  | none =>
    skipValue .c n (← nextType .c)
    return s

def parseFields (parse : Option Nat → Nat → Heap ν → BufferM (Option Nat × Heap ν)) (parent : Option Nat)
    (index : Nat) : Nat → Parsing ν → BufferM (Parsing ν)
  | 0, s => pure s
  | size + 1, s => do
    parseFields parse parent index size
      (← parseField classes e libc n pageId reserveStyles parse parent index s)

/-- One turn of the second loop, in which `ref` and `type` are skipped. -/
def parseAgain (parse : Option Nat → Nat → Heap ν → BufferM (Option Nat × Heap ν)) (render : Option Nat)
    (heap : Heap ν) : BufferM (Heap ν) := do
  let objectKey ← nextMapKeyUTF8 .c e
  match fieldOf objectKey with
  | some .attr =>
    let attrType ← nextType .c
    if attrType = Tag.map then
      let attrMapSize ← nextMapSize .c
      let heap ← readPairs e libc n
        (fun heap key value => heap.update render (.onOwn (classes.addAttr key value)))
        attrMapSize.toNat heap
      return heap
    else
      skipValue .c n attrType
      return heap
  | some .style =>
    let styleType ← nextType .c
    if styleType = Tag.map then
      let styleMapSize ← nextMapSize .c
      let heap ← readPairs e libc n
        (fun heap key value => heap.update render (.onOwn (classes.addStyle key value reserveStyles)))
        styleMapSize.toNat heap
      return heap
    else
      skipValue .c n styleType
      return heap
  | some .event =>
    let eventType ← nextType .c
    if eventType = Tag.array then
      let eventSize ← nextArraySize .c
      let heap ← readEvents e libc n
        (fun heap value => heap.update render (.onOwn (classes.addEvent value)))
        eventSize.toNat heap
      return heap
    else
      skipValue .c n eventType
      return heap
  | some .children =>
    let childType ← nextType .c
    if childType = Tag.array then
      let childSize ← nextArraySize .c
      let heap ← parseItems (parse render) childSize.toNat 0 heap
      return heap
    else
      skipValue .c n childType
      return heap
  | _ =>
    skipValue .c n (← nextType .c)
    return heap

def parseAllAgain (parse : Option Nat → Nat → Heap ν → BufferM (Option Nat × Heap ν))
    (render : Option Nat) : Nat → Heap ν → BufferM (Heap ν)
  | 0, heap => pure heap
  | size + 1, heap => do
    parseAllAgain parse render size (← parseAgain classes e libc n reserveStyles parse render heap)

/-- `parserWson2RenderObject`: the object, if there is one, and the heap. -/
def parserWson2RenderObject : Nat → Option Nat → Nat → Heap ν → BufferM (Option Nat × Heap ν)
  | 0, _, _, _ => throw .stackOverflow
  | n + 1, parent, index, heap => do
    let objectType ← nextType .c
    if objectType ≠ Tag.map then
      skipValue .c n objectType
      return (none, heap)
    else
      let size ← nextMapSize .c
      let state ← getState
      let s ← parseFields classes e libc n pageId reserveStyles (parserWson2RenderObject n) parent index
        size.toNat ⟨[], none, true, heap⟩
      if s.keyOrderRight = false ∧ s.render.isSome then
        restoreToState state
        let heap ← parseAllAgain classes e libc n reserveStyles (parserWson2RenderObject n) s.render
          size.toNat s.heap
        return (s.render, heap.update s.render (.onOwn (applyDefaults classes reserveStyles)))
      else
        return (s.render, s.heap.update s.render (.onOwn (applyDefaults classes reserveStyles)))

/-! ## `parserWson2RenderObjectNew` -/

/-- What the loop of `parserWson2RenderObjectNew` collects, and the heap. -/
structure Collected (ν : Type) where
  ref : Bytes
  renderType : Bytes
  attrs : StringMap
  styles : StringMap
  events : List Bytes
  childrens : List Nat
  heap : Heap ν

/-- The loop over the elements of `children`; what is null is left out. -/
def collectItems (parse : Nat → Heap ν → BufferM (Option Nat × Heap ν)) : Nat → Nat → List Nat × Heap ν →
    BufferM (List Nat × Heap ν)
  | 0, _, collected => pure collected
  | size + 1, childIndex, (childrens, heap) => do
    let (child, heap) ← parse childIndex heap
    collectItems parse size (childIndex + 1) (childrens ++ child.toList, heap)

/-- One turn of the loop. -/
def collectField (parse : Nat → Heap ν → BufferM (Option Nat × Heap ν)) (s : Collected ν) :
    BufferM (Collected ν) := do
  let objectKey ← nextMapKeyUTF8 .c e
  match fieldOf objectKey with
  | some .ref => return { s with ref := ← nextString e libc n }
  | some .type => return { s with renderType := ← nextString e libc n }
  | some .attr =>
    let attrType ← nextType .c
    if attrType = Tag.map then
      let attrMapSize ← nextMapSize .c
      let attrs ← readPairs e libc n (fun attrs key value => attrs.insert key value)
        attrMapSize.toNat s.attrs
      return { s with attrs := attrs }
    else
      skipValue .c n attrType
      return s
  | some .style =>
    let styleType ← nextType .c
    if styleType = Tag.map then
      let styleMapSize ← nextMapSize .c
      let styles ← readPairs e libc n (fun styles key value => styles.insert key value)
        styleMapSize.toNat s.styles
      return { s with styles := styles }
    else
      skipValue .c n styleType
      return s
  | some .event =>
    let eventType ← nextType .c
    if eventType = Tag.array then
      let eventSize ← nextArraySize .c
      let events ← readEvents e libc n (fun events value => events ++ [value]) eventSize.toNat s.events
      return { s with events := events }
    else
      skipValue .c n eventType
      return s
  | some .children =>
    let childType ← nextType .c
    if childType = Tag.array then
      let childSize ← nextArraySize .c
      let (childrens, heap) ← collectItems parse childSize.toNat 0 (s.childrens, s.heap)
      return { s with childrens := childrens, heap := heap }
    else
      skipValue .c n childType
      return s
  | none =>
    skipValue .c n (← nextType .c)
    return s

def collectFields (parse : Nat → Heap ν → BufferM (Option Nat × Heap ν)) : Nat → Collected ν →
    BufferM (Collected ν)
  | 0, s => pure s
  | size + 1, s => do collectFields parse size (← collectField e libc n parse s)

/-- The loop over `childrens`, from the index on. -/
def addAll (render : Option Nat) : Nat → List Nat → Heap ν → Heap ν
  | _, [], heap => heap
  | childIndex, child :: childrens, heap =>
    addAll render (childIndex + 1) childrens (heap.update render (.addRenderObject childIndex child))

/-- What is done behind the loop; a new object is never null. -/
def Collected.build (s : Collected ν) : Option Nat × Heap ν :=
  let render := s.heap.length
  let own := create classes pageId s.renderType s.ref
  let own := s.attrs.foldl (fun own it => classes.addAttr it.1 it.2 own) own
  let own := s.styles.foldl (fun own it => classes.addStyle it.1 it.2 reserveStyles own) own
  let own := s.events.foldl (fun own it => classes.addEvent it own) own
  let heap := addAll (some render) 0 s.childrens (s.heap ++ [⟨own, []⟩])
  (some render, heap.update (some render) (.onOwn (applyDefaults classes reserveStyles)))

/-- `parserWson2RenderObjectNew`; it makes no use of the parent and the index. -/
def parserWson2RenderObjectNew : Nat → Nat → Heap ν → BufferM (Option Nat × Heap ν)
  | 0, _, _ => throw .stackOverflow
  | n + 1, _, heap => do
    let objectType ← nextType .c
    if objectType ≠ Tag.map then
      skipValue .c n objectType
      return (none, heap)
    else
      let size ← nextMapSize .c
      let s ← collectFields e libc n (parserWson2RenderObjectNew n) size.toNat
        ⟨[], [], [], [], [], [], heap⟩
      return s.build classes pageId reserveStyles

/-- `Wson2RenderObject`. -/
def wson2RenderObject (isUseRunTimeApi : Bool) (data : Bytes) :
    EStateM.Result Fault Buffer (Option Nat × Heap ν) :=
  if isUseRunTimeApi then
    parserWson2RenderObjectNew classes e libc pageId reserveStyles n 0 [] ⟨data, 0, declaredLength⟩
  else
    parserWson2RenderObject classes e libc pageId reserveStyles n none 0 [] ⟨data, 0, declaredLength⟩

end Parsers

end Wson.Dom
