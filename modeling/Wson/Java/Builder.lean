import Wson.Float.Binary64
import Wson.Format.Doc
import Wson.Java.Heap

/-!
# `Wson.java`, class `Builder`

The writer: `writeObject` and the methods it calls, translated over a `Heap`. The
state is the builder's own (the stack `refs` of the containers being written and
the output) together with the static cache `specialClass`. The first argument of
`writeObject` is the number of nested calls for which the stack has room.

`Grows`: however writing ends, the containers that were on `refs` are still there,
the position has not moved back, and the cache has counted no fewer `put` calls.
-/

namespace Wson.Java

open Effect Wire

/-! ## `cache/LruCache.java` -/

/-- Entries from the least to the most recently used one, and the number of `put` calls. -/
structure LruCache (K V : Type) where
  entries : List (K × V)
  maxSize : Nat
  putCount : Nat
  deriving DecidableEq

namespace LruCache

variable {K V : Type} [DecidableEq K]

def find? (c : LruCache K V) (key : K) : Option V :=
  mapGet key c.entries

/-- The entry under `key` becomes the most recently used one. -/
def touch (c : LruCache K V) (key : K) (value : V) : List (K × V) :=
  c.entries.filter (fun entry => entry.1 ≠ key) ++ [(key, value)]

/-- `get`: the value and the cache after the access. -/
def get (c : LruCache K V) (key : K) : Option V × LruCache K V :=
  match c.find? key with
  | some value => (some value, { c with entries := c.touch key value })
  | none => (none, c)

/-- `trimToSize`: evict the least recently used entries. -/
def trimToSize (maxSize : Nat) (c : LruCache K V) : LruCache K V :=
  { c with entries := c.entries.drop (c.entries.length - maxSize) }

def put (c : LruCache K V) (key : K) (value : V) : LruCache K V :=
  trimToSize c.maxSize { c with entries := c.touch key value, putCount := c.putCount + 1 }

theorem isSome_find? {c : LruCache K V} {key : K} :
    (c.find? key).isSome ↔ ∃ value, (key, value) ∈ c.entries := by
  simp [find?, mapGet, List.isSome_find?]

/-- Looking a key up does not change which keys are there. -/
theorem isSome_find?_get (c : LruCache K V) (key k : K) :
    ((c.get key).2.find? k).isSome = (c.find? k).isSome := by
  unfold get
  cases h : c.find? key with
  | none => rfl
  | some value =>
    have hkey := isSome_find?.mp (by rw [h]; rfl : (c.find? key).isSome)
    rw [Bool.eq_iff_iff, isSome_find?, isSome_find?]
    simp only [touch, List.mem_append, List.mem_filter, List.mem_singleton, Prod.mk.injEq]
    by_cases hk : k = key
    · subst hk
      exact ⟨fun _ => hkey, fun _ => ⟨value, .inr ⟨rfl, rfl⟩⟩⟩
    · simp [hk]

theorem get_putCount (c : LruCache K V) (key : K) : (c.get key).2.putCount = c.putCount := by
  unfold get
  split <;> rfl

end LruCache

/-! ## The builder -/

structure Builder (O : Type) where
  refs : List O
  output : Output
  specialClass : LruCache Utf16 Bool

/-- A builder on a thread whose pool is empty, with no class marked. -/
def Builder.fresh (O : Type) : Builder O where
  refs := []
  output := ⟨List.replicate 4096 0, 0⟩
  specialClass := ⟨[], 16, 0⟩

theorem Builder.fresh_capacity (O : Type) : (Builder.fresh O).output.buffer.length = 4096 :=
  List.length_replicate

theorem Builder.fresh_valid (O : Type) : (Builder.fresh O).output.Valid where
  inside := Nat.zero_le _
  small := by
    rw [fresh_capacity]
    norm_num

abbrev BuilderM (O : Type) := EStateM Throwable (Builder O)

namespace Builder

variable {O : Type}

def onOutput {α : Type} (m : OutputM α) : BuilderM O α :=
  zoom Builder.output (fun o b => { b with output := o }) m

def getRefs : BuilderM O (List O) := do
  let b ← get
  pure b.refs

/-- `refs.add(object)`. -/
def pushRef (object : O) : BuilderM O Unit :=
  modify fun b => { b with refs := b.refs ++ [object] }

/-- `refs.remove(refs.size() - 1)`. -/
def popRef : BuilderM O Unit := fun b =>
  if b.refs = [] then .error .arrayIndexOutOfBounds b
  else .ok () { b with refs := b.refs.dropLast }

/-- Rethrow what a computation without side effects throws. -/
def liftExcept {α : Type} : Except Throwable α → BuilderM O α
  | .ok a => pure a
  | .error e => throw e

/-- `specialClass.get(key) != null`. -/
def isSpecial (key : Utf16) : BuilderM O Bool := fun b =>
  .ok (b.specialClass.get key).1.isSome { b with specialClass := (b.specialClass.get key).2 }

/-- `specialClass.put(key, true)`. -/
def markSpecial (key : Utf16) : BuilderM O Unit :=
  modify fun b => { b with specialClass := b.specialClass.put key true }

/-- `ensureCapacity(2)` and the null byte. -/
def writeNull : BuilderM O Unit :=
  onOutput do
    Output.ensureCapacity 2
    Output.writeByte Tag.null

variable (e : Endian)

/-- The length of a text is an `int`, and so are the sums computed from it. -/
def writeUTF16String (value : Utf16) : BuilderM O Unit :=
  onOutput do
    let length : Int := value.length
    Output.ensureCapacity (int (length * 2 + 8))
    Output.writeUInt (BitVec.ofInt 32 (length * 2))
    Output.writeChars e value

def writeMapKeyUTF16 (value : Utf16) : BuilderM O Unit :=
  writeUTF16String e value

/-- `ensureCapacity`, the type byte and the payload of a scalar. -/
def writeScalar (request : Int) (tag : Byte) (payload : OutputM Unit) : BuilderM O Unit :=
  onOutput do
    Output.ensureCapacity request
    Output.writeByte tag
    payload

section Numbers

variable (doubleValue : BigDecimal → BitVec 64) (doubleToString : BitVec 64 → Utf16)

/-- `BigDecimal.doubleValue` and `Double.toString` are parameters: the branch for decimals
only compares what they return. -/
def writeNumber : JNumber → BuilderM O Unit
  | .integer x => writeScalar 12 Tag.int (Output.writeVarInt x)
  | .float x => writeScalar 12 Tag.float (Output.writeFloat x)
  | .double x => writeScalar 12 Tag.double (Output.writeDouble x)
  | .long x => writeScalar 12 Tag.long (Output.writeLong x)
  | .short x => writeScalar 12 Tag.int (Output.writeVarInt (x.signExtend 32))
  | .byte x => writeScalar 12 Tag.int (Output.writeVarInt (x.signExtend 32))
  | .bigInteger n => do
    writeScalar 12 Tag.bigInteger (pure ())
    writeUTF16String e (BigInteger.toString n)
  | .bigDecimal b =>
    if b.toString = doubleToString (doubleValue b) then
      writeScalar 12 Tag.double (Output.writeDouble (doubleValue b))
    else do
      writeScalar 12 Tag.bigDecimal (pure ())
      writeUTF16String e b.toString
  | .other text => do
    writeScalar 12 Tag.string (pure ())
    writeUTF16String e text

end Numbers

end Builder

/-- What the builder calls of the platform, and the order of bytes of the machine. -/
structure Platform where
  endian : Endian
  doubleValue : BigDecimal → BitVec 64
  doubleToString : BitVec 64 → Utf16

/-- A little-endian machine, for values without decimals. -/
def Platform.plain : Platform where
  endian := .little
  doubleValue _ := 0
  doubleToString _ := []

namespace Builder

variable {O : Type} (P : Platform) (H : Heap O)

/-- The header of a list, array or collection and its elements. -/
def writeElements (write : O → BuilderM O Unit) (elements : List O) : BuilderM O Unit := do
  writeScalar 8 Tag.array (Output.writeUInt (BitVec.ofNat 32 elements.length))
  elements.forM write

/-- One entry of a map; entries whose value is null are skipped. -/
def writeEntry (write : O → BuilderM O Unit) (entry : Key × O) : BuilderM O Unit :=
  if H.isNull entry.2 then pure ()
  else do
    let key ← liftExcept entry.1.toString
    writeMapKeyUTF16 P.endian key
    write entry.2

def writeMap (write : O → BuilderM O Unit) (entries : List (Key × O)) : BuilderM O Unit := do
  let nullValueSize := (entries.filter fun entry => H.isNull entry.2).length
  writeScalar 8 Tag.map
    (Output.writeUInt (BitVec.ofNat 32 entries.length - BitVec.ofNat 32 nullValueSize))
  entries.forM (writeEntry P H write)

/-- The properties of a bean that are not null, in the order of its getters. -/
def toMap (getters : Except Throwable (List (Utf16 × Except Throwable O))) :
    Except Throwable (List (Key × O)) := do
  let getters ← getters
  getters.foldlM (fun map getter => do
    let value ← getter.2
    pure (if H.isNull value then map else mapPut (.string getter.1) value map)) []

/-- A class for which reading the properties or writing them threw an `Exception` is
remembered, and its objects are written as what `JSON.toJSON` makes of them. -/
def writeAdapterObject (write : O → BuilderM O Unit) (object : O) (key : Utf16)
    (getters : Except Throwable (List (Utf16 × Except Throwable O))) : BuilderM O Unit := do
  if ← isSpecial key then write (H.toJSON object)
  else
    tryCatch (do writeMap P H write (← liftExcept (toMap H getters))) fun err => do
      if err.isException then
        markSpecial key
        write (H.toJSON object)
      else throw err

section

variable [DecidableEq O]

/-- Write a container unless `refs` contains it, in which case write null. -/
def writeContainer (n : Nat) (object : O) (body : BuilderM O Unit) : BuilderM O Unit := do
  match H.contains n (← getRefs) object with
  | none => throw .stackOverflow
  | some true => writeNull
  | some false =>
    pushRef object
    body
    popRef

def writeObject : Nat → O → BuilderM O Unit
  | 0, _ => throw .stackOverflow
  | n + 1, object =>
    match H.view object with
    | .string s => do
      writeScalar 2 Tag.string (pure ())
      writeUTF16String P.endian s
    | .map entries => writeContainer H n object (writeMap P H (writeObject n) entries)
    | .list elements => writeContainer H n object (writeElements (writeObject n) elements)
    | .number m => writeNumber P.endian P.doubleValue P.doubleToString m
    | .boolean b => writeScalar 2 (booleanTag b) (pure ())
    | .null => writeNull
    | .array elements => writeContainer H n object (writeElements (writeObject n) elements)
    | .date time =>
      writeScalar 10 Tag.double (Output.writeDouble (Binary64.ofInt time.toInt))
    | .collection elements =>
      writeContainer H n object (writeElements (writeObject n) elements)
    | .enum json => writeContainer H n object (writeObject n json)
    | .bean key getters =>
      writeContainer H n object (writeAdapterObject P H (writeObject n) object key getters)

end

section

variable [DecidableEq O]

/-- `Builder.toWson`, on a builder that has just been made. -/
def toWson (n : Nat) (object : O) : BuilderM O Bytes := do
  writeObject P H n object
  onOutput Output.toBytes

end

/-! ## What every run keeps -/

/-- The stack of containers is only extended, the output is ahead and the number of `put`
calls only grows. -/
structure Grows (b b' : Builder O) : Prop where
  refs : b.refs <+: b'.refs
  output : Output.Ahead b.output b'.output
  putCount : b.specialClass.putCount ≤ b'.specialClass.putCount

theorem Grows.refl (b : Builder O) : Grows b b :=
  ⟨List.prefix_refl _, Output.Ahead.refl _, Nat.le_refl _⟩

theorem Grows.trans ⦃b c d : Builder O⦄ (h : Grows b c) (h' : Grows c d) : Grows b d :=
  ⟨h.refs.trans h'.refs, h.output.trans h'.output, h.putCount.trans h'.putCount⟩

theorem grows_bind {α β : Type} {m : BuilderM O α} {f : α → BuilderM O β}
    (hm : Preserves Grows m) (hf : ∀ a, Preserves Grows (f a)) : Preserves Grows (m >>= f) :=
  Preserves.bind Grows.trans hm hf

theorem grows_onOutput {α : Type} {m : OutputM α} (hm : Output.Advances m) :
    Preserves Grows (onOutput m : BuilderM O α) :=
  preserves_zoom hm fun _ _ h => ⟨List.prefix_refl _, h, Nat.le_refl _⟩

theorem grows_liftExcept {α : Type} (x : Except Throwable α) :
    Preserves Grows (liftExcept x : BuilderM O α) := by
  cases x with
  | ok a => exact preserves_pure Grows.refl a
  | error e => exact preserves_throw Grows.refl e

theorem grows_isSpecial (key : Utf16) : Preserves Grows (isSpecial key : BuilderM O Bool) :=
  fun b => ⟨List.prefix_refl _, Output.Ahead.refl _, (LruCache.get_putCount b.specialClass key).ge⟩

theorem grows_markSpecial (key : Utf16) : Preserves Grows (markSpecial key : BuilderM O Unit) :=
  fun _ => ⟨List.prefix_refl _, Output.Ahead.refl _, Nat.le_succ _⟩

theorem grows_writeNull : Preserves Grows (writeNull : BuilderM O Unit) :=
  grows_onOutput ((Output.advances_ensureCapacity 2).bind fun _ => Output.advances_writeByte _)

theorem grows_writeUTF16String (e : Endian) (s : Utf16) :
    Preserves Grows (writeUTF16String e s : BuilderM O Unit) :=
  grows_onOutput ((Output.advances_ensureCapacity _).bind fun _ =>
    (Output.advances_writeUInt _).bind fun _ => Output.advances_writeChars e s)

theorem grows_writeScalar (request : Int) (tag : Byte) {payload : OutputM Unit}
    (h : Output.Advances payload) :
    Preserves Grows (writeScalar request tag payload : BuilderM O Unit) :=
  grows_onOutput ((Output.advances_ensureCapacity _).bind fun _ =>
    (Output.advances_writeByte _).bind fun _ => h)

theorem grows_writeNumber (m : JNumber) :
    Preserves Grows (writeNumber P.endian P.doubleValue P.doubleToString m : BuilderM O Unit) := by
  have hstart : ∀ tag : Byte, Preserves Grows (writeScalar 12 tag (pure ()) : BuilderM O Unit) :=
    fun tag => grows_writeScalar 12 tag Output.advances_pure
  cases m with
  | byte x | short x | integer x => exact grows_writeScalar _ _ (Output.advances_writeUInt _)
  | long x | double x => exact grows_writeScalar _ _ (Output.advances_writeLong _)
  | float x => exact grows_writeScalar _ _ (Output.advances_writeFloat _)
  | bigInteger n => exact grows_bind (hstart _) fun _ => grows_writeUTF16String _ _
  | bigDecimal b =>
    exact Preserves.ite (grows_writeScalar _ _ (Output.advances_writeLong _))
      (grows_bind (hstart _) fun _ => grows_writeUTF16String _ _)
  | other text => exact grows_bind (hstart _) fun _ => grows_writeUTF16String _ _

section Recursion

variable {write : O → BuilderM O Unit} (hwrite : ∀ o, Preserves Grows (write o))
include hwrite

theorem grows_writeElements (elements : List O) :
    Preserves Grows (writeElements write elements) :=
  grows_bind (grows_writeScalar _ _ (Output.advances_writeUInt _)) fun _ =>
    Preserves.forM Grows.refl Grows.trans fun o _ => hwrite o

theorem grows_writeEntry (entry : Key × O) : Preserves Grows (writeEntry P H write entry) :=
  Preserves.ite (preserves_pure Grows.refl ()) (grows_bind (grows_liftExcept _) fun _ =>
    grows_bind (grows_writeUTF16String _ _) fun _ => hwrite _)

theorem grows_writeMap (entries : List (Key × O)) :
    Preserves Grows (writeMap P H write entries) :=
  grows_bind (grows_writeScalar _ _ (Output.advances_writeUInt _)) fun _ =>
    Preserves.forM Grows.refl Grows.trans fun entry _ => grows_writeEntry P H hwrite entry

theorem grows_writeAdapterObject (object : O) (key : Utf16)
    (getters : Except Throwable (List (Utf16 × Except Throwable O))) :
    Preserves Grows (writeAdapterObject P H write object key getters) := by
  refine grows_bind (grows_isSpecial key) fun special => ?_
  refine Preserves.ite (hwrite _) (Preserves.tryCatch Grows.trans ?_ fun err => ?_)
  · exact grows_bind (grows_liftExcept _) fun _ => grows_writeMap P H hwrite _
  · exact Preserves.ite (grows_bind (grows_markSpecial key) fun _ => hwrite _)
      (preserves_throw Grows.refl err)

end Recursion

/-- A body that leaves the stack below it alone leaves the pushed object there too, so the
pop removes nothing that was there before. -/
theorem grows_bracket (object : O) {body : BuilderM O Unit} (hbody : Preserves Grows body) :
    Preserves Grows (do pushRef object; body; popRef) := by
  intro b
  have hb := hbody { b with refs := b.refs ++ [object] }
  show Grows b (final (EStateM.bind body fun _ => popRef) { b with refs := b.refs ++ [object] })
  unfold final EStateM.bind at *
  generalize body { b with refs := b.refs ++ [object] } = r at hb ⊢
  cases r with
  | error err b' => exact ⟨(List.prefix_append _ _).trans hb.refs, hb.output, hb.putCount⟩
  | ok u b' =>
    obtain ⟨rest, hrest⟩ := hb.refs
    simp only at hrest
    have hpop : popRef b' = .ok () { b' with refs := b'.refs.dropLast } :=
      if_neg (by rw [← hrest]; simp)
    simp only [hpop]
    refine ⟨?_, hb.output, hb.putCount⟩
    rw [← hrest, List.append_assoc, List.dropLast_append_of_ne_nil (by simp)]
    exact List.prefix_append _ _

theorem grows_writeContainer [DecidableEq O] (n : Nat) (object : O) {body : BuilderM O Unit}
    (hbody : Preserves Grows body) : Preserves Grows (writeContainer H n object body) := by
  intro b
  show Grows b (final (match H.contains n b.refs object with
    | none => throw .stackOverflow
    | some true => writeNull
    | some false => do pushRef object; body; popRef) b)
  split
  · exact Grows.refl b
  · exact grows_writeNull b
  · exact grows_bracket object hbody b

/-- A container that is written: pushed, written, popped. -/
theorem writeContainer_eq [DecidableEq O] {H : Heap O} {n : Nat} {object : O}
    {body : BuilderM O Unit} {b : Builder O} (h : H.contains n b.refs object = some false) :
    writeContainer H n object body b
      = (body >>= fun _ => popRef) { b with refs := b.refs ++ [object] } := by
  show (match H.contains n b.refs object with
    | none => throw .stackOverflow
    | some true => writeNull
    | some false => do pushRef object; body; popRef : BuilderM O Unit) b = _
  rw [h]
  rfl

theorem writeContainer_of_stackOverflow [DecidableEq O] {H : Heap O} {n : Nat} {object : O}
    {body : BuilderM O Unit} {b : Builder O} (h : H.contains n b.refs object = none) :
    writeContainer H n object body b = .error .stackOverflow b := by
  show (match H.contains n b.refs object with
    | none => throw .stackOverflow
    | some true => writeNull
    | some false => do pushRef object; body; popRef : BuilderM O Unit) b = _
  rw [h]
  rfl

theorem writeContainer_of_contained [DecidableEq O] {H : Heap O} {n : Nat} {object : O}
    {body : BuilderM O Unit} {b : Builder O} (h : H.contains n b.refs object = some true) :
    writeContainer H n object body b = writeNull b := by
  show (match H.contains n b.refs object with
    | none => throw .stackOverflow
    | some true => writeNull
    | some false => do pushRef object; body; popRef : BuilderM O Unit) b = _
  rw [h]

theorem eq_of_popRef {b b' : Builder O} (h : popRef b = .ok () b') :
    b' = { b with refs := b.refs.dropLast } := by
  unfold popRef at h
  split at h
  · exact nomatch h
  · exact (EStateM.Result.ok.inj h).2.symm

/-- **Nothing below is lost**: on every way out of `writeObject` the stack it was called
with is still there, under whatever an exception left on it. -/
theorem grows_writeObject [DecidableEq O] :
    ∀ (n : Nat) (object : O), Preserves Grows (writeObject P H n object)
  | 0, _ => preserves_throw Grows.refl _
  | n + 1, object => by
    have ih := grows_writeObject n
    have hone : ∀ request tag, Preserves Grows (writeScalar request tag (pure ()) : BuilderM O Unit) :=
      fun _ _ => grows_writeScalar _ _ Output.advances_pure
    rw [writeObject]
    cases H.view object with
    | string s => exact grows_bind (hone _ _) fun _ => grows_writeUTF16String _ _
    | map entries => exact grows_writeContainer H n object (grows_writeMap P H ih entries)
    | list elements | array elements | collection elements =>
      exact grows_writeContainer H n object (grows_writeElements ih elements)
    | number m => exact grows_writeNumber P m
    | boolean b => exact hone _ _
    | null => exact grows_writeNull
    | date time => exact grows_writeScalar _ _ (Output.advances_writeLong _)
    | enum json => exact grows_writeContainer H n object (ih json)
    | bean key getters =>
      exact grows_writeContainer H n object (grows_writeAdapterObject P H ih object key getters)

end Builder

end Wson.Java
