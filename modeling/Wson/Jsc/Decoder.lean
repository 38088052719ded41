import Wson.Jsc.Cache
import Wson.Effect.Run

/-!
# `wson_to_js_value`

The decoder of `wson_jsc.cpp`. It builds new values only, so they are trees here; a
property is set under the index or the name that its identifier stands for. Recursion
takes the number of nested calls for which the stack has room.
-/

namespace Wson.Jsc

open Effect Wire Native

/-- What `PropertyName` distinguishes. -/
inductive PropertyKey where
  | index (index : BitVec 32)
  | name (name : Utf16)
deriving DecidableEq

/-- A decoded value, over the numbers `N` of the engine. -/
inductive Decoded (N : Type) where
  | null
  | boolean (value : Bool)
  | number (num : N)
  | string (s : Utf16)
  | array (items : List (Decoded N))
  | object (properties : List (PropertyKey × Decoded N))

/-- What the decoder asks of the engine: the overloads of `jsNumber`, `String::fromUTF8` and
`parseIndex`. -/
structure Vm (N : Type) where
  ofInt32 : BitVec 32 → N
  ofInt64 : BitVec 64 → N
  ofFloat : BitVec 32 → N
  ofDouble : BitVec 64 → N
  fromUTF8 : Bytes → Utf16
  parseIndex : Utf16 → Option (BitVec 32)

variable {N : Type} (V : Vm N) (e : Endian)

def Vm.propertyKey (identifer : Utf16) : PropertyKey :=
  match V.parseIndex identifer with
  | some index => .index index
  | none => .name identifer

/-- `putDirect` and `putDirectIndex`. -/
def putProperty (key : PropertyKey) (value : Decoded N) :
    List (PropertyKey × Decoded N) → List (PropertyKey × Decoded N)
  | [] => [(key, value)]
  | property :: properties =>
    if property.1 = key then (key, value) :: properties
    else property :: putProperty key value properties

/-- `wson_has_next`. -/
def hasNext : DecoderM Bool := do
  let d ← get
  pure (d.buffer.position < d.buffer.length)

/-- `propertyLength / sizeof(UChar)`, of an `int` that becomes a `size_t`. -/
def unitCount (propertyLength : BitVec 32) : Nat :=
  (propertyLength.signExtend 64).toNat / 2

def readString : DecoderM Utf16 := do
  let length ← onBuffer (Buffer.readVarUint .c)
  let src ← onBuffer (Buffer.readBts .c length)
  -- the destination has room for `length / 2` units
  if length.toNat % 2 = 1 then throw .outOfBounds
  unitsAt e src (length.toNat / 2)

def readUint8String : DecoderM Utf16 := do
  let size ← onBuffer (Buffer.readVarUint .c)
  let utf8 ← onBuffer (Buffer.readBts .c size)
  if size.toInt < 0 then throw .outOfBounds
  return V.fromUTF8 (← onBuffer (Buffer.bytesAt utf8 size.toNat))

section Switch

/- What `makeIdentifer` of the file does, and the call for a value inside of another one. -/
variable (makeIdentifer : Nat → Nat → DecoderM Utf16) (child : DecoderM (Decoded N))

/-- The loop over the elements of an array. -/
def readElements : Nat → List (Decoded N) → DecoderM (List (Decoded N))
  | 0, items => pure items
  | length + 1, items => do
    if ← hasNext then
      let value ← child
      readElements length (items ++ [value])
    else return items

/-- The loop over the entries of a map. -/
def readEntries : Nat → List (PropertyKey × Decoded N) → DecoderM (List (PropertyKey × Decoded N))
  | 0, properties => pure properties
  | length + 1, properties => do
    if ← hasNext then
      let propertyLength ← onBuffer (Buffer.readVarUint .c)
      let data ← onBuffer (Buffer.readBts .c propertyLength)
      let identifer ← makeIdentifer data (unitCount propertyLength)
      let value ← child
      readEntries length (putProperty (V.propertyKey identifer) value properties)
    else return properties

/-- The switch of `wson_to_js_value`. -/
def readValue (type : Byte) : DecoderM (Decoded N) := do
  match Doc.Kind.ofTag type with
  | some .uint8String => return .string (← readUint8String V)
  | some (.text _) => return .string (← readString e)
  | some .array =>
    let length ← onBuffer (Buffer.readVarUint .c)
    return .array (← readElements child length.toNat [])
  | some .map =>
    let length ← onBuffer (Buffer.readVarUint .c)
    return .object (← readEntries V makeIdentifer child length.toNat [])
  | some .int => return .number (V.ofInt32 (← onBuffer (Buffer.readVarInt .c)))
  | some (.boolean value) => return .boolean value
  | some .double => return .number (V.ofDouble (← onBuffer (Buffer.readDouble .c)))
  | some .float => return .number (V.ofFloat (← onBuffer (Buffer.readFloat .c)))
  | some .long => return .number (V.ofInt64 (← onBuffer (Buffer.readLong .c)))
  | some .null => return .null
  | none => return .null

end Switch

def wsonToJsValue : Nat → DecoderM (Decoded N)
  | 0 => throw .stackOverflow
  | n + 1 => do readValue V e (makeIdentifer e) (wsonToJsValue n) (← onBuffer (Buffer.readType .c))

/-! ## The cache along decodes -/

section Keeps

variable {V e} {identifers : Nat → Nat → DecoderM Utf16} {child : DecoderM (Decoded N)} {valid : Slot → Prop}

theorem keeps_bind {α β : Type} {m : DecoderM α} {f : α → DecoderM β} (hm : Preserves (KeepsSlots valid) m)
    (hf : ∀ a, Preserves (KeepsSlots valid) (f a)) : Preserves (KeepsSlots valid) (m >>= f) :=
  hm.bind KeepsSlots.trans hf

theorem keeps_pure {α : Type} (a : α) : Preserves (KeepsSlots valid) (pure a : DecoderM α) :=
  preserves_pure KeepsSlots.refl a

theorem keeps_throw {α : Type} (fault : Fault) : Preserves (KeepsSlots valid) (throw fault : DecoderM α) :=
  preserves_throw KeepsSlots.refl fault

theorem keeps_hasNext : Preserves (KeepsSlots valid) hasNext :=
  keeps_bind (preserves_get KeepsSlots.refl) fun _ => keeps_pure _

theorem keeps_readString : Preserves (KeepsSlots valid) (readString e) := by
  refine keeps_bind (keeps_onBuffer _) fun length => keeps_bind (keeps_onBuffer _) fun src => ?_
  split
  · exact keeps_bind (keeps_throw _) fun _ => keeps_unitsAt e _ _
  · exact keeps_unitsAt e _ _

theorem keeps_readUint8String : Preserves (KeepsSlots valid) (readUint8String V) := by
  refine keeps_bind (keeps_onBuffer _) fun size => keeps_bind (keeps_onBuffer _) fun utf8 => ?_
  have hbytes : Preserves (KeepsSlots valid)
      (do return V.fromUTF8 (← onBuffer (Buffer.bytesAt utf8 size.toNat)) : DecoderM Utf16) :=
    keeps_bind (keeps_onBuffer _) fun _ => keeps_pure _
  split
  · exact keeps_bind (keeps_throw _) fun _ => hbytes
  · exact hbytes

theorem keeps_readElements (hchild : Preserves (KeepsSlots valid) child) :
    ∀ (length : Nat) (items : List (Decoded N)), Preserves (KeepsSlots valid) (readElements child length items)
  | 0, _ => keeps_pure _
  | length + 1, items => by
    refine keeps_bind keeps_hasNext fun more => Preserves.ite ?_ (keeps_pure _)
    exact keeps_bind hchild fun value => keeps_readElements hchild length _

theorem keeps_readEntries (hmake : ∀ ptr length, Preserves (KeepsSlots valid) (identifers ptr length))
    (hchild : Preserves (KeepsSlots valid) child) :
    ∀ (length : Nat) (properties : List (PropertyKey × Decoded N)),
      Preserves (KeepsSlots valid) (readEntries V identifers child length properties)
  | 0, _ => keeps_pure _
  | length + 1, properties => by
    refine keeps_bind keeps_hasNext fun more => Preserves.ite ?_ (keeps_pure _)
    refine keeps_bind (keeps_onBuffer _) fun propertyLength => ?_
    refine keeps_bind (keeps_onBuffer _) fun data => ?_
    refine keeps_bind (hmake data _) fun identifer => ?_
    exact keeps_bind hchild fun value => keeps_readEntries hmake hchild length _

theorem keeps_readValue (hmake : ∀ ptr length, Preserves (KeepsSlots valid) (identifers ptr length))
    (hchild : Preserves (KeepsSlots valid) child) (type : Byte) :
    Preserves (KeepsSlots valid) (readValue V e identifers child type) := by
  unfold readValue
  split
  · exact keeps_bind keeps_readUint8String fun _ => keeps_pure _
  · exact keeps_bind keeps_readString fun _ => keeps_pure _
  · exact keeps_bind (keeps_onBuffer _) fun _ =>
      keeps_bind (keeps_readElements hchild _ _) fun _ => keeps_pure _
  · exact keeps_bind (keeps_onBuffer _) fun _ =>
      keeps_bind (keeps_readEntries hmake hchild _ _) fun _ => keeps_pure _
  · exact keeps_bind (keeps_onBuffer _) fun _ => keeps_pure _
  · exact keeps_pure _
  · exact keeps_bind (keeps_onBuffer _) fun _ => keeps_pure _
  · exact keeps_bind (keeps_onBuffer _) fun _ => keeps_pure _
  · exact keeps_bind (keeps_onBuffer _) fun _ => keeps_pure _
  · exact keeps_pure _
  · exact keeps_pure _

/-- **A decode** keeps the cache consistent, whatever it reads. -/
theorem keeps_wsonToJsValue : ∀ n : Nat, Preserves KeepsCache (wsonToJsValue V e n)
  | 0 => keeps_throw _
  | n + 1 => keeps_bind (keeps_onBuffer _) fun type =>
    keeps_readValue (keeps_makeIdentifer e) (keeps_wsonToJsValue n) type

end Keeps

/-- The table after a decode of `buffer` with room for `n` calls. -/
def decodeStep (cache : Cache) (decode : Nat × Buffer) : Cache :=
  (final (wsonToJsValue V e decode.1) ⟨decode.2, cache⟩).cache

/-- The tables that decodes find: the one of `init`, or a new one on the stack, after any decodes
that used it before. -/
inductive Reachable : Cache → Prop
  | init (decodes : List (Nat × Buffer)) :
    Reachable (run (decodeStep V e) (Cache.replicate 4096 (by decide) .initial) decodes)
  | fresh (count : BitVec 32) (hcount : count = 32 ∨ count = 64 ∨ count = 128)
    (decodes : List (Nat × Buffer)) :
    Reachable (run (decodeStep V e)
      (Cache.replicate count (by obtain rfl | rfl | rfl := hcount <;> decide) .fresh) decodes)

variable {V e} in
/-- **The cache invariant** holds of every table that a decode finds. -/
theorem Reachable.consistent {cache : Cache} (h : Reachable V e cache) : cache.Consistent := by
  have hrun : ∀ (decodes : List (Nat × Buffer)) {cache : Cache}, cache.Consistent →
      (run (decodeStep V e) cache decodes).Consistent := by
    intro decodes
    induction decodes with
    | nil => exact fun h => h
    | cons decode decodes ih => exact fun h => ih (keeps_wsonToJsValue decode.1 ⟨decode.2, _⟩ h)
  cases h with
  | init decodes => exact hrun decodes (Cache.consistent_replicate _ _ fun h => absurd rfl h)
  | fresh count hcount decodes => exact hrun decodes (Cache.consistent_replicate _ _ fun h => absurd rfl h)

end Wson.Jsc
