import Wson.Java.Memory
import Wson.Java.RoundTrip

/-!
# Where the builder stores

`Wson.java`'s `Builder` once more, this time writing through the references of
`Memory`, so that every store of a run is recorded with the array it goes to.

- `outputSize`: how many bytes a run writes until it ends, taken from the run of
  `Builder.writeObject` over an array that is never too short.
- `follows_writeObject`: below `2^29` bytes the two runs end in the same way and have
  written the same bytes.
- `storesInside`: hence all stores of such a run fall inside the array that is current
  when they are made, and no growth loses a byte.
-/

namespace Wson.Java

open Effect Wire

structure MemoryBuilder (O : Type) where
  refs : List O
  memory : Memory
  specialClass : LruCache Utf16 Bool

abbrev MemoryBuilderM (O : Type) := EStateM Throwable (MemoryBuilder O)

namespace MemoryBuilder

variable {O : Type}

def onMemory {α : Type} (m : MemoryM α) : MemoryBuilderM O α :=
  zoom MemoryBuilder.memory (fun mem t => { t with memory := mem }) m

def getRefs : MemoryBuilderM O (List O) := do
  let t ← get
  pure t.refs

def pushRef (object : O) : MemoryBuilderM O Unit :=
  modify fun t => { t with refs := t.refs ++ [object] }

def popRef : MemoryBuilderM O Unit := fun t =>
  if t.refs = [] then .error .arrayIndexOutOfBounds t
  else .ok () { t with refs := t.refs.dropLast }

def liftExcept {α : Type} : Except Throwable α → MemoryBuilderM O α
  | .ok a => pure a
  | .error e => throw e

def isSpecial (key : Utf16) : MemoryBuilderM O Bool := fun t =>
  .ok (t.specialClass.get key).1.isSome { t with specialClass := (t.specialClass.get key).2 }

def markSpecial (key : Utf16) : MemoryBuilderM O Unit :=
  modify fun t => { t with specialClass := t.specialClass.put key true }

def writeNull : MemoryBuilderM O Unit :=
  onMemory do
    Memory.ensureCapacity 2
    Memory.writeByte Tag.null

def writeUTF16String (e : Endian) (value : Utf16) : MemoryBuilderM O Unit :=
  onMemory (Memory.writeUTF16String e value)

def writeMapKeyUTF16 (e : Endian) (value : Utf16) : MemoryBuilderM O Unit :=
  writeUTF16String e value

def writeScalar (request : Int) (tag : Byte) (payload : MemoryM Unit) : MemoryBuilderM O Unit :=
  onMemory do
    Memory.ensureCapacity request
    Memory.writeByte tag
    payload

variable (P : Platform) (H : Heap O)

def writeNumber : JNumber → MemoryBuilderM O Unit
  | .integer x => writeScalar 12 Tag.int (Memory.writeVarInt x)
  | .float x => writeScalar 12 Tag.float (Memory.writeFloat x)
  | .double x => writeScalar 12 Tag.double (Memory.writeDouble x)
  | .long x => writeScalar 12 Tag.long (Memory.writeLong x)
  | .short x => writeScalar 12 Tag.int (Memory.writeVarInt (x.signExtend 32))
  | .byte x => writeScalar 12 Tag.int (Memory.writeVarInt (x.signExtend 32))
  | .bigInteger n => do
    writeScalar 12 Tag.bigInteger (pure ())
    writeUTF16String P.endian (BigInteger.toString n)
  | .bigDecimal b =>
    if b.toString = P.doubleToString (P.doubleValue b) then
      writeScalar 12 Tag.double (Memory.writeDouble (P.doubleValue b))
    else do
      writeScalar 12 Tag.bigDecimal (pure ())
      writeUTF16String P.endian b.toString
  | .other text => do
    writeScalar 12 Tag.string (pure ())
    writeUTF16String P.endian text

def writeElements (write : O → MemoryBuilderM O Unit) (elements : List O) :
    MemoryBuilderM O Unit := do
  writeScalar 8 Tag.array (Memory.writeUInt (BitVec.ofNat 32 elements.length))
  elements.forM write

def writeEntry (write : O → MemoryBuilderM O Unit) (entry : Key × O) : MemoryBuilderM O Unit :=
  if H.isNull entry.2 then pure ()
  else do
    let key ← liftExcept entry.1.toString
    writeMapKeyUTF16 P.endian key
    write entry.2

def writeMap (write : O → MemoryBuilderM O Unit) (entries : List (Key × O)) :
    MemoryBuilderM O Unit := do
  let nullValueSize := (entries.filter fun entry => H.isNull entry.2).length
  writeScalar 8 Tag.map
    (Memory.writeUInt (BitVec.ofNat 32 entries.length - BitVec.ofNat 32 nullValueSize))
  entries.forM (writeEntry P H write)

def writeAdapterObject (write : O → MemoryBuilderM O Unit) (object : O) (key : Utf16)
    (getters : Except Throwable (List (Utf16 × Except Throwable O))) :
    MemoryBuilderM O Unit := do
  if ← isSpecial key then write (H.toJSON object)
  else
    tryCatch (do writeMap P H write (← liftExcept (Builder.toMap H getters))) fun err => do
      if err.isException then
        markSpecial key
        write (H.toJSON object)
      else throw err

section

variable [DecidableEq O]

def writeContainer (n : Nat) (object : O) (body : MemoryBuilderM O Unit) :
    MemoryBuilderM O Unit := do
  match H.contains n (← getRefs) object with
  | none => throw .stackOverflow
  | some true => writeNull
  | some false =>
    pushRef object
    body
    popRef

def writeObject : Nat → O → MemoryBuilderM O Unit
  | 0, _ => throw .stackOverflow
  | n + 1, object =>
    match H.view object with
    | .string s => do
      writeScalar 2 Tag.string (pure ())
      writeUTF16String P.endian s
    | .map entries => writeContainer H n object (writeMap P H (writeObject n) entries)
    | .list elements => writeContainer H n object (writeElements (writeObject n) elements)
    | .number m => writeNumber P m
    | .boolean b => writeScalar 2 (booleanTag b) (pure ())
    | .null => writeNull
    | .array elements => writeContainer H n object (writeElements (writeObject n) elements)
    | .date time =>
      writeScalar 10 Tag.double (Memory.writeDouble (Binary64.ofInt time.toInt))
    | .collection elements =>
      writeContainer H n object (writeElements (writeObject n) elements)
    | .enum json => writeContainer H n object (writeObject n json)
    | .bean key getters =>
      writeContainer H n object (writeAdapterObject P H (writeObject n) object key getters)

end

/-! ## In step with the builder -/

/-- The same stack, the same cache, and the same bytes. -/
structure Mirrors (b : Builder O) (t : MemoryBuilder O) : Prop where
  refs : b.refs = t.refs
  memory : Memory.Mirrors b.output t.memory
  specialClass : b.specialClass = t.specialClass

/-- Less than `2^29` bytes have been written. -/
def Short (b : Builder O) : Prop :=
  Memory.Short b.output

/-- The run on references ends as the run on values, while less than `2^29` bytes are written. -/
def InStep {α : Type} (m : BuilderM O α) (m' : MemoryBuilderM O α) : Prop :=
  Follows Mirrors Short m m'

theorem inStep_onMemory {α : Type} {m : OutputM α} {m' : MemoryM α}
    (h : Follows Memory.Mirrors Memory.Short m m') :
    InStep (Builder.onOutput m : BuilderM O α) (onMemory m') :=
  h.zoom (fun _ _ hst => hst.memory) (fun _ _ _ _ hst huv => ⟨hst.refs, huv, hst.specialClass⟩)
    (fun _ => Iff.rfl) fun _ _ => rfl

theorem inStep_getRefs : InStep (Builder.getRefs : BuilderM O (List O)) getRefs where
  kept _ h := h
  follows _ _ hst _ := .ok hst.refs hst

theorem inStep_pushRef (object : O) : InStep (Builder.pushRef object) (pushRef object) where
  kept _ h := h
  follows _ _ hst _ := .ok rfl ⟨congrArg (· ++ [object]) hst.refs, hst.memory, hst.specialClass⟩

theorem inStep_popRef : InStep (Builder.popRef : BuilderM O Unit) popRef where
  kept b h := by
    unfold final Builder.popRef at h
    split at h
    · next heq =>
      split at heq
      · exact nomatch heq
      · obtain ⟨-, rfl⟩ := EStateM.Result.ok.inj heq
        exact h
    · next heq =>
      split at heq
      · obtain ⟨-, rfl⟩ := EStateM.Result.error.inj heq
        exact h
      · exact nomatch heq
  follows b t hst _ := by
    unfold Builder.popRef popRef
    rw [hst.refs]
    split
    · exact .error _ hst
    · exact .ok rfl ⟨by simp only, hst.memory, hst.specialClass⟩

theorem inStep_liftExcept {α : Type} (x : Except Throwable α) :
    InStep (Builder.liftExcept x : BuilderM O α) (liftExcept x) := by
  cases x with
  | ok a => exact follows_pure a
  | error e => exact follows_throw e

theorem inStep_isSpecial (key : Utf16) :
    InStep (Builder.isSpecial key : BuilderM O Bool) (isSpecial key) where
  kept _ h := h
  follows b t hst _ := by
    unfold Builder.isSpecial isSpecial
    rw [hst.specialClass]
    exact .ok rfl ⟨hst.refs, hst.memory, rfl⟩

theorem inStep_markSpecial (key : Utf16) :
    InStep (Builder.markSpecial key : BuilderM O Unit) (markSpecial key) where
  kept _ h := h
  follows _ _ hst _ := .ok rfl ⟨hst.refs, hst.memory, congrArg (·.put key true) hst.specialClass⟩

theorem inStep_writeScalar {payload : OutputM Unit} {payload' : MemoryM Unit} {request : Int}
    (tag : Byte) {bs : Bytes} (hpayload : Appends payload bs) (hadv : Output.Advances payload)
    (hpayload' : Memory.Fills payload' bs) (hle : bs.length + 1 ≤ request)
    (hsmall : request ≤ 12) :
    InStep (Builder.writeScalar request tag payload : BuilderM O Unit)
      (writeScalar request tag payload') :=
  inStep_onMemory (Memory.follows_scalar hpayload hadv hpayload' hle hsmall)

theorem inStep_writeUTF16String (e : Endian) (value : Utf16) :
    InStep (Builder.writeUTF16String e value : BuilderM O Unit) (writeUTF16String e value) :=
  inStep_onMemory (Memory.follows_text e value)

theorem inStep_writeNull : InStep (Builder.writeNull : BuilderM O Unit) writeNull :=
  inStep_onMemory (Memory.follows_small (Output.appends_writeByte Tag.null) (List.cons_ne_nil _ _)
    (Output.advances_writeByte Tag.null) (Memory.fills_writeByte Tag.null) (by decide) (by decide))

theorem length_encode_le (n : Nat) : (encode n).length ≤ 5 :=
  encodeGroups_length_le 4 n

/-- A type byte in front of a varint, which has at most five bytes. -/
theorem inStep_writeUInt {request : Int} (tag : Byte) (value : BitVec 32) (hle : 6 ≤ request)
    (hsmall : request ≤ 12) :
    InStep (Builder.writeScalar request tag (Output.writeUInt value) : BuilderM O Unit)
      (writeScalar request tag (Memory.writeUInt value)) := by
  have h5 := length_encode_le value.toNat
  exact inStep_writeScalar tag (Output.appends_writeUInt value) (Output.advances_writeUInt value)
    (Memory.fills_writeUInt value) (by omega) hsmall

theorem inStep_writeLong {request : Int} (tag : Byte) (val : BitVec 64) (hle : 9 ≤ request)
    (hsmall : request ≤ 12) :
    InStep (Builder.writeScalar request tag (Output.writeLong val) : BuilderM O Unit)
      (writeScalar request tag (Memory.writeLong val)) :=
  inStep_writeScalar tag (Output.appends_writeLong val) (Output.advances_writeLong val)
    (Memory.fills_writeLong val) hle hsmall

/-- A type byte with its own request, and a text. -/
theorem inStep_text {request : Int} (tag : Byte) (value : Utf16) (hle : 1 ≤ request)
    (hsmall : request ≤ 12) :
    InStep (do
        Builder.writeScalar request tag (pure ())
        Builder.writeUTF16String P.endian value : BuilderM O Unit)
      (do
        writeScalar request tag (pure ())
        writeUTF16String P.endian value) :=
  (inStep_writeScalar tag Output.appends_pure Output.advances_pure Memory.fills_pure hle
    hsmall).bind fun _ => inStep_writeUTF16String P.endian value

theorem inStep_writeNumber (m : JNumber) :
    InStep (Builder.writeNumber P.endian P.doubleValue P.doubleToString m : BuilderM O Unit)
      (writeNumber P m) := by
  cases m with
  | byte x | short x | integer x => exact inStep_writeUInt _ _ (by decide) (by decide)
  | long x | double x => exact inStep_writeLong _ _ (by decide) (by decide)
  | float x =>
    exact inStep_writeScalar _ (Output.appends_writeFloat x) (Output.advances_writeFloat x)
      (Memory.fills_writeFloat x) (by rw [be32_length]; decide) (by decide)
  | bigInteger n => exact inStep_text P _ _ (by decide) (by decide)
  | bigDecimal b =>
    exact (inStep_writeLong _ _ (by decide) (by decide)).ite
      (inStep_text P _ _ (by decide) (by decide))
  | other text => exact inStep_text P _ _ (by decide) (by decide)

section Recursion

variable {write : O → BuilderM O Unit} {write' : O → MemoryBuilderM O Unit}
  (hwrite : ∀ o, InStep (write o) (write' o))
include hwrite

theorem inStep_writeElements (elements : List O) :
    InStep (Builder.writeElements write elements) (writeElements write' elements) :=
  (inStep_writeUInt _ _ (by decide) (by decide)).bind fun _ => follows_forM elements hwrite

theorem inStep_writeEntry (entry : Key × O) :
    InStep (Builder.writeEntry P H write entry) (writeEntry P H write' entry) := by
  refine (follows_pure ()).ite ((inStep_liftExcept _).bind fun key => ?_)
  exact (inStep_writeUTF16String P.endian key).bind fun _ => hwrite entry.2

theorem inStep_writeMap (entries : List (Key × O)) :
    InStep (Builder.writeMap P H write entries) (writeMap P H write' entries) :=
  (inStep_writeUInt _ _ (by decide) (by decide)).bind fun _ =>
    follows_forM entries (inStep_writeEntry P H hwrite)

theorem inStep_writeAdapterObject (object : O) (key : Utf16)
    (getters : Except Throwable (List (Utf16 × Except Throwable O))) :
    InStep (Builder.writeAdapterObject P H write object key getters)
      (writeAdapterObject P H write' object key getters) := by
  refine (inStep_isSpecial key).bind fun special => (hwrite _).ite (Follows.tryCatch ?_ ?_)
  · exact (inStep_liftExcept _).bind fun entries => inStep_writeMap P H hwrite entries
  · intro err
    exact ((inStep_markSpecial key).bind fun _ => hwrite _).ite (follows_throw err)

end Recursion

variable [DecidableEq O]

theorem inStep_writeContainer (n : Nat) (object : O) {body : BuilderM O Unit}
    {body' : MemoryBuilderM O Unit} (hbody : InStep body body') :
    InStep (Builder.writeContainer H n object body) (writeContainer H n object body') := by
  refine inStep_getRefs.bind fun refs => ?_
  cases H.contains n refs object with
  | none => exact follows_throw Throwable.stackOverflow
  | some cut =>
    cases cut with
    | true => exact inStep_writeNull
    | false =>
      exact (inStep_pushRef object).bind fun _ => hbody.bind fun _ => inStep_popRef

/-- **The two runs keep in step**, by induction on the room on the stack. -/
theorem follows_writeObject (n : Nat) (object : O) :
    InStep (Builder.writeObject P H n object) (writeObject P H n object) := by
  induction n generalizing object with
  | zero => exact follows_throw Throwable.stackOverflow
  | succ n ih =>
    rw [Builder.writeObject, writeObject]
    cases H.view object with
    | string s => exact inStep_text P _ _ (by decide) (by decide)
    | map entries => exact inStep_writeContainer H n object (inStep_writeMap P H ih entries)
    | list elements | array elements | collection elements =>
      exact inStep_writeContainer H n object (inStep_writeElements ih elements)
    | number m => exact inStep_writeNumber P m
    | boolean b =>
      exact inStep_writeScalar _ Output.appends_pure Output.advances_pure Memory.fills_pure
        (by decide) (by decide)
    | null => exact inStep_writeNull
    | date time => exact inStep_writeLong _ _ (by decide) (by decide)
    | enum json => exact inStep_writeContainer H n object (ih json)
    | bean key getters =>
      exact inStep_writeContainer H n object (inStep_writeAdapterObject P H ih object key getters)

/-! ## Every store -/

/-- The run of the builder over an array that is never too short: as an `int` is below
`2^31`, `ensureCapacity` never replaces an array of that length. -/
def unbounded (refs : List O) (specialClass : LruCache Utf16 Bool) (n : Nat) (object : O) :
    Builder O :=
  final (Builder.writeObject P H n object) ⟨refs, ⟨List.replicate (2 ^ 31) 0, 0⟩, specialClass⟩

/-- The number of bytes the run writes until it ends. -/
def outputSize (refs : List O) (specialClass : LruCache Utf16 Bool) (n : Nat) (object : O) : Nat :=
  (unbounded P H refs specialClass n object).output.position

/-- The state in which the run on a new output over `pooled` ends. -/
def recorded (pooled : Bytes) (refs : List O) (specialClass : LruCache Utf16 Bool) (n : Nat)
    (object : O) : MemoryBuilder O :=
  final (writeObject P H n object) ⟨refs, Memory.start pooled, specialClass⟩

/-- No store of the run missed the current array, no growth lost a byte, and the bytes that
are to be written are there. -/
structure StoresInside (pooled : Bytes) (refs : List O) (specialClass : LruCache Utf16 Bool)
    (n : Nat) (object : O) : Prop where
  stores : ∀ s ∈ (recorded P H pooled refs specialClass n object).memory.stores, s.Inside
  growths : ∀ g ∈ (recorded P H pooled refs specialClass n object).memory.growths, g.Keeps
  size : (recorded P H pooled refs specialClass n object).memory.position
    = outputSize P H refs specialClass n object
  written : (recorded P H pooled refs specialClass n object).memory.current.take
      (outputSize P H refs specialClass n object)
    = (unbounded P H refs specialClass n object).output.written

/-- For a tree the size is the length of its encoding. -/
theorem outputSize_represents {v : JValue} {o : O} {n : Nat} {refs : List O}
    {specialClass : LruCache Utf16 Bool} (ho : Represents H v o) (hr : v.Regular)
    (hn : v.height + 1 < n) (hp : Unmatched H v.height refs)
    (hlen : ((v.written P).doc.encode P.endian).length < 2 ^ 31) :
    outputSize P H refs specialClass n o = ((v.written P).doc.encode P.endian).length := by
  have hbytes := (v.written P).bytes_eq (Doc.sized_of_encode_lt P.endian (by omega))
  have hfits : Output.fits (v.written P).chunks (2 ^ 31) 0 :=
    Output.fits_large (Int.le_refl 0) (by rw [hbytes]; omega)
  have hplay : (Output.play _ (v.written P).chunks).isSome = _ :=
    Output.play_isSome ⟨List.replicate (2 ^ 31) 0, 0⟩
  rw [List.length_replicate] at hplay
  obtain ⟨out, hout⟩ := Option.isSome_iff_exists.mp (hplay.trans hfits)
  obtain ⟨b', hq, rfl, -⟩ := (Builder.emits_writeObject H n o).complete
    (b := ⟨refs, ⟨List.replicate (2 ^ 31) 0, 0⟩, specialClass⟩) (Builder.specialIs_marked _)
    (chunks_represents ho hr hn hp) hout
  have hpos := (Output.play_position hout).1
  rw [hbytes, Nat.zero_add] at hpos
  rw [outputSize, unbounded, final_of_ok hq.1, hpos]

/-- **The builder never stores outside its buffer**, whatever array the pool has given it,
and however the run ends, as long as it writes less than `2^29` bytes. -/
theorem storesInside {pooled : Bytes} (hpooled : pooled.length < 2 ^ 31) (refs : List O)
    (specialClass : LruCache Utf16 Bool) (n : Nat) (object : O)
    (hsize : outputSize P H refs specialClass n object < 2 ^ 29) :
    StoresInside P H pooled refs specialClass n object := by
  -- beside a run that never has to grow, of which the position says how much is written
  have hstart : Mirrors (⟨refs, ⟨List.replicate (2 ^ 31) 0, 0⟩, specialClass⟩ : Builder O)
      ⟨refs, Memory.start pooled, specialClass⟩ := by
    refine ⟨rfl, ⟨List.length_replicate, rfl, ?_, Nat.zero_le _, hpooled, Nat.one_pos,
      Memory.clean_start pooled⟩, rfl⟩
    rw [Output.written]
    rfl
  have hend := ((follows_writeObject P H n object).follows hstart hsize).final
  have hmemory : Memory.Mirrors (unbounded P H refs specialClass n object).output
    (recorded P H pooled refs specialClass n object).memory := hend.memory
  refine ⟨hmemory.clean.stores, hmemory.clean.growths, hmemory.position, ?_⟩
  rw [← hmemory.written, hmemory.position]
  rfl

/-- `{"k": ["a", null]}` over an empty array. -/
theorem storesInside_sample :
    StoresInside Platform.plain sampleHeap [] [] ⟨[], 16, 0⟩ 4 3 := by
  have hsize : outputSize Platform.plain sampleHeap [] ⟨[], 16, 0⟩ 4 3 = 12 :=
    outputSize_represents (v := .map [([0x6B], .list [.string [0x61], .null])]) _ _
      ⟨_, rfl, _, _, rfl, ⟨_, rfl, _, _, rfl, rfl, _, _, rfl, rfl, rfl⟩, rfl⟩
      ⟨List.nodup_singleton _, ⟨trivial, trivial, trivial⟩, trivial⟩ (by decide)
      (unmatched_nil _) (by decide)
  exact storesInside _ _ (by decide) _ _ _ _ (by rw [hsize]; decide)

end MemoryBuilder

end Wson.Java
