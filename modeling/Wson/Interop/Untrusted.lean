import Wson.Ios.Parser
import Wson.Jsc.Wsonjsc
import Wson.Native.Metered
import Wson.Runtime.Value

/-!
# Decoders on untrusted bytes

The headers of arrays and maps can claim any counts, and the lengths of texts can be any
numbers of 32 bits. The decoders in C++ and Objective-C are not misled: what they build has no
more values than there are bytes, and they are nested no deeper.
-/

namespace Wson

open Effect Wire Native

/-! ## The runtime -/

namespace Runtime

namespace RuntimeValue

mutual

def nodes : RuntimeValue → Nat
  | .array items => nodesItems items + 1
  | .map entries => nodesEntries entries + 1
  | _ => 1

def nodesItems : List RuntimeValue → Nat
  | [] => 0
  | item :: items => nodes item + nodesItems items

def nodesEntries : List (Bytes × RuntimeValue) → Nat
  | [] => 0
  | (_, value) :: entries => nodes value + nodesEntries entries

end

end RuntimeValue

open RuntimeValue

theorem nodesEntries_insert_le (key : Bytes) (value : RuntimeValue) (entries : List (Bytes × RuntimeValue)) :
    nodesEntries (insert key value entries) ≤ nodes value + nodesEntries entries := by
  induction entries with
  | nil => exact Nat.le_refl _
  | cons entry entries ih =>
    obtain ⟨k, v⟩ := entry
    rw [insert]
    split
    · simp only [nodesEntries]
      omega
    · simp only [nodesEntries]
      omega

section Pays

variable {e : Endian} {data : Bytes} {n : Nat}

open Buffer

theorem pays_hasNext : Pays data 1 1 n 0 (fun _ => 0) hasNext := by
  intro buffer p hp
  exact ⟨p, hp, Nat.le_refl p, Nat.le_refl _⟩

theorem pays_readString16 (hdata : data.length < 2 ^ 31) :
    Pays data 1 1 n 0 (fun _ => 1) (readString16 e) := by
  refine pays_block hdata (fun length => show length.toNat ≤ length.toNat / 2 * 2 + 1 by omega) ?_
  intro length ptr
  have hguard : Peeks (fun buffer => buffer) data ptr 0 (Parser.requireDecodingBuffer length) :=
    .ite (peeks_throw (by decide)) (peeks_pure _)
  exact hguard.before fun _ => peeks_bytesAt.wrap _

theorem pays_readUtf8 (hdata : data.length < 2 ^ 31) : Pays data 1 1 n 0 (fun _ => 1) (Parser.readUtf8 .c) := by
  refine pays_block hdata (fun size => Nat.le_succ size.toNat) ?_
  intro size utf8
  unfold Parser.appendBytes
  split
  · exact (peeks_throw (by decide)).before fun _ => peeks_bytesAt
  · exact peeks_bytesAt

variable {convert : BufferM RuntimeValue}

theorem pays_convertItems (hconvert : Pays data 1 1 n 0 nodes convert) (length : Nat) :
    Pays data 1 1 n 0 nodesItems (convertItems convert length) := by
  induction length with
  | zero => exact metered_pure (fun _ _ h => h) (Nat.le_refl 0)
  | succ length ih =>
    refine pays_hasNext.bind fun next => .ite ?_ (metered_pure (fun _ _ h => h) (Nat.le_refl 0))
    refine hconvert.bind fun item => ?_
    have hrest : Pays data 1 1 n (nodes item) (fun items => nodesItems items + nodes item)
        (convertItems convert length) :=
      ih.mono (fun _ _ h => h) (fun _ _ h => h) fun items => Nat.le_refl _
    refine hrest.bind fun items => metered_pure (fun _ _ h => h) ?_
    rw [nodesItems, Nat.add_comm]

/-- The entries that are there already are a credit. -/
theorem pays_convertEntries (hdata : data.length < 2 ^ 31) (hconvert : Pays data 1 1 n 0 nodes convert)
    (length : Nat) (runtimeMap : List (Bytes × RuntimeValue)) :
    Pays data 1 1 n (nodesEntries runtimeMap) nodesEntries (convertEntries e convert length runtimeMap) := by
  induction length generalizing runtimeMap with
  | zero => exact metered_pure (fun _ _ h => h) (Nat.le_refl _)
  | succ length ih =>
    have hnext : Pays data 1 1 n (nodesEntries runtimeMap) (fun _ => nodesEntries runtimeMap) hasNext :=
      pays_hasNext.mono (fun _ _ h => h) (fun _ _ h => h) fun _ => by omega
    refine hnext.bind fun next => .ite ?_ (metered_pure (fun _ _ h => h) (Nat.le_refl _))
    have hname : Pays data 1 1 n (nodesEntries runtimeMap) (fun _ => nodesEntries runtimeMap) (readString16 e) :=
      (pays_readString16 hdata).mono (fun _ _ h => h) (fun _ _ h => h) fun _ => by omega
    have hvalue : Pays data 1 1 n (nodesEntries runtimeMap) (fun value => nodes value + nodesEntries runtimeMap)
        convert := hconvert.mono (fun _ _ h => h) (fun _ _ h => h) fun _ => by omega
    refine hname.bind fun name => hvalue.bind fun value => ?_
    refine (ih (insert name value runtimeMap)).mono (fun _ _ h => h) (fun _ _ h => h) fun entries => ?_
    exact Nat.add_le_add_left (nodesEntries_insert_le name value runtimeMap) _

/-- The tag has paid for the value itself. -/
theorem pays_convertValue (hdata : data.length < 2 ^ 31) (hconvert : Pays data 1 1 n 0 nodes convert) (type : Byte) :
    Pays data 1 1 n 1 nodes (convertValue e convert type) := by
  have hnear : ∀ buffer p, Near data 0 buffer p → Near data 1 buffer p := Near.mono (Nat.zero_le 1)
  have hconstant {value : RuntimeValue} (hvalue : nodes value = 1) : Pays data 1 1 n 1 nodes (pure value) :=
    metered_pure (fun _ _ h => h) (Nat.le_of_eq hvalue)
  unfold convertValue
  cases Doc.Kind.ofTag type with
  | none => exact hconstant rfl
  | some kind =>
    cases kind with
    | null | boolean _ => exact hconstant rfl
    | int => exact (pays_readVarInt hdata).leaf hnear fun _ => rfl
    | long | double => exact (pays_readFixedUint64 hdata).leaf hnear fun _ => rfl
    | float => exact (pays_readFloat hdata).leaf hnear fun _ => rfl
    | text _ => exact (pays_readString16 hdata).leaf (fun _ _ h => h) fun _ => rfl
    | uint8String => exact (pays_readUtf8 hdata).leaf (fun _ _ h => h) fun _ => rfl
    | array =>
      exact (pays_readVarUint hdata).node hnear (fun length => pays_convertItems hconvert length.toNat) fun _ => rfl
    | map =>
      exact (pays_readVarUint hdata).node hnear (fun length => pays_convertEntries hdata hconvert length.toNat [])
        fun _ => rfl

/-- **A decode**: each call has the byte of its tag to itself. -/
theorem pays_convertWsonToRuntimeValue (hdata : data.length < 2 ^ 31) (n : Nat) :
    Pays data 1 1 n 0 nodes (convertWsonToRuntimeValue e n) := by
  induction n with
  | zero =>
    intro buffer p hp _
    exact hp.le
  | succ n ih =>
    refine (pays_readType hdata).next fun type => ?_
    exact (pays_convertValue hdata ih type).mono (Near.mono (Nat.zero_le 1)) (fun _ _ h => h) fun _ => Nat.le_refl _

end Pays

end Runtime

/-! ## The iOS parser -/

namespace Ios

namespace Parsed

mutual

def nodes : Parsed → Nat
  | .array items => nodesItems items + 1
  | .dictionary entries => nodesEntries entries + 1
  | _ => 1

def nodesItems : List Parsed → Nat
  | [] => 0
  | item :: items => nodes item + nodesItems items

def nodesEntries : List (Utf16 × Parsed) → Nat
  | [] => 0
  | (_, value) :: entries => nodes value + nodesEntries entries

end

/-- Those of `nil` are none. -/
def nodesOf : Option Parsed → Nat
  | some value => nodes value
  | none => 0

theorem nodesItems_append (items items' : List Parsed) :
    nodesItems (items ++ items') = nodesItems items + nodesItems items' := by
  induction items with
  | nil => exact (Nat.zero_add _).symm
  | cons item items ih => rw [List.cons_append, nodesItems, nodesItems, ih, Nat.add_assoc]

end Parsed

open Parsed

theorem nodesEntries_setObject_le (key : Utf16) (value : Parsed) (entries : List (Utf16 × Parsed)) :
    nodesEntries (setObject key value entries) ≤ nodes value + nodesEntries entries := by
  induction entries with
  | nil => exact Nat.le_refl _
  | cons entry entries ih =>
    obtain ⟨k, v⟩ := entry
    rw [setObject]
    split
    · simp only [nodesEntries]
      omega
    · simp only [nodesEntries]
      omega

/-- A reader of the parser, which also raises exceptions of its own. -/
abbrev Pays {α : Type} (data : Bytes) (before after n credit : Nat) (size : α → Nat) (m : ParserM α) : Prop :=
  Metered (Buffer.Near data before) (Buffer.Near data after) (Raised.fault .stackOverflow) data.length n credit
    size m

section Pays

variable {e : Endian} {data : Bytes} {n : Nat}

open Buffer

theorem pays_onBuffer {α : Type} {m : BufferM α} {before after credit : Nat} {size : α → Nat}
    (hm : Buffer.Pays data before after n credit size m) : Pays data before after n credit size (onBuffer m) :=
  metered_adaptExcept (fun _ _ h => Raised.fault.inj h) hm

theorem pays_hasNext : Pays data 1 1 n 0 (fun _ => 0) hasNext := by
  intro buffer p hp
  exact ⟨p, hp, Nat.le_refl p, Nat.le_refl _⟩

theorem pays_readCharacters (hdata : data.length < 2 ^ 31) :
    Buffer.Pays data 1 1 n 0 (fun _ => 1) (readCharacters e) := by
  refine pays_block hdata (fun length => show length.toNat ≤ 2 * (length.toNat / 2) + 1 by omega) ?_
  intro length ptr
  exact peeks_bytesAt.wrap _

variable {obj : ParserM (Option Parsed)}

theorem pays_member (hobj : Pays data 1 1 n 0 nodesOf obj) : Pays data 1 1 n 0 nodes (member obj) := by
  refine hobj.bind fun object => ?_
  cases object with
  | some value => exact metered_pure (fun _ _ h => h) (Nat.le_refl _)
  | none => exact metered_throw fun heq => Raised.noConfusion heq

/-- The elements that are there already are a credit. -/
theorem pays_readItems (hobj : Pays data 1 1 n 0 nodesOf obj) (length : Nat) (array : List Parsed) :
    Pays data 1 1 n (nodesItems array) nodesItems (readItems obj length array) := by
  induction length generalizing array with
  | zero => exact metered_pure (fun _ _ h => h) (Nat.le_refl _)
  | succ length ih =>
    have hitem := (pays_member hobj).frame (nodesItems array)
    refine (pays_hasNext.frame (nodesItems array)).bind fun next => .ite ?_ ?_
    · refine (hitem.mono (fun _ _ h => h) (fun _ _ h => h) fun item => ?_).bind fun item => ih (array ++ [item])
      simp only [nodesItems_append, nodesItems]
      omega
    · exact metered_pure (fun _ _ h => h) (Nat.le_add_left _ _)

theorem pays_readEntries (hdata : data.length < 2 ^ 31) (hobj : Pays data 1 1 n 0 nodesOf obj) (mapLength : Nat)
    (dic : List (Utf16 × Parsed)) :
    Pays data 1 1 n (nodesEntries dic) nodesEntries (readEntries e obj mapLength dic) := by
  induction mapLength generalizing dic with
  | zero => exact metered_pure (fun _ _ h => h) (Nat.le_refl _)
  | succ mapLength ih =>
    have hkey : Pays data 1 1 n (nodesEntries dic) (fun _ => nodesEntries dic) (onBuffer (readCharacters e)) :=
      (pays_onBuffer (pays_readCharacters hdata)).mono (fun _ _ h => h) (fun _ _ h => h) fun _ => by omega
    refine hkey.bind fun key => ((pays_member hobj).frame (nodesEntries dic)).bind fun value => ?_
    refine (ih (setObject key value dic)).mono (fun _ _ h => h) (fun _ _ h => h) fun entries => ?_
    exact Nat.add_le_add_left (nodesEntries_setObject_le key value dic) _

theorem pays_readValue (hdata : data.length < 2 ^ 31) (hobj : Pays data 1 1 n 0 nodesOf obj) (type : Byte) :
    Pays data 1 1 n 1 nodesOf (readValue e obj type) := by
  have hnear : ∀ buffer p, Near data 0 buffer p → Near data 1 buffer p := Near.mono (Nat.zero_le 1)
  have hheader : Pays data 1 0 n 0 (fun _ => 1) (onBuffer (readVarUint .c)) :=
    pays_onBuffer (pays_readVarUint hdata)
  have hconstant {object : Option Parsed} (hobject : nodesOf object ≤ 1) : Pays data 1 1 n 1 nodesOf (pure object) :=
    metered_pure (fun _ _ h => h) hobject
  unfold readValue
  cases Doc.Kind.ofTag type with
  | none => exact hconstant (Nat.zero_le 1)
  | some kind =>
    cases kind with
    | null | boolean _ => exact hconstant (Nat.le_refl 1)
    | uint8String => exact hconstant (Nat.zero_le 1)
    | int => exact (pays_onBuffer (pays_readVarInt hdata)).leaf hnear fun _ => rfl
    | long | double => exact (pays_onBuffer (pays_readFixedUint64 hdata)).leaf hnear fun _ => rfl
    | float => exact (pays_onBuffer (pays_readFloat hdata)).leaf hnear fun _ => rfl
    | text _ => exact (pays_onBuffer (pays_readCharacters hdata)).leaf (fun _ _ h => h) fun _ => rfl
    | array => exact hheader.node hnear (fun length => pays_readItems hobj length.toNat []) fun _ => rfl
    | map => exact hheader.node hnear (fun mapLength => pays_readEntries hdata hobj mapLength.toNat []) fun _ => rfl

theorem pays_toObj (hdata : data.length < 2 ^ 31) (n : Nat) : Pays data 1 1 n 0 nodesOf (toObj e n) := by
  induction n with
  | zero =>
    intro buffer p hp _
    exact hp.le
  | succ n ih =>
    refine (pays_onBuffer (pays_readType hdata)).next fun type => ?_
    exact (pays_readValue hdata ih type).mono (Near.mono (Nat.zero_le 1)) (fun _ _ h => h) fun _ => Nat.le_refl _

end Pays

end Ios

/-! ## The JavaScript binding -/

namespace Jsc

namespace Decoded

variable {N : Type}

mutual

def nodes : Decoded N → Nat
  | .array items => nodesItems items + 1
  | .object properties => nodesProperties properties + 1
  | _ => 1

def nodesItems : List (Decoded N) → Nat
  | [] => 0
  | item :: items => nodes item + nodesItems items

def nodesProperties : List (PropertyKey × Decoded N) → Nat
  | [] => 0
  | (_, value) :: properties => nodes value + nodesProperties properties

end

theorem nodesItems_append (items items' : List (Decoded N)) :
    nodesItems (items ++ items') = nodesItems items + nodesItems items' := by
  induction items with
  | nil => exact (Nat.zero_add _).symm
  | cons item items ih => rw [List.cons_append, nodesItems, nodesItems, ih, Nat.add_assoc]

end Decoded

open Decoded

variable {N : Type}

theorem nodesProperties_putProperty_le (key : PropertyKey) (value : Decoded N)
    (properties : List (PropertyKey × Decoded N)) :
    nodesProperties (putProperty key value properties) ≤ nodes value + nodesProperties properties := by
  induction properties with
  | nil => exact Nat.le_refl _
  | cons property properties ih =>
    obtain ⟨k, v⟩ := property
    rw [putProperty]
    split
    · simp only [nodesProperties]
      omega
    · simp only [nodesProperties]
      omega

/-- A reader of the decoder, whatever the table holds. -/
abbrev Pays {α : Type} (data : Bytes) (before after n credit : Nat) (size : α → Nat) (m : DecoderM α) : Prop :=
  Metered (fun d => Buffer.Near data before d.buffer) (fun d => Buffer.Near data after d.buffer) Fault.stackOverflow
    data.length n credit size m

section Pays

variable {V : Vm N} {e : Endian} {data : Bytes} {ptr k n : Nat}

open Buffer

theorem pays_onBuffer {α : Type} {m : BufferM α} {before after credit : Nat} {size : α → Nat}
    (hm : Buffer.Pays data before after n credit size m) : Pays data before after n credit size (onBuffer m) :=
  metered_zoom hm (fun _ _ h => h) fun _ _ _ _ _ h => h

theorem pays_hasNext : Pays data 1 1 n 0 (fun _ => 0) hasNext := by
  intro d p hp
  exact ⟨p, hp, Nat.le_refl p, Nat.le_refl _⟩

theorem peeks_onBuffer {α : Type} {m : BufferM α} (hm : Peeks (fun buffer => buffer) data ptr k m) :
    Peeks Decoder.buffer data ptr k (onBuffer m) := by
  intro d hd
  have hread := hm d.buffer hd
  cases hrun : m d.buffer with
  | ok a buffer =>
    have hzoom : onBuffer m d = .ok a { d with buffer := buffer } := by
      rw [onBuffer, zoom, hrun]
    rw [hrun] at hread
    rw [hzoom]
    exact hread
  | error fault buffer =>
    have hzoom : onBuffer m d = .error fault { d with buffer := buffer } := by
      rw [onBuffer, zoom, hrun]
    rw [hrun] at hread
    rw [hzoom]
    exact hread

theorem peeks_unitsAt (length : Nat) : Peeks Decoder.buffer data ptr (2 * length) (unitsAt e ptr length) :=
  peeks_onBuffer (peeks_bytesAt.wrap _)

theorem peeks_unitAt : Peeks Decoder.buffer data ptr 0 (unitAt e ptr) :=
  (peeks_unitsAt 1).bind (fun _ => peeks_pure _) (.inl (Nat.zero_le _))

theorem peeks_setSlot (localIndex : BitVec 32) (slot : Slot) :
    Peeks Decoder.buffer data ptr 0 (setSlot localIndex slot) :=
  fun _ _ => ⟨rfl, .inl rfl⟩

theorem peeks_getSlot (localIndex : BitVec 32) : Peeks Decoder.buffer data ptr 0 (getSlot localIndex) := by
  intro d _
  cases hslot : d.cache.slots[localIndex.toNat]? with
  | some slot =>
    have hrun : getSlot localIndex d = .ok slot d := by
      rw [getSlot, hslot]
    rw [hrun]
    exact ⟨rfl, .inl rfl⟩
  | none =>
    have hrun : getSlot localIndex d = .error .outOfBounds d := by
      rw [getSlot, hslot]
    rw [hrun]
    exact fun heq => Fault.noConfusion heq

/-- The faults of a lookup come from the pointer in the slot. -/
theorem find_error {slot : Slot} {units : Utf16} {fault : Fault} (h : slot.find units = .error fault) :
    fault ≠ .stackOverflow := by
  unfold Slot.find at h
  split at h
  · cases hutf16 : slot.utf16 with
    | units stored =>
      rw [hutf16] at h
      cases h
    | null | freed =>
      rw [hutf16] at h
      cases h
      decide
  · cases h

/-- The key is read from the buffer also where the table knows it. -/
theorem peeks_makeIdentiferTo (destination : Nat → Utf16 → UnitsPtr) (length : Nat) :
    Peeks Decoder.buffer data ptr (2 * length) (makeIdentiferTo e destination ptr length) := by
  have hread : Peeks Decoder.buffer data ptr (2 * length) (unitsAt e ptr length) := peeks_unitsAt length
  unfold makeIdentiferTo
  split
  · obtain rfl : length = 0 := by omega
    exact peeks_pure _
  -- the first unit says whether the table is used at all
  · refine peeks_unitAt.before fun first => .ite hread ?_
    have hget : Peeks Decoder.buffer data ptr 0 (get : DecoderM Decoder) := fun _ _ => ⟨rfl, .inl rfl⟩
    refine hread.bind (j := 0) (fun units => hget.before fun d => ?_) (.inl (Nat.le_refl _))
    refine (peeks_getSlot _).before fun slot => ?_
    cases hfind : slot.find units with
    | error fault => exact peeks_throw (find_error hfind)
    | ok found =>
      cases found with
      | some identifer => exact peeks_pure _
      | none => exact (peeks_setSlot _ _).before fun _ => peeks_pure _

/-- A length, and the block that it is the length of. -/
theorem pays_onBlock {α : Type} (hdata : data.length < 2 ^ 31) {m : BitVec 32 → Nat → DecoderM α}
    {k : BitVec 32 → Nat} (hk : ∀ length : BitVec 32, length.toNat ≤ k length + 1)
    (hm : ∀ length ptr, Peeks Decoder.buffer data ptr (k length) (m length ptr)) :
    Pays data 1 1 n 0 (fun _ => 1) (do
      let length ← onBuffer (readVarUint .c)
      let ptr ← onBuffer (readBts .c length)
      m length ptr) := by
  refine (pays_onBuffer (pays_readVarUint hdata)).bind fun length => ?_
  exact (metered_block hdata (hk length) (fun _ => ⟨_, rfl, rfl⟩) (hm length)).frame 1

theorem pays_readString (hdata : data.length < 2 ^ 31) : Pays data 1 1 n 0 (fun _ => 1) (readString e) := by
  refine pays_onBlock hdata (fun length => show length.toNat ≤ 2 * (length.toNat / 2) + 1 by omega) ?_
  intro length ptr
  split
  · exact (peeks_throw (by decide)).before fun _ => peeks_unitsAt _
  · exact peeks_unitsAt _

theorem pays_readUint8String (hdata : data.length < 2 ^ 31) :
    Pays data 1 1 n 0 (fun _ => 1) (readUint8String V) := by
  refine pays_onBlock hdata (fun size => Nat.le_succ size.toNat) ?_
  intro size utf8
  have hbytes : Peeks Decoder.buffer data utf8 size.toNat
      (do return V.fromUTF8 (← onBuffer (bytesAt utf8 size.toNat)) : DecoderM Utf16) :=
    (peeks_onBuffer peeks_bytesAt).wrap _
  split
  · exact (peeks_throw (by decide)).before fun _ => hbytes
  · exact hbytes

variable {identifers : Nat → Nat → DecoderM Utf16} {child : DecoderM (Decoded N)}

theorem pays_readElements (hchild : Pays data 1 1 n 0 nodes child) (length : Nat) (items : List (Decoded N)) :
    Pays data 1 1 n (nodesItems items) nodesItems (readElements child length items) := by
  induction length generalizing items with
  | zero => exact metered_pure (fun _ _ h => h) (Nat.le_refl _)
  | succ length ih =>
    have hvalue := hchild.frame (nodesItems items)
    refine (pays_hasNext.frame (nodesItems items)).bind fun next => .ite ?_ ?_
    · refine (hvalue.mono (fun _ _ h => h) (fun _ _ h => h) fun value => ?_).bind fun value => ih (items ++ [value])
      simp only [nodesItems_append, nodesItems]
      omega
    · exact metered_pure (fun _ _ h => h) (Nat.le_add_left _ _)

/-- A length of 32 bits is negative as an `int` from `2 ^ 31` on, and then even larger as a `size_t`. -/
theorem le_unitCount (propertyLength : BitVec 32) : propertyLength.toNat ≤ 2 * unitCount propertyLength + 1 := by
  have hextended : propertyLength.toNat ≤ (propertyLength.signExtend 64).toNat := by
    rw [BitVec.toNat_signExtend, BitVec.toNat_setWidth, Nat.mod_eq_of_lt (by omega)]
    exact Nat.le_add_right _ _
  unfold unitCount
  omega

/-- The identifier is made of units of the block. -/
def PeeksIdentifer (data : Bytes) (identifers : Nat → Nat → DecoderM Utf16) : Prop :=
  ∀ ptr length, Peeks Decoder.buffer data ptr (2 * length) (identifers ptr length)

theorem peeksIdentifer_makeIdentifer : PeeksIdentifer data (makeIdentifer e) := by
  intro ptr length
  unfold makeIdentifer
  exact peeks_makeIdentiferTo _ length

theorem peeksIdentifer_wsonjsc (atomic : Wsonjsc.AtomicStrings) :
    PeeksIdentifer data (Wsonjsc.makeIdentifer e atomic) := by
  intro ptr length
  unfold Wsonjsc.makeIdentifer
  exact peeks_makeIdentiferTo _ length

theorem pays_readIdentifer (hdata : data.length < 2 ^ 31) (hmake : PeeksIdentifer data identifers) :
    Pays data 1 1 n 0 (fun _ => 1) (readIdentifer identifers) :=
  pays_onBlock hdata le_unitCount fun propertyLength ptr => hmake ptr (unitCount propertyLength)

theorem pays_readEntries (hdata : data.length < 2 ^ 31) (hmake : PeeksIdentifer data identifers)
    (hchild : Pays data 1 1 n 0 nodes child) (length : Nat) (properties : List (PropertyKey × Decoded N)) :
    Pays data 1 1 n (nodesProperties properties) nodesProperties
      (readEntries V identifers child length properties) := by
  induction length generalizing properties with
  | zero => exact metered_pure (fun _ _ h => h) (Nat.le_refl _)
  | succ length ih =>
    refine (pays_hasNext.frame (nodesProperties properties)).bind fun next => .ite ?_ ?_
    -- the entries that are there are carried along as a credit
    · rw [← readIdentifer_bind]
      have hkey : Pays data 1 1 n (0 + nodesProperties properties) (fun _ => nodesProperties properties)
          (readIdentifer identifers) :=
        (pays_readIdentifer hdata hmake).mono (fun _ _ h => h) (fun _ _ h => h) fun _ => by omega
      refine hkey.bind fun identifer => (hchild.frame (nodesProperties properties)).bind fun value => ?_
      refine (ih (putProperty (V.propertyKey identifer) value properties)).mono (fun _ _ h => h) (fun _ _ h => h)
        fun properties' => ?_
      exact Nat.add_le_add_left (nodesProperties_putProperty_le _ value properties) _
    · exact metered_pure (fun _ _ h => h) (Nat.le_add_left _ _)

theorem pays_readValue (hdata : data.length < 2 ^ 31) (hmake : PeeksIdentifer data identifers)
    (hchild : Pays data 1 1 n 0 nodes child) (type : Byte) :
    Pays data 1 1 n 1 nodes (readValue V e identifers child type) := by
  have hnear : ∀ (d : Decoder) p, Near data 0 d.buffer p → Near data 1 d.buffer p :=
    fun d => Near.mono (Nat.zero_le 1) d.buffer
  have hheader : Pays data 1 0 n 0 (fun _ => 1) (onBuffer (readVarUint .c)) :=
    pays_onBuffer (pays_readVarUint hdata)
  have hconstant {value : Decoded N} (hvalue : nodes value = 1) : Pays data 1 1 n 1 nodes (pure value) :=
    metered_pure (fun _ _ h => h) (Nat.le_of_eq hvalue)
  unfold readValue
  cases Doc.Kind.ofTag type with
  | none => exact hconstant rfl
  | some kind =>
    cases kind with
    | null | boolean _ => exact hconstant rfl
    | int => exact (pays_onBuffer (pays_readVarInt hdata)).leaf hnear fun _ => rfl
    | long | double => exact (pays_onBuffer (pays_readFixedUint64 hdata)).leaf hnear fun _ => rfl
    | float => exact (pays_onBuffer (pays_readFloat hdata)).leaf hnear fun _ => rfl
    | text _ => exact (pays_readString hdata).leaf (fun _ _ h => h) fun _ => rfl
    | uint8String => exact (pays_readUint8String hdata).leaf (fun _ _ h => h) fun _ => rfl
    | array => exact hheader.node hnear (fun length => pays_readElements hchild length.toNat []) fun _ => rfl
    | map => exact hheader.node hnear (fun length => pays_readEntries hdata hmake hchild length.toNat []) fun _ => rfl

theorem pays_wsonToJsValue (hdata : data.length < 2 ^ 31) (n : Nat) :
    Pays data 1 1 n 0 nodes (wsonToJsValue V e n) := by
  induction n with
  | zero =>
    intro d p hp _
    exact hp.le
  | succ n ih =>
    refine (pays_onBuffer (pays_readType hdata)).next fun type => ?_
    exact (pays_readValue hdata peeksIdentifer_makeIdentifer ih type).mono (fun _ => Near.mono (Nat.zero_le 1) _)
      (fun _ _ h => h) fun _ => Nat.le_refl _

/-- The other file does not know texts in UTF-8: it reads their tag only. -/
theorem pays_wsonToJsValueOf (hdata : data.length < 2 ^ 31) (file : Wsonjsc.File)
    (atomic : Wsonjsc.AtomicStrings) (n : Nat) : Pays data 1 1 n 0 nodes (file.wsonToJsValue V e atomic n) := by
  cases file with
  | wsonJsc => exact pays_wsonToJsValue hdata n
  | wsonjsc =>
    have hnear : ∀ (d : Decoder) p, Near data 0 d.buffer p → Near data 1 d.buffer p :=
      fun d => Near.mono (Nat.zero_le 1) d.buffer
    induction n with
    | zero =>
      intro d p hp _
      exact hp.le
    | succ n ih =>
      refine (pays_onBuffer (pays_readType hdata)).next fun type => ?_
      unfold Wsonjsc.readValue
      split
      · exact metered_pure hnear (Nat.le_refl 1)
      · exact (pays_readValue hdata (peeksIdentifer_wsonjsc atomic) ih type).mono hnear (fun _ _ h => h)
          fun _ => Nat.le_refl _

end Pays

end Jsc

/-! ## The decoders -/

namespace Interop

open Wson.Runtime Jsc

/-- The stack does not run out, and a value has at most as many nodes as the block has bytes; the
decoder stands at most one byte behind the end of it. -/
def BuildsNoMore {ε σ α : Type} (stackOverflow : ε) (block : σ → Buffer) (nodes : α → Nat) (m : EStateM ε σ α)
    (s : σ) : Prop :=
  match m s with
  | .ok value s' => nodes value ≤ (block s).length ∧ (block s').position ≤ (block s).length + 1
  | .error e _ => e ≠ stackOverflow

theorem BuildsNoMore.of_metered {ε σ α : Type} {stackOverflow : ε} {block : σ → Buffer} {nodes : α → Nat}
    {m : EStateM ε σ α} {data : Bytes} {n : Nat} (deep : data.length < n)
    (hm : Metered (fun s => Buffer.Near data 1 (block s)) (fun s => Buffer.Near data 1 (block s)) stackOverflow
      data.length n 0 nodes m) {s : σ} (hs : block s = ⟨data, 0, data.length⟩) :
    BuildsNoMore stackOverflow block nodes m s := by
  have hstart : Buffer.Near data 1 (block s) 0 := ⟨0, hs, Nat.zero_le _, (Nat.zero_min _).symm⟩
  unfold BuildsNoMore
  cases hrun : m s with
  | ok value s' =>
    obtain ⟨q, hend, -, hpaid⟩ := hm.of_ok hstart hrun
    have hq := hend.le
    obtain ⟨position, hblock, hposition, -⟩ := hend
    constructor
    · rw [hs]
      show nodes value ≤ data.length
      omega
    · rw [hs, hblock]
      exact hposition
  | error e s' =>
    rintro rfl
    have hleft := hm.of_error hstart hrun
    omega

/-- **On untrusted bytes** no decoder builds more values than there are bytes, and one nested call
more than there are bytes is enough. -/
theorem buildsNoMore {N : Type} (V : Vm N) (e : Endian) (cache : Cache) {data : Bytes} (size : data.length < 2 ^ 31)
    {n : Nat} (deep : data.length < n) :
    BuildsNoMore .stackOverflow (fun buffer => buffer) RuntimeValue.nodes (convertWsonToRuntimeValue e n)
        ⟨data, 0, data.length⟩ ∧
      BuildsNoMore (.fault .stackOverflow) (fun buffer => buffer) Ios.Parsed.nodesOf (Ios.toObj e n)
        ⟨data, 0, data.length⟩ ∧
      ∀ (file : Wsonjsc.File) (atomic : Wsonjsc.AtomicStrings),
        BuildsNoMore .stackOverflow Decoder.buffer Decoded.nodes (file.wsonToJsValue V e atomic n)
          ⟨⟨data, 0, data.length⟩, cache⟩ := by
  refine ⟨?_, ?_, fun file atomic => ?_⟩
  · exact .of_metered deep (pays_convertWsonToRuntimeValue size n) rfl
  · exact .of_metered deep (Ios.pays_toObj size n) rfl
  · exact .of_metered deep (Jsc.pays_wsonToJsValueOf size file atomic n) rfl

/-- An array that claims `2 ^ 32 - 1` elements and has one, which claims as many. -/
def claimingArray : Bytes :=
  [Tag.array, 0xFF, 0xFF, 0xFF, 0xFF, 0x0F, Tag.array, 0xFF, 0xFF, 0xFF, 0xFF, 0x0F]

theorem buildsNoMore_claimingArray :
    BuildsNoMore .stackOverflow (fun buffer => buffer) RuntimeValue.nodes (convertWsonToRuntimeValue .little 13)
        ⟨claimingArray, 0, 12⟩ ∧
      BuildsNoMore (.fault .stackOverflow) (fun buffer => buffer) Ios.Parsed.nodesOf (Ios.toObj .little 13)
        ⟨claimingArray, 0, 12⟩ ∧
      ∀ (file : Wsonjsc.File) (atomic : Wsonjsc.AtomicStrings),
        BuildsNoMore .stackOverflow Decoder.buffer Decoded.nodes (file.wsonToJsValue sampleVm .little atomic 13)
          ⟨⟨claimingArray, 0, 12⟩, Cache.replicate 4096 (by decide) .initial⟩ :=
  buildsNoMore sampleVm .little (Cache.replicate 4096 (by decide) .initial) (by decide) (by decide)

end Interop

end Wson
