import Wson.Java.Input
import Wson.Java.Value

/-!
# `Wson.java`, class `Parser`

The reader: `readObject` and the methods it calls, and `Wson.parse`, which turns
every exception into null. The first argument of `readObject` is the number of
nested calls for which the stack has room.

`consumes_readObject`: **the parser reads the format**. Where an encoding of a
document stands in the array, `readObject` consumes it and returns the value the
document means, whatever strings the key cache holds.
-/

namespace Wson.Java

open Effect Wire

namespace Parser

open Input

variable (e : Endian) (buffer : Bytes)

/-- The `char` made of the two bytes at the position. -/
def charOf (b₀ b₁ : Byte) : Char16 :=
  match e with
  | .little => (b₀.setWidth 32 + b₁.signExtend 32 <<< 8).setWidth 16
  | .big => (b₁.setWidth 32 + b₀.signExtend 32 <<< 8).setWidth 16

def readChar : ParserM Char16 := do
  let position ← getPosition
  let b₀ ← load buffer position
  let b₁ ← load buffer (position + 1)
  move 2
  pure (charOf e b₀ b₁)

/-- The loop that fills `charsBuffer`. -/
def readChars : Nat → ParserM Utf16
  | 0 => pure []
  | length + 1 => do
    let ch ← readChar e buffer
    let chars ← readChars length
    pure (ch :: chars)

/-- `length / 2` is a signed division; a negative length reads nothing, and making a string
of it throws. -/
def readUTF16String : ParserM Utf16 := do
  let length := (← readUInt buffer).toInt.tdiv 2
  let chars ← readChars e buffer length.toNat
  if length < 0 then throw .stringIndexOutOfBounds
  pure chars

/-- `hash = ((hash << 5) + hash) + ch`. -/
def hashOf (chars : Utf16) : BitVec 32 :=
  chars.foldl (fun hash ch => hash <<< 5 + hash + ch.setWidth 32) 5381

/-- Short keys are shared through a cache indexed by their hash. -/
def readMapKeyUTF16 : ParserM Utf16 := do
  let length := (← readUInt buffer).toInt.tdiv 2
  let chars ← readChars e buffer length.toNat
  let globalIndex := (hashOf chars).setWidth 11
  match (← get).globalStringBytesCache globalIndex with
  | some cache =>
    if (cache.length : Int) = length ∧ chars = cache then pure cache
    else newKey length chars globalIndex
  | none => newKey length chars globalIndex
where
  /-- `new String(charsBuffer, 0, length)`, put into the cache when it is short. -/
  newKey (length : Int) (chars : Utf16) (globalIndex : BitVec 11) : ParserM Utf16 := do
    if length < 0 then throw .stringIndexOutOfBounds
    if length < 64 then
      modify fun p => { p with
        globalStringBytesCache := Function.update p.globalStringBytesCache globalIndex (some chars) }
    pure chars

/-- The loop of `readMap`. -/
def readEntries (readObject : ParserM JValue) :
    Nat → List (Utf16 × JValue) → ParserM (List (Utf16 × JValue))
  | 0, object => pure object
  | size + 1, object => do
    let key ← readMapKeyUTF16 e buffer
    let value ← readObject
    readEntries readObject size (mapPut key value object)

def readMap (readObject : ParserM JValue) : ParserM JValue := do
  let size := (← readUInt buffer).toInt
  let object ← readEntries e buffer readObject size.toNat []
  pure (.map object)

/-- The loop of `readArray`. -/
def readElements (readObject : ParserM JValue) : Nat → ParserM (List JValue)
  | 0 => pure []
  | length + 1 => do
    let value ← readObject
    let array ← readElements readObject length
    pure (value :: array)

/-- `new JSONArray(length)` throws when the length is negative. -/
def readArray (readObject : ParserM JValue) : ParserM JValue := do
  let length := (← readUInt buffer).toInt
  if length < 0 then throw .illegalArgument
  let array ← readElements readObject length.toNat
  pure (.list array)

/-- `new BigInteger(s)` and `new BigDecimal(s)`. -/
def parseNumber {α : Type} (ofString : Utf16 → Option α) (s : Utf16) : ParserM α :=
  match ofString s with
  | some n => pure n
  | none => throw .numberFormat

def readObject : Nat → ParserM JValue
  | 0 => throw .stackOverflow
  | n + 1 => do
    let type ← readType buffer
    if type = Tag.string then return .string (← readUTF16String e buffer)
    else if type = Tag.int then return .number (.integer (← readVarInt buffer))
    else if type = Tag.float then return .number (.float (← readFloat buffer))
    else if type = Tag.map then readMap e buffer (readObject n)
    else if type = Tag.array then readArray buffer (readObject n)
    else if type = Tag.double then return .number (.double (← readDouble buffer))
    else if type = Tag.long then return .number (.long (← readLong buffer))
    else if type = Tag.bigInteger then
      return .number (.bigInteger (← parseNumber BigInteger.ofString (← readUTF16String e buffer)))
    else if type = Tag.bigDecimal then
      return .number (.bigDecimal (← parseNumber BigDecimal.ofString (← readUTF16String e buffer)))
    else if type = Tag.booleanFalse then return .boolean false
    else if type = Tag.booleanTrue then return .boolean true
    else if type = Tag.null then return .null
    else throw .runtime

end Parser

/-- `Wson.parse`, over the cache of map keys: an exception becomes null. -/
def parse (e : Endian) (stack : Nat) (data : Bytes) (position : Int) :
    EStateM Throwable (BitVec 11 → Option Utf16) JValue := fun cache =>
  match Parser.readObject e data stack ⟨position, cache⟩ with
  | .ok object parser => .ok object parser.globalStringBytesCache
  | .error err parser =>
    if err.isException then .ok .null parser.globalStringBytesCache
    else .error err parser.globalStringBytesCache

namespace Parser

open Input

variable {e : Endian} {buffer : Bytes}

/-! ## Text -/

theorem charOf_eq (b₀ b₁ : Byte) : charOf e b₀ b₁ = ofUnit e b₀ b₁ := by
  have hpair : ∀ low high : Byte, (low.setWidth 32 + high.signExtend 32 <<< 8).setWidth 16
      = BitVec.ofNat 16 (low.toNat + 256 * high.toNat) := by
    intro low high
    apply BitVec.eq_of_toNat_eq
    simp only [BitVec.toNat_setWidth, BitVec.toNat_add, BitVec.toNat_shiftLeft, BitVec.toNat_ofNat,
      BitVec.toNat_signExtend, Nat.shiftLeft_eq]
    split <;> omega
  cases e
  · exact hpair b₀ b₁
  · exact hpair b₁ b₀

theorem consumes_readChar (c : Char16) :
    Consumes buffer At (returns (readChar e buffer)) (unit e c) c := by
  intro s p rest hs hd
  obtain ⟨b₀, b₁, hc⟩ := unit_eq_pair e c
  have hpos : s.position = p := hs
  have hval : charOf e b₀ b₁ = c := by rw [charOf_eq, ofUnit_unit e c hc]
  have hload (j : Nat) {b : Byte} (hb : (unit e c)[j]? = some b) := returns_load hd hb s
  rw [hc] at hload
  have h₀ := hload 0 rfl
  rw [Nat.cast_zero, add_zero] at h₀
  have h₁ : returns (load buffer (p + 1)) s = some (b₁, s) := hload 1 rfl
  refine ⟨{ s with position := s.position + 2 }, ?_, ?_⟩
  · simp only [readChar, returns_bind, returns_getPosition, Option.bind_some, hpos, h₀, h₁,
      returns_move, returns_pure, hval]
  · show s.position + 2 = ((p + (unit e c).length : Nat) : Int)
    rw [hs, hc]
    rfl

/-- Both bytes are loaded. -/
theorem length_of_readChar {s : Parser} {p : Nat} {r : Char16 × Parser} (hs : At s p)
    (h : returns (readChar e buffer) s = some r) : p + 2 ≤ buffer.length := by
  rw [readChar, returns_bind, returns_getPosition, Option.bind_some, returns_bind] at h
  obtain ⟨⟨b₀, t⟩, h₀, h⟩ := Option.bind_eq_some_iff.mp h
  obtain ⟨_, _, _, rfl⟩ := returns_load_eq_some.mp h₀
  rw [returns_bind] at h
  obtain ⟨⟨b₁, u⟩, h₁, -⟩ := Option.bind_eq_some_iff.mp h
  obtain ⟨j, hj, hb, -⟩ := returns_load_eq_some.mp h₁
  have hlt := (List.getElem?_eq_some_iff.mp hb).1
  have hj : t.position + 1 = j := hj
  rw [show t.position = p from hs] at hj
  omega

theorem produces_readChar :
    Produces buffer At (returns (readChar e buffer)) fun xs c => xs = unit e c := by
  have hpair : ∀ xs : Bytes, xs.length = 2 → ∃ c, xs = unit e c ∧ ofUnits e xs = [c] := by
    intro xs hxs
    match xs, hxs with
    | [b₀, b₁], _ => exact ⟨ofUnit e b₀ b₁, (unit_ofUnit e b₀ b₁).symm, rfl⟩
  refine (produces_of_consumes (k := 2) (f := fun xs => (ofUnits e xs).headD 0)
    (fun _ _ _ hs h => by exact length_of_readChar hs h) fun {xs} hxs => ?_).mono ?_
  · obtain ⟨c, rfl, hc⟩ := hpair xs hxs
    rw [hc]
    exact consumes_readChar c
  · rintro xs _ ⟨hxs, rfl⟩
    obtain ⟨c, rfl, hc⟩ := hpair xs hxs
    rw [hc]
    rfl

theorem consumes_readChars :
    ∀ s : Utf16, Consumes buffer At (returns (readChars e buffer s.length)) (units e s) s
  | [] => consumes_pure _
  | c :: s => by
    rw [List.length_cons, readChars, units_cons]
    simp only [returns_bind_eq]
    refine (consumes_readChar c).bind ?_
    refine ((consumes_readChars s).bind ?_).of_eq (List.append_nil _) rfl
    exact consumes_pure _

theorem produces_readChars : ∀ length : Nat,
    Produces buffer At (returns (readChars e buffer length)) fun xs s =>
      xs = units e s ∧ s.length = length
  | 0 => by
    refine (produces_pure _).mono ?_
    rintro _ _ ⟨rfl, rfl⟩
    exact ⟨rfl, rfl⟩
  | length + 1 => by
    rw [readChars]
    simp only [returns_bind_eq]
    refine (produces_readChar.bind fun ch =>
      (produces_readChars length).bind fun chars => produces_pure _).mono ?_
    rintro _ _ ⟨xs, _, ch, rfl, rfl, ys, _, chars, rfl, ⟨rfl, rfl⟩, rfl, rfl⟩
    simp

/-- The number of chars of a text with a header of the format. -/
theorem tdiv_toInt_ofNat {n : Nat} (h : 2 * n < 2 ^ 31) :
    (BitVec.ofNat 32 (2 * n)).toInt.tdiv 2 = n := by
  rw [BitVec.toInt_eq_toNat_of_lt (by rw [BitVec.toNat_ofNat]; omega), BitVec.toNat_ofNat,
    Int.tdiv_eq_ediv_of_nonneg (by omega)]
  omega

theorem consumes_readUTF16String {s : Utf16} {h : Bytes} (hv : VarUInt (2 * s.length) h)
    (hs : 2 * s.length < 2 ^ 31) :
    Consumes buffer At (returns (readUTF16String e buffer)) (h ++ units e s) s := by
  rw [readUTF16String]
  simp only [returns_bind_eq]
  refine (consumes_readUInt_varUInt hv).bind ?_
  simp only [tdiv_toInt_ofNat hs, Int.toNat_natCast]
  refine ((consumes_readChars s).bind ?_).of_eq (List.append_nil _) rfl
  rw [if_neg (by omega)]
  exact consumes_pure _

/-- Looking a key up in the cache, or putting it there, reads nothing. -/
theorem returns_lookup (chars : Utf16) (p : Parser) :
    ∃ cache, returns (do
      match (← get).globalStringBytesCache ((hashOf chars).setWidth 11) with
      | some cache =>
        if (cache.length : Int) = chars.length ∧ chars = cache then pure cache
        else readMapKeyUTF16.newKey chars.length chars ((hashOf chars).setWidth 11)
      | none => readMapKeyUTF16.newKey chars.length chars ((hashOf chars).setWidth 11)) p
        = some (chars, { p with globalStringBytesCache := cache }) := by
  have hnew : ∃ cache, returns
      (readMapKeyUTF16.newKey chars.length chars ((hashOf chars).setWidth 11)) p
        = some (chars, { p with globalStringBytesCache := cache }) := by
    rw [readMapKeyUTF16.newKey, if_neg (by omega)]
    split
    · exact ⟨_, rfl⟩
    · exact ⟨_, rfl⟩
  rw [returns_bind, returns_get, Option.bind_some]
  cases hcache : p.globalStringBytesCache ((hashOf chars).setWidth 11) with
  | none => simpa only [hcache] using hnew
  | some cache =>
    simp only
    split
    · next h => exact ⟨p.globalStringBytesCache, by rw [h.2]; rfl⟩
    · exact hnew

/-- Whatever the cache holds, the key that is read is the one that is there. -/
theorem consumes_readMapKeyUTF16 {s : Utf16} {h : Bytes} (hv : VarUInt (2 * s.length) h)
    (hs : 2 * s.length < 2 ^ 31) :
    Consumes buffer At (returns (readMapKeyUTF16 e buffer)) (h ++ units e s) s := by
  rw [readMapKeyUTF16]
  simp only [returns_bind_eq]
  refine (consumes_readUInt_varUInt hv).bind ?_
  simp only [tdiv_toInt_ofNat hs, Int.toNat_natCast]
  refine ((consumes_readChars s).bind ?_).of_eq (List.append_nil _) rfl
  intro p q rest hp _
  obtain ⟨cache, hcache⟩ := returns_lookup s p
  exact ⟨_, hcache, hp⟩

/-! ## Values -/

theorem consumes_parseNumber {α : Type} {ofString : Utf16 → Option α} {s : Utf16} {x : α}
    (h : ofString s = some x) :
    Consumes buffer At (returns (parseNumber ofString s)) [] x := by
  rw [parseNumber, h]
  exact consumes_pure x

theorem toInt_ofNat {n : Nat} (h : n < 2 ^ 31) : (BitVec.ofNat 32 n).toInt = n := by
  rw [BitVec.toInt_eq_toNat_of_lt (by rw [BitVec.toNat_ofNat]; omega), BitVec.toNat_ofNat]
  omega

/-- What `readObject` does after the type byte. The switch has no case for texts stored as
bytes. -/
def readKind (e : Endian) (buffer : Bytes) (child : ParserM JValue) : Doc.Kind → ParserM JValue
  | .null => pure .null
  | .boolean b => pure (.boolean b)
  | .int => do return .number (.integer (← readVarInt buffer))
  | .long => do return .number (.long (← readLong buffer))
  | .float => do return .number (.float (← readFloat buffer))
  | .double => do return .number (.double (← readDouble buffer))
  | .text .string => do return .string (← readUTF16String e buffer)
  | .text .bigInteger => do
    return .number (.bigInteger (← parseNumber BigInteger.ofString (← readUTF16String e buffer)))
  | .text .bigDecimal => do
    return .number (.bigDecimal (← parseNumber BigDecimal.ofString (← readUTF16String e buffer)))
  | .uint8String => throw .runtime
  | .array => readArray buffer child
  | .map => readMap e buffer child

theorem readObject_succ (n : Nat) : readObject e buffer (n + 1) = (do
    match Doc.Kind.ofTag (← readType buffer) with
    | some kind => readKind e buffer (readObject e buffer n) kind
    | none => throw .runtime) := by
  rw [readObject]
  congr 1
  funext type
  cases hk : Doc.Kind.ofTag type with
  | some kind =>
    rw [Doc.Kind.eq_tag_of_ofTag hk]
    match kind with
    | .null | .boolean true | .boolean false | .int | .long | .float | .double | .text .string
    | .text .bigInteger | .text .bigDecimal | .uint8String | .array | .map => rfl
  | none =>
    have hne := Doc.Kind.ofTag_eq_none.mp hk
    rw [if_neg (show type ≠ Tag.string from hne (.text .string)),
      if_neg (show type ≠ Tag.int from hne .int), if_neg (show type ≠ Tag.float from hne .float),
      if_neg (show type ≠ Tag.map from hne .map), if_neg (show type ≠ Tag.array from hne .array),
      if_neg (show type ≠ Tag.double from hne .double),
      if_neg (show type ≠ Tag.long from hne .long),
      if_neg (show type ≠ Tag.bigInteger from hne (.text .bigInteger)),
      if_neg (show type ≠ Tag.bigDecimal from hne (.text .bigDecimal)),
      if_neg (show type ≠ Tag.booleanFalse from hne (.boolean false)),
      if_neg (show type ≠ Tag.booleanTrue from hne (.boolean true)),
      if_neg (show type ≠ Tag.null from hne .null)]

/-- Reading an object, once its kind is known. -/
theorem consumes_readObject_succ {n : Nat} (kind : Doc.Kind) {bs : Bytes} {v : JValue}
    (h : Consumes buffer At (returns (readKind e buffer (readObject e buffer n) kind)) bs v) :
    Consumes buffer At (returns (readObject e buffer (n + 1))) (kind.tag :: bs) v := by
  rw [readObject_succ, returns_bind_eq]
  refine (consumes_readType kind.tag).bind ?_
  rw [Doc.Kind.ofTag_tag]
  exact h

theorem consumes_textKind {kind : TextKind} {s : Utf16} {h : Bytes} {v : JValue} {child}
    (hv : textValue kind s = some v) (hs : VarUInt (2 * s.length) h)
    (hsmall : 2 * s.length < 2 ^ 31) :
    Consumes buffer At (returns (readKind e buffer child (.text kind))) (h ++ units e s) v := by
  have hread : Consumes buffer At (returns (readUTF16String e buffer)) (h ++ units e s) s :=
    consumes_readUTF16String hs hsmall
  cases kind with
  | string =>
    obtain rfl := Option.some.inj hv
    exact consumes_wrap hread
  | bigInteger =>
    obtain ⟨n, hn, rfl⟩ := Option.map_eq_some_iff.mp hv
    rw [readKind, returns_bind_eq]
    refine (hread.bind ?_).of_eq (List.append_nil _) rfl
    exact consumes_wrap (consumes_parseNumber hn)
  | bigDecimal =>
    obtain ⟨b, hb, rfl⟩ := Option.map_eq_some_iff.mp hv
    rw [readKind, returns_bind_eq]
    refine (hread.bind ?_).of_eq (List.append_nil _) rfl
    exact consumes_wrap (consumes_parseNumber hb)

mutual

/-- **The parser reads the format**: it consumes an encoding and returns its meaning. -/
theorem consumes_readObject : ∀ {d : Doc} {bs : Bytes} {v : JValue} {n : Nat},
    Doc.Encodes e d bs → d.meaning (fun _ => none) = some v → d.height < n → bs.length < 2 ^ 31 →
      Consumes buffer At (returns (readObject e buffer n)) bs v
  | .null, _, _, n + 1, hd, hv, _, _ => by
    obtain rfl := Option.some.inj hv
    obtain rfl := hd
    exact consumes_readObject_succ .null (consumes_pure _)
  | .boolean b, _, _, n + 1, hd, hv, _, _ => by
    obtain rfl := Option.some.inj hv
    obtain rfl := hd
    exact consumes_readObject_succ (.boolean b) (consumes_pure _)
  | .int x, _, _, n + 1, ⟨h, hx, hd⟩, hv, _, _ => by
    obtain rfl := Option.some.inj hv
    obtain rfl := hd
    exact consumes_readObject_succ .int
      (consumes_wrap (consumes_readVarInt hx))
  | .long x, _, _, n + 1, hd, hv, _, _ => by
    obtain rfl := Option.some.inj hv
    obtain rfl := hd
    exact consumes_readObject_succ .long
      (consumes_wrap (consumes_readLong x))
  | .float x, _, _, n + 1, hd, hv, _, _ => by
    obtain rfl := Option.some.inj hv
    obtain rfl := hd
    exact consumes_readObject_succ .float
      (consumes_wrap (consumes_readFloat x))
  | .double x, _, _, n + 1, hd, hv, _, _ => by
    obtain rfl := Option.some.inj hv
    obtain rfl := hd
    exact consumes_readObject_succ .double
      (consumes_wrap (consumes_readDouble x))
  | .text kind s, _, _, n + 1, ⟨h, hs, hd⟩, hv, _, hlen => by
    obtain rfl := hd
    simp only [List.length_cons, List.length_append, units_length] at hlen
    exact consumes_readObject_succ (.text kind) (consumes_textKind hv hs (by omega))
  | .uint8String cs, _, _, _ + 1, _, hv, _, _ => nomatch hv
  | .array ds, _, _, n + 1, ⟨h, body, hc, hds, hd⟩, hv, hn, hlen => by
    obtain rfl := hd
    obtain ⟨vs, hvs, rfl⟩ := Option.map_eq_some_iff.mp hv
    -- an element takes a byte or more, so that the count is no negative `int`
    have hcount := hds.length_le
    rw [List.length_cons, List.length_append] at hlen
    refine consumes_readObject_succ .array ?_
    rw [readKind, readArray, returns_bind_eq]
    refine (consumes_readUInt_varUInt hc).bind ?_
    simp only [toInt_ofNat (show ds.length < 2 ^ 31 by omega), Int.toNat_natCast]
    rw [if_neg (by omega)]
    exact consumes_wrap (consumes_readElements hds hvs (Nat.lt_of_succ_lt_succ hn) (by omega))
  | .map es, _, _, n + 1, ⟨h, body, hc, hes, hd⟩, hv, hn, hlen => by
    obtain rfl := hd
    obtain ⟨object, hobject, rfl⟩ := Option.map_eq_some_iff.mp hv
    have hcount := hes.length_le
    rw [List.length_cons, List.length_append] at hlen
    refine consumes_readObject_succ .map ?_
    rw [readKind, readMap, returns_bind_eq]
    refine (consumes_readUInt_varUInt hc).bind ?_
    simp only [toInt_ofNat (show es.length < 2 ^ 31 by omega), Int.toNat_natCast]
    exact consumes_wrap (consumes_readEntries hes hobject (Nat.lt_of_succ_lt_succ hn) (by omega))

theorem consumes_readElements : ∀ {ds : List Doc} {bs : Bytes} {vs : List JValue} {n : Nat},
    Doc.EncodesItems e ds bs → Doc.meaningItems (fun _ => none) ds = some vs →
      Doc.heightItems ds < n → bs.length < 2 ^ 31 →
        Consumes buffer At (returns (readElements (readObject e buffer n) ds.length)) bs vs
  | [], _, _, _, hd, hv, _, _ => by
    obtain rfl := Option.some.inj hv
    obtain rfl := hd
    exact consumes_pure _
  | d :: ds, _, _, n, ⟨b₁, b₂, h₁, h₂, hd⟩, hv, hn, hlen => by
    obtain rfl := hd
    obtain ⟨v, hv₁, hv⟩ := Option.bind_eq_some_iff.mp hv
    obtain ⟨vs, hv₂, hv⟩ := Option.bind_eq_some_iff.mp hv
    obtain rfl := Option.some.inj hv
    rw [List.length_append] at hlen
    rw [Doc.heightItems, Nat.max_lt] at hn
    rw [List.length_cons, readElements, returns_bind_eq]
    refine (consumes_readObject h₁ hv₁ hn.1 (by omega)).bind ?_
    exact consumes_wrap (consumes_readElements h₂ hv₂ hn.2 (by omega))

theorem consumes_readEntries : ∀ {es : List (Utf16 × Doc)} {bs : Bytes}
    {object object' : List (Utf16 × JValue)} {n : Nat}, Doc.EncodesEntries e es bs →
      Doc.meaningEntries (fun _ => none) object es = some object' → Doc.heightEntries es < n →
        bs.length < 2 ^ 31 →
          Consumes buffer At (returns (readEntries e buffer (readObject e buffer n) es.length object))
            bs object'
  | [], _, _, _, _, hd, hv, _, _ => by
    obtain rfl := Option.some.inj hv
    obtain rfl := hd
    exact consumes_pure _
  | (k, d) :: es, _, object, _, n, ⟨h, b₁, b₂, hk, h₁, h₂, hd⟩, hv, hn, hlen => by
    obtain rfl := hd
    obtain ⟨v, hv₁, hv₂⟩ := Option.bind_eq_some_iff.mp hv
    simp only [List.length_append, units_length] at hlen
    rw [Doc.heightEntries, Nat.max_lt] at hn
    rw [List.length_cons, readEntries, List.append_assoc]
    simp only [returns_bind_eq]
    refine (consumes_readMapKeyUTF16 hk (by omega)).bind ?_
    refine (consumes_readObject h₁ hv₁ hn.1 (by omega)).bind ?_
    exact consumes_readEntries h₂ hv₂ hn.2 (by omega)

end

end Parser

/-- `Wson.parse` returns the meaning of an encoding, wherever it stands. -/
theorem parse_encodes {e : Endian} {d : Doc} {bytes : Bytes} {v : JValue} {n : Nat}
    (hd : d.Encodes e bytes) (hv : d.meaning (fun _ => none) = some v) (hn : d.height < n)
    (hlen : bytes.length < 2 ^ 31) (before after : Bytes) (cache : BitVec 11 → Option Utf16) :
    ∃ cache', parse e n (before ++ bytes ++ after) before.length cache = .ok v cache' := by
  have h : Consumes (before ++ bytes ++ after) Input.At _ bytes v :=
    Parser.consumes_readObject hd hv hn hlen
  obtain ⟨p, hp, -⟩ := h ⟨before.length, cache⟩ before.length after rfl
    (by rw [List.append_assoc, List.drop_left])
  exact ⟨p.globalStringBytesCache, by rw [parse, returns_eq_some.mp hp]⟩

end Wson.Java
