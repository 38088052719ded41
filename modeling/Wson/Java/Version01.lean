import Wson.Java.InStep

/-!
# `aversions/0.1`, class `Parser`

The parser of version 0.1 against the current one. The methods that have moved to `Input`
have the same text in both, but for `readDouble`: in 0.1 it returns an `Object`, which
is a `Long` for a large double without a fraction, and the current one returns a
`double`. The containers are those of fastjson in 0.1, of fastjson2 now.

- `simulates_readObject`: both parsers read in step, whatever their key caches hold, and
  the value that 0.1 builds is `legacy` of the current one.
- `compatible`: hence they agree at every node, but for such doubles and the class library
  of the containers.
-/

namespace Wson.Java

open Effect Wire

/-- Whether `readDouble` of 0.1 makes a `Long` of the number. -/
def isLongDouble (bits : BitVec 64) : Bool :=
  let number := Binary64.value bits
  Binary64.Value.lt (.finite (2 ^ 31 - 1)) number &&
    Binary64.Value.lt (Binary64.sub bits (Binary64.ofInt number.toInt64)) (.finite (2 ^ (-1022 : ℤ)))

namespace Version01

open Input Wson.Java.Parser

variable (e : Endian) (buffer : Bytes)

/-- What `readDouble` makes of the bits it has read. -/
def decodeDouble (bits : BitVec 64) : JNumber :=
  let number := Binary64.value bits
  if Binary64.Value.lt (.finite (2 ^ 31 - 1)) number then
    let numberLong := number.toInt64
    let doubleLong := Binary64.ofInt numberLong
    if Binary64.Value.lt (Binary64.sub bits doubleLong) (.finite (2 ^ (-1022 : ℤ))) then
      .long (BitVec.ofInt 64 numberLong)
    else .double bits
  else .double bits

def readDouble : ParserM JNumber := do
  let bits ← readLong buffer
  pure (decodeDouble bits)

def readObject : Nat → ParserM JValue
  | 0 => throw .stackOverflow
  | n + 1 => do
    let type ← readType buffer
    if type = Tag.string then return .string (← readUTF16String e buffer)
    else if type = Tag.int then return .number (.integer (← readVarInt buffer))
    else if type = Tag.float then return .number (.float (← readFloat buffer))
    else if type = Tag.map then readMap e buffer (readObject n)
    else if type = Tag.array then readArray buffer (readObject n)
    else if type = Tag.double then return .number (← readDouble buffer)
    else if type = Tag.long then return .number (.long (← readLong buffer))
    else if type = Tag.bigInteger then
      return .number (.bigInteger (← parseNumber BigInteger.ofString (← readUTF16String e buffer)))
    else if type = Tag.bigDecimal then
      return .number (.bigDecimal (← parseNumber BigDecimal.ofString (← readUTF16String e buffer)))
    else if type = Tag.booleanFalse then return .boolean false
    else if type = Tag.booleanTrue then return .boolean true
    else if type = Tag.null then return .null
    else throw .runtime

/-- `Wson.parse` of 0.1, which starts at the beginning of the data. -/
def parse (stack : Nat) (data : Bytes) :
    EStateM Throwable (BitVec 11 → Option Utf16) JValue := fun cache =>
  match readObject e data stack ⟨0, cache⟩ with
  | .ok object parser => .ok object parser.globalStringBytesCache
  | .error err parser =>
    if err.isException then .ok .null parser.globalStringBytesCache
    else .error err parser.globalStringBytesCache

end Version01

/-! ## Values of both versions -/

/-- The library whose `JSONArray` and `JSONObject` are used. -/
inductive Fastjson where
  | fastjson
  | fastjson2
  deriving DecidableEq

/-- An object with its class: the containers belong to a library. -/
inductive JavaObject where
  | null
  | boolean (b : Bool)
  | number (n : JNumber)
  | string (s : Utf16)
  | jsonArray (library : Fastjson) (items : List JavaObject)
  | jsonObject (library : Fastjson) (entries : List (Utf16 × JavaObject))

namespace JValue

mutual

/-- The object that a parser with these containers builds. -/
def object (library : Fastjson) : JValue → JavaObject
  | .null => .null
  | .boolean b => .boolean b
  | .number n => .number n
  | .string s => .string s
  | .list vs => .jsonArray library (objectItems library vs)
  | .map entries => .jsonObject library (objectEntries library entries)

def objectItems (library : Fastjson) : List JValue → List JavaObject
  | [] => []
  | v :: vs => object library v :: objectItems library vs

def objectEntries (library : Fastjson) : List (Utf16 × JValue) → List (Utf16 × JavaObject)
  | [] => []
  | (k, v) :: entries => (k, object library v) :: objectEntries library entries

end

/-- The number that 0.1 returns for the number of the current version. -/
def legacyNumber : JNumber → JNumber
  | .double bits => Version01.decodeDouble bits
  | n => n

mutual

/-- The value that 0.1 returns for the value of the current version. -/
def legacy : JValue → JValue
  | .number n => .number (legacyNumber n)
  | .list vs => .list (legacyItems vs)
  | .map entries => .map (legacyEntries entries)
  | v => v

def legacyItems : List JValue → List JValue
  | [] => []
  | v :: vs => legacy v :: legacyItems vs

def legacyEntries : List (Utf16 × JValue) → List (Utf16 × JValue)
  | [] => []
  | (k, v) :: entries => (k, legacy v) :: legacyEntries entries

end

/-- The number is no double that 0.1 makes a `Long` of. -/
def KeepsNumber : JNumber → Prop
  | .double bits => isLongDouble bits = false
  | _ => True

theorem decodeDouble_of_keeps {bits : BitVec 64} (h : isLongDouble bits = false) :
    Version01.decodeDouble bits = .double bits := by
  rw [isLongDouble, Bool.and_eq_false_iff] at h
  unfold Version01.decodeDouble
  obtain h | h := h
  · simp only [h]
    rfl
  · simp only [h]
    split <;> rfl

theorem legacyNumber_of_keeps {n : JNumber} (h : KeepsNumber n) : legacyNumber n = n := by
  cases n with
  | double bits => exact decodeDouble_of_keeps h
  | _ => rfl

theorem legacy_eq_null {v : JValue} : v.legacy = .null ↔ v = .null := by
  cases v <;> simp [legacy]

theorem legacyEntries_mapPut (key : Utf16) (v : JValue) (entries : List (Utf16 × JValue)) :
    legacyEntries (mapPut key v entries) = mapPut key v.legacy (legacyEntries entries) := by
  induction entries with
  | nil => rfl
  | cons x entries ih =>
    rw [mapPut, legacyEntries, mapPut]
    split
    · rw [legacyEntries]
    · rw [legacyEntries, ih]

end JValue

/-! ## In step -/

namespace Parser

open Input

variable {e : Endian} {buffer : Bytes}

/-- Both methods read the same bits. -/
theorem simulates_readDouble :
    Simulates SamePosition (fun bits number => number = Version01.decodeDouble bits) (readDouble buffer)
      (Version01.readDouble buffer) :=
  simulates_readLong.bind_eq fun bits => simulates_pure (by rw [Input.decodeDouble_eq])

/-- What the value of 0.1 is, compared with the current one. -/
def IsLegacy (v w : JValue) : Prop :=
  w = v.legacy

variable {m m' : ParserM JValue} (hm : Simulates SamePosition IsLegacy m m')

include hm

theorem simulates_readElements : ∀ length : Nat,
    Simulates SamePosition (fun vs ws => ws = JValue.legacyItems vs) (readElements m length)
      (readElements m' length)
  | 0 => simulates_pure rfl
  | length + 1 => by
    refine hm.bind fun v w hv => (simulates_readElements length).bind fun vs ws hvs => ?_
    subst hv hvs
    exact simulates_pure rfl

theorem simulates_readEntries : ∀ (size : Nat) (object : List (Utf16 × JValue)),
    Simulates SamePosition (fun entries entries' => entries' = JValue.legacyEntries entries)
      (readEntries e buffer m size object) (readEntries e buffer m' size (JValue.legacyEntries object))
  | 0, _ => simulates_pure rfl
  | size + 1, object => by
    refine simulates_readMapKeyUTF16.bind_eq fun key => hm.bind fun v w hv => ?_
    subst hv
    have hrest := simulates_readEntries size (mapPut key v object)
    rw [JValue.legacyEntries_mapPut] at hrest
    exact hrest

theorem simulates_readMap : Simulates SamePosition IsLegacy (readMap e buffer m) (readMap e buffer m') := by
  refine simulates_readUInt.bind_eq fun size => ?_
  refine (simulates_readEntries hm size.toInt.toNat []).map fun entries entries' h => ?_
  subst h
  rfl

theorem simulates_readArray : Simulates SamePosition IsLegacy (readArray buffer m) (readArray buffer m') := by
  refine simulates_readUInt.bind_eq fun length => ?_
  have hitems : Simulates SamePosition IsLegacy
      (do return JValue.list (← readElements m length.toInt.toNat))
      (do return JValue.list (← readElements m' length.toInt.toNat)) :=
    (simulates_readElements hm length.toInt.toNat).map fun vs ws h => congrArg JValue.list h
  dsimp only
  split
  · exact (simulates_throw _).bind_eq fun _ => hitems
  · exact hitems

omit hm

/-- **Both parsers read in step**, and 0.1 builds the legacy value. -/
theorem simulates_readObject : ∀ n : Nat,
    Simulates SamePosition IsLegacy (readObject e buffer n) (Version01.readObject e buffer n)
  | 0 => simulates_throw _
  | n + 1 => by
    refine simulates_readType.bind_eq fun type => ?_
    have hnumber {α : Type} {r : ParserM α} (hr : Simulates SamePosition Eq r r) {f : α → JValue}
        (hf : ∀ a, (f a).legacy = f a) :
        Simulates SamePosition IsLegacy (do return f (← r)) (do return f (← r)) :=
      hr.map fun a b hab => by
        subst hab
        exact (hf a).symm
    refine Simulates.ite (fun _ => hnumber simulates_readUTF16String fun _ => rfl) fun _ => ?_
    refine Simulates.ite (fun _ => hnumber simulates_readVarInt fun _ => rfl) fun _ => ?_
    refine Simulates.ite (fun _ => hnumber simulates_readFloat fun _ => rfl) fun _ => ?_
    refine Simulates.ite (fun _ => simulates_readMap (simulates_readObject n)) fun _ => ?_
    refine Simulates.ite (fun _ => simulates_readArray (simulates_readObject n)) fun _ => ?_
    refine Simulates.ite (fun _ => ?_) fun _ => ?_
    · refine simulates_readDouble.map fun x number h => ?_
      subst h
      rfl
    refine Simulates.ite (fun _ => hnumber simulates_readLong fun _ => rfl) fun _ => ?_
    refine Simulates.ite (fun _ => ?_) fun _ => Simulates.ite (fun _ => ?_) fun _ => ?_
    · exact simulates_readUTF16String.bind_eq fun s => hnumber (simulates_parseNumber _ s) fun _ => rfl
    · exact simulates_readUTF16String.bind_eq fun s => hnumber (simulates_parseNumber _ s) fun _ => rfl
    refine Simulates.ite (fun _ => simulates_pure rfl) fun _ => ?_
    refine Simulates.ite (fun _ => simulates_pure rfl) fun _ => ?_
    exact Simulates.ite (fun _ => simulates_pure rfl) fun _ => simulates_throw _

end Parser

/-! ## Compatibility -/

namespace JavaObject

mutual

/-- The objects of the current version and of 0.1 have the same class and value at every node, up to
the library of the containers; where the current one is a double that 0.1 makes a `Long` of, nothing
is said. -/
def SameNodes : JavaObject → JavaObject → Prop
  | .null, .null => True
  | .boolean b, .boolean b' => b' = b
  | .number n, o => JValue.KeepsNumber n → o = .number n
  | .string s, .string s' => s' = s
  | .jsonArray .fastjson2 items, .jsonArray .fastjson items' => SameNodesItems items items'
  | .jsonObject .fastjson2 entries, .jsonObject .fastjson entries' => SameNodesEntries entries entries'
  | _, _ => False

def SameNodesItems : List JavaObject → List JavaObject → Prop
  | [], [] => True
  | o :: items, o' :: items' => SameNodes o o' ∧ SameNodesItems items items'
  | _, _ => False

def SameNodesEntries : List (Utf16 × JavaObject) → List (Utf16 × JavaObject) → Prop
  | [], [] => True
  | (k, o) :: entries, (k', o') :: entries' => k' = k ∧ SameNodes o o' ∧ SameNodesEntries entries entries'
  | _, _ => False

end

mutual

/-- The legacy value differs in such doubles only. -/
theorem sameNodes_legacy : ∀ v : JValue, SameNodes (v.object .fastjson2) (v.legacy.object .fastjson)
  | .null => trivial
  | .boolean _ | .string _ => rfl
  | .number _ => fun hkeeps => congrArg JavaObject.number (JValue.legacyNumber_of_keeps hkeeps)
  | .list vs => sameNodesItems_legacy vs
  | .map entries => sameNodesEntries_legacy entries

theorem sameNodesItems_legacy : ∀ vs : List JValue,
    SameNodesItems (JValue.objectItems .fastjson2 vs) (JValue.objectItems .fastjson (JValue.legacyItems vs))
  | [] => trivial
  | v :: vs => ⟨sameNodes_legacy v, sameNodesItems_legacy vs⟩

theorem sameNodesEntries_legacy : ∀ entries : List (Utf16 × JValue),
    SameNodesEntries (JValue.objectEntries .fastjson2 entries)
      (JValue.objectEntries .fastjson (JValue.legacyEntries entries))
  | [] => trivial
  | (_, v) :: entries => ⟨rfl, sameNodes_legacy v, sameNodesEntries_legacy entries⟩

end

end JavaObject

/-- Both versions throw the same error, or both return null, or both return objects; these are of
the same classes and values at every node, up to the library of the containers and to doubles that
0.1 makes a `Long` of. -/
def Compatible {σ τ : Type} :
    EStateM.Result Throwable σ JValue → EStateM.Result Throwable τ JValue → Prop
  | .ok v _, .ok w _ =>
    (v = .null ↔ w = .null) ∧ JavaObject.SameNodes (v.object .fastjson2) (w.object .fastjson)
  | .error err _, .error err' _ => err = err'
  | _, _ => False

/-- **Compatibility** with version 0.1, whatever the key caches hold. -/
theorem compatible (e : Endian) (stack : Nat) (data : Bytes) (cache cache' : BitVec 11 → Option Utf16) :
    Compatible (parse e stack data 0 cache) (Version01.parse e stack data cache') := by
  have hsimulates : Simulates Parser.SamePosition Parser.IsLegacy (Parser.readObject e data stack) _ :=
    Parser.simulates_readObject stack
  have hread := hsimulates (show Parser.SamePosition ⟨0, cache⟩ ⟨0, cache'⟩ from rfl)
  unfold parse Version01.parse
  generalize Parser.readObject e data stack ⟨0, cache⟩ = r at hread
  generalize Version01.readObject e data stack ⟨0, cache'⟩ = r' at hread
  -- either both return or both throw the same
  cases hread with
  | @ok v w _ _ hvw _ =>
    obtain rfl := hvw
    exact ⟨JValue.legacy_eq_null.symm, JavaObject.sameNodes_legacy v⟩
  | error err _ =>
    dsimp only
    cases err.isException with
    | true => exact ⟨Iff.rfl, trivial⟩
    | false => rfl

/-- Both versions return equal objects or both return null, with the classes of every node. -/
def EqualObjects {σ τ : Type} :
    EStateM.Result Throwable σ JValue → EStateM.Result Throwable τ JValue → Prop
  | .ok v _, .ok w _ => v.object .fastjson2 = w.object .fastjson
  | .error _ _, .error _ _ => True
  | _, _ => False

/-- The bytes `64 41 E0 00 00 00 00 00 00` hold the double 2147483648.0. -/
theorem decodeDouble_large : Version01.decodeDouble 0x41E0000000000000 = .long 0x80000000 := by
  decide +kernel

/-- The empty map has another class, and the number 2147483648.0 is a `Long` in 0.1. -/
theorem not_equalObjects_emptyMap :
    ¬ EqualObjects (parse .little 2 [0x7B, 0x00] 0 fun _ => none)
        (Version01.parse .little 2 [0x7B, 0x00] fun _ => none) ∧
      ¬ EqualObjects (parse .little 1 [0x64, 0x41, 0xE0, 0, 0, 0, 0, 0, 0] 0 fun _ => none)
        (Version01.parse .little 1 [0x64, 0x41, 0xE0, 0, 0, 0, 0, 0, 0] fun _ => none) := by
  constructor
  · have h : parse .little 2 [0x7B, 0x00] 0 (fun _ => none) = .ok (.map []) fun _ => none := rfl
    have h' : Version01.parse .little 2 [0x7B, 0x00] (fun _ => none) = .ok (.map []) fun _ => none := rfl
    rw [h, h']
    exact nofun
  · have h : parse .little 1 [0x64, 0x41, 0xE0, 0, 0, 0, 0, 0, 0] 0 (fun _ => none)
        = .ok (.number (.double (Input.decodeDouble 0x41E0000000000000))) fun _ => none := rfl
    have h' : Version01.parse .little 1 [0x64, 0x41, 0xE0, 0, 0, 0, 0, 0, 0] (fun _ => none)
        = .ok (.number (Version01.decodeDouble 0x41E0000000000000)) fun _ => none := rfl
    rw [h, h', decodeDouble_large]
    exact nofun

end Wson.Java
