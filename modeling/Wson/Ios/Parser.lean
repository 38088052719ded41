import Wson.Native.Growth
import Wson.Native.Reader

/-!
# `WsonParser.m`

The encoder and the decoder for Foundation objects, on the buffer of the library in `c/`.
An object is what its accessors return; which branch of the encoder it takes is its class,
and for an `NSNumber` or an `NSValue` the type encoding in `objCType`.
-/

namespace Wson.Ios

open Effect Wire Native

/-- The characters of an `objCType`, before the NUL. -/
abbrev TypeEncoding := List Char

/-- The units of a string literal. -/
def literal (s : String) : Utf16 :=
  s.toList.map fun ch => BitVec.ofNat 16 ch.toNat

/-- A number, with what it is converted to by its accessors. -/
structure NSNumber where
  objCType : TypeEncoding
  doubleValue : BitVec 64
  floatValue : BitVec 32
  intValue : BitVec 32
  longLongValue : BitVec 64
  boolValue : Bool

structure CGPoint (F : Type) where
  x : F
  y : F

structure CGSize (F : Type) where
  width : F
  height : F

structure CGRect (F : Type) where
  origin : CGPoint F
  size : CGSize F

structure CGVector (F : Type) where
  dx : F
  dy : F

structure UIEdgeInsets (F : Type) where
  top : F
  left : F
  bottom : F
  right : F

structure NSRange where
  location : BitVec 64
  length : BitVec 64

/-- A boxed value. Only the accessor for its type is asked. -/
structure NSValue (F : Type) where
  objCType : TypeEncoding
  rect : CGRect F
  point : CGPoint F
  size : CGSize F
  range : NSRange
  vector : CGVector F
  edgeInsets : UIEdgeInsets F

/-- An object, over the numbers `F` that are a `CGFloat`. The keys of a dictionary come with
their descriptions, in the order in which they are enumerated. -/
inductive Object (F : Type) where
  | string (units : Utf16)
  | number (number : NSNumber)
  | dictionary (entries : List (Option Utf16 × Object F))
  | array (items : List (Object F))
  | date (timeIntervalSince1970 : BitVec 64)
  | value (value : NSValue F)
  | null
  /-- An object of another class. -/
  | other (description : Option Utf16)

/-- The conversions between numbers that depend on the target: a `CGFloat` is a `double` on some
and a `float` on others, and a `double` need not be in the range of an `int64_t`. -/
structure Target (F : Type) where
  floatOfCGFloat : F → BitVec 32
  floatOfNSUInteger : BitVec 64 → BitVec 32
  /-- `interval*1000`, as an `int64_t`. -/
  milliseconds : BitVec 64 → BitVec 64

/-! ## `toWson:` -/

/-- The calls that the switch over the type of a number makes. -/
inductive NumberCase where
  | double
  | float
  | int
  | long
  | boolean
  deriving DecidableEq, Repr

def NSNumber.numberCase (number : NSNumber) : NumberCase :=
  match number.objCType.head? with
  | some 'd' => .double
  | some 'f' => .float
  | some 'i' | some 'I' | some 'c' | some 'C' | some 's' | some 'S' => .int
  | some 'l' | some 'L' | some 'Q' | some 'q' => .long
  | some 'b' | some 'B' => .boolean
  -- the call behind the switch
  | _ => .long

/-- The names that a struct is compared with. -/
inductive Struct where
  | CGRect
  | CGPoint
  | CGSize
  | NSRange
  | CGVector
  | UIEdgeInsets
  deriving DecidableEq, Repr

namespace Struct

/-- In the order of the comparisons. -/
def all : List Struct :=
  [.CGRect, .CGPoint, .CGSize, .NSRange, .CGVector, .UIEdgeInsets]

def name : Struct → String
  | .CGRect => "CGRect"
  | .CGPoint => "CGPoint"
  | .CGSize => "CGSize"
  | .NSRange => "NSRange"
  | .CGVector => "CGVector"
  | .UIEdgeInsets => "UIEdgeInsets"

/-- `strncmp(type, name, strlen(name)) == 0`, behind the brace. -/
def ofType (type : TypeEncoding) : Option Struct :=
  all.find? fun s => s.name.toList.isPrefixOf type

/-- The size in the header of the map. -/
def size : Struct → BitVec 32
  | .CGRect => 4
  | .CGPoint => 2
  | .CGSize => 2
  | .NSRange => 2
  | .CGVector => 2
  | .UIEdgeInsets => 4

end Struct

section Encoder

variable {F : Type} (T : Target F) (e : Endian)

/-- The entries that are pushed behind the header. -/
def NSValue.fields (value : NSValue F) : Struct → List (Utf16 × BitVec 32)
  | .CGRect =>
    [(literal "x", T.floatOfCGFloat value.rect.origin.x),
      (literal "y", T.floatOfCGFloat value.rect.origin.y),
      (literal "width", T.floatOfCGFloat value.rect.size.width),
      (literal "height", T.floatOfCGFloat value.rect.size.height)]
  | .CGPoint =>
    [(literal "width", T.floatOfCGFloat value.point.x),
      (literal "y", T.floatOfCGFloat value.point.y)]
  | .CGSize =>
    [(literal "width", T.floatOfCGFloat value.size.width),
      (literal "height", T.floatOfCGFloat value.size.height)]
  | .NSRange =>
    [(literal "location", T.floatOfNSUInteger value.range.location),
      (literal "length", T.floatOfNSUInteger value.range.length)]
  | .CGVector =>
    [(literal "dx", T.floatOfCGFloat value.vector.dx),
      (literal "dy", T.floatOfCGFloat value.vector.dy)]
  | .UIEdgeInsets =>
    [(literal "left", T.floatOfCGFloat value.edgeInsets.left),
      (literal "top", T.floatOfCGFloat value.edgeInsets.top),
      (literal "bottom", T.floatOfCGFloat value.edgeInsets.bottom),
      (literal "right", T.floatOfCGFloat value.edgeInsets.right)]

/-- The length of a string in bytes, and `getCharacters:` behind `wson_buffer_require`. -/
def pushCharacters (string : Utf16) : BufferM Unit := do
  Buffer.writeVarUint .c (BitVec.ofNat 32 (2 * string.length))
  Buffer.ensureSize .c 64 (2 * string.length)
  Buffer.put .c (units e string)

/-- `wson_push_key_string:buffer:`, of an object with this description. The length of `nil`
is zero. -/
def pushKeyString (description : Option Utf16) : BufferM Unit :=
  pushCharacters e (description.getD [])

def pushString (string : Utf16) : BufferM Unit := do
  Buffer.writeType .c Tag.string
  pushCharacters e string

/-- `toWson:buffer:`, of a description. -/
def pushDescription : Option Utf16 → BufferM Unit
  | none => Buffer.writeTypeNull .c
  | some string => pushString e string

def pushNumber (number : NSNumber) : BufferM Unit :=
  match number.numberCase with
  | .double => Buffer.writeDoubleWithTag .c number.doubleValue
  | .float => Buffer.writeFloatWithTag .c number.floatValue
  | .int => Buffer.writeVarIntWithTag .c number.intValue
  | .long => Buffer.writeFixedInt64WithTag .c number.longLongValue
  | .boolean => Buffer.writeBooleanWithTag .c (if number.boolValue then 1 else 0)

def pushFields : List (Utf16 × BitVec 32) → BufferM Unit
  | [] => pure ()
  | (key, num) :: fields => do
    pushKeyString e (some key)
    Buffer.writeFloatWithTag .c num
    pushFields fields

def pushStruct (value : NSValue F) (s : Struct) : BufferM Unit := do
  Buffer.writeTypeMap .c s.size
  pushFields e (value.fields T s)

def pushValue (value : NSValue F) : BufferM Unit := do
  if value.objCType.head? = some '{' then
    match Struct.ofType value.objCType.tail with
    -- this branch does not return
    | some .CGVector => pushStruct T e value .CGVector
    | some s =>
      pushStruct T e value s
      return
    | none =>
      Buffer.writeTypeNull .c
      return
  Buffer.writeTypeNull .c

mutual

/-- The branches of `toWson:buffer:`. -/
def pushObject : Object F → BufferM Unit
  | .string string => pushString e string
  | .number number => pushNumber number
  | .dictionary entries => do
    Buffer.writeTypeMap .c (BitVec.ofNat 32 entries.length)
    pushEntries entries
  | .array items => do
    Buffer.writeTypeArray .c (BitVec.ofNat 32 items.length)
    pushItems items
  | .date interval => Buffer.writeFixedInt64WithTag .c (T.milliseconds interval)
  | .value value => pushValue T e value
  | .null => Buffer.writeTypeNull .c
  | .other description => pushDescription e description

def pushItems : List (Object F) → BufferM Unit
  | [] => pure ()
  | ele :: items => do
    pushObject ele
    pushItems items

def pushEntries : List (Option Utf16 × Object F) → BufferM Unit
  | [] => pure ()
  | (key, val) :: entries => do
    pushKeyString e key
    pushObject val
    pushEntries entries

end

/-- `toWson:buffer:`. -/
def toWson : Option (Object F) → BufferM Unit
  | none => Buffer.writeTypeNull .c
  | some val => pushObject T e val

end Encoder

/-! ## `toObj:` -/

/-- What `toObj:` builds. -/
inductive Parsed where
  | string (units : Utf16)
  | array (items : List Parsed)
  | dictionary (entries : List (Utf16 × Parsed))
  | int (num : BitVec 32)
  | bool (value : Bool)
  | double (num : BitVec 64)
  | float (num : BitVec 32)
  | longLong (num : BitVec 64)
  | null

inductive Raised where
  | fault (fault : Fault)
  /-- `NSInvalidArgumentException`: `nil` cannot be in a collection. -/
  | invalidArgument
  deriving DecidableEq, Repr

abbrev ParserM := EStateM Raised Buffer

/-- `setObject:forKey:` of a value that is not `nil`. -/
def setObject (key : Utf16) (value : Parsed) : List (Utf16 × Parsed) → List (Utf16 × Parsed)
  | [] => [(key, value)]
  | entry :: entries =>
    if entry.1 = key then (key, value) :: entries else entry :: setObject key value entries

section Decoder

variable (e : Endian)

def onBuffer {α : Type} (m : BufferM α) : ParserM α :=
  m.adaptExcept .fault

/-- `wson_has_next`. -/
def hasNext : ParserM Bool := do
  let buffer ← get
  pure (buffer.position < buffer.length)

/-- The length and the characters of a string. -/
def readCharacters : BufferM Utf16 := do
  let length ← Buffer.readVarUint .c
  let charSrc ← Buffer.readBts .c length
  return ofUnits e (← Buffer.bytesAt charSrc (2 * (length.toNat / 2)))

variable (toObj : ParserM (Option Parsed))

/-- An object that is put into a collection. -/
def member : ParserM Parsed := do
  match ← toObj with
  | some value => pure value
  | none => throw .invalidArgument

/-- The loop over the elements of an array. -/
def readItems : Nat → List Parsed → ParserM (List Parsed)
  | 0, array => pure array
  | length + 1, array => do
    if ← hasNext then
      let item ← member toObj
      readItems length (array ++ [item])
    else return array

/-- The loop over the entries of a map. -/
def readEntries : Nat → List (Utf16 × Parsed) → ParserM (List (Utf16 × Parsed))
  | 0, dic => pure dic
  | mapLength + 1, dic => do
    let key ← onBuffer (readCharacters e)
    let value ← member toObj
    readEntries mapLength (setObject key value dic)

/-- The switch of `toObj:`. -/
def readValue (type : Byte) : ParserM (Option Parsed) := do
  match Doc.Kind.ofTag type with
  | some (.text _) => return some (.string (← onBuffer (readCharacters e)))
  | some .array =>
    let length ← onBuffer (Buffer.readVarUint .c)
    return some (.array (← readItems toObj length.toNat []))
  | some .map =>
    let mapLength ← onBuffer (Buffer.readVarUint .c)
    return some (.dictionary (← readEntries e toObj mapLength.toNat []))
  | some .int => return some (.int (← onBuffer (Buffer.readVarInt .c)))
  | some (.boolean value) => return some (.bool value)
  | some .double => return some (.double (← onBuffer (Buffer.readDouble .c)))
  | some .float => return some (.float (← onBuffer (Buffer.readFloat .c)))
  | some .long => return some (.longLong (← onBuffer (Buffer.readLong .c)))
  | some .null => return some .null
  | some .uint8String => return none
  | none => return none

end Decoder

/-- `toObj:`, with room on the stack for the given number of nested calls. -/
def toObj (e : Endian) : Nat → ParserM (Option Parsed)
  | 0 => throw (.fault .stackOverflow)
  | n + 1 => do readValue e (toObj e n) (← onBuffer (Buffer.readType .c))

end Wson.Ios
