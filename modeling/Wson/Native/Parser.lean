import Wson.Float.Binary64
import Wson.Native.Reader
import Wson.Native.Utf8
import Wson.Text.Decimal

/-!
# `wson_parser.cpp`

The pull parser of the C++ side, over the buffer of `wson.c`. The two copies, in
`c/` and `io/`, have the same text except that the one in `io/` skips nothing for
a float. Recursion takes the number of nested calls for which the stack has room.

The part of the class that only manages the decoding buffer is left out but for
its size, an `int` expression that can overflow.
-/

namespace Wson.Native

open Effect Wire

/-- What the C library makes of numbers: the texts of `str_append_number`, which come from
`snprintf`, and `strtod`. -/
structure Libc where
  appendInt : BitVec 32 → Bytes
  appendLong : BitVec 64 → Bytes
  appendFloat : BitVec 32 → Bytes
  appendDouble : BitVec 64 → Bytes
  strtod : Bytes → BitVec 64

/-- The digits of a number behind its sign: `%d` and `%lld`. -/
def printInt (num : Int) : Bytes :=
  (if num < 0 then [0x2D] else []) ++ (Decimal.digits num.natAbs).map fun d => BitVec.ofNat 8 (0x30 + d)

/-- The library as far as integers go. -/
def Libc.ofIntegers : Libc where
  appendInt num := printInt num.toInt
  appendLong num := printInt num.toInt
  appendFloat _ := []
  appendDouble _ := []
  strtod _ := 0

namespace Parser

open Buffer

variable (lib : Library) (e : Endian) (libc : Libc)

/-- `nextType`: the null type where the declared length ends. -/
def nextType : BufferM Byte := do
  let buffer ← get
  if buffer.position < buffer.length then readType lib else pure Tag.null

/-- `getState`. -/
def getState : BufferM Nat := do
  let buffer ← get
  pure buffer.position

/-- `restoreToState`. -/
def restoreToState (state : Nat) : BufferM Unit :=
  modify fun buffer => { buffer with position := state }

/-- `backType`. -/
def backType : BufferM Unit :=
  modify fun buffer => { buffer with position := buffer.position - 1 }

/-- `nextMapSize`. -/
def nextMapSize : BufferM Int := do
  return (← readVarUint lib).toInt

/-- `nextArraySize`. -/
def nextArraySize : BufferM Int := do
  return (← readVarUint lib).toInt

/-- `requireDecodingBuffer(size * 2)`. -/
def requireDecodingBuffer (size : BitVec 32) : BufferM Unit := do
  if size.toInt < 0 ∨ 2 ^ 31 ≤ size.toInt * 2 then throw .overflow

/-- A length and the 16-bit text behind it. -/
def readUtf16 : BufferM Utf16 := do
  let size ← readVarUint lib
  let utf16 ← readBts lib size
  requireDecodingBuffer size
  let bytes ← bytesAt utf16 (size.toNat / 2 * 2)
  pure (ofUnits e bytes)

/-- The bytes that `append(utf8, size)` copies; a negative `int` is no length. -/
def appendBytes (utf8 : Nat) (size : BitVec 32) : BufferM Bytes := do
  if size.toInt < 0 then throw .overflow
  bytesAt utf8 size.toNat

/-- A length and the 8-bit text behind it. -/
def readUtf8 : BufferM Bytes := do
  let size ← readVarUint lib
  let utf8 ← readBts lib size
  appendBytes utf8 size

def nextMapKeyUTF8 : BufferM Bytes := do
  return utf16ConvertToUtf8Cstr (← readUtf16 lib e)

/-! ## JSON texts -/

/-- The loop over the entries of a map; there is no comma behind the last one. -/
def jsonEntries (toJSONtring : BufferM Bytes) : Nat → BufferM Bytes
  | 0 => pure []
  | length + 1 => do
    let key ← readUtf16 lib e
    let value ← toJSONtring
    let rest ← jsonEntries toJSONtring length
    pure (utf16ConvertToUtf8QuoteCstr key ++ 0x3A :: (value ++ (if length ≠ 0 then [0x2C] else [])) ++
      rest)

/-- The loop over the elements of an array. -/
def jsonItems (toJSONtring : BufferM Bytes) : Nat → BufferM Bytes
  | 0 => pure []
  | length + 1 => do
    let value ← toJSONtring
    let rest ← jsonItems toJSONtring length
    pure (value ++ (if length ≠ 0 then [0x2C] else []) ++ rest)

/-- The switch of `toJSONtring`. Texts of bytes are appended as they are. -/
def jsonValue (toJSONtring : BufferM Bytes) (type : Byte) : BufferM Bytes := do
  match Doc.Kind.ofTag type with
  | some .uint8String => readUtf8 lib
  | some (.text _) => return utf16ConvertToUtf8QuoteCstr (← readUtf16 lib e)
  | some .null => return [0x22, 0x22]
  | some .int => return libc.appendInt (← readVarInt lib)
  | some .float => return libc.appendFloat (← readFloat lib)
  | some .double => return libc.appendDouble (← readDouble lib)
  | some .long => return libc.appendLong (← readLong lib)
  | some (.boolean true) => return [0x74, 0x72, 0x75, 0x65]
  | some (.boolean false) => return [0x66, 0x61, 0x6C, 0x73, 0x65]
  | some .map =>
    let length := (← readVarUint lib).toInt
    let entries ← jsonEntries lib e toJSONtring length.toNat
    return 0x7B :: (entries ++ [0x7D])
  | some .array =>
    let length := (← readVarUint lib).toInt
    let items ← jsonItems toJSONtring length.toNat
    return 0x5B :: (items ++ [0x5D])
  | none => return []

/-- `toJSONtring`: what it appends to the builder. -/
def toJSONtring : Nat → BufferM Bytes
  | 0 => throw .stackOverflow
  | n + 1 => do jsonValue lib e libc (toJSONtring n) (← readType lib)

/-! ## Accessors

Each is given the type that `nextType` has returned. -/

/-- A length and the bytes behind it, passed over. -/
def skipBlock : BufferM Unit := do
  let size ← readVarUint lib
  let _ ← readBts lib size

def skipEntries (skipValue : Byte → BufferM Unit) : Nat → BufferM Unit
  | 0 => pure ()
  | length + 1 => do
    skipBlock lib
    skipValue (← readType lib)
    skipEntries skipValue length

def skipItems (skipValue : Byte → BufferM Unit) : Nat → BufferM Unit
  | 0 => pure ()
  | length + 1 => do
    skipValue (← readType lib)
    skipItems skipValue length

/-- In `io/` the statement for a float is `(wsonBuffer);`, which does nothing. -/
def skipFloat : BufferM Unit :=
  match lib with
  | .c => discard (readFloat lib)
  | .io => pure ()

def skipValue : Nat → Byte → BufferM Unit
  | 0, _ => throw .stackOverflow
  | n + 1, type => do
    match Doc.Kind.ofTag type with
    | some (.text _) | some .uint8String => skipBlock lib
    | some .null => pure ()
    | some .int => discard (readVarInt lib)
    | some .float => skipFloat lib
    | some .double => discard (readDouble lib)
    | some .long => discard (readLong lib)
    | some (.boolean _) => pure ()
    | some .map =>
      let length := (← readVarUint lib).toInt
      skipEntries lib (skipValue n) length.toNat
    | some .array =>
      let length := (← readVarUint lib).toInt
      skipItems lib (skipValue n) length.toNat
    | none => pure ()

/-- `nextStringUTF8`; for a container the tag is read a second time. -/
def nextStringUTF8 (n : Nat) (type : Byte) : BufferM Bytes := do
  match Doc.Kind.ofTag type with
  | some .uint8String => readUtf8 lib
  | some (.text _) => return utf16ConvertToUtf8Cstr (← readUtf16 lib e)
  | some .null => return []
  | some .int => return libc.appendInt (← readVarInt lib)
  | some .float => return libc.appendFloat (← readFloat lib)
  | some .double => return libc.appendDouble (← readDouble lib)
  | some .long => return libc.appendLong (← readLong lib)
  | some (.boolean true) => return [0x74, 0x72, 0x75, 0x65]
  | some (.boolean false) => return [0x66, 0x61, 0x6C, 0x73, 0x65]
  | some .map | some .array =>
    modify fun buffer =>
      { buffer with position := (buffer.position + 2 ^ lib.bits - 1) % 2 ^ lib.bits }
    toJSONtring lib e libc n
  | none => return []

/-- `strtod(str.c_str(), nullptr)`: the string ends at its first NUL. -/
def strtodOf (str : Bytes) : BitVec 64 :=
  libc.strtod (str.takeWhile (· ≠ 0))

/-- `nextNumber`, a `double`. For texts the payload is passed over once before it is read. -/
def nextNumber (n : Nat) (type : Byte) : BufferM (BitVec 64) := do
  match Doc.Kind.ofTag type with
  | some .uint8String =>
    let size ← readVarUint lib
    let _ ← readBts lib size
    let utf8 ← readBts lib size
    let str ← appendBytes utf8 size
    return strtodOf libc str
  | some (.text _) =>
    let size ← readVarUint lib
    let _ ← readBts lib size
    let utf16 ← readBts lib size
    requireDecodingBuffer size
    let bytes ← bytesAt utf16 (size.toNat / 2 * 2)
    return strtodOf libc (utf16ConvertToUtf8Cstr (ofUnits e bytes))
  | some .null => return 0
  | some .int => return Binary64.ofInt (← readVarInt lib).toInt
  | some .float => return Binary64.ofFloat (← readFloat lib)
  | some .double => readDouble lib
  | some .long => return Binary64.ofInt (← readLong lib).toInt
  | some (.boolean b) => return Binary64.ofInt (if b then 1 else 0)
  | some .map | some .array | none =>
    skipValue lib n type
    return 0

def nextBool (n : Nat) (type : Byte) : BufferM Bool := do
  if type = Tag.booleanFalse ∨ type = Tag.null then return false
  skipValue lib n type
  return true

/-- `toStringUTF8`: the text of the whole document; the position is put back. -/
def toStringUTF8 (n : Nat) : BufferM Bytes := do
  let position ← getState
  restoreToState 0
  let json ← nextStringUTF8 lib e libc n (← nextType lib)
  restoreToState position
  pure json

end Parser

end Wson.Native
