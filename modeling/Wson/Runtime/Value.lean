import Wson.Native.Growth
import Wson.Native.Parser

/-!
# `wson_for_runtime.cpp`

The values of the runtime, and the two conversions: `putValuesToWson` into a buffer of
`wson.c` and `convertWsonToRuntimeValue` from one. The containers are lists here, a
map the list of its entries in the order in which it is iterated. Recursion of the
decoder takes the number of nested calls for which the stack has room.
-/

namespace Wson.Runtime

open Effect Wire Native

/-- `unicorn::RuntimeValues`. -/
inductive RuntimeValue where
  | undefined
  | null
  | int (num : BitVec 32)
  | double (bits : BitVec 64)
  | bool (flag : Bool)
  | string (s : Bytes)
  | array (items : List RuntimeValue)
  | map (entries : List (Bytes × RuntimeValue))
  | function
  | object

namespace RuntimeValue

/-- Entries with such a value are left out. -/
def isDropped : RuntimeValue → Bool
  | .undefined | .null | .function | .object => true
  | _ => false

end RuntimeValue

/-! ## Into a buffer -/

section Put

variable (toUtf16 : Bytes → Utf16) (e : Endian)

/-- What is pushed of a text: its byte length is taken for a number of 32 bits. -/
def covered (s : Utf16) : Utf16 :=
  s.take (s.length % 2 ^ 31)

/-- `wson_push_bytes` of the units; its length is an `int32_t`. -/
def unitsStore (s : Utf16) : Store where
  width := 32
  request := 2 * (covered s).length
  bytes := units e (covered s)
  signed := true

/-- `pushMapKeyToBuffer`. -/
def pushMapKeyToBuffer (strUtf8 : Bytes) : BufferM Unit := do
  let s := toUtf16 strUtf8
  Buffer.writeVarUint .c (BitVec.ofNat 32 (2 * s.length))
  Buffer.store .c (unitsStore e s)

/-- `pushStringToWsonBuffer`. -/
def pushStringToWsonBuffer (strUtf8 : Bytes) : BufferM Unit := do
  let s := toUtf16 strUtf8
  Buffer.writeType .c Tag.string
  Buffer.writeVarUint .c (BitVec.ofNat 32 (2 * s.length))
  Buffer.store .c (unitsStore e s)

/-- The size that is left for the header of a map. -/
def headerSize (entries : List (Bytes × RuntimeValue)) : BitVec 32 :=
  BitVec.ofNat 32 entries.length - BitVec.ofNat 32 (entries.countP fun item => item.2.isDropped)

mutual

/-- `putValuesToWson`. In the last branch nothing is written. -/
def putValuesToWson : RuntimeValue → BufferM Unit
  | .undefined | .null => Buffer.writeTypeNull .c
  | .int num => Buffer.writeVarIntWithTag .c num
  | .double num => Buffer.writeDoubleWithTag .c num
  | .bool flag => Buffer.writeBooleanWithTag .c (if flag then 1 else 0)
  | .string s => pushStringToWsonBuffer toUtf16 e s
  | .array items => do
    let length := BitVec.ofNat 32 items.length
    Buffer.writeTypeArray .c length
    putItems length.toNat items
  | .map entries => do
    Buffer.writeTypeMap .c (headerSize entries)
    putEntries entries
  | .function | .object => pure ()

/-- The loop over the elements, as many as `length` says. -/
def putItems : Nat → List RuntimeValue → BufferM Unit
  | 0, _ => pure ()
  | _ + 1, [] => pure ()
  | length + 1, item :: items => do
    putValuesToWson item
    putItems length items

def putEntries : List (Bytes × RuntimeValue) → BufferM Unit
  | [] => pure ()
  | (key, value) :: entries => do
    if value.isDropped then putEntries entries
    else
      pushMapKeyToBuffer toUtf16 e key
      putValuesToWson value
      putEntries entries

end

end Put

/-! ## From a buffer -/

section Convert

variable (e : Endian)

/-- `wson16ToString`, with its buffer of `length * 2` bytes. -/
def wson16ToString (src : Nat) (length : BitVec 32) : BufferM Bytes := do
  Parser.requireDecodingBuffer length
  let bytes ← Buffer.bytesAt src (length.toNat / 2 * 2)
  return utf16ConvertToUtf8Cstr (ofUnits e bytes)

/-- A length and the text behind it. -/
def readString16 : BufferM Bytes := do
  let length ← Buffer.readVarUint .c
  let utf16 ← Buffer.readBts .c length
  wson16ToString e utf16 length

/-- `wson_has_next`. -/
def hasNext : BufferM Bool := do
  let buffer ← get
  pure (buffer.position < buffer.length)

/-- `Map::Insert`. -/
def insert (key : Bytes) (value : RuntimeValue) :
    List (Bytes × RuntimeValue) → List (Bytes × RuntimeValue)
  | [] => [(key, value)]
  | entry :: entries =>
    if entry.1 = key then (key, value) :: entries else entry :: insert key value entries

variable (convert : BufferM RuntimeValue)

/-- The loop over the elements; it breaks where the data ends. -/
def convertItems : Nat → BufferM (List RuntimeValue)
  | 0 => pure []
  | length + 1 => do
    if ← hasNext then
      let item ← convert
      let items ← convertItems length
      return item :: items
    else return []

/-- The loop over the entries. -/
def convertEntries : Nat → List (Bytes × RuntimeValue) → BufferM (List (Bytes × RuntimeValue))
  | 0, runtimeMap => pure runtimeMap
  | length + 1, runtimeMap => do
    if ← hasNext then
      let name ← readString16 e
      let value ← convert
      convertEntries length (insert name value runtimeMap)
    else return runtimeMap

/-- The switch of `convertWsonToRuntimeValue`. -/
def convertValue (type : Byte) : BufferM RuntimeValue := do
  match Doc.Kind.ofTag type with
  | some .uint8String => return .string (← Parser.readUtf8 .c)
  | some (.text _) => return .string (← readString16 e)
  | some .array =>
    let length ← Buffer.readVarUint .c
    return .array (← convertItems convert length.toNat)
  | some .map =>
    let length ← Buffer.readVarUint .c
    return .map (← convertEntries e convert length.toNat [])
  | some .int => return .int (← Buffer.readVarInt .c)
  | some (.boolean flag) => return .bool flag
  | some .double => return .double (← Buffer.readDouble .c)
  | some .float => return .double (Binary64.ofFloat (← Buffer.readFloat .c))
  | some .long => return .double (Binary64.ofInt (← Buffer.readLong .c).toInt)
  | some .null => return .null
  | none => return .null

/-- `convertWsonToRuntimeValue`. -/
def convertWsonToRuntimeValue : Nat → BufferM RuntimeValue
  | 0 => throw .stackOverflow
  | n + 1 => do convertValue e (convertWsonToRuntimeValue n) (← Buffer.readType .c)

end Convert

end Wson.Runtime
