import Wson.Jsc.Value

/-!
# `wson_push_js_value`

The encoder of `wson_jsc.cpp`. What it does to the engine does not depend on the
buffer, so it is a program over the engine that returns the stores to be made, and
with them a `Visit`: which values it has met, and the answers of the two passes over
the properties of each object. `Visit.bytes` is what the stores hold
(`stored_pushJsValue`).
-/

namespace Wson.Jsc

open Wire Native

/-- A run of the encoder. An object comes with the answers of the first and of the second
pass over its properties, and with the entries that the second pass has written. -/
inductive Visit (O : Type) where
  | scalar (d : Doc)
  | array (items : List (Visit O))
  | object (first second : List (Option (JSValue O))) (entries : List (Utf16 × Visit O))

section Encoder

variable {O W : Type} (E : Engine O W) (e : Endian)

/-- `call_object_js_value_to_json`. -/
def callObjectJsValueToJson (object : O) (identifier : Utf16) : StateM W (JSValue O) := do
  match ← E.getToJSON object with
  | some toJSONFunction =>
    if E.isCallable toJSONFunction then E.call toJSONFunction object identifier
    else pure (.object object)
  | none => pure (.object object)

/-- `call_object_js_value_to_json`, for the values that are objects. -/
def toJson (identifier : Utf16) : JSValue O → StateM W (JSValue O)
  | .object o => callObjectJsValueToJson E o identifier
  | val => pure val

/-- The units of a string. Those of an 8-bit string are stored one by one behind
`wson_buffer_require`, those of a 16-bit string by `wson_push_bytes`. -/
def unitsStore (s : JsString) : Store where
  width := if s.is8Bit then 64 else 32
  request := 2 * s.units.length
  bytes := units e s.units
  signed := !s.is8Bit

/-- `wson_push_js_identifier`. -/
def pushJsIdentifier (s : JsString) : List Store :=
  [Call.uintStore (BitVec.ofNat 32 (2 * s.units.length)), unitsStore e s]

/-- `wson_push_js_string`. -/
def pushJsString (s : JsString) : List Store :=
  Call.typeStore Tag.string :: pushJsIdentifier e s

/-- Whether an answer about a property is left out: there is none, or it is undefined or a
function. -/
def skipped : Option (JSValue O) → Bool
  | some propertyValue => propertyValue.isUndefined || propertyValue.isFunction E
  | none => true

/-- The first pass: the answers that it counts. -/
def readProperties (object : O) : List JsString → StateM W (List (Option (JSValue O)))
  | [] => pure []
  | propertyName :: names => do
    let answer ← E.getOwnProperty object propertyName
    return answer :: (← readProperties object names)

/-- The size that the first pass leaves for the header. -/
def headerSize (answers : List (Option (JSValue O))) : BitVec 32 :=
  BitVec.ofNat 32 answers.length - BitVec.ofNat 32 (answers.countP (skipped E))

variable (push : JSValue O → StateM W (List Store × Visit O))

/-- The loop over the elements, from `index` on. -/
def pushElements (array : O) : Nat → BitVec 32 → StateM W (List Store × List (Visit O))
  | 0, _ => pure ([], [])
  | k + 1, index => do
    let ele ← E.getIndex array index
    let ele ← toJson E (indexString index) ele
    let (stores, visit) ← push ele
    let (rest, visits) ← pushElements array k (index + 1)
    return (stores ++ rest, visit :: visits)

/-- The second pass: the entries, and the answers it got. -/
def pushProperties (object : O) :
    List JsString → StateM W (List Store × List (Option (JSValue O)) × List (Utf16 × Visit O))
  | [] => pure ([], [], [])
  | propertyName :: names => do
    match ← E.getOwnProperty object propertyName with
    | some propertyValue =>
      if propertyValue.isUndefined || propertyValue.isFunction E then
        let (rest, answers, entries) ← pushProperties object names
        return (rest, some propertyValue :: answers, entries)
      else
        let value ← toJson E propertyName.units propertyValue
        let (stores, visit) ← push value
        let (rest, answers, entries) ← pushProperties object names
        return (pushJsIdentifier e propertyName ++ stores ++ rest, some propertyValue :: answers,
          (propertyName.units, visit) :: entries)
    | none =>
      let (rest, answers, entries) ← pushProperties object names
      return (rest, none :: answers, entries)

/-- What is pushed for a value that is written by one call. -/
def pushCall (call : Call) (d : Doc) : List Store × Visit O :=
  (call.stores .c, .scalar d)

def pushNull : List Store × Visit O :=
  pushCall .typeNull .null

def pushBoolean (value : Bool) : List Store × Visit O :=
  pushCall (.booleanWithTag (if value then 1 else 0)) (.boolean value)

def pushString (s : JsString) : List Store × Visit O :=
  (pushJsString e s, .scalar (.text .string s.units))

def pushInt (num : BitVec 32) : List Store × Visit O :=
  pushCall (.varIntWithTag num) (.int num)

def pushLong (num : BitVec 64) : List Store × Visit O :=
  pushCall (.fixedInt64WithTag num) (.long num)

def pushDouble (bits : BitVec 64) : List Store × Visit O :=
  match E.asAnyInt bits with
  | some num => pushLong num
  | none => pushCall (.doubleWithTag bits) (.double bits)

/-- `WSON_MAX_DEEP`. -/
def maxDeep : Nat := 40000

variable [DecidableEq O]

/-- `wson_push_js_value`. -/
def pushJsValue (objectStack : List O) : JSValue O → StateM W (List Store × Visit O)
  | .empty | .null | .undefined => pure pushNull
  | .string s => pure (pushString e s)
  | .int32 num => pure (pushInt num)
  | .double bits => pure (pushDouble E bits)
  | .boolean value => pure (pushBoolean value)
  | .symbol => pure pushNull
  | .object o =>
    match E.kind o with
    | .array =>
      -- `check_js_deep_and_circle_reference`
      if _h : o ∈ objectStack ∨ maxDeep < objectStack.length then pure pushNull
      else do
        let length ← E.length o
        let (stores, visits) ← pushElements E (fun ele => pushJsValue (objectStack ++ [o]) ele) o
          length.toNat 0
        return ((Call.typeArray length).stores .c ++ stores, .array visits)
    | .stringObject => do return pushString e (← E.toString o)
    | .numberObject => do
      match ← E.toNumber o with
      | .inl num => return pushInt num
      | .inr bits =>
        match E.asAnyInt bits with
        | some num => return pushLong num
        -- `val.isDouble()` asks the object, which is none
        | none => return pushString e (E.numberText bits)
    | .booleanObject => do
      match ← E.toPrimitive o with
      | .boolean true => return pushBoolean true
      | _ => return pushBoolean false
    | .function => pure pushNull
    | .plain =>
      if _h : o ∈ objectStack ∨ maxDeep < objectStack.length then pure pushNull
      else do
        let names ← E.getOwnPropertyNames o
        let first ← readProperties E o names
        let (stores, second, entries) ← pushProperties E e
          (fun value => pushJsValue (objectStack ++ [o]) value) o names
        return ((Call.typeMap (headerSize E first)).stores .c ++ stores, .object first second entries)
termination_by maxDeep + 1 - objectStack.length
decreasing_by
  all_goals
    rw [not_or] at _h
    rw [List.length_append, List.length_singleton]
    omega

end Encoder

end Wson.Jsc
