import Wson.Native.Growth
import Wson.Text.Decimal

/-!
# Values of JavaScriptCore

What `wson_jsc.cpp` sees of the JavaScript engine. Objects are references of a type
`O`, and everything the engine does with them may run scripts, so each operation of
`Engine` is a function on the state `W` of the engine and may answer differently each
time.
-/

namespace Wson.Jsc

open Wire

/-- `WTF::String`: its units, stored in 8 or in 16 bits each. -/
structure JsString where
  units : Utf16
  is8Bit : Bool
  length_lt : units.length < 2 ^ 31

inductive JSValue (O : Type) where
  | empty
  | null
  | undefined
  | boolean (value : Bool)
  | int32 (num : BitVec 32)
  | double (bits : BitVec 64)
  | string (s : JsString)
  | symbol
  | object (o : O)

/-- What the encoder asks about an object; a `plain` object is none of the others. -/
inductive Kind where
  | array
  | stringObject
  | numberObject
  | booleanObject
  | function
  | plain
deriving DecidableEq

/-- The names of a `PropertyNameArray`, whose size is an `unsigned`. -/
abbrev Names := { names : List JsString // names.length < 2 ^ 32 }

structure Engine (O W : Type) where
  kind : O → Kind
  /-- `array->length()`. -/
  length : O → StateM W (BitVec 32)
  getIndex : O → BitVec 32 → StateM W (JSValue O)
  getOwnPropertyNames : O → StateM W Names
  /-- `getOwnPropertySlot`, and `slot.getValue` where it says yes. -/
  getOwnProperty : O → JsString → StateM W (Option (JSValue O))
  /-- `getPropertySlot` and `slot.getValue` for `toJSON`. -/
  getToJSON : O → StateM W (Option (JSValue O))
  isCallable : JSValue O → Bool
  /-- `call`, of a function on an object with one string as the argument. -/
  call : JSValue O → O → Utf16 → StateM W (JSValue O)
  toString : O → StateM W JsString
  /-- `jsNumber(object->toNumber(exec))`: an `int32` where the number is one. -/
  toNumber : O → StateM W (BitVec 32 ⊕ BitVec 64)
  toPrimitive : O → StateM W (JSValue O)
  /-- `isAnyInt` and `asAnyInt` of a double. -/
  asAnyInt : BitVec 64 → Option (BitVec 64)
  /-- `toWTFString` of a double. -/
  numberText : BitVec 64 → JsString

theorem length_nil_lt : ([] : Utf16).length < 2 ^ 31 := by decide

theorem length_noNames_lt : ([] : List JsString).length < 2 ^ 32 := by decide

/-- The smallest heaps have two objects. -/
instance neZero_two : NeZero 2 := ⟨by decide⟩

variable {O W : Type} (E : Engine O W)

def JSValue.isFunction : JSValue O → Bool
  | .object o => E.kind o = .function
  | _ => false

def JSValue.isUndefined : JSValue O → Bool
  | .undefined => true
  | _ => false

/-- `singleCharacterString` and `numericStrings.add`: the decimal digits. -/
def indexString (index : BitVec 32) : Utf16 :=
  Decimal.text (Decimal.digits index.toNat)

end Wson.Jsc
