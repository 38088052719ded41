import Wson.Java.Number
import Wson.Java.Output

/-!
# Java objects, as the builder sees them

A `Heap` gives every reference the `View` that the `instanceof` tests of
`Builder.writeObject` take of it. References are compared by identity with `=`;
`Heap.equals` is what `Object.equals` computes, element by element for lists and
maps. It recurses as deep as the two objects are nested, and on cyclic ones it
may not end: it takes the stack depth that is left and is `none` when that does
not suffice (a `StackOverflowError`).
-/

namespace Wson.Java

open Wire

/-- The `Number` classes that `writeNumber` tells apart. -/
inductive JNumber where
  | byte (x : BitVec 8)
  | short (x : BitVec 16)
  | integer (x : BitVec 32)
  | long (x : BitVec 64)
  | float (x : BitVec 32)
  | double (x : BitVec 64)
  | bigInteger (n : Int)
  | bigDecimal (b : BigDecimal)
  /-- Any other class, with the result of its `toString()`. -/
  | other (text : Utf16)
  deriving DecidableEq

/-- `Number.equals`: same class and same value. -/
def JNumber.equals : JNumber → JNumber → Bool
  | .byte x, .byte y => x = y
  | .short x, .short y => x = y
  | .integer x, .integer y => x = y
  | .long x, .long y => x = y
  | .float x, .float y => Output.floatToIntBits x = Output.floatToIntBits y
  | .double x, .double y => Output.doubleToLongBits x = Output.doubleToLongBits y
  | .bigInteger m, .bigInteger n => m = n
  | .bigDecimal a, .bigDecimal b => a = b
  | _, _ => false

/-- A map key: `null`, a string, or an object whose `toString()` may throw. -/
inductive Key where
  | null
  | string (s : Utf16)
  | object (identity : Nat) (text : Option Utf16)
  deriving DecidableEq

/-- `key.toString()`. -/
def Key.toString : Key → Except Throwable Utf16
  | .null => .error .nullPointer
  | .string s => .ok s
  | .object _ (some s) => .ok s
  | .object _ none => .error .runtime

/-- What the builder can tell about an object, in the order in which it asks. -/
inductive View (O : Type) where
  | string (s : Utf16)
  | map (entries : List (Key × O))
  | list (elements : List O)
  | number (n : JNumber)
  | boolean (b : Bool)
  | null
  | array (elements : List O)
  /-- A `Date` or `Calendar` with its time in milliseconds. -/
  | date (time : BitVec 64)
  | collection (elements : List O)
  /-- An enum constant and the string `JSON.toJSONString` makes of it. -/
  | enum (json : O)
  /-- Any other object: its class, and what reading its properties gives. Finding the
  getters may throw, and so may each of them. -/
  | bean (className : Utf16) (getters : Except Throwable (List (Utf16 × Except Throwable O)))

/-- The smallest heaps have three or four objects. -/
instance neZero_three : NeZero 3 := ⟨by decide⟩

instance neZero_four : NeZero 4 := ⟨by decide⟩

/-- The objects of a program run. -/
structure Heap (O : Type) where
  null : O
  view : O → View O
  view_null : view null = .null
  /-- A map has no key twice. -/
  view_map : ∀ o entries, view o = .map entries → (entries.map Prod.fst).Nodup
  /-- `a.equals(b)` for objects whose class is none of the library's value, list or map
  classes; a bean class may override it in any way. -/
  ownEquals : O → O → Bool
  /-- `com.alibaba.fastjson2.JSON.toJSON`. -/
  toJSON : O → O

namespace Heap

variable {O : Type} (H : Heap O)

def isNull (o : O) : Bool :=
  match H.view o with
  | .null => true
  | _ => false

/-- `AbstractList.equals` on the elements of two lists: that one of them is longer shows only
where the other ends. -/
def equalsElements (eq : O → O → Option Bool) : List O → List O → Option Bool
  | [], [] => some true
  | x :: xs, y :: ys => do
    if ← eq x y then equalsElements eq xs ys else some false
  | _, _ => some false

/-- `AbstractMap.equals` on the entries of a map, against another map of the same size. -/
def equalsEntries (eq : O → O → Option Bool) (other : List (Key × O)) :
    List (Key × O) → Option Bool
  | [] => some true
  | (key, value) :: entries =>
    if H.isNull value then
      if (mapGet key other).any H.isNull then equalsEntries eq other entries else some false
    else do
      if ← eq value ((mapGet key other).getD H.null) then equalsEntries eq other entries
      else some false

variable [DecidableEq O]

/-- `a == null ? b == null : a.equals(b)`, with the given stack depth. -/
def equals : Nat → O → O → Option Bool
  | 0, _, _ => none
  | n + 1, a, b =>
    match H.view a, H.view b with
    | .null, _ => some (H.isNull b)
    | .string s, .string t => some (s = t)
    | .string _, _ => some false
    | .number x, .number y => some (a = b ∨ x.equals y)
    | .number _, _ => some false
    | .boolean x, .boolean y => some (x = y)
    | .boolean _, _ => some false
    | .list xs, .list ys => if a = b then some true else equalsElements (equals n) xs ys
    | .list _, _ => some false
    | .map es, .map fs =>
      if a = b then some true
      else if es.length = fs.length then H.equalsEntries (equals n) fs es
      else some false
    | .map _, _ => some false
    | _, _ => some (H.ownEquals a b)

/-- `list.contains(o)` of an `ArrayList`: `o.equals` on its elements from the first on. -/
def contains (n : Nat) : List O → O → Option Bool
  | [], _ => some false
  | e :: es, o => do
    if ← H.equals n o e then some true else contains n es o

end Heap

end Wson.Java
