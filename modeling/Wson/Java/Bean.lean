import Wson.Java.Heap

/-!
# `getBean`

Which properties `writeAdapterObject` finds in a class. Reflection gives the public
methods and fields of the class; the getters are the methods that are not static, not
those of `Object`, and whose names start with `get` or `is`.

A class without such methods and without fields of its instances has no properties
(`getBean_of_noProperties`), so that its objects are written as empty maps.
-/

namespace Wson.Java

open Wire

/-- What `java.lang.reflect.Method` says about a public method. -/
structure Method where
  name : Utf16
  /-- `getDeclaringClass() == Object.class`. -/
  ofObject : Bool
  isStatic : Bool
  /-- It has the annotation `JSONField`. -/
  annotated : Bool

structure Field where
  name : Utf16
  isStatic : Bool
  annotated : Bool

/-- `getName`, `getMethods` and `getFields` of a `Class`. -/
structure JClass where
  name : Utf16
  methods : List Method
  fields : List Field

structure ObjectBean where
  methods : List Method
  fields : List Field
  names : List Utf16

/-- `get`. -/
def methodPrefixGet : Utf16 := [0x67, 0x65, 0x74]

/-- `is`. -/
def methodPrefixIs : Utf16 := [0x69, 0x73]

section GetBean

variable (toLowerCase : Char16 → Char16)

/-- The name behind the first `count` characters, its own first character in lower case. -/
def propertyName (count : Nat) (name : Utf16) : Except Throwable Utf16 :=
  match name.drop count with
  | [] => .error .stringIndexOutOfBounds
  | ch :: rest => .ok (toLowerCase ch :: rest)

/-- The loop over the methods. -/
def collectMethods : List Method → Except Throwable (List (Utf16 × Method))
  | [] => .ok []
  | method :: methods => do
    if method.ofObject || method.isStatic then collectMethods methods
    else if methodPrefixGet.isPrefixOf method.name || methodPrefixIs.isPrefixOf method.name then
      if method.annotated then throw .unsupportedOperation
      else
        let count := if methodPrefixGet.isPrefixOf method.name then 3 else 2
        let name ← propertyName toLowerCase count method.name
        return (name, method) :: (← collectMethods methods)
    else collectMethods methods

/-- The loop over the fields, of which those with a name that is there already are left out. -/
def collectFields (names : List Utf16) : List Field → Except Throwable (List Field)
  | [] => .ok []
  | field :: fields => do
    if field.isStatic then collectFields names fields
    else if field.annotated then throw .unsupportedOperation
    else if field.name ∈ names then collectFields names fields
    else return field :: (← collectFields (names ++ [field.name]) fields)

def getBean (targetClass : JClass) : Except Throwable ObjectBean := do
  let methods ← collectMethods toLowerCase targetClass.methods
  let fields ← collectFields (methods.map (·.1)) targetClass.fields
  return {
    methods := methods.map (·.2)
    fields := fields
    names := methods.map (·.1) ++ fields.map (·.name) }

variable {O : Type}

/-- The names of the properties of an object with what `method.invoke` and `field.get` give. -/
def properties (invoke : Method → Except Throwable O) (read : Field → Except Throwable O)
    (targetClass : JClass) : Except Throwable (List (Utf16 × Except Throwable O)) := do
  let bean ← getBean toLowerCase targetClass
  return bean.names.zip (bean.methods.map invoke ++ bean.fields.map read)

variable {toLowerCase}

/-- The class has neither getters nor fields of its instances. -/
structure JClass.NoProperties (C : JClass) : Prop where
  methods : ∀ method ∈ C.methods, method.ofObject = false → method.isStatic = false →
    methodPrefixGet.isPrefixOf method.name = false ∧ methodPrefixIs.isPrefixOf method.name = false
  fields : ∀ field ∈ C.fields, field.isStatic = true

theorem collectMethods_of_noGetters {methods : List Method}
    (h : ∀ method ∈ methods, method.ofObject = false → method.isStatic = false →
      methodPrefixGet.isPrefixOf method.name = false ∧ methodPrefixIs.isPrefixOf method.name = false) :
    collectMethods toLowerCase methods = .ok [] := by
  induction methods with
  | nil => rfl
  | cons method methods ih =>
    obtain ⟨hmethod, hmethods⟩ := List.forall_mem_cons.mp h
    rw [collectMethods]
    cases hobject : method.ofObject with
    | true => exact ih hmethods
    | false =>
      cases hstatic : method.isStatic with
      | true => exact ih hmethods
      | false =>
        obtain ⟨hget, his⟩ := hmethod hobject hstatic
        simp only [hget, his, Bool.or_self, Bool.false_eq_true, if_false]
        exact ih hmethods

theorem collectFields_of_static {names : List Utf16} {fields : List Field}
    (h : ∀ field ∈ fields, field.isStatic = true) : collectFields names fields = .ok [] := by
  induction fields with
  | nil => rfl
  | cons field fields ih =>
    obtain ⟨hfield, hfields⟩ := List.forall_mem_cons.mp h
    rw [collectFields, hfield, if_pos rfl]
    exact ih hfields

/-- **No properties**, so no names. -/
theorem getBean_of_noProperties {C : JClass} (h : C.NoProperties) :
    getBean toLowerCase C = .ok ⟨[], [], []⟩ := by
  unfold getBean
  rw [collectMethods_of_noGetters h.methods]
  show (collectFields [] C.fields >>= _) = _
  rw [collectFields_of_static h.fields]
  rfl

theorem properties_of_noProperties {C : JClass} (h : C.NoProperties)
    (invoke : Method → Except Throwable O) (read : Field → Except Throwable O) :
    properties toLowerCase invoke read C = .ok [] := by
  unfold properties
  rw [getBean_of_noProperties h]
  rfl

end GetBean

end Wson.Java
