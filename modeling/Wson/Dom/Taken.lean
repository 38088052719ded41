import Wson.Dom.Tree

/-!
# Keys as they are taken

The parsers compare a key with `strcmp`, which stops at a NUL: a key with more behind a NUL is
taken for what stands in front of it.

- `taken`: a document with the keys of its nodes as they are taken.
- `fieldNamed_takenKey`: the fields of it are those that the parsers find.
-/

namespace Wson.Dom

open Text Wire

theorem Field.key_inj {f g : Field} : f.key = g.key ↔ f = g := by
  cases f <;> cases g <;> decide

/-- The key of the field that a key is taken for. -/
def takenKey (k : Utf16) : Utf16 :=
  (fieldOf (utf8 k)).elim k Field.key

mutual

/-- The document with the keys of its nodes as they are taken. -/
def taken : Doc → Doc
  | .map es => .map (takenEntries es)
  | d => d

def takenEntries : List (Utf16 × Doc) → List (Utf16 × Doc)
  | [] => []
  | (k, d) :: es =>
    (takenKey k, if takenKey k = Field.children.key then takenValue d else d) :: takenEntries es

/-- Below `children` there are nodes. -/
def takenValue : Doc → Doc
  | .array ds => .array (takenItems ds)
  | d => d

def takenItems : List Doc → List Doc
  | [] => []
  | d :: ds => taken d :: takenItems ds

end

def takenEntry (x : Utf16 × Doc) : Utf16 × Doc :=
  (takenKey x.1, if takenKey x.1 = Field.children.key then takenValue x.2 else x.2)

theorem takenEntries_eq (es : List (Utf16 × Doc)) : takenEntries es = es.map takenEntry := by
  induction es with
  | nil => rfl
  | cons x es ih =>
    rw [takenEntries, ih]
    rfl

theorem takenItems_eq (ds : List Doc) : takenItems ds = ds.map taken := by
  induction ds with
  | nil => rfl
  | cons d ds ih =>
    rw [takenItems, ih]
    rfl

/-- The name of the key that is taken is the field that is found. -/
theorem fieldNamed_takenKey (k : Utf16) : fieldNamed (takenKey k) = fieldOf (utf8 k) := by
  rw [takenKey]
  cases hfield : fieldOf (utf8 k) with
  | some f => exact fieldNamed_eq_some.mpr rfl
  | none =>
    show fieldNamed k = none
    rw [Option.eq_none_iff_forall_ne_some]
    intro f hf
    rw [fieldNamed_eq_some.mp hf, fieldOf_key] at hfield
    exact nomatch hfield

theorem takenKey_eq {k : Utf16} {f : Field} : takenKey k = f.key ↔ fieldOf (utf8 k) = some f := by
  rw [← fieldNamed_takenKey, fieldNamed_eq_some]

/-- A key is plain iff it is taken for itself. -/
theorem takenKey_of_plain {k : Utf16} (h : Plain k) : takenKey k = k := by
  have h : fieldOf (utf8 k) = fieldNamed k := h
  rw [takenKey, h]
  cases hfield : fieldNamed k with
  | none => rfl
  | some f => exact (fieldNamed_eq_some.mp hfield).symm

theorem plain_takenKey (k : Utf16) : Plain (takenKey k) := by
  rw [Plain]
  cases hfield : fieldNamed (takenKey k) with
  | some f => rw [fieldNamed_eq_some.mp hfield, fieldOf_key]
  | none =>
    have hnone : fieldOf (utf8 k) = none := (fieldNamed_takenKey k).symm.trans hfield
    rw [takenKey, hnone]
    exact hnone

section Entry

variable {x : Utf16 × Doc} {k : Utf16} {d : Doc}

theorem fieldOf_of_taken (h : takenEntry x = (k, d)) : fieldOf (utf8 x.1) = fieldNamed k := by
  rw [← fieldNamed_takenKey]
  exact congrArg (fun y : Utf16 × Doc => fieldNamed y.1) h

/-- Only what stands under `children` changes. -/
theorem value_of_taken (h : takenEntry x = (k, d)) (hne : k ≠ Field.children.key) : x.2 = d := by
  injection h with hkey hvalue
  rwa [if_neg (hkey ▸ hne)] at hvalue

theorem children_of_taken (h : takenEntry x = (Field.children.key, d)) : takenValue x.2 = d := by
  injection h with hkey hvalue
  rwa [if_pos hkey] at hvalue

end Entry

end Wson.Dom
