import Wson.Java.Rendering

/-!
# Values

A `JValue` is a Java object without identity: what is left of it when only its
content counts. It is what the parser builds, and what a program means by the
lists and maps it hands to the builder.

- `Doc.meaning`: the value a document stands for.
- `JValue.written`: the document the builder writes for a value, in its chunks.
- `meaning_written`: the document written for a value means the value again, up to
  `JValue.norm` (what the format cannot tell apart) and the bits of NaNs, unless it
  holds a decimal whose text the constructor does not read (`JValue.Readable`).
-/

namespace Wson

open Wire

namespace Java

inductive JValue where
  | null
  | boolean (b : Bool)
  | number (n : JNumber)
  | string (s : Utf16)
  | list (vs : List JValue)
  /-- The entries in the order of insertion. -/
  | map (entries : List (Utf16 × JValue))

namespace JValue

def isNull : JValue → Bool
  | .null => true
  | _ => false

mutual

/-- How deep lists and maps are nested. -/
def height : JValue → Nat
  | .list vs => heightItems vs + 1
  | .map entries => heightEntries entries + 1
  | _ => 0

def heightItems : List JValue → Nat
  | [] => 0
  | v :: vs => max (height v) (heightItems vs)

def heightEntries : List (Utf16 × JValue) → Nat
  | [] => 0
  | (_, v) :: entries => max (height v) (heightEntries entries)

end

mutual

/-- Built from the classes the format knows, with no key twice in a map. -/
def Regular : JValue → Prop
  | .number (.other _) => False
  | .list vs => RegularItems vs
  | .map entries => (entries.map Prod.fst).Nodup ∧ RegularEntries entries
  | _ => True

def RegularItems : List JValue → Prop
  | [] => True
  | v :: vs => Regular v ∧ RegularItems vs

def RegularEntries : List (Utf16 × JValue) → Prop
  | [] => True
  | (_, v) :: entries => Regular v ∧ RegularEntries entries

end

end JValue

/-! ## What a document means -/

/-- The value of a text. Texts that are no numbers have no value as such. -/
def textValue : TextKind → Utf16 → Option JValue
  | .string, s => some (.string s)
  | .bigInteger, s => (BigInteger.ofString s).map fun n => .number (.bigInteger n)
  | .bigDecimal, s => (BigDecimal.ofString s).map fun b => .number (.bigDecimal b)

end Java

namespace Doc

open Java

section Meaning

/- How texts stored as bytes are decoded. -/
variable (decode : Bytes → Option Utf16)

mutual

/-- The value a document stands for; of entries with the same key the last one counts. -/
def meaning : Doc → Option JValue
  | .null => some .null
  | .boolean b => some (.boolean b)
  | .int x => some (.number (.integer x))
  | .long x => some (.number (.long x))
  | .float x => some (.number (.float x))
  | .double x => some (.number (.double x))
  | .text kind s => textValue kind s
  | .uint8String bs => (decode bs).map .string
  | .array ds => (meaningItems ds).map .list
  | .map es => (meaningEntries [] es).map .map

def meaningItems : List Doc → Option (List JValue)
  | [] => some []
  | d :: ds => do
    let v ← meaning d
    let vs ← meaningItems ds
    some (v :: vs)

def meaningEntries (object : List (Utf16 × JValue)) :
    List (Utf16 × Doc) → Option (List (Utf16 × JValue))
  | [] => some object
  | (k, d) :: es => do
    let v ← meaning d
    meaningEntries (mapPut k v object) es

end

end Meaning

end Doc

namespace Java

/-! ## What is written for a value -/

/-- What `writeUTF16String` asks for in front of a string. -/
theorem ahead_string : (1 : Int) ≤ 2 ∧ (2 : Int) ≤ 12 := by decide

namespace JValue

variable (P : Platform)

mutual

/-- The document written for a value: null values of maps are left out. -/
def written : JValue → Written P.endian
  | .null => .null
  | .boolean b => .boolean b
  | .number n => .number P.doubleValue P.doubleToString n
  | .string s => .text .string 2 s ahead_string
  | .list vs => .array (writtenItems vs)
  | .map entries => .map (writtenEntries entries)

def writtenItems : List JValue → List (Written P.endian)
  | [] => []
  | v :: vs => written v :: writtenItems vs

def writtenEntries : List (Utf16 × JValue) → List (Utf16 × Written P.endian)
  | [] => []
  | (k, v) :: entries =>
    if v.isNull then writtenEntries entries else (k, written v) :: writtenEntries entries

end

end JValue

/-- Numbers as they come back: small integers as `Integer`, and a decimal as `Double` where
that prints the same. -/
def JNumber.norm (P : Platform) : JNumber → JNumber
  | .byte x => .integer (x.signExtend 32)
  | .short x => .integer (x.signExtend 32)
  | .bigDecimal b =>
    if b.toString = P.doubleToString (P.doubleValue b) then .double (P.doubleValue b)
    else .bigDecimal b
  | n => n

/-- What is written for the number can be read: a decimal that is written as its text has no
exponent beyond an `int`. -/
def JNumber.Readable (P : Platform) : JNumber → Prop
  | .bigDecimal b => b.toString = P.doubleToString (P.doubleValue b) ∨ b.Readable
  | _ => True

/-- The bits by which `equals` compares: one pattern for all NaNs. -/
def JNumber.canonical : JNumber → JNumber
  | .float x => .float (Output.floatToIntBits x)
  | .double x => .double (Output.doubleToLongBits x)
  | n => n

namespace JValue

section Norm

variable (P : Platform)

mutual

/-- What the format keeps of a value. -/
def norm : JValue → JValue
  | .number n => .number (n.norm P)
  | .list vs => .list (normItems vs)
  | .map entries => .map (normEntries entries)
  | v => v

def normItems : List JValue → List JValue
  | [] => []
  | v :: vs => norm v :: normItems vs

def normEntries : List (Utf16 × JValue) → List (Utf16 × JValue)
  | [] => []
  | (k, v) :: entries =>
    if v.isNull then normEntries entries else (k, norm v) :: normEntries entries

end

mutual

/-- All numbers in the value can be read. -/
def Readable : JValue → Prop
  | .number n => n.Readable P
  | .list vs => ReadableItems vs
  | .map entries => ReadableEntries entries
  | _ => True

def ReadableItems : List JValue → Prop
  | [] => True
  | v :: vs => Readable v ∧ ReadableItems vs

def ReadableEntries : List (Utf16 × JValue) → Prop
  | [] => True
  | (_, v) :: entries => Readable v ∧ ReadableEntries entries

end

end Norm

mutual

def canonical : JValue → JValue
  | .number n => .number n.canonical
  | .list vs => .list (canonicalItems vs)
  | .map entries => .map (canonicalEntries entries)
  | v => v

def canonicalItems : List JValue → List JValue
  | [] => []
  | v :: vs => canonical v :: canonicalItems vs

def canonicalEntries : List (Utf16 × JValue) → List (Utf16 × JValue)
  | [] => []
  | (k, v) :: entries => (k, canonical v) :: canonicalEntries entries

end

/-- `a.equals(b)`, for values whose maps hold their entries in the same order. -/
def Equals (a b : JValue) : Prop :=
  a.canonical = b.canonical

mutual

theorem canonical_canonical : ∀ v : JValue, v.canonical.canonical = v.canonical
  | .null | .boolean _ | .string _ => rfl
  | .number n => by
    simp only [canonical, JValue.number.injEq]
    cases n with
    | float x => simp only [JNumber.canonical, Output.floatToIntBits_idem]
    | double x => simp only [JNumber.canonical, Output.doubleToLongBits_idem]
    | _ => rfl
  | .list vs => by rw [canonical, canonical, canonicalItems_canonicalItems]
  | .map entries => by rw [canonical, canonical, canonicalEntries_canonicalEntries]

theorem canonicalItems_canonicalItems :
    ∀ vs : List JValue, canonicalItems (canonicalItems vs) = canonicalItems vs
  | [] => rfl
  | v :: vs => by
    rw [canonicalItems, canonicalItems, canonical_canonical, canonicalItems_canonicalItems]

theorem canonicalEntries_canonicalEntries : ∀ entries : List (Utf16 × JValue),
    canonicalEntries (canonicalEntries entries) = canonicalEntries entries
  | [] => rfl
  | (k, v) :: entries => by
    rw [canonicalEntries, canonicalEntries, canonical_canonical,
      canonicalEntries_canonicalEntries]

end

theorem equals_canonical (v : JValue) : v.canonical.Equals v :=
  canonical_canonical v

/-! ## The document of a value means the value -/

theorem mapPut_of_notMem {V : Type} {k : Utf16} (v : V) :
    ∀ {es : List (Utf16 × V)}, k ∉ es.map Prod.fst → mapPut k v es = es ++ [(k, v)]
  | [], _ => rfl
  | (k', v') :: es, h => by
    rw [List.map_cons, List.mem_cons, not_or] at h
    rw [mapPut, if_neg (Ne.symm h.1), mapPut_of_notMem v h.2]
    rfl

variable (P : Platform)

variable {decode : Bytes → Option Utf16}

theorem meaning_number {n : JNumber} (h : Regular (.number n)) (hn : n.Readable P) :
    (Written.number (e := P.endian) P.doubleValue P.doubleToString n).doc.meaning decode
      = some (.number (n.norm P).canonical) := by
  cases n with
  | other s => exact h.elim
  | bigInteger n =>
    show (BigInteger.ofString (BigInteger.toString n)).map _ = _
    rw [BigInteger.ofString_toString]
    rfl
  | bigDecimal b =>
    simp only [Written.number, JNumber.norm]
    split
    · rfl
    · next htext =>
      show (BigDecimal.ofString b.toString).map _ = _
      rw [BigDecimal.ofString_toString, if_pos (hn.resolve_left htext)]
      rfl
  | _ => rfl

/-- Of a number that cannot be read the text means nothing. -/
theorem readable_of_meaning_number {n : JNumber} {w : JValue}
    (h : (Written.number (e := P.endian) P.doubleValue P.doubleToString n).doc.meaning decode
      = some w) : n.Readable P := by
  cases n with
  | bigDecimal b =>
    simp only [Written.number] at h
    split at h
    · next htext => exact Or.inl htext
    · refine Or.inr ?_
      by_contra hb
      obtain ⟨_, hread, -⟩ := Option.map_eq_some_iff.mp h
      rw [BigDecimal.ofString_toString, if_neg hb] at hread
      cases hread
  | _ => trivial

mutual

theorem meaning_written : ∀ {v : JValue}, v.Regular → v.Readable P →
    (v.written P).doc.meaning decode = some (v.norm P).canonical
  | .null, _, _ | .boolean _, _, _ | .string _, _, _ => rfl
  | .number n, h, hn => meaning_number P h hn
  | .list vs, h, hn => by
    show (Doc.meaningItems decode ((writtenItems P vs).map Written.doc)).map _ = _
    rw [meaningItems_written h hn]
    rfl
  | .map entries, h, hn => by
    show (Doc.meaningEntries decode []
      ((writtenEntries P entries).map fun entry => (entry.1, entry.2.doc))).map _ = _
    rw [meaningEntries_written (by exact h.1) h.2 hn]
    rfl

theorem meaningItems_written : ∀ {vs : List JValue}, RegularItems vs → ReadableItems P vs →
    Doc.meaningItems decode ((writtenItems P vs).map Written.doc)
      = some (canonicalItems (normItems P vs))
  | [], _, _ => rfl
  | v :: vs, h, hn => by
    rw [writtenItems, List.map_cons, Doc.meaningItems, meaning_written h.1 hn.1,
      meaningItems_written h.2 hn.2]
    rfl

/-- Distinct keys: every entry is put behind those before it. -/
theorem meaningEntries_written : ∀ {entries object : List (Utf16 × JValue)},
    (object.map Prod.fst ++ entries.map Prod.fst).Nodup → RegularEntries entries →
      ReadableEntries P entries →
        Doc.meaningEntries decode object
          ((writtenEntries P entries).map fun entry => (entry.1, entry.2.doc))
          = some (object ++ canonicalEntries (normEntries P entries))
  | [], object, _, _, _ => by
    rw [writtenEntries, List.map_nil, Doc.meaningEntries, normEntries, canonicalEntries,
      List.append_nil]
  | (k, v) :: entries, object, hkeys, h, hn => by
    rw [writtenEntries, normEntries]
    split
    · refine meaningEntries_written (hkeys.sublist ?_) h.2 hn.2
      exact List.Sublist.append_left (List.sublist_cons_self _ _) _
    · rw [List.map_cons, Doc.meaningEntries, meaning_written h.1 hn.1, Option.bind_eq_bind,
        Option.bind_some]
      rw [List.map_cons] at hkeys
      have hk : k ∉ object.map Prod.fst := fun hmem =>
        (List.nodup_cons.mp (List.nodup_middle.mp hkeys)).1 (List.mem_append_left _ hmem)
      rw [mapPut_of_notMem _ hk, meaningEntries_written (by simpa using hkeys) h.2 hn.2,
        List.append_assoc]
      rfl

end

mutual

/-- **What means something can be read**, down to the last number. -/
theorem readable_of_meaning : ∀ {v w : JValue}, (v.written P).doc.meaning decode = some w →
    v.Readable P
  | .null, _, _ | .boolean _, _, _ | .string _, _, _ => trivial
  | .number _, _, h => readable_of_meaning_number P h
  | .list vs, _, h => by
    obtain ⟨_, hvs, -⟩ := Option.map_eq_some_iff.mp h
    exact readableItems_of_meaning hvs
  | .map entries, _, h => by
    obtain ⟨_, hes, -⟩ := Option.map_eq_some_iff.mp h
    exact readableEntries_of_meaning hes

theorem readableItems_of_meaning : ∀ {vs ws : List JValue},
    Doc.meaningItems decode ((writtenItems P vs).map Written.doc) = some ws → ReadableItems P vs
  | [], _, _ => trivial
  | v :: vs, _, h => by
    rw [writtenItems, List.map_cons, Doc.meaningItems] at h
    obtain ⟨_, hv, h⟩ := Option.bind_eq_some_iff.mp h
    obtain ⟨_, hvs, -⟩ := Option.bind_eq_some_iff.mp h
    exact ⟨readable_of_meaning hv, readableItems_of_meaning hvs⟩

theorem readableEntries_of_meaning : ∀ {entries object object' : List (Utf16 × JValue)},
    Doc.meaningEntries decode object
      ((writtenEntries P entries).map fun entry => (entry.1, entry.2.doc)) = some object' →
      ReadableEntries P entries
  | [], _, _, _ => trivial
  | (k, v) :: entries, _, _, h => by
    rw [writtenEntries] at h
    split at h
    · next hnull =>
      -- a null value is not written, and there is nothing to read in it
      cases v with
      | null => exact ⟨trivial, readableEntries_of_meaning h⟩
      | boolean b | number n | string s | list vs | map es => exact nomatch hnull
    · rw [List.map_cons, Doc.meaningEntries] at h
      obtain ⟨_, hv, h⟩ := Option.bind_eq_some_iff.mp h
      exact ⟨readable_of_meaning hv, readableEntries_of_meaning h⟩

end

mutual

theorem height_written : ∀ v : JValue, (v.written P).doc.height ≤ v.height
  | .null | .boolean _ | .string _ => Nat.le_refl 0
  | .number n => by
    cases n with
    | bigDecimal b =>
      simp only [written, Written.number]
      split <;> exact Nat.zero_le _
    | _ => exact Nat.le_refl 0
  | .list vs => Nat.succ_le_succ (heightItems_written vs)
  | .map entries => Nat.succ_le_succ (heightEntries_written entries)

theorem heightItems_written : ∀ vs : List JValue,
    Doc.heightItems ((writtenItems P vs).map Written.doc) ≤ heightItems vs
  | [] => Nat.le_refl 0
  | v :: vs => max_le_max (height_written v) (heightItems_written vs)

theorem heightEntries_written : ∀ entries : List (Utf16 × JValue),
    Doc.heightEntries ((writtenEntries P entries).map fun entry => (entry.1, entry.2.doc))
      ≤ heightEntries entries
  | [] => Nat.le_refl 0
  | (k, v) :: entries => by
    rw [writtenEntries, heightEntries]
    split
    · exact (heightEntries_written entries).trans (Nat.le_max_right _ _)
    · exact max_le_max (height_written v) (heightEntries_written entries)

end

end JValue

end Java

end Wson
