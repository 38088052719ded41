import Wson.Float.Fields
import Wson.Interop.Crossing
import Wson.Ios.OneValue
import Wson.Runtime.RoundTrip

/-!
# What a value says

Each end has its own types for numbers, texts and maps. A `Sense` is what a program can rely
on at every one of them: a number is a double, a map is a function of its keys, and an entry
with the value null says no more than a missing one.

Every encoder writes a document of the sense of its value, and every decoder builds a value
of the sense of the document.
-/

namespace Wson

open Wire

inductive Sense where
  | null
  | boolean (value : Bool)
  /-- The pattern of a double. -/
  | number (bits : BitVec 64)
  | text (units : Utf16)
  | list (items : List Sense)
  | map (value : Utf16 → Sense)

namespace Sense

/-- All NaNs say the same. -/
def ofDouble (bits : BitVec 64) : Sense :=
  .number (Java.Output.doubleToLongBits bits)

def ofFloat (bits : BitVec 32) : Sense :=
  ofDouble (Binary64.ofFloat bits)

def ofInt (num : Int) : Sense :=
  ofDouble (Binary64.ofInt num)

/-- What the first entry with this key says. -/
def valueAt {κ : Type} [DecidableEq κ] (key : κ) : List (κ × Sense) → Sense
  | [] => .null
  | (k, s) :: entries => if k = key then s else valueAt key entries

def ofEntries (entries : List (Utf16 × Sense)) : Sense :=
  .map fun key => valueAt key entries

section Entries

variable {κ : Type} [DecidableEq κ]

theorem valueAt_of_notMem {key : κ} {entries : List (κ × Sense)} (h : key ∉ entries.map Prod.fst) :
    valueAt key entries = .null := by
  induction entries with
  | nil => rfl
  | cons entry entries ih =>
    obtain ⟨k, s⟩ := entry
    rw [List.map_cons, List.mem_cons, not_or] at h
    rw [valueAt, if_neg (Ne.symm h.1), ih h.2]

/-- Keys that are told apart can be renamed. -/
theorem valueAt_map {κ' : Type} [DecidableEq κ'] {f : κ → κ'} (hf : Function.Injective f) (key : κ)
    (entries : List (κ × Sense)) :
    valueAt (f key) (entries.map fun entry => (f entry.1, entry.2)) = valueAt key entries := by
  induction entries with
  | nil => rfl
  | cons entry entries ih =>
    obtain ⟨k, s⟩ := entry
    rw [List.map_cons, valueAt, valueAt, ih]
    simp only [hf.eq_iff]

end Entries

theorem ofDouble_of_isNan {bits : BitVec 64} (h : Binary64.IsNan bits) :
    ofDouble bits = .number 0x7FF8000000000000 :=
  congrArg number (if_pos ((Binary64.isNan_iff bits).mp h))

/-- A NaN stays one. -/
theorem ofFloat_floatToIntBits (x : BitVec 32) : ofFloat (Java.Output.floatToIntBits x) = ofFloat x := by
  by_cases h : Binary64.IsNanFloat x
  · have hbits : Java.Output.floatToIntBits x = 0x7FC00000 :=
      if_pos ((Binary64.isNanFloat_iff x).mp h)
    rw [hbits, ofFloat, ofFloat, ofDouble_of_isNan (Binary64.isNan_ofFloat h),
      ofDouble_of_isNan (Binary64.isNan_ofFloat ⟨by decide, by decide⟩)]
  · have hbits : Java.Output.floatToIntBits x = x :=
      if_neg fun hmask => h ((Binary64.isNanFloat_iff x).mpr hmask)
    rw [hbits]

theorem ofDouble_doubleToLongBits (x : BitVec 64) : ofDouble (Java.Output.doubleToLongBits x) = ofDouble x :=
  congrArg Sense.number (Java.Output.doubleToLongBits_idem x)

end Sense

/-! ## Documents -/

namespace Doc

mutual

def sense : Doc → Sense
  | .null => .null
  | .boolean b => .boolean b
  | .int x => .ofInt x.toInt
  | .long x => .ofInt x.toInt
  | .float x => .ofFloat x
  | .double x => .ofDouble x
  | .text _ s => .text s
  -- no end writes one
  | .uint8String _ => .null
  | .array ds => .list (senseItems ds)
  | .map es => .ofEntries (senseEntries es)

def senseItems : List Doc → List Sense
  | [] => []
  | d :: ds => sense d :: senseItems ds

def senseEntries : List (Utf16 × Doc) → List (Utf16 × Sense)
  | [] => []
  | (k, d) :: es => (k, sense d) :: senseEntries es

end

theorem keys_senseEntries (es : List (Utf16 × Doc)) : (senseEntries es).map Prod.fst = es.map Prod.fst := by
  induction es with
  | nil => rfl
  | cons entry es ih => rw [senseEntries, List.map_cons, List.map_cons, ih]

/-- A leaf as the ends write it: the text of a big number is the one that Java prints, and one
that Java can read. -/
def PlainLeaf (P : Java.Platform) : Doc → Prop
  | .text .bigInteger s => ∃ n, s = Java.BigInteger.toString n
  | .text .bigDecimal s => ∃ b : Java.BigDecimal,
    s = b.toString ∧ b.Readable ∧ b.toString ≠ P.doubleToString (P.doubleValue b)
  | .uint8String _ => False
  | _ => True

abbrev Plain (P : Java.Platform) : Doc → Prop :=
  AllLeaves (PlainLeaf P)

def TextLeaf (valid : Utf16 → Prop) : Doc → Prop
  | .text _ s => valid s
  | _ => True

/-- All texts and keys are valid. -/
abbrev Texts (valid : Utf16 → Prop) : Doc → Prop :=
  Leaves (TextLeaf valid) valid

/-- There is no text in UTF-8. -/
theorem Plain.known {P : Java.Platform} {d : Doc} (h : d.Plain P) : d.AllLeaves fun u => u.kind ≠ .uint8String := by
  refine h.mono (fun u hu => ?_) fun _ _ => trivial
  cases u with
  | uint8String bs => exact hu.elim
  | _ => exact Kind.noConfusion

end Doc

/-! ## Java -/

namespace Java

variable (P : Platform)

/-- A decimal that a double prints the same is that double. -/
def JNumber.sense : JNumber → Sense
  | .byte x => .ofInt x.toInt
  | .short x => .ofInt x.toInt
  | .integer x => .ofInt x.toInt
  | .long x => .ofInt x.toInt
  | .float x => .ofFloat x
  | .double x => .ofDouble x
  | .bigInteger n => .text (BigInteger.toString n)
  | .bigDecimal b =>
    if b.toString = P.doubleToString (P.doubleValue b) then .ofDouble (P.doubleValue b) else .text b.toString
  | .other s => .text s

namespace JValue

mutual

def sense : JValue → Sense
  | .null => .null
  | .boolean b => .boolean b
  | .number n => n.sense P
  | .string s => .text s
  | .list vs => .list (senseItems vs)
  | .map entries => .ofEntries (senseEntries entries)

def senseItems : List JValue → List Sense
  | [] => []
  | v :: vs => sense v :: senseItems vs

def senseEntries : List (Utf16 × JValue) → List (Utf16 × Sense)
  | [] => []
  | (k, v) :: entries => (k, sense v) :: senseEntries entries

end

variable {P}

theorem keys_senseEntries (entries : List (Utf16 × JValue)) :
    (senseEntries P entries).map Prod.fst = entries.map Prod.fst := by
  induction entries with
  | nil => rfl
  | cons entry entries ih => rw [senseEntries, List.map_cons, List.map_cons, ih]

theorem sense_of_isNull {v : JValue} (h : v.isNull = true) : v.sense P = .null := by
  cases v with
  | null => rfl
  | _ => cases h

theorem sense_number (n : JNumber) :
    (Written.number (e := P.endian) P.doubleValue P.doubleToString n).doc.sense = n.sense P := by
  cases n with
  | byte x => exact congrArg Sense.ofInt (BitVec.toInt_signExtend_of_le (by decide))
  | short x => exact congrArg Sense.ofInt (BitVec.toInt_signExtend_of_le (by decide))
  | float x => exact Sense.ofFloat_floatToIntBits x
  | double x => exact Sense.ofDouble_doubleToLongBits x
  | bigDecimal b =>
    simp only [Written.number, JNumber.sense]
    split
    · exact Sense.ofDouble_doubleToLongBits _
    · rfl
  | _ => rfl

mutual

/-- **The builder** writes what a value says. -/
theorem sense_written : ∀ {v : JValue}, v.Regular → (v.written P).doc.sense = v.sense P
  | .null, _ | .boolean _, _ | .string _, _ => rfl
  | .number n, _ => sense_number n
  | .list vs, h => congrArg Sense.list (senseItems_written h)
  | .map entries, h => by
    refine congrArg Sense.map (funext fun key => ?_)
    exact senseEntries_written h.1 h.2 key

theorem senseItems_written : ∀ {vs : List JValue}, RegularItems vs →
    Doc.senseItems ((writtenItems P vs).map Written.doc) = senseItems P vs
  | [], _ => rfl
  | v :: vs, h => by
    rw [writtenItems, List.map_cons, Doc.senseItems, senseItems, sense_written h.1, senseItems_written h.2]

/-- An entry that is left out says nothing, and no other one has its key. -/
theorem senseEntries_written : ∀ {entries : List (Utf16 × JValue)}, (entries.map Prod.fst).Nodup →
    RegularEntries entries → ∀ key : Utf16,
      Sense.valueAt key
          (Doc.senseEntries ((writtenEntries P entries).map fun entry => (entry.1, entry.2.doc))) =
        Sense.valueAt key (senseEntries P entries)
  | [], _, _, _ => rfl
  | (k, v) :: entries, hkeys, h, key => by
    rw [List.map_cons, List.nodup_cons] at hkeys
    have hrest := senseEntries_written hkeys.2 h.2 key
    rw [writtenEntries, senseEntries, Sense.valueAt]
    by_cases hnull : v.isNull = true
    -- the entry is not written: its key then says null, as it does not come again
    · rw [if_pos hnull, hrest]
      by_cases hk : k = key
      · rw [if_pos hk, sense_of_isNull hnull, Sense.valueAt_of_notMem]
        rw [keys_senseEntries, ← hk]
        exact hkeys.1
      · rw [if_neg hk]
    · rw [if_neg hnull, List.map_cons, Doc.senseEntries, Sense.valueAt, hrest, sense_written h.1]

end

variable {decode : Bytes → Option Utf16}

theorem sense_textValue {kind : TextKind} {s : Utf16} (h : Doc.PlainLeaf P (.text kind s)) :
    ∃ v, textValue kind s = some v ∧ v.sense P = .text s := by
  cases kind with
  | string => exact ⟨_, rfl, rfl⟩
  | bigInteger =>
    obtain ⟨n, rfl⟩ := h
    exact ⟨_, congrArg (Option.map fun n => number (.bigInteger n)) (BigInteger.ofString_toString n), rfl⟩
  | bigDecimal =>
    obtain ⟨b, rfl, hreadable, hdouble⟩ := h
    have hread : BigDecimal.ofString b.toString = some b := by
      rw [BigDecimal.ofString_toString, if_pos hreadable]
    exact ⟨_, congrArg (Option.map fun b => number (.bigDecimal b)) hread, if_neg hdouble⟩

mutual

/-- **The parser** builds what a document says. -/
theorem sense_meaning : ∀ {d : Doc}, d.Plain P → Jsc.DistinctKeys d →
    ∃ v, d.meaning decode = some v ∧ v.sense P = d.sense
  | .null, _, _ | .boolean _, _, _ | .int _, _, _ | .long _, _, _ | .float _, _, _ | .double _, _, _ =>
    ⟨_, rfl, rfl⟩
  | .text _ _, h, _ => sense_textValue h
  | .uint8String _, h, _ => h.elim
  | .array ds, h, hdistinct => by
    obtain ⟨vs, hvs, hsense⟩ := senseItems_meaning h hdistinct
    exact ⟨.list vs, congrArg (Option.map list) hvs, congrArg Sense.list hsense⟩
  | .map es, h, hdistinct => by
    -- the object grows by one entry for each, since no key comes twice
    obtain ⟨entries, hentries, hsense⟩ := senseEntries_meaning [] hdistinct.1 h hdistinct.2
    exact ⟨.map entries, congrArg (Option.map map) hentries, congrArg Sense.ofEntries hsense⟩

theorem senseItems_meaning : ∀ {ds : List Doc}, Doc.LeavesItems (Doc.PlainLeaf P) (fun _ => True) ds →
    Jsc.DistinctKeysItems ds →
      ∃ vs, Doc.meaningItems decode ds = some vs ∧ senseItems P vs = Doc.senseItems ds
  | [], _, _ => ⟨[], rfl, rfl⟩
  | d :: ds, h, hdistinct => by
    obtain ⟨v, hv, hsense⟩ := sense_meaning h.1 hdistinct.1
    obtain ⟨vs, hvs, hsenses⟩ := senseItems_meaning h.2 hdistinct.2
    refine ⟨v :: vs, ?_, ?_⟩
    · rw [Doc.meaningItems, hv, hvs]
      rfl
    · rw [senseItems, Doc.senseItems, hsense, hsenses]

theorem senseEntries_meaning : ∀ {es : List (Utf16 × Doc)} (object : List (Utf16 × JValue)),
    (object.map Prod.fst ++ es.map Prod.fst).Nodup →
      Doc.LeavesEntries (Doc.PlainLeaf P) (fun _ => True) es → Jsc.DistinctKeysEntries es →
        ∃ entries, Doc.meaningEntries decode object es = some (object ++ entries) ∧
          senseEntries P entries = Doc.senseEntries es
  | [], object, _, _, _ => ⟨[], by rw [Doc.meaningEntries, List.append_nil], rfl⟩
  | (k, d) :: es, object, hkeys, h, hdistinct => by
    rw [List.map_cons] at hkeys
    have hk : k ∉ object.map Prod.fst := fun hmem =>
      (List.nodup_cons.mp (List.nodup_middle.mp hkeys)).1 (List.mem_append_left _ hmem)
    obtain ⟨v, hv, hsense⟩ := sense_meaning h.2.1 hdistinct.1
    obtain ⟨entries, hentries, hsenses⟩ :=
      senseEntries_meaning (object ++ [(k, v)]) (by simpa using hkeys) h.2.2 hdistinct.2
    refine ⟨(k, v) :: entries, ?_, ?_⟩
    · rw [Doc.meaningEntries, hv, Option.bind_eq_bind, Option.bind_some, mapPut_of_notMem v hk, hentries,
        List.append_assoc]
      rfl
    · rw [senseEntries, Doc.senseEntries, hsense, hsenses]

end

mutual

/-- Java prints its own numbers. -/
theorem plain_written : ∀ {v : JValue}, v.Readable P → (v.written P).doc.Plain P
  | .null, _ | .boolean _, _ | .string _, _ => trivial
  | .number n, h => by
    cases n with
    | bigInteger n => exact ⟨n, rfl⟩
    | bigDecimal b =>
      simp only [written, Written.number]
      split
      · exact trivial
      · next hdouble => exact ⟨b, rfl, h.resolve_left hdouble, hdouble⟩
    | _ => exact trivial
  | .list _, h => plainItems_written h
  | .map _, h => plainEntries_written h

theorem plainItems_written : ∀ {vs : List JValue}, ReadableItems P vs →
    Doc.LeavesItems (Doc.PlainLeaf P) (fun _ => True) ((writtenItems P vs).map Written.doc)
  | [], _ => trivial
  | _ :: _, h => ⟨plain_written h.1, plainItems_written h.2⟩

theorem plainEntries_written : ∀ {entries : List (Utf16 × JValue)}, ReadableEntries P entries →
    Doc.LeavesEntries (Doc.PlainLeaf P) (fun _ => True)
      ((writtenEntries P entries).map fun entry => (entry.1, entry.2.doc))
  | [], _ => trivial
  | (_, v) :: entries, h => by
    rw [writtenEntries]
    split
    · exact plainEntries_written h.2
    · exact ⟨trivial, plain_written h.1, plainEntries_written h.2⟩

end

end JValue

end Java

/-! ## JavaScript -/

namespace Jsc

namespace Decoded

variable {N : Type} (V : Vm N) (toDouble : N → BitVec 64)

mutual

/-- A property is found under what its name stands for. -/
def sense : Decoded N → Sense
  | .null => .null
  | .boolean b => .boolean b
  | .number num => .ofDouble (toDouble num)
  | .string s => .text s
  | .array items => .list (senseItems items)
  | .object properties => .map fun key => Sense.valueAt (V.propertyKey key) (senseProperties properties)

def senseItems : List (Decoded N) → List Sense
  | [] => []
  | item :: items => sense item :: senseItems items

def senseProperties : List (PropertyKey × Decoded N) → List (PropertyKey × Sense)
  | [] => []
  | (key, value) :: properties => (key, sense value) :: senseProperties properties

end

end Decoded

/-- The overloads of `jsNumber` keep the number. -/
structure Vm.Exact {N : Type} (V : Vm N) (toDouble : N → BitVec 64) : Prop where
  ofInt32 (num : BitVec 32) : Sense.ofDouble (toDouble (V.ofInt32 num)) = .ofInt num.toInt
  ofInt64 (num : BitVec 64) : Sense.ofDouble (toDouble (V.ofInt64 num)) = .ofInt num.toInt
  ofFloat (bits : BitVec 32) : Sense.ofDouble (toDouble (V.ofFloat bits)) = .ofFloat bits
  ofDouble (bits : BitVec 64) : Sense.ofDouble (toDouble (V.ofDouble bits)) = .ofDouble bits

section Decoded

variable {N : Type} {V : Vm N} {toDouble : N → BitVec 64}

mutual

/-- **The decoder** builds what a document says. -/
theorem sense_decoded (hV : V.Exact toDouble) (hindex : V.CanonicalIndex) : ∀ {d : Doc},
    d.AllLeaves (fun u => u.kind ≠ .uint8String) → (decoded V d).sense V toDouble = d.sense
  | .null, _ | .boolean _, _ | .text _ _, _ => rfl
  | .int x, _ => hV.ofInt32 x
  | .long x, _ => hV.ofInt64 x
  | .float x, _ => hV.ofFloat x
  | .double x, _ => hV.ofDouble x
  | .uint8String _, h => absurd rfl h
  | .array _, h => congrArg Sense.list (senseItems_decoded hV hindex h)
  | .map es, h => by
    refine congrArg Sense.map (funext fun key => ?_)
    rw [senseEntries_decoded hV hindex h]
    -- an index and a name are never the key of one property
    exact Sense.valueAt_map hindex.propertyKey_injective key _

theorem senseItems_decoded (hV : V.Exact toDouble) (hindex : V.CanonicalIndex) : ∀ {ds : List Doc},
    Doc.LeavesItems (fun u => u.kind ≠ .uint8String) (fun _ => True) ds →
      Decoded.senseItems V toDouble (decodedItems V ds) = Doc.senseItems ds
  | [], _ => rfl
  | _ :: _, h => by
    rw [decodedItems, Decoded.senseItems, Doc.senseItems, sense_decoded hV hindex h.1,
      senseItems_decoded hV hindex h.2]

theorem senseEntries_decoded (hV : V.Exact toDouble) (hindex : V.CanonicalIndex) :
    ∀ {es : List (Utf16 × Doc)}, Doc.LeavesEntries (fun u => u.kind ≠ .uint8String) (fun _ => True) es →
      Decoded.senseProperties V toDouble (decodedEntries V es) =
        (Doc.senseEntries es).map fun entry => (V.propertyKey entry.1, entry.2)
  | [], _ => rfl
  | (_, _) :: _, h => by
    rw [decodedEntries, Decoded.senseProperties, Doc.senseEntries, List.map_cons, sense_decoded hV hindex h.2.1,
      senseEntries_decoded hV hindex h.2.2]

end

end Decoded

namespace JsTree

mutual

def sense : JsTree → Sense
  | .null => .null
  | .boolean b => .boolean b
  | .int32 num => .ofInt num.toInt
  | .double bits => .ofDouble bits
  | .string s => .text s.units
  | .array ts => .list (senseItems ts)
  | .object es => .ofEntries (senseEntries es)

def senseItems : List JsTree → List Sense
  | [] => []
  | t :: ts => sense t :: senseItems ts

def senseEntries : List (JsString × JsTree) → List (Utf16 × Sense)
  | [] => []
  | (k, t) :: es => (k.units, sense t) :: senseEntries es

end

variable {asAnyInt : BitVec 64 → Option (BitVec 64)}

mutual

/-- **The encoder** writes what a value says, if `asAnyInt` keeps the number. -/
theorem sense_doc (hint : ∀ bits num, asAnyInt bits = some num → Sense.ofDouble bits = .ofInt num.toInt) :
    ∀ t : JsTree, (t.doc asAnyInt).sense = t.sense
  | .null | .boolean _ | .int32 _ | .string _ => rfl
  | .double bits => by
    rw [doc, sense]
    split
    · next num h => exact (hint bits num h).symm
    · rfl
  | .array ts => congrArg Sense.list (senseItems_doc hint ts)
  | .object es => congrArg Sense.ofEntries (senseEntries_doc hint es)

theorem senseItems_doc (hint : ∀ bits num, asAnyInt bits = some num → Sense.ofDouble bits = .ofInt num.toInt) :
    ∀ ts : List JsTree, Doc.senseItems (docItems asAnyInt ts) = senseItems ts
  | [] => rfl
  | t :: ts => by rw [docItems, Doc.senseItems, senseItems, sense_doc hint t, senseItems_doc hint ts]

theorem senseEntries_doc (hint : ∀ bits num, asAnyInt bits = some num → Sense.ofDouble bits = .ofInt num.toInt) :
    ∀ es : List (JsString × JsTree), Doc.senseEntries (docEntries asAnyInt es) = senseEntries es
  | [] => rfl
  | (k, t) :: es => by
    rw [docEntries, Doc.senseEntries, senseEntries, sense_doc hint t, senseEntries_doc hint es]

end

mutual

/-- A script writes strings only. -/
theorem plain_doc (P : Java.Platform) : ∀ t : JsTree, (t.doc asAnyInt).Plain P
  | .null | .boolean _ | .int32 _ | .string _ => trivial
  | .double bits => by
    rw [doc]
    split <;> exact trivial
  | .array ts => plainItems_doc P ts
  | .object es => plainEntries_doc P es

theorem plainItems_doc (P : Java.Platform) : ∀ ts : List JsTree,
    Doc.LeavesItems (Doc.PlainLeaf P) (fun _ => True) (docItems asAnyInt ts)
  | [] => trivial
  | t :: ts => ⟨plain_doc P t, plainItems_doc P ts⟩

theorem plainEntries_doc (P : Java.Platform) : ∀ es : List (JsString × JsTree),
    Doc.LeavesEntries (Doc.PlainLeaf P) (fun _ => True) (docEntries asAnyInt es)
  | [] => trivial
  | (_, t) :: es => ⟨trivial, plain_doc P t, plainEntries_doc P es⟩

end

end JsTree

end Jsc

end Wson
