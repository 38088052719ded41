import Wson.Java.RoundTrip
import Wson.Jsc.RoundTrip

/-!
# Values that cross between Java and JavaScript

The two ends of the bridge: what Java encodes `wson_jsc.cpp` decodes, and the other way
round. Neither end keeps all that the other one knows, so each direction has its own
picture of a value.

- `inJs`: a Java value in JavaScript. Null values of maps are gone, big integers have
  become strings, and so have the decimals that no double prints the same.
- `inJava`: a JavaScript value in Java. A number is an `Integer` where the engine keeps it
  as an int32, else a `Long` where it is an exact integer, else a `Double`.
- `jsReadsJava`, `javaReadsJs`: the bytes of the one end give the picture at the other.
-/

namespace Wson.Interop

open Effect Wire Native Java Jsc

/-! ## From Java to JavaScript -/

section ToJs

variable {N : Type} (P : Platform) (V : Vm N)

/-- A Java number in JavaScript. -/
def numberInJs : JNumber → Decoded N
  | .byte x => .number (V.ofInt32 (x.signExtend 32))
  | .short x => .number (V.ofInt32 (x.signExtend 32))
  | .integer x => .number (V.ofInt32 x)
  | .long x => .number (V.ofInt64 x)
  | .float x => .number (V.ofFloat (Output.floatToIntBits x))
  | .double x => .number (V.ofDouble (Output.doubleToLongBits x))
  | .bigInteger n => .string (BigInteger.toString n)
  | .bigDecimal b =>
    if b.toString = P.doubleToString (P.doubleValue b) then
      .number (V.ofDouble (Output.doubleToLongBits (P.doubleValue b)))
    else .string b.toString
  | .other s => .string s

mutual

/-- A Java value in JavaScript. -/
def inJs : JValue → Decoded N
  | .null => .null
  | .boolean b => .boolean b
  | .number n => numberInJs P V n
  | .string s => .string s
  | .list vs => .array (inJsItems vs)
  | .map entries => .object (inJsEntries entries)

def inJsItems : List JValue → List (Decoded N)
  | [] => []
  | v :: vs => inJs v :: inJsItems vs

def inJsEntries : List (Utf16 × JValue) → List (PropertyKey × Decoded N)
  | [] => []
  | (k, v) :: entries =>
    if v.isNull then inJsEntries entries else (V.propertyKey k, inJs v) :: inJsEntries entries

end

theorem decoded_number (n : JNumber) :
    decoded V (Written.number (e := P.endian) P.doubleValue P.doubleToString n).doc =
      numberInJs P V n := by
  cases n with
  | bigDecimal b =>
    simp only [Written.number, numberInJs]
    split
    · rfl
    · rfl
  | _ => rfl

mutual

/-- The document of a Java value is decoded to its picture. -/
theorem decoded_written : ∀ v : JValue, decoded V (v.written P).doc = inJs P V v
  | .null | .boolean _ | .string _ => rfl
  | .number n => decoded_number P V n
  | .list vs => congrArg Decoded.array (decodedItems_written vs)
  | .map entries => congrArg Decoded.object (decodedEntries_written entries)

theorem decodedItems_written : ∀ vs : List JValue,
    decodedItems V ((JValue.writtenItems P vs).map Written.doc) = inJsItems P V vs
  | [] => rfl
  | v :: vs => by
    rw [JValue.writtenItems, List.map_cons, decodedItems, decoded_written v,
      decodedItems_written vs, inJsItems]

theorem decodedEntries_written : ∀ entries : List (Utf16 × JValue),
    decodedEntries V ((JValue.writtenEntries P entries).map fun entry => (entry.1, entry.2.doc)) =
      inJsEntries P V entries
  | [] => rfl
  | (k, v) :: entries => by
    rw [JValue.writtenEntries, inJsEntries]
    split
    · exact decodedEntries_written entries
    · rw [List.map_cons, decodedEntries, decoded_written v, decodedEntries_written entries]

end

/-- Which keys are written is a part of which keys there are. -/
theorem keys_written (entries : List (Utf16 × JValue)) :
    (((JValue.writtenEntries P entries).map fun entry => (entry.1, entry.2.doc)).map Prod.fst).Sublist
      (entries.map Prod.fst) := by
  induction entries with
  | nil => exact List.Sublist.refl _
  | cons entry entries ih =>
    obtain ⟨k, v⟩ := entry
    rw [JValue.writtenEntries]
    split
    · exact ih.cons k
    · exact ih.cons_cons k

mutual

theorem distinctKeys_written : ∀ {v : JValue}, v.Regular → DistinctKeys (v.written P).doc
  | .null, _ | .boolean _, _ | .string _, _ => trivial
  | .number n, _ => by
    cases n with
    | bigDecimal b =>
      simp only [JValue.written, Written.number]
      split
      · trivial
      · trivial
    | _ => trivial
  | .list _, h => distinctKeysItems_written h
  | .map entries, h => ⟨h.1.sublist (keys_written P entries), distinctKeysEntries_written h.2⟩

theorem distinctKeysItems_written : ∀ {vs : List JValue}, JValue.RegularItems vs →
    DistinctKeysItems ((JValue.writtenItems P vs).map Written.doc)
  | [], _ => trivial
  | _ :: _, h => ⟨distinctKeys_written h.1, distinctKeysItems_written h.2⟩

theorem distinctKeysEntries_written : ∀ {entries : List (Utf16 × JValue)},
    JValue.RegularEntries entries →
      DistinctKeysEntries ((JValue.writtenEntries P entries).map fun entry => (entry.1, entry.2.doc))
  | [], _ => trivial
  | (_, v) :: _, h => by
    rw [JValue.writtenEntries]
    split
    · exact distinctKeysEntries_written h.2
    · exact ⟨distinctKeys_written h.1, distinctKeysEntries_written h.2⟩

end

mutual

/-- Java writes no text in UTF-8. -/
theorem leaves_written : ∀ v : JValue,
    (v.written P).doc.AllLeaves fun u => u.kind ≠ .uint8String
  | .null | .boolean _ | .string _ => by simp [JValue.written, Written.null, Written.boolean,
      Written.text, Written.scalar, Doc.Leaves, Doc.kind]
  | .number n => by
    cases n with
    | bigDecimal b =>
      simp only [JValue.written, Written.number]
      split
      · exact Doc.Kind.noConfusion
      · exact Doc.Kind.noConfusion
    | _ => exact Doc.Kind.noConfusion
  | .list vs => leavesItems_written vs
  | .map entries => leavesEntries_written entries

theorem leavesItems_written : ∀ vs : List JValue,
    Doc.LeavesItems (fun u => u.kind ≠ .uint8String) (fun _ => True)
      ((JValue.writtenItems P vs).map Written.doc)
  | [] => trivial
  | v :: vs => ⟨leaves_written v, leavesItems_written vs⟩

theorem leavesEntries_written : ∀ entries : List (Utf16 × JValue),
    Doc.LeavesEntries (fun u => u.kind ≠ .uint8String) (fun _ => True)
      ((JValue.writtenEntries P entries).map fun entry => (entry.1, entry.2.doc))
  | [] => trivial
  | (_, v) :: entries => by
    rw [JValue.writtenEntries]
    split
    · exact leavesEntries_written entries
    · exact ⟨trivial, leaves_written v, leavesEntries_written entries⟩

end

variable {P V} {O : Type} [DecidableEq O] {H : Heap O}

/-- **From Java to JavaScript**: the bytes of `Wson.toWson` are decoded to the picture of the
value, up to their end, whatever earlier decodes have left in the identifier cache. -/
theorem jsReadsJava {b b' : Builder O} {v : JValue} {o : O} {n m : Nat} {bytes : Bytes}
    {cache : Cache} (ho : Represents H v o) (hregular : v.Regular) (hn : v.height + 1 < n)
    (hv : b.output.Valid) (hposition : b.output.position = 0) (hrefs : b.refs = [])
    (hindex : V.CanonicalIndex) (hcache : Reachable V P.endian cache) (hm : v.height < m)
    (hwson : Builder.toWson P H n o b = .ok bytes b') :
    ∃ d, returns (wsonToJsValue V P.endian m) ⟨⟨bytes, 0, bytes.length⟩, cache⟩ =
      some (inJs P V v, d) ∧ d.buffer.position = bytes.length := by
  obtain ⟨-, hspec⟩ := toWson_represents (P := P) ho hregular hn hv hposition hrefs
  obtain ⟨hbytes, hlength, -⟩ := hspec bytes b' hwson
  have hsized := Doc.sized_of_encode_lt P.endian (by rw [← hbytes]; omega)
  have hencodes : (v.written P).doc.Encodes P.endian bytes := by
    rw [hbytes]
    exact Doc.encodes_encode P.endian hsized
  have hheight := JValue.height_written P v
  obtain ⟨d, hdecode, ⟨hbuffer, -⟩, -⟩ := consumes_wsonToJsValue
    (show bytes.length < 2 ^ 32 by omega) hindex hencodes
    (shortKeys_of_within (hencodes.within hlength)) (distinctKeys_written P hregular)
    (leaves_written P v) (show (v.written P).doc.height < m by omega)
    ⟨⟨bytes, 0, bytes.length⟩, cache⟩ 0 [] ⟨⟨rfl, Nat.zero_le _⟩, hcache.consistent⟩
    (List.append_nil bytes).symm
  refine ⟨d, by rw [hdecode, decoded_written], ?_⟩
  rw [hbuffer]
  exact Nat.zero_add _

/-- `{"k": ["a", null]}`, with a table in which an earlier decode of `{"k": null}` has left `k`. -/
theorem jsReadsJava_sample :
    ∃ bytes b', Builder.toWson Platform.plain sampleHeap 4 3 (Builder.fresh (Fin 4)) = .ok bytes b' ∧
      ∃ d, returns (wsonToJsValue sampleVm .little 3) ⟨⟨bytes, 0, bytes.length⟩,
          run (decodeStep sampleVm .little) (Cache.replicate 32 (by decide) .fresh)
            [(2, ⟨[Tag.map, 1, 2, 0x6B, 0, Tag.null], 0, 6⟩)]⟩ =
          some (inJs Platform.plain sampleVm (.map [([0x6B], .list [.string [0x61], .null])]), d) ∧
        d.buffer.position = bytes.length := by
  have hrep : Represents sampleHeap (.map [([0x6B], .list [.string [0x61], .null])]) 3 :=
    ⟨_, rfl, _, _, rfl, ⟨_, rfl, _, _, rfl, rfl, _, _, rfl, rfl, rfl⟩, rfl⟩
  have hregular : (JValue.map [([0x6B], .list [.string [0x61], .null])]).Regular :=
    ⟨List.nodup_singleton _, ⟨trivial, trivial, trivial⟩, trivial⟩
  have hn : (JValue.map [([0x6B], .list [.string [0x61], .null])]).height + 1 < 4 := by decide
  have hcapacity : (Builder.fresh (Fin 4)).output.buffer.length < 2 ^ 31 := by
    show (List.replicate _ _).length < 2 ^ 31
    rw [List.length_replicate]
    decide
  obtain ⟨bytes, b', hwson⟩ := (toWson_represents (P := Platform.plain) hrep hregular hn
    (Builder.fresh_valid _) rfl rfl).1.mpr (fits_written hcapacity (by decide))
  exact ⟨bytes, b', hwson, jsReadsJava hrep hregular hn (Builder.fresh_valid _) rfl rfl
    canonicalIndex_sampleVm (.fresh 32 (.inl rfl) _) (by decide) hwson⟩

end ToJs

/-! ## From JavaScript to Java -/

section ToJava

variable (asAnyInt : BitVec 64 → Option (BitVec 64))

mutual

/-- A JavaScript value in Java. -/
def inJava : JsTree → JValue
  | .null => .null
  | .boolean b => .boolean b
  | .int32 num => .number (.integer num)
  | .double bits =>
    match asAnyInt bits with
    | some num => .number (.long num)
    | none => .number (.double bits)
  | .string s => .string s.units
  | .array ts => .list (inJavaItems ts)
  | .object es => .map (inJavaEntries es)

def inJavaItems : List JsTree → List JValue
  | [] => []
  | t :: ts => inJava t :: inJavaItems ts

def inJavaEntries : List (JsString × JsTree) → List (Utf16 × JValue)
  | [] => []
  | (k, t) :: es => (k.units, inJava t) :: inJavaEntries es

end

variable {asAnyInt} {decode : Bytes → Option Utf16}

mutual

/-- The document of a JavaScript value means its picture. -/
theorem meaning_doc : ∀ {t : JsTree}, DistinctKeys (t.doc asAnyInt) →
    (t.doc asAnyInt).meaning decode = some (inJava asAnyInt t)
  | .null, _ | .boolean _, _ | .int32 _, _ | .string _, _ => rfl
  | .double bits, _ => by
    rw [JsTree.doc, inJava]
    cases asAnyInt bits with
    | none => rfl
    | some num => rfl
  | .array ts, h => by
    rw [JsTree.doc, Doc.meaning, meaningItems_doc h, inJava]
    rfl
  | .object es, h => by
    rw [JsTree.doc, Doc.meaning, meaningEntries_doc (by exact h.1) h.2, inJava]
    rfl

theorem meaningItems_doc : ∀ {ts : List JsTree}, DistinctKeysItems (JsTree.docItems asAnyInt ts) →
    Doc.meaningItems decode (JsTree.docItems asAnyInt ts) = some (inJavaItems asAnyInt ts)
  | [], _ => rfl
  | _ :: _, h => by
    rw [JsTree.docItems, Doc.meaningItems, meaning_doc h.1, meaningItems_doc h.2]
    rfl

/-- Distinct keys: every entry is put behind those before it. -/
theorem meaningEntries_doc : ∀ {es : List (JsString × JsTree)} {object : List (Utf16 × JValue)},
    (object.map Prod.fst ++ (JsTree.docEntries asAnyInt es).map Prod.fst).Nodup →
      DistinctKeysEntries (JsTree.docEntries asAnyInt es) →
        Doc.meaningEntries decode object (JsTree.docEntries asAnyInt es) =
          some (object ++ inJavaEntries asAnyInt es)
  | [], object, _, _ => by
    rw [JsTree.docEntries, Doc.meaningEntries, inJavaEntries, List.append_nil]
  | (k, t) :: es, object, hkeys, h => by
    rw [JsTree.docEntries, List.map_cons] at hkeys
    have hk : k.units ∉ object.map Prod.fst := fun hmem =>
      (List.nodup_cons.mp (List.nodup_middle.mp hkeys)).1 (List.mem_append_left _ hmem)
    rw [JsTree.docEntries, Doc.meaningEntries, meaning_doc h.1, Option.bind_eq_bind,
      Option.bind_some, JValue.mapPut_of_notMem _ hk, meaningEntries_doc (by simpa using hkeys) h.2,
      List.append_assoc]
    rfl

end

variable {O W : Type} [DecidableEq O] {E : Engine O W} {e : Endian}

open Buffer in
/-- **From JavaScript to Java**: the encoder returns where its buffer can grow, and wherever
fewer than `2^31` bytes of it stand in an array, `Wson.parse` makes the picture of them. -/
theorem javaReadsJs {t : JsTree} {val : JSValue O} {block : Bytes} {n : Nat}
    (hholds : t.Holds E [] val) (hdistinct : DistinctKeys (t.doc E.asAnyInt))
    (hdeep : t.height ≤ maxDeep) (hn : t.height < n) (hblock : block.length < 2 ^ 32)
    (hfits : fits .c (t.stores E.asAnyInt e) block.length 0)
    (hsmall : ((t.doc E.asAnyInt).encode e).length < 2 ^ 31) (w : W) :
    ∃ b, storeAll .c (pushJsValue E e [] val w).1.1 (Buffer.new block) = .ok () b ∧
      ∀ (before after : Bytes) (cache : BitVec 11 → Option Utf16), ∃ cache',
        parse e n (before ++ b.written ++ after) before.length cache =
          .ok (inJava E.asAnyInt t) cache' := by
  obtain ⟨hstored, hcomplete, -⟩ := agrees_pushJsValue (E := E) (e := e) _ [] rfl val w
  obtain ⟨hstores, hdoc, hsteady⟩ := JsTree.pushJsValue_holds (e := e) hholds (by
    rw [List.length_nil]
    omega) w
  rw [Visit.bytes_of_steady hcomplete hsteady, hdoc] at hstored
  rw [← hstores] at hfits
  have hsized : (t.doc E.asAnyInt).Sized := hdoc ▸ Visit.sized_of_complete hcomplete
  have hblock : (Buffer.new block).length < 2 ^ Library.bits .c := hblock
  obtain ⟨b, hb, -, hwritten⟩ := storeAll_of_fits (Buffer.valid_new block) hblock hfits
  have hbytes : b.written = (t.doc E.asAnyInt).encode e := hwritten.trans hstored
  refine ⟨b, hb, fun before after cache => ?_⟩
  have hencodes : (t.doc E.asAnyInt).Encodes e b.written := by
    rw [hbytes]
    exact Doc.encodes_encode e hsized
  exact parse_encodes hencodes (meaning_doc hdistinct) (by rw [JsTree.height_doc]; exact hn)
    (by rw [hbytes]; exact hsmall) before after cache

open Buffer in
/-- `{"k": [7, "a"]}`. -/
theorem javaReadsJs_sample :
    ∃ b, storeAll .c (pushJsValue (sampleEngine sampleString) .little [] (.object 0) ()).1.1
        (Buffer.new (List.replicate 1024 0)) = .ok () b ∧
      ∀ (before after : Bytes) (cache : BitVec 11 → Option Utf16), ∃ cache',
        parse .little 3 (before ++ b.written ++ after) before.length cache =
          .ok (inJava (fun _ => none)
            (.object [(sampleKey, .array [.int32 7, .string sampleString])])) cache' := by
  have hblock : (List.replicate 1024 (0 : Byte)).length < 2 ^ 32 := by
    rw [List.length_replicate]
    decide
  exact javaReadsJs (holds_sample sampleString)
    ⟨List.nodup_singleton _, ⟨trivial, trivial, trivial⟩, trivial⟩
    (show (JsTree.object _).height ≤ maxDeep by decide) (by decide) hblock
    (fits_of_holds (holds_sample sampleString) (by decide) () (by decide)) (by decide) ()

end ToJava

end Wson.Interop
