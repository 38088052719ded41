import Wson.Jsc.Counts
import Wson.Jsc.Reading
import Wson.Float.Binary64

/-!
# The JavaScript round trip

`wson_to_js_value` of what `wson_push_js_value` has written, for values made of null,
booleans, numbers, strings, dense arrays and plain objects (`Holds`). Whatever earlier
decodes have left in the identifier cache, the value comes back, unless it is so large
that the buffer cannot grow or the length of a key is negative as an `int`
(`jsRoundTrips_iff`).
-/

namespace Wson.Jsc

open Effect Wire Native

/-- A JavaScript value, as a tree. -/
inductive JsTree where
  | null
  | boolean (value : Bool)
  | int32 (num : BitVec 32)
  | double (bits : BitVec 64)
  | string (s : JsString)
  | array (items : List JsTree)
  | object (entries : List (JsString × JsTree))

namespace JsTree

mutual

/-- How deep arrays and objects are nested. -/
def height : JsTree → Nat
  | .array ts => heightItems ts + 1
  | .object es => heightEntries es + 1
  | _ => 0

def heightItems : List JsTree → Nat
  | [] => 0
  | t :: ts => max (height t) (heightItems ts)

def heightEntries : List (JsString × JsTree) → Nat
  | [] => 0
  | (_, t) :: es => max (height t) (heightEntries es)

end

section Value

variable {N : Type} (V : Vm N)

mutual

/-- The value itself, built by the engine from its parts. -/
def value : JsTree → Decoded N
  | .null => .null
  | .boolean b => .boolean b
  | .int32 num => .number (V.ofInt32 num)
  | .double bits => .number (V.ofDouble bits)
  | .string s => .string s.units
  | .array ts => .array (valueItems ts)
  | .object es => .object (valueEntries es)

def valueItems : List JsTree → List (Decoded N)
  | [] => []
  | t :: ts => value t :: valueItems ts

def valueEntries : List (JsString × JsTree) → List (PropertyKey × Decoded N)
  | [] => []
  | (k, t) :: es => (V.propertyKey k.units, value t) :: valueEntries es

end

end Value

section Doc

variable (asAnyInt : BitVec 64 → Option (BitVec 64))

mutual

/-- The document that is written for the value. -/
def doc : JsTree → Doc
  | .null => .null
  | .boolean b => .boolean b
  | .int32 num => .int num
  | .double bits =>
    match asAnyInt bits with
    | some num => .long num
    | none => .double bits
  | .string s => .text .string s.units
  | .array ts => .array (docItems ts)
  | .object es => .map (docEntries es)

def docItems : List JsTree → List Doc
  | [] => []
  | t :: ts => doc t :: docItems ts

def docEntries : List (JsString × JsTree) → List (Utf16 × Doc)
  | [] => []
  | (k, t) :: es => (k.units, doc t) :: docEntries es

end

variable (e : Endian)

mutual

/-- The stores that the value needs. -/
def stores : JsTree → List Store
  | .null => Call.typeNull.stores .c
  | .boolean b => (Call.booleanWithTag (if b then 1 else 0)).stores .c
  | .int32 num => (Call.varIntWithTag num).stores .c
  | .double bits =>
    match asAnyInt bits with
    | some num => (Call.fixedInt64WithTag num).stores .c
    | none => (Call.doubleWithTag bits).stores .c
  | .string s => pushJsString e s
  | .array ts => (Call.typeArray (BitVec.ofNat 32 ts.length)).stores .c ++ storesItems ts
  | .object es => (Call.typeMap (BitVec.ofNat 32 es.length)).stores .c ++ storesEntries es

def storesItems : List JsTree → List Store
  | [] => []
  | t :: ts => stores t ++ storesItems ts

def storesEntries : List (JsString × JsTree) → List Store
  | [] => []
  | (k, t) :: es => pushJsIdentifier e k ++ stores t ++ storesEntries es

end

variable {asAnyInt}

mutual

theorem height_doc : ∀ t : JsTree, (t.doc asAnyInt).height = t.height
  | .null | .boolean _ | .int32 _ | .string _ => rfl
  | .double bits => by
    rw [doc]
    split <;> rfl
  | .array ts => congrArg Nat.succ (heightItems_doc ts)
  | .object es => congrArg Nat.succ (heightEntries_doc es)

theorem heightItems_doc : ∀ ts : List JsTree,
    Doc.heightItems (docItems asAnyInt ts) = heightItems ts
  | [] => rfl
  | t :: ts => by rw [docItems, Doc.heightItems, heightItems, height_doc t, heightItems_doc ts]

theorem heightEntries_doc : ∀ es : List (JsString × JsTree),
    Doc.heightEntries (docEntries asAnyInt es) = heightEntries es
  | [] => rfl
  | (_, t) :: es => by rw [docEntries, Doc.heightEntries, heightEntries, height_doc t, heightEntries_doc es]

end

mutual

/-- The encoder writes no UTF-8 texts. -/
theorem leaves_doc : ∀ t : JsTree, (t.doc asAnyInt).AllLeaves fun u => u.kind ≠ .uint8String
  | .null | .boolean _ | .int32 _ | .string _ => nofun
  | .double bits => by
    rw [doc]
    split <;> exact nofun
  | .array ts => leavesItems_doc ts
  | .object es => leavesEntries_doc es

theorem leavesItems_doc : ∀ ts : List JsTree,
    Doc.LeavesItems (fun u => u.kind ≠ .uint8String) (fun _ => True) (docItems asAnyInt ts)
  | [] => trivial
  | t :: ts => ⟨leaves_doc t, leavesItems_doc ts⟩

theorem leavesEntries_doc : ∀ es : List (JsString × JsTree),
    Doc.LeavesEntries (fun u => u.kind ≠ .uint8String) (fun _ => True) (docEntries asAnyInt es)
  | [] => trivial
  | (_, t) :: es => ⟨trivial, leaves_doc t, leavesEntries_doc es⟩

end

variable {N : Type} {V : Vm N}

mutual

/-- The document stands for the value where `asAnyInt` keeps the number. -/
theorem decoded_doc (hint : ∀ bits num, asAnyInt bits = some num → V.ofInt64 num = V.ofDouble bits) :
    ∀ t : JsTree, decoded V (t.doc asAnyInt) = t.value V
  | .null | .boolean _ | .int32 _ | .string _ => rfl
  | .double bits => by
    rw [doc]
    split
    · next num h => exact congrArg Decoded.number (hint bits num h)
    · rfl
  | .array ts => congrArg Decoded.array (decodedItems_doc hint ts)
  | .object es => congrArg Decoded.object (decodedEntries_doc hint es)

theorem decodedItems_doc
    (hint : ∀ bits num, asAnyInt bits = some num → V.ofInt64 num = V.ofDouble bits) :
    ∀ ts : List JsTree, decodedItems V (docItems asAnyInt ts) = valueItems V ts
  | [] => rfl
  | t :: ts => by rw [docItems, decodedItems, valueItems, decoded_doc hint t, decodedItems_doc hint ts]

theorem decodedEntries_doc
    (hint : ∀ bits num, asAnyInt bits = some num → V.ofInt64 num = V.ofDouble bits) :
    ∀ es : List (JsString × JsTree), decodedEntries V (docEntries asAnyInt es) = valueEntries V es
  | [] => rfl
  | (k, t) :: es => by
    rw [docEntries, decodedEntries, valueEntries, decoded_doc hint t, decodedEntries_doc hint es]

end

end Doc

/-! ## Values in the engine -/

section Holds

variable {O W : Type} (E : Engine O W)

mutual

/-- The value in the engine is the tree: an object holds data only, has no `toJSON` and is not
among the objects around it. -/
def Holds (path : List O) : JsTree → JSValue O → Prop
  | .null, val => val = .null
  | .boolean b, val => val = .boolean b
  | .int32 num, val => val = .int32 num
  | .double bits, val => val = .double bits
  | .string s, val => val = .string s
  | .array ts, val => ∃ o, val = .object o ∧ E.kind o = .array ∧ o ∉ path ∧
    Always (E.getToJSON o) (· = none) ∧ ts.length < 2 ^ 32 ∧
      Always (E.length o) (· = BitVec.ofNat 32 ts.length) ∧ HoldsItems (path ++ [o]) ts o 0
  | .object es, val => ∃ o names, val = .object o ∧ E.kind o = .plain ∧ o ∉ path ∧
    Always (E.getToJSON o) (· = none) ∧ Always (E.getOwnPropertyNames o) (·.val = names) ∧
      HoldsEntries (path ++ [o]) es o names

def HoldsItems (path : List O) : List JsTree → O → Nat → Prop
  | [], _, _ => True
  | t :: ts, o, index =>
    (∃ val, Always (E.getIndex o (BitVec.ofNat 32 index)) (· = val) ∧ Holds path t val) ∧
      HoldsItems path ts o (index + 1)

def HoldsEntries (path : List O) : List (JsString × JsTree) → O → List JsString → Prop
  | [], _, names => names = []
  | (k, t) :: es, o, names => ∃ names' val, names = k :: names' ∧
    Always (E.getOwnProperty o k) (· = some val) ∧ Holds path t val ∧ HoldsEntries path es o names'

end

variable {E}

/-- Such a value is written under its key. -/
theorem not_skipped {path : List O} {t : JsTree} {val : JSValue O} (h : Holds E path t val) :
    skipped E (some val) = false := by
  cases t with
  | null | boolean _ | int32 _ | double _ | string _ =>
    obtain rfl := h
    rfl
  | array ts =>
    obtain ⟨o, rfl, hkind, -⟩ := h
    simp [skipped, JSValue.isUndefined, JSValue.isFunction, hkind]
  | object es =>
    obtain ⟨o, names, rfl, hkind, -⟩ := h
    simp [skipped, JSValue.isUndefined, JSValue.isFunction, hkind]

/-- There is no `toJSON` to be called. -/
theorem toJson_holds {path : List O} {t : JsTree} {val : JSValue O} (h : Holds E path t val)
    (identifier : Utf16) : Always (toJson E identifier val) (· = val) := by
  have hobject (o : O) (hnone : Always (E.getToJSON o) (· = none)) :
      Always (toJson E identifier (.object o)) (· = .object o) := by
    refine hnone.bind fun answer hanswer => ?_
    subst hanswer
    exact always_pure rfl
  cases t with
  | null | boolean _ | int32 _ | double _ | string _ =>
    obtain rfl := h
    exact always_pure rfl
  | array ts =>
    obtain ⟨o, rfl, -, -, hnone, -⟩ := h
    exact hobject o hnone
  | object es =>
    obtain ⟨o, names, rfl, -, -, hnone, -⟩ := h
    exact hobject o hnone

theorem length_of_holdsEntries {path : List O} {o : O} : ∀ {es : List (JsString × JsTree)} {names : List JsString},
    HoldsEntries E path es o names → names.length = es.length
  | [], _, h => congrArg List.length h
  | (_, _) :: _, _, ⟨_, _, hnames, _, _, h⟩ => by
    rw [hnames]
    exact congrArg Nat.succ (length_of_holdsEntries h)

/-- The first pass finds all entries. -/
theorem readProperties_holds {path : List O} {o : O} :
    ∀ {es : List (JsString × JsTree)} {names : List JsString}, HoldsEntries E path es o names →
      Always (readProperties E o names) fun answers =>
        answers.countP (fun a => !skipped E a) = es.length
  | [], _, h => by
    rw [h]
    exact always_pure rfl
  | (_, t) :: es, _, ⟨names', val, hnames, hread, ht, h⟩ => by
    rw [hnames, readProperties]
    refine hread.bind fun answer hanswer => ?_
    subst hanswer
    refine (readProperties_holds h).bind fun answers hanswers => always_pure ?_
    rw [List.countP_cons_of_pos (by rw [not_skipped ht]; rfl), hanswers, List.length_cons]

/-- The size in the header. -/
theorem headerSize_holds {path : List O} {o : O} {es : List (JsString × JsTree)} {names : List JsString}
    (h : HoldsEntries E path es o names) (hsize : names.length < 2 ^ 32)
    {first : List (Option (JSValue O))} (hlength : first.length = names.length)
    (hfirst : first.countP (fun a => !skipped E a) = es.length) :
    headerSize E first = BitVec.ofNat 32 es.length := by
  have hes : es.length < 2 ^ 32 := by
    rw [← length_of_holdsEntries h]
    exact hsize
  apply BitVec.eq_of_toNat_eq
  rw [Visit.toNat_headerSize (hlength.trans_lt hsize), hfirst, BitVec.toNat_ofNat, Nat.mod_eq_of_lt hes]

variable {e : Endian} [DecidableEq O]

mutual

/-- **The encoder** writes the document of a value. -/
theorem pushJsValue_holds : ∀ {t : JsTree} {path : List O} {val : JSValue O}, Holds E path t val →
    path.length + t.height ≤ maxDeep + 1 → Always (pushJsValue E e path val) fun p =>
      p.1 = t.stores E.asAnyInt e ∧ p.2.doc = t.doc E.asAnyInt ∧ p.2.Steady E
  | .null, _, _, h, _ | .boolean _, _, _, h, _ | .int32 _, _, _, h, _ | .string _, _, _, h, _ => by
    obtain rfl := h
    rw [pushJsValue]
    exact always_pure ⟨rfl, rfl, trivial⟩
  | .double bits, _, _, h, _ => by
    obtain rfl := h
    rw [pushJsValue, doc, stores, pushDouble]
    cases E.asAnyInt bits <;> exact always_pure ⟨rfl, rfl, trivial⟩
  | .array ts, path, _, h, hdeep => by
    obtain ⟨o, rfl, hkind, hpath, -, hsize, hlength, hitems⟩ := h
    have hroom : ¬(o ∈ path ∨ maxDeep < path.length) := by
      rw [height] at hdeep
      rw [not_or]
      exact ⟨hpath, by omega⟩
    rw [pushJsValue, hkind]
    dsimp only
    rw [dif_neg hroom]
    refine hlength.bind fun length hlength => ?_
    subst hlength
    rw [BitVec.toNat_ofNat, Nat.mod_eq_of_lt hsize]
    refine (pushElements_holds hitems ?_).bind fun p hp => ?_
    · rw [height] at hdeep
      rw [List.length_append, List.length_singleton]
      omega
    · refine always_pure ⟨?_, congrArg Doc.array hp.2.1, hp.2.2⟩
      rw [stores, hp.1]
  | .object es, path, _, h, hdeep => by
    obtain ⟨o, names, rfl, hkind, hpath, -, hnames, hentries⟩ := h
    have hroom : ¬(o ∈ path ∨ maxDeep < path.length) := by
      rw [height] at hdeep
      rw [not_or]
      exact ⟨hpath, by omega⟩
    rw [pushJsValue, hkind]
    dsimp only
    rw [dif_neg hroom]
    refine hnames.bind fun read hread => ?_
    have hsize := read.property
    rw [hread] at hsize ⊢
    -- every name is counted, so the header has the number of the entries
    refine ((length_readProperties o names).and (readProperties_holds hentries)).bind fun first hfirst => ?_
    refine (pushProperties_holds hentries ?_).bind fun p hp => ?_
    · rw [height] at hdeep
      rw [List.length_append, List.length_singleton]
      omega
    · refine always_pure ⟨?_, congrArg Doc.map hp.2.1, hfirst.2.trans hp.2.2.1.symm, hp.2.2.2⟩
      rw [stores, hp.1, headerSize_holds hentries hsize hfirst.1 hfirst.2]

theorem pushElements_holds : ∀ {ts : List JsTree} {path : List O} {o : O} {index : Nat},
    HoldsItems E path ts o index → path.length + heightItems ts ≤ maxDeep + 1 →
      Always (pushElements E (fun ele => pushJsValue E e path ele) o ts.length (BitVec.ofNat 32 index))
        fun p => p.1 = storesItems E.asAnyInt e ts ∧ Visit.docItems p.2 = docItems E.asAnyInt ts ∧
          Visit.SteadyItems E p.2
  | [], _, _, _, _, _ => always_pure ⟨rfl, rfl, trivial⟩
  | t :: ts, path, o, index, ⟨⟨val, hread, ht⟩, hts⟩, hdeep => by
    rw [heightItems] at hdeep
    have hindex : BitVec.ofNat 32 index + 1 = BitVec.ofNat 32 (index + 1) := (BitVec.ofNat_add _ _).symm
    rw [List.length_cons, pushElements, hindex]
    refine hread.bind fun ele hele => ?_
    subst hele
    refine (toJson_holds ht _).bind fun ele hele => ?_
    subst hele
    refine (pushJsValue_holds ht (by omega)).bind fun p hp => ?_
    refine (pushElements_holds hts (by omega)).bind fun q hq => always_pure ⟨?_, ?_, hp.2.2, hq.2.2⟩
    · rw [storesItems, hp.1, hq.1]
    · rw [Visit.docItems, hp.2.1, hq.2.1, docItems]

theorem pushProperties_holds : ∀ {es : List (JsString × JsTree)} {path : List O} {o : O}
    {names : List JsString}, HoldsEntries E path es o names →
      path.length + heightEntries es ≤ maxDeep + 1 →
        Always (pushProperties E e (fun value => pushJsValue E e path value) o names) fun p =>
          p.1 = storesEntries E.asAnyInt e es ∧ Visit.docEntries p.2.2 = docEntries E.asAnyInt es ∧
            p.2.1.countP (fun a => !skipped E a) = es.length ∧ Visit.SteadyEntries E p.2.2
  | [], _, _, _, h, _ => by
    rw [h]
    exact always_pure ⟨rfl, rfl, rfl, trivial⟩
  | (k, t) :: es, path, o, _, ⟨names', val, hnames, hread, ht, hes⟩, hdeep => by
    rw [heightEntries] at hdeep
    have hskip := not_skipped ht
    rw [hnames, pushProperties]
    refine hread.bind fun answer hanswer => ?_
    subst hanswer
    have hcond : (val.isUndefined || val.isFunction E) = false := hskip
    simp only [hcond]
    refine (toJson_holds ht _).bind fun value hvalue => ?_
    subst hvalue
    refine (pushJsValue_holds ht (by omega)).bind fun p hp => ?_
    refine (pushProperties_holds hes (by omega)).bind fun q hq =>
      always_pure ⟨?_, ?_, ?_, hp.2.2, hq.2.2.2⟩
    · rw [storesEntries, hp.1, hq.1]
    · rw [Visit.docEntries, hp.2.1, hq.2.1, docEntries]
    · rw [List.countP_cons_of_pos (by rw [hskip]; rfl), hq.2.2.1, List.length_cons]

end

end Holds

end JsTree

/-! ## There and back -/

section RoundTrip

open Buffer

variable {O W N : Type} [DecidableEq O] (E : Engine O W) (V : Vm N) (e : Endian)

/-- The encoder returns, in a new buffer around `block`, and decoding what it has written gives the
value again. -/
def RoundTrips (block : Bytes) (t : JsTree) (val : JSValue O) (w : W) (n : Nat) (cache : Cache) : Prop :=
  ∃ b, storeAll .c (pushJsValue E e [] val w).1.1 (Buffer.new block) = .ok () b ∧
    ∃ d, returns (wsonToJsValue V e n) ⟨⟨b.written, 0, b.written.length⟩, cache⟩ = some (t.value V, d)

variable {E V e}

/-- **The round trip**, whatever earlier decodes have left in the identifier cache: the value comes
back iff the buffer can grow and every key has less than `2^31` bytes. -/
theorem jsRoundTrips_iff {t : JsTree} {val : JSValue O} {block : Bytes} {n : Nat} {cache : Cache}
    (hholds : t.Holds E [] val) (hdistinct : DistinctKeys (t.doc E.asAnyInt))
    (hdeep : t.height ≤ maxDeep) (hn : t.height < n)
    (hint : ∀ bits num, E.asAnyInt bits = some num → V.ofInt64 num = V.ofDouble bits)
    (hindex : V.CanonicalIndex) (hcache : Reachable V e cache) (hblock : block.length < 2 ^ 32) (w : W) :
    RoundTrips E V e block t val w n cache ↔
      fits .c (t.stores E.asAnyInt e) block.length 0 ∧ ShortKeys (t.doc E.asAnyInt) := by
  obtain ⟨hstored, hcomplete, -⟩ := agrees_pushJsValue (E := E) (e := e) _ [] rfl val w
  obtain ⟨hstores, hdoc, hsteady⟩ := JsTree.pushJsValue_holds (e := e) hholds (by
    rw [List.length_nil]
    omega) w
  rw [← hstores]
  have hsized := Visit.sized_of_complete hcomplete
  rw [Visit.bytes_of_steady hcomplete hsteady, hdoc] at hstored
  rw [hdoc] at hsized
  have hencodes := Doc.encodes_encode e hsized
  have hn : (t.doc E.asAnyInt).height < n := by
    rw [JsTree.height_doc]
    exact hn
  have hblock : (Buffer.new block).length < 2 ^ Library.bits .c := hblock
  -- the bytes that a run leaves, and what they are decoded to
  have hrun (hfits : fits .c (pushJsValue E e [] val w).1.1 block.length 0) :
      ∃ b, storeAll .c (pushJsValue E e [] val w).1.1 (Buffer.new block) = .ok () b ∧
        b.written = (t.doc E.asAnyInt).encode e ∧ b.written.length < 2 ^ Library.bits .c := by
    obtain ⟨b, hb, ⟨hv, hlt⟩, hwritten⟩ := storeAll_of_fits (Buffer.valid_new block) hblock hfits
    refine ⟨b, hb, hwritten.trans hstored, ?_⟩
    rw [hv.written_length]
    exact Nat.lt_of_le_of_lt hv.inside hlt
  have hat (data : Bytes) : AtDecoder data ⟨⟨data, 0, data.length⟩, cache⟩ 0 :=
    ⟨⟨rfl, Nat.zero_le _⟩, hcache.consistent⟩
  constructor
  · rintro ⟨b, hb, d, hdecode⟩
    have hfits := fits_of_storeAll (Buffer.valid_new block) hblock hb
    obtain ⟨b', hb', hwritten, hlt⟩ := hrun hfits
    obtain rfl : b' = b := by
      have hsame := hb'.symm.trans hb
      cases hsame
      rfl
    refine ⟨hfits, ?_⟩
    -- a key that is not short makes the decode fail
    by_contra hlong
    have hnone := returns_wsonToJsValue_none (n := n) hlt hindex hencodes hlong hdistinct
      (JsTree.leaves_doc t) hn (hat b'.written)
      (show b'.written.drop 0 = (t.doc E.asAnyInt).encode e ++ [] by rw [hwritten, List.append_nil]; rfl)
    exact nomatch hnone.symm.trans hdecode
  · rintro ⟨hfits, hshort⟩
    obtain ⟨b, hb, hwritten, hlt⟩ := hrun hfits
    obtain ⟨d, hdecode, -⟩ := consumes_wsonToJsValue hlt hindex hencodes hshort hdistinct
      (JsTree.leaves_doc t) hn ⟨⟨b.written, 0, b.written.length⟩, cache⟩ 0 [] (hat b.written)
      (by rw [hwritten, List.append_nil]; rfl)
    exact ⟨b, hb, d, by rw [hdecode, JsTree.decoded_doc hint]⟩

/-- A value whose encoding has up to `2^30` bytes fits. -/
theorem fits_of_holds {t : JsTree} {val : JSValue O} {block : Bytes} (hholds : t.Holds E [] val)
    (hdeep : t.height ≤ maxDeep) (w : W) (hsmall : ((t.doc E.asAnyInt).encode e).length ≤ limit .c) :
    fits .c (t.stores E.asAnyInt e) block.length 0 := by
  obtain ⟨hstores, hdoc, hsteady⟩ := JsTree.pushJsValue_holds (e := e) hholds (by
    rw [List.length_nil]
    omega) w
  obtain ⟨-, hcomplete, -⟩ := agrees_pushJsValue (E := E) (e := e) _ [] rfl val w
  rw [← hstores]
  refine fits_pushJsValue E e (Buffer.valid_new block) [] val w ?_
  rw [Visit.bytes_of_steady hcomplete hsteady, hdoc]
  exact (Nat.zero_add _).trans_le hsmall

/-! ## A small object and a large string -/

/-- The name `k` and the string `a`. -/
def sampleKey : JsString := ⟨[0x6B], true, by decide⟩

def sampleString : JsString := ⟨[0x61], true, by decide⟩

/-- The object `{"k": [7, s]}`: the object is 0, the array is 1. -/
def sampleEngine (s : JsString) : Engine (Fin 2) Unit where
  kind o := if o = 0 then .plain else .array
  length _ := pure 2
  getIndex _ index := pure (if index = 0 then .int32 7 else .string s)
  getOwnPropertyNames _ := pure ⟨[sampleKey], by decide⟩
  getOwnProperty _ _ := pure (some (.object 1))
  getToJSON _ := pure none
  isCallable _ := false
  call _ _ _ := pure .undefined
  toString _ := pure ⟨[], true, length_nil_lt⟩
  toNumber _ := pure (.inl 0)
  toPrimitive _ := pure .undefined
  asAnyInt _ := none
  numberText _ := ⟨[], true, length_nil_lt⟩

/-- Numbers are doubles; no key of the sample is an index. -/
def sampleVm : Vm (BitVec 64) where
  ofInt32 num := Binary64.ofInt num.toInt
  ofInt64 num := Binary64.ofInt num.toInt
  ofFloat num := Binary64.ofFloat num
  ofDouble bits := bits
  fromUTF8 _ := []
  parseIndex _ := none

theorem holds_sample (s : JsString) :
    (JsTree.object [(sampleKey, .array [.int32 7, .string s])]).Holds (sampleEngine s) [] (.object 0) := by
  refine ⟨0, [sampleKey], rfl, rfl, by simp, always_pure rfl, always_pure rfl, ?_⟩
  refine ⟨[], .object 1, rfl, always_pure rfl, ?_, rfl⟩
  exact ⟨1, rfl, rfl, by decide, always_pure rfl, by simp, always_pure rfl,
    ⟨_, always_pure rfl, rfl⟩, ⟨_, always_pure rfl, rfl⟩, trivial⟩

theorem canonicalIndex_sampleVm : sampleVm.CanonicalIndex :=
  fun _ _ _ h => nomatch h

/-- `{"k": [7, "a"]}`, with a table in which an earlier decode of `{"k": null}` has left `k`. -/
theorem jsRoundTrips_sample_iff :
    RoundTrips (sampleEngine sampleString) sampleVm .little (List.replicate 1024 0)
        (.object [(sampleKey, .array [.int32 7, .string sampleString])]) (.object 0) () 3
        (run (decodeStep sampleVm .little) (Cache.replicate 32 (by decide) .fresh)
          [(2, ⟨[Tag.map, 1, 2, 0x6B, 0, Tag.null], 0, 6⟩)]) ↔
      Buffer.fits .c ((JsTree.object [(sampleKey, .array [.int32 7, .string sampleString])]).stores
          (fun _ => none) .little) (List.replicate 1024 (0 : Byte)).length 0 ∧
        ShortKeys ((JsTree.object [(sampleKey, .array [.int32 7, .string sampleString])]).doc fun _ => none) :=
  jsRoundTrips_iff (holds_sample sampleString)
    ⟨List.nodup_singleton _, ⟨trivial, trivial, trivial⟩, trivial⟩
    (by simp [JsTree.height, JsTree.heightItems, JsTree.heightEntries, maxDeep])
    (by simp [JsTree.height, JsTree.heightItems, JsTree.heightEntries]) (fun _ _ h => nomatch h)
    canonicalIndex_sampleVm (.fresh 32 (.inl rfl) _) (by rw [List.length_replicate]; decide) ()

/-- The longest string there is: `2^31 - 1` characters `a`. -/
def longString : JsString where
  units := List.replicate (2 ^ 31 - 1) 0x61
  is8Bit := true
  length_lt := by rw [List.length_replicate]; decide

/-- Its units ask for `2^32 - 2` bytes, and the length of the block wraps around to 2046. -/
theorem not_fits_longUnits (e : Endian) {position : Nat} (hp : position < 2 ^ 32) (rest : List Store) :
    ¬ Buffer.fits .c (unitsStore e longString :: rest) 1024 position := by
  have hlength : longString.units.length = 2 ^ 31 - 1 := List.length_replicate
  have hunits : (units e longString.units).length = 2 ^ 32 - 2 := by
    rw [units_length, hlength]
    rfl
  have hstore : unitsStore e longString = ⟨64, 2 ^ 32 - 2, units e longString.units, false⟩ := by
    rw [unitsStore, hlength]
    rfl
  have hlast (bs : Bytes) (hbs : bs.length = 2 ^ 32 - 2) :
      ¬ Buffer.fits .c (⟨64, 2 ^ 32 - 2, bs, false⟩ :: rest) 1024 position := by
    rintro ⟨h, -⟩
    rw [Store.count_of_unsigned rfl] at h
    dsimp only at h
    have hasked : 1024 < (position + (2 ^ 32 - 2)) % 2 ^ 64 := by omega
    have hresized : Buffer.ensured .c ⟨64, 2 ^ 32 - 2, bs, false⟩ 1024 position = 2046 := by
      rw [Buffer.ensured, if_pos hasked]
      simp [Buffer.resizedLength, Library.bits, Library.bufferSize]
    rw [hresized, hbs] at h
    exact absurd h (by omega)
  rw [hstore]
  exact hlast _ hunits

theorem pushJsString_longString (e : Endian) :
    pushJsString e longString = [Call.typeStore Tag.string, Call.uintStore (BitVec.ofNat 32 (2 ^ 32 - 2)),
      unitsStore e longString] := by
  have hlength : longString.units.length = 2 ^ 31 - 1 := List.length_replicate
  rw [pushJsString, pushJsIdentifier, hlength]
  rfl

theorem not_fits_longString (e : Endian) : ¬ Buffer.fits .c (pushJsString e longString) 1024 0 := by
  rw [pushJsString_longString]
  rintro ⟨-, -, hrest⟩
  exact not_fits_longUnits e (by decide) [] hrest

/-- The string is not written: its units leave the block. -/
theorem not_roundTrips_longString :
    (JsTree.string longString).Holds (sampleEngine longString) [] (.string longString) ∧
      ∀ n, ¬ RoundTrips (sampleEngine longString) sampleVm .little (List.replicate 1024 0)
        (.string longString) (.string longString) () n (Cache.replicate 128 (by decide) .fresh) := by
  refine ⟨rfl, ?_⟩
  rintro n ⟨b, hb, -⟩
  have hblock : (Buffer.new (List.replicate 1024 0)).length < 2 ^ Library.bits .c := new_lt
  have hfits := fits_of_storeAll (Buffer.valid_new _) hblock hb
  have hpush : (pushJsValue (sampleEngine longString) .little [] (.string longString) ()).1
      = pushString .little longString := by
    rw [pushJsValue]
    rfl
  rw [hpush, show (Buffer.new (List.replicate 1024 0)).length = 1024 from List.length_replicate] at hfits
  exact not_fits_longString .little hfits

end RoundTrip

end Wson.Jsc
