import Wson.Runtime.Convert

/-!
# The round trip of a runtime value

A map leaves out the entries without a value to write, an array leaves out nothing, but
a function or an object writes nothing. So a value comes back (`kept`) iff no
function or object is its root or the element of an array in it, no text or array is
too long for its header, and the buffer can grow (`returnsKept_iff`).
-/

namespace Wson.Runtime

open Effect Wire Native

namespace RuntimeValue

section Texts

variable (P : Bytes → Prop)

mutual

/-- Every string and key satisfies `P`. -/
def Texts : RuntimeValue → Prop
  | .string s => P s
  | .array items => TextsItems items
  | .map entries => TextsEntries entries
  | _ => True

def TextsItems : List RuntimeValue → Prop
  | [] => True
  | item :: items => Texts item ∧ TextsItems items

def TextsEntries : List (Bytes × RuntimeValue) → Prop
  | [] => True
  | (key, value) :: entries => P key ∧ Texts value ∧ TextsEntries entries

end

end Texts

mutual

/-- A map has every key once. -/
def Distinct : RuntimeValue → Prop
  | .array items => DistinctItems items
  | .map entries => (entries.map Prod.fst).Nodup ∧ DistinctEntries entries
  | _ => True

def DistinctItems : List RuntimeValue → Prop
  | [] => True
  | item :: items => Distinct item ∧ DistinctItems items

def DistinctEntries : List (Bytes × RuntimeValue) → Prop
  | [] => True
  | (_, value) :: entries => Distinct value ∧ DistinctEntries entries

end

mutual

/-- How deep arrays and maps are nested. -/
def height : RuntimeValue → Nat
  | .array items => heightItems items + 1
  | .map entries => heightEntries entries + 1
  | _ => 0

def heightItems : List RuntimeValue → Nat
  | [] => 0
  | item :: items => max (height item) (heightItems items)

def heightEntries : List (Bytes × RuntimeValue) → Nat
  | [] => 0
  | (_, value) :: entries => max (height value) (heightEntries entries)

end

mutual

/-- What is to come back. -/
def kept : RuntimeValue → RuntimeValue
  | .undefined | .null | .function | .object => .null
  | .int num => .int num
  | .double bits => .double bits
  | .bool flag => .bool flag
  | .string s => .string s
  | .array items => .array (keptItems items)
  | .map entries => .map (keptEntries entries)

def keptItems : List RuntimeValue → List RuntimeValue
  | [] => []
  | item :: items => kept item :: keptItems items

def keptEntries : List (Bytes × RuntimeValue) → List (Bytes × RuntimeValue)
  | [] => []
  | (key, value) :: entries =>
    if value.isDropped then keptEntries entries else (key, kept value) :: keptEntries entries

end

variable (toUtf16 : Bytes → Utf16)

mutual

/-- The document of what is written. Only a function or an object writes nothing. -/
def written : RuntimeValue → Option Doc
  | .undefined | .null => some .null
  | .int num => some (.int num)
  | .double bits => some (.double bits)
  | .bool flag => some (.boolean flag)
  | .string s => some (.text .string (covered (toUtf16 s)))
  | .array items => some (.array (writtenItems (BitVec.ofNat 32 items.length).toNat items))
  | .map entries => some (.map (writtenEntries entries))
  | .function | .object => none

def writtenItems : Nat → List RuntimeValue → List Doc
  | 0, _ => []
  | _ + 1, [] => []
  | length + 1, item :: items => (written item).toList ++ writtenItems length items

def writtenEntries : List (Bytes × RuntimeValue) → List (Utf16 × Doc)
  | [] => []
  | (key, value) :: entries =>
    if value.isDropped then writtenEntries entries
    else (written value).toList.map (covered (toUtf16 key), ·) ++ writtenEntries entries

end

mutual

/-- No function or object is the root or the element of an array, and all sizes fit into their
headers. -/
def Encodable : RuntimeValue → Prop
  | .string s => 2 * (toUtf16 s).length < 2 ^ 30
  | .array items => items.length < 2 ^ 32 ∧ EncodableItems items
  | .map entries => (entries.countP fun entry => !entry.2.isDropped) < 2 ^ 32 ∧ EncodableEntries entries
  | .function | .object => False
  | _ => True

def EncodableItems : List RuntimeValue → Prop
  | [] => True
  | item :: items => Encodable item ∧ EncodableItems items

def EncodableEntries : List (Bytes × RuntimeValue) → Prop
  | [] => True
  | (key, value) :: entries =>
    (value.isDropped = false → 2 * (toUtf16 key).length < 2 ^ 30 ∧ Encodable value) ∧
      EncodableEntries entries

end

variable (e : Endian)

/-- The stores of a length and a text. -/
def textStores (s : Utf16) : List Store :=
  [Call.uintStore (BitVec.ofNat 32 (2 * s.length)), unitsStore e s]

mutual

/-- The stores that a value needs. -/
def stores : RuntimeValue → List Store
  | .undefined | .null => Call.typeNull.stores .c
  | .int num => (Call.varIntWithTag num).stores .c
  | .double bits => (Call.doubleWithTag bits).stores .c
  | .bool flag => (Call.booleanWithTag (if flag then 1 else 0)).stores .c
  | .string s => Call.typeStore Tag.string :: textStores e (toUtf16 s)
  | .array items =>
    (Call.typeArray (BitVec.ofNat 32 items.length)).stores .c ++
      storesItems (BitVec.ofNat 32 items.length).toNat items
  | .map entries => (Call.typeMap (headerSize entries)).stores .c ++ storesEntries entries
  | .function | .object => []

def storesItems : Nat → List RuntimeValue → List Store
  | 0, _ => []
  | _ + 1, [] => []
  | length + 1, item :: items => stores item ++ storesItems length items

def storesEntries : List (Bytes × RuntimeValue) → List Store
  | [] => []
  | (key, value) :: entries =>
    if value.isDropped then storesEntries entries
    else textStores e (toUtf16 key) ++ stores value ++ storesEntries entries

end

variable {toUtf16 e}

/-! ## The stores of the encoder -/

open Buffer

theorem pushMapKeyToBuffer_eq (key : Bytes) :
    pushMapKeyToBuffer toUtf16 e key = storeAll .c (textStores e (toUtf16 key)) := by
  simp only [pushMapKeyToBuffer, Call.writeVarUint_eq, textStores, storeAll, bind_pure_unit]

theorem pushStringToWsonBuffer_eq (s : Bytes) :
    pushStringToWsonBuffer toUtf16 e s
      = storeAll .c (Call.typeStore Tag.string :: textStores e (toUtf16 s)) := by
  have htype : store .c (Call.typeStore Tag.string) = writeType .c Tag.string := Call.store_eq .c rfl
  simp only [pushStringToWsonBuffer, Call.writeVarUint_eq, textStores, storeAll, bind_pure_unit, htype]

mutual

/-- **The stores** are what the encoder does. -/
theorem putValuesToWson_eq : ∀ v : RuntimeValue,
    putValuesToWson toUtf16 e v = storeAll .c (stores toUtf16 e v)
  | .undefined | .null => Call.run_eq_storeAll .c .typeNull
  | .int num => Call.run_eq_storeAll .c (.varIntWithTag num)
  | .double bits => Call.run_eq_storeAll .c (.doubleWithTag bits)
  | .bool flag => Call.run_eq_storeAll .c (.booleanWithTag (if flag then 1 else 0))
  | .string s => pushStringToWsonBuffer_eq s
  | .array items => by
    rw [putValuesToWson, stores, storeAll_append, ← Call.run_eq_storeAll, ← putItems_eq]
    rfl
  | .map entries => by
    rw [putValuesToWson, stores, storeAll_append, ← Call.run_eq_storeAll, ← putEntries_eq]
    rfl
  | .function | .object => rfl

theorem putItems_eq : ∀ (length : Nat) (items : List RuntimeValue),
    putItems toUtf16 e length items = storeAll .c (storesItems toUtf16 e length items)
  | 0, _ => by rw [putItems, storesItems, storeAll]
  | _ + 1, [] => by rw [putItems, storesItems, storeAll]
  | length + 1, item :: items => by
    rw [putItems, storesItems, storeAll_append, putValuesToWson_eq item, putItems_eq length items]

theorem putEntries_eq : ∀ entries : List (Bytes × RuntimeValue),
    putEntries toUtf16 e entries = storeAll .c (storesEntries toUtf16 e entries)
  | [] => by rw [putEntries, storesEntries, storeAll]
  | (key, value) :: entries => by
    rw [putEntries, storesEntries, putEntries_eq entries]
    split
    · rfl
    · rw [storeAll_append, storeAll_append, pushMapKeyToBuffer_eq, putValuesToWson_eq value, bind_assoc]

end

theorem tight_textStores (s : Utf16) : ∀ store ∈ textStores e s, store.Tight := by
  have hbytes : (unitsStore e s).bytes.length = (unitsStore e s).request := units_length e (covered s)
  have hunits : (unitsStore e s).Tight := ⟨Nat.le_refl 32, by omega, by omega⟩
  exact List.forall_mem_cons.mpr ⟨Call.tight_uintStore _, List.forall_mem_singleton.mpr hunits⟩

mutual

theorem tight_stores : ∀ v : RuntimeValue, ∀ s ∈ stores toUtf16 e v, s.Tight
  | .undefined | .null => Call.typeNull.tight_of_mem_stores .c
  | .int num => (Call.varIntWithTag num).tight_of_mem_stores .c
  | .double bits => (Call.doubleWithTag bits).tight_of_mem_stores .c
  | .bool flag => (Call.booleanWithTag (if flag then 1 else 0)).tight_of_mem_stores .c
  | .string _ => List.forall_mem_cons.mpr ⟨Call.tight_typeStore _, tight_textStores _⟩
  | .array items =>
    List.forall_mem_append.mpr ⟨(Call.typeArray _).tight_of_mem_stores .c, tight_storesItems _ items⟩
  | .map entries =>
    List.forall_mem_append.mpr ⟨(Call.typeMap _).tight_of_mem_stores .c, tight_storesEntries entries⟩
  | .function | .object => nofun

theorem tight_storesItems : ∀ (length : Nat) (items : List RuntimeValue),
    ∀ s ∈ storesItems toUtf16 e length items, s.Tight
  | 0, _ => by
    rw [storesItems]
    exact nofun
  | _ + 1, [] => nofun
  | length + 1, item :: items => by
    rw [storesItems]
    exact List.forall_mem_append.mpr ⟨tight_stores item, tight_storesItems length items⟩

theorem tight_storesEntries : ∀ entries : List (Bytes × RuntimeValue),
    ∀ s ∈ storesEntries toUtf16 e entries, s.Tight
  | [] => nofun
  | (key, value) :: entries => by
    rw [storesEntries]
    split
    · exact tight_storesEntries entries
    · exact List.forall_mem_append.mpr
        ⟨List.forall_mem_append.mpr ⟨tight_textStores _, tight_stores value⟩, tight_storesEntries entries⟩

end

/-- What has up to `2^30` bytes fits. -/
theorem fits_stores {v : RuntimeValue} {b : Buffer} (hv : b.Valid)
    (hsmall : b.position + (stored (stores toUtf16 e v)).length ≤ limit .c) :
    fits .c (stores toUtf16 e v) b.length b.position :=
  fits_of_tight (tight_stores v) hv.inside hsmall

/-! ## Sizes -/

theorem covered_of_short {s : Utf16} (h : 2 * s.length < 2 ^ 30) : covered s = s := by
  rw [covered, Nat.mod_eq_of_lt (by omega), List.take_length]

theorem length_covered (s : Utf16) : (covered s).length = s.length % 2 ^ 31 := by
  rw [covered, List.length_take]
  omega

/-- A text that is cut off is shorter than the whole. -/
theorem short_of_covered {s : Utf16} (hshort : 2 * (covered s).length < 2 ^ 30)
    (htext : utf16ConvertToUtf8Cstr (covered s) = utf16ConvertToUtf8Cstr s) :
    2 * s.length < 2 ^ 30 := by
  have hlength := length_covered s
  by_contra hlong
  rw [utf16ConvertToUtf8Cstr_eq, utf16ConvertToUtf8Cstr_eq] at htext
  have hcovered := (Text.length_utf8 (covered s)).2
  have hall := (Text.length_utf8 s).1
  rw [htext] at hcovered
  omega

theorem toNat_headerSize {entries : List (Bytes × RuntimeValue)}
    (h : (entries.countP fun entry => !entry.2.isDropped) < 2 ^ 32) :
    (headerSize entries).toNat = entries.countP fun entry => !entry.2.isDropped := by
  have hsplit := List.length_eq_countP_add_countP (fun entry => entry.2.isDropped) (l := entries)
  have hnot : entries.countP (fun entry => decide ¬entry.2.isDropped = true)
      = entries.countP fun entry => !entry.2.isDropped :=
    List.countP_congr fun entry _ => by simp
  rw [hnot] at hsplit
  rw [headerSize, BitVec.toNat_sub, BitVec.toNat_ofNat, BitVec.toNat_ofNat]
  omega

theorem stored_textStores {s : Utf16} (h : 2 * s.length < 2 ^ 30) :
    stored (textStores e s) = encode (2 * s.length) ++ units e s := by
  show encode (BitVec.ofNat 32 (2 * s.length)).toNat ++ (units e (covered s) ++ []) = _
  rw [List.append_nil, covered_of_short h, BitVec.toNat_ofNat, Nat.mod_eq_of_lt (by omega)]

theorem exists_written {value : RuntimeValue} (h : value.isDropped = false) :
    ∃ d, written toUtf16 value = some d := by
  cases value with
  | undefined | null | function | object => exact nomatch h
  | _ => exact ⟨_, rfl⟩

theorem writtenItems_cons {item : RuntimeValue} {d : Doc} (h : written toUtf16 item = some d)
    (length : Nat) (items : List RuntimeValue) :
    writtenItems toUtf16 (length + 1) (item :: items) = d :: writtenItems toUtf16 length items := by
  rw [writtenItems, h]
  rfl

theorem writtenEntries_cons {value : RuntimeValue} {d : Doc} (hdropped : value.isDropped = false)
    (h : written toUtf16 value = some d) (key : Bytes) (entries : List (Bytes × RuntimeValue)) :
    writtenEntries toUtf16 ((key, value) :: entries)
      = (covered (toUtf16 key), d) :: writtenEntries toUtf16 entries := by
  rw [writtenEntries, hdropped, h]
  rfl

theorem length_writtenItems_le : ∀ (length : Nat) (items : List RuntimeValue),
    (writtenItems toUtf16 length items).length ≤ length ∧
      (writtenItems toUtf16 length items).length ≤ items.length
  | 0, _ => by
    rw [writtenItems]
    exact ⟨Nat.le_refl 0, Nat.zero_le _⟩
  | _ + 1, [] => ⟨Nat.zero_le _, Nat.le_refl 0⟩
  | length + 1, item :: items => by
    have ih := length_writtenItems_le length items
    have hitem : (written toUtf16 item).toList.length ≤ 1 := by
      cases written toUtf16 item with
      | none => exact Nat.zero_le 1
      | some d => exact Nat.le_refl 1
    rw [writtenItems, List.length_append, List.length_cons]
    omega

theorem length_decodedItems : ∀ {ds : List Doc} {items : List RuntimeValue},
    decodedItems ds = some items → items.length = ds.length
  | [], _, h => by
    obtain rfl := Option.some.inj h
    rfl
  | d :: ds, _, h => by
    obtain ⟨value, -, h⟩ := Option.bind_eq_some_iff.mp h
    obtain ⟨items, hitems, rfl⟩ := Option.map_eq_some_iff.mp h
    exact congrArg Nat.succ (length_decodedItems hitems)

theorem length_decodedEntries : ∀ {es : List (Utf16 × Doc)} {entries : List (Bytes × RuntimeValue)},
    decodedEntries es = some entries → entries.length = es.length
  | [], _, h => by
    obtain rfl := Option.some.inj h
    rfl
  | (k, d) :: es, _, h => by
    obtain ⟨name, -, h⟩ := Option.bind_eq_some_iff.mp h
    obtain ⟨value, -, h⟩ := Option.bind_eq_some_iff.mp h
    obtain ⟨entries, hentries, rfl⟩ := Option.map_eq_some_iff.mp h
    exact congrArg Nat.succ (length_decodedEntries hentries)

theorem length_keptItems : ∀ items : List RuntimeValue, (keptItems items).length = items.length
  | [] => rfl
  | _ :: items => congrArg Nat.succ (length_keptItems items)

theorem length_keptEntries : ∀ entries : List (Bytes × RuntimeValue),
    (keptEntries entries).length = entries.countP fun entry => !entry.2.isDropped
  | [] => rfl
  | (key, value) :: entries => by
    rw [keptEntries, List.countP_cons, ← length_keptEntries entries]
    cases value.isDropped <;> rfl

theorem length_writtenEntries : ∀ entries : List (Bytes × RuntimeValue),
    (writtenEntries toUtf16 entries).length = entries.countP fun entry => !entry.2.isDropped
  | [] => rfl
  | (key, value) :: entries => by
    rw [List.countP_cons, ← length_writtenEntries entries]
    cases hdropped : value.isDropped with
    | true =>
      rw [writtenEntries, hdropped]
      rfl
    | false =>
      obtain ⟨d, hd⟩ : ∃ d, written toUtf16 value = some d := exists_written hdropped
      rw [writtenEntries_cons hdropped hd]
      rfl

theorem keptEntries_sublist : ∀ entries : List (Bytes × RuntimeValue),
    ((keptEntries entries).map Prod.fst).Sublist (entries.map Prod.fst)
  | [] => List.Sublist.slnil
  | (key, value) :: entries => by
    rw [keptEntries]
    split
    · exact (keptEntries_sublist entries).cons key
    · exact (keptEntries_sublist entries).cons_cons key

/-! ## There -/

variable (toUtf16) in
/-- The two conversions of the text are inverse. -/
def Inverse (s : Bytes) : Prop :=
  utf16ConvertToUtf8Cstr (toUtf16 s) = s

theorem decodedText_of_short {s : Bytes} (hs : Inverse toUtf16 s) (h : 2 * (toUtf16 s).length < 2 ^ 30) :
    decodedText (covered (toUtf16 s)) = some s := by
  rw [covered_of_short h, decodedText, if_pos h]
  exact congrArg some hs

mutual

/-- **There**: what is written for such a value is the encoding of a document, which is decoded to
what is to come back. -/
theorem written_of_encodable : ∀ {v : RuntimeValue}, v.Texts (Inverse toUtf16) → v.Distinct →
    v.Encodable toUtf16 → ∃ d, written toUtf16 v = some d ∧ d.Sized ∧
      stored (stores toUtf16 e v) = d.encode e ∧ decoded d = some (kept v)
  | .undefined, _, _, _ | .null, _, _, _ => ⟨_, rfl, trivial, rfl, rfl⟩
  | .int num, _, _, _ => by
    refine ⟨_, rfl, trivial, ?_, rfl⟩
    show Tag.int :: (encode _ ++ []) = _
    rw [List.append_nil]
    rfl
  | .double bits, _, _, _ => ⟨_, rfl, trivial, rfl, rfl⟩
  | .bool flag, _, _, _ => ⟨_, rfl, trivial, by cases flag <;> rfl, rfl⟩
  | .string s, htexts, _, hs => by
    have hs : 2 * (toUtf16 s).length < 2 ^ 30 := hs
    refine ⟨_, rfl, ?_, ?_, ?_⟩
    · show 2 * (covered (toUtf16 s)).length < 2 ^ 32
      rw [covered_of_short hs]
      omega
    · show Tag.string :: stored (textStores e (toUtf16 s)) = _
      rw [stored_textStores hs, covered_of_short hs]
      rfl
    · rw [decoded, decodedText_of_short htexts hs]
      rfl
  | .array items, htexts, hdistinct, ⟨hlength, hitems⟩ => by
    have hcount : (BitVec.ofNat 32 items.length).toNat = items.length := by
      rw [BitVec.toNat_ofNat, Nat.mod_eq_of_lt hlength]
    obtain ⟨hsized, hstored, hdecoded⟩ := writtenItems_of_encodable htexts hdistinct hitems
    have hwritten : (writtenItems toUtf16 items.length items).length = items.length := by
      rw [← length_decodedItems hdecoded, length_keptItems]
    refine ⟨_, rfl, ?_, ?_, ?_⟩
    · rw [hcount]
      exact ⟨by rwa [hwritten], hsized⟩
    · show Tag.array :: (encode (BitVec.ofNat 32 items.length).toNat ++ stored (storesItems toUtf16 e _ items)) = _
      rw [hcount, hstored, Doc.encode, hwritten]
    · rw [decoded, hcount, hdecoded]
      rfl
  | .map entries, htexts, ⟨hnodup, hdistinct⟩, ⟨hlength, hentries⟩ => by
    obtain ⟨hsized, hstored, hdecoded⟩ := writtenEntries_of_encodable htexts hdistinct hentries
    have hwritten : (writtenEntries toUtf16 entries).length = _ := length_writtenEntries entries
    have hinsert : insertAll [] (keptEntries entries) = keptEntries entries :=
      insertAll_of_nodup (m := []) (hnodup.sublist (keptEntries_sublist entries))
    refine ⟨_, rfl, ⟨by rwa [hwritten], hsized⟩, ?_, ?_⟩
    · show Tag.map :: (encode (headerSize entries).toNat ++ stored (storesEntries toUtf16 e entries)) = _
      rw [hstored, toNat_headerSize hlength, Doc.encode, hwritten]
    · rw [decoded, hdecoded, Option.map_some, hinsert, kept]

theorem writtenItems_of_encodable : ∀ {items : List RuntimeValue}, TextsItems (Inverse toUtf16) items →
    DistinctItems items → EncodableItems toUtf16 items →
      Doc.SizedItems (writtenItems toUtf16 items.length items) ∧
        stored (storesItems toUtf16 e items.length items)
          = Doc.encodeItems e (writtenItems toUtf16 items.length items) ∧
        decodedItems (writtenItems toUtf16 items.length items) = some (keptItems items)
  | [], _, _, _ => ⟨trivial, rfl, rfl⟩
  | item :: items, htexts, hdistinct, h => by
    obtain ⟨d, hd, hsized, hstored, hdecoded⟩ :=
      written_of_encodable htexts.1 hdistinct.1 h.1
    obtain ⟨hsized', hstored', hdecoded'⟩ :=
      writtenItems_of_encodable htexts.2 hdistinct.2 h.2
    rw [List.length_cons, writtenItems_cons hd]
    refine ⟨⟨hsized, hsized'⟩, ?_, ?_⟩
    · rw [storesItems, stored_append, hstored, hstored']
      rfl
    · show (decoded d).bind _ = _
      rw [hdecoded, Option.bind_some, hdecoded']
      rfl

theorem writtenEntries_of_encodable : ∀ {entries : List (Bytes × RuntimeValue)},
    TextsEntries (Inverse toUtf16) entries → DistinctEntries entries → EncodableEntries toUtf16 entries →
      Doc.SizedEntries (writtenEntries toUtf16 entries) ∧
        stored (storesEntries toUtf16 e entries) = Doc.encodeEntries e (writtenEntries toUtf16 entries) ∧
        decodedEntries (writtenEntries toUtf16 entries) = some (keptEntries entries)
  | [], _, _, _ => ⟨trivial, rfl, rfl⟩
  | (key, value) :: entries, htexts, hdistinct, h => by
    obtain ⟨hsized', hstored', hdecoded'⟩ :=
      writtenEntries_of_encodable htexts.2.2 hdistinct.2 h.2
    rw [storesEntries, keptEntries]
    cases hdropped : value.isDropped with
    | true =>
      rw [writtenEntries, hdropped]
      exact ⟨hsized', hstored', hdecoded'⟩
    | false =>
      obtain ⟨hkey, hvalue⟩ := h.1 hdropped
      obtain ⟨d, hd, hsized, hstored, hdecoded⟩ :=
        written_of_encodable htexts.2.1 hdistinct.1 hvalue
      rw [writtenEntries_cons hdropped hd]
      refine ⟨⟨?_, hsized, hsized'⟩, ?_, ?_⟩
      · rw [covered_of_short hkey]
        omega
      · show stored (textStores e (toUtf16 key) ++ stores toUtf16 e value ++ storesEntries toUtf16 e entries) = _
        rw [stored_append, stored_append, stored_textStores hkey, hstored, hstored']
        show _ = encode (2 * (covered (toUtf16 key)).length) ++ units e (covered (toUtf16 key)) ++ d.encode e ++ _
        rw [covered_of_short hkey]
      · show (decodedText (covered (toUtf16 key))).bind _ = _
        rw [decodedText_of_short htexts.1 hkey, Option.bind_some, hdecoded, Option.bind_some, hdecoded']
        rfl

end

/-! ## And back -/

mutual

/-- **And back**: nothing else can come back. -/
theorem encodable_of_decoded : ∀ {v : RuntimeValue} {d : Doc}, v.Texts (Inverse toUtf16) →
    written toUtf16 v = some d → d.Sized → decoded d = some (kept v) → v.Encodable toUtf16
  | .undefined, _, _, _, _, _ | .null, _, _, _, _, _ | .int _, _, _, _, _, _
  | .double _, _, _, _, _, _ | .bool _, _, _, _, _, _ => trivial
  | .string s, _, htexts, hd, _, hdecoded => by
    obtain rfl := Option.some.inj hd
    obtain ⟨name, hname, hs⟩ := Option.map_eq_some_iff.mp hdecoded
    obtain rfl : name = s := RuntimeValue.string.inj hs
    unfold decodedText at hname
    split at hname
    · next hshort => exact short_of_covered hshort ((Option.some.inj hname).trans htexts.symm)
    · exact nomatch hname
  | .array items, _, htexts, hd, hsized, hdecoded => by
    obtain rfl := Option.some.inj hd
    obtain ⟨values, hvalues, hitems⟩ := Option.map_eq_some_iff.mp hdecoded
    obtain rfl : values = keptItems items := RuntimeValue.array.inj hitems
    obtain ⟨hle, hencodable⟩ := encodableItems_of_decoded htexts hsized.2 hvalues
    exact ⟨Nat.lt_of_le_of_lt hle (BitVec.isLt _), hencodable⟩
  | .map entries, _, htexts, hd, hsized, hdecoded => by
    obtain rfl := Option.some.inj hd
    obtain ⟨pairs, hpairs, hentries⟩ := Option.map_eq_some_iff.mp hdecoded
    have hinsert : insertAll [] pairs = keptEntries entries := RuntimeValue.map.inj hentries
    have hwritten : (writtenEntries toUtf16 entries).length = _ := length_writtenEntries entries
    have hlength : (insertAll [] pairs).length = pairs.length := by
      rw [hinsert, length_keptEntries, length_decodedEntries hpairs, hwritten]
    -- no entry has replaced another one
    have hsame : insertAll [] pairs = pairs :=
      insertAll_of_length (m := []) (hlength.trans (Nat.zero_add _).symm)
    rw [← hsame, hinsert] at hpairs
    exact ⟨by rw [← hwritten]; exact hsized.1, encodableEntries_of_decoded htexts hsized.2 hpairs⟩
  | .function, _, _, hd, _, _ | .object, _, _, hd, _, _ => nomatch hd

theorem encodableItems_of_decoded : ∀ {items : List RuntimeValue} {length : Nat},
    TextsItems (Inverse toUtf16) items → Doc.SizedItems (writtenItems toUtf16 length items) →
      decodedItems (writtenItems toUtf16 length items) = some (keptItems items) →
        items.length ≤ length ∧ EncodableItems toUtf16 items
  | [], length, _, _, _ => ⟨Nat.zero_le length, trivial⟩
  | item :: items, 0, _, _, hdecoded => by
    rw [writtenItems] at hdecoded
    exact nomatch hdecoded
  | item :: items, length + 1, htexts, hsized, hdecoded => by
    cases hitem : written toUtf16 item with
    | none =>
      have hle : (writtenItems toUtf16 length items).length ≤ _ := (length_writtenItems_le length items).2
      have hlength := length_decodedItems hdecoded
      rw [length_keptItems, writtenItems, hitem] at hlength
      have hlength : items.length + 1 = (writtenItems toUtf16 length items).length := hlength
      omega
    | some d =>
      rw [writtenItems_cons hitem] at hsized hdecoded
      obtain ⟨value, hvalue, hdecoded⟩ := Option.bind_eq_some_iff.mp hdecoded
      obtain ⟨values, hvalues, heq⟩ := Option.map_eq_some_iff.mp hdecoded
      obtain ⟨rfl, rfl⟩ := List.cons.inj heq
      obtain ⟨hle, hencodable⟩ := encodableItems_of_decoded htexts.2 hsized.2 hvalues
      exact ⟨Nat.succ_le_succ hle, encodable_of_decoded htexts.1 hitem hsized.1 hvalue, hencodable⟩

theorem encodableEntries_of_decoded : ∀ {entries : List (Bytes × RuntimeValue)},
    TextsEntries (Inverse toUtf16) entries → Doc.SizedEntries (writtenEntries toUtf16 entries) →
      decodedEntries (writtenEntries toUtf16 entries) = some (keptEntries entries) →
        EncodableEntries toUtf16 entries
  | [], _, _, _ => trivial
  | (key, value) :: entries, htexts, hsized, hdecoded => by
    cases hdropped : value.isDropped with
    | true =>
      rw [writtenEntries, hdropped] at hsized hdecoded
      rw [keptEntries, hdropped] at hdecoded
      exact ⟨fun h => absurd (hdropped.symm.trans h) (by decide),
        encodableEntries_of_decoded htexts.2.2 hsized hdecoded⟩
    | false =>
      obtain ⟨d, hd⟩ : ∃ d, written toUtf16 value = some d := exists_written hdropped
      rw [writtenEntries_cons hdropped hd] at hsized hdecoded
      rw [keptEntries, hdropped] at hdecoded
      obtain ⟨name, hname, hdecoded⟩ := Option.bind_eq_some_iff.mp hdecoded
      obtain ⟨kept, hkept, hdecoded⟩ := Option.bind_eq_some_iff.mp hdecoded
      obtain ⟨values, hvalues, heq⟩ := Option.map_eq_some_iff.mp hdecoded
      obtain ⟨hentry, rfl⟩ := List.cons.inj heq
      obtain ⟨rfl, rfl⟩ := Prod.mk.inj hentry
      refine ⟨fun _ => ⟨?_, encodable_of_decoded htexts.2.1 hd hsized.2.1 hkept⟩,
        encodableEntries_of_decoded htexts.2.2 hsized.2.2 hvalues⟩
      unfold decodedText at hname
      split at hname
      · next hshort => exact short_of_covered hshort ((Option.some.inj hname).trans htexts.1.symm)
      · exact nomatch hname

end

mutual

theorem height_written_le : ∀ {v : RuntimeValue} {d : Doc}, written toUtf16 v = some d → d.height ≤ v.height
  | .undefined, _, hd | .null, _, hd | .int _, _, hd | .double _, _, hd | .bool _, _, hd
  | .string _, _, hd => by
    obtain rfl := Option.some.inj hd
    exact Nat.le_refl 0
  | .array items, _, hd => by
    obtain rfl := Option.some.inj hd
    exact Nat.succ_le_succ (height_writtenItems_le _ items)
  | .map entries, _, hd => by
    obtain rfl := Option.some.inj hd
    exact Nat.succ_le_succ (height_writtenEntries_le entries)
  | .function, _, hd | .object, _, hd => nomatch hd

theorem height_writtenItems_le : ∀ (length : Nat) (items : List RuntimeValue),
    Doc.heightItems (writtenItems toUtf16 length items) ≤ heightItems items
  | 0, _ => by
    rw [writtenItems]
    exact Nat.zero_le _
  | _ + 1, [] => Nat.le_refl 0
  | length + 1, item :: items => by
    have ih := height_writtenItems_le length items
    rw [heightItems]
    cases hitem : written toUtf16 item with
    | none =>
      rw [writtenItems, hitem]
      exact ih.trans (Nat.le_max_right _ _)
    | some d =>
      rw [writtenItems_cons hitem, Doc.heightItems]
      exact max_le_max (height_written_le hitem) ih

theorem height_writtenEntries_le : ∀ entries : List (Bytes × RuntimeValue),
    Doc.heightEntries (writtenEntries toUtf16 entries) ≤ heightEntries entries
  | [] => Nat.le_refl 0
  | (key, value) :: entries => by
    have ih := height_writtenEntries_le entries
    rw [heightEntries]
    cases hdropped : value.isDropped with
    | true =>
      rw [writtenEntries, hdropped]
      exact ih.trans (Nat.le_max_right _ _)
    | false =>
      obtain ⟨d, hd⟩ : ∃ d, written toUtf16 value = some d := exists_written hdropped
      rw [writtenEntries_cons hdropped hd, Doc.heightEntries]
      exact max_le_max (height_written_le hd) ih

end

end RuntimeValue

/-! ## There and back -/

open Buffer RuntimeValue

variable (toUtf16 : Bytes → Utf16) (e : Endian)

/-- The encoder appends one well-formed value, made of exactly what it has written, and these bytes
are decoded to the value that is to come back. -/
def ReturnsKept (n : Nat) (v : RuntimeValue) (b : Buffer) : Prop :=
  ∃ d b', written toUtf16 v = some d ∧ d.Sized ∧ putValuesToWson toUtf16 e v b = .ok () b' ∧
    b'.written = b.written ++ d.encode e ∧
      returns (convertWsonToRuntimeValue e n) ⟨d.encode e, 0, (d.encode e).length⟩
        = some (kept v, ⟨d.encode e, (d.encode e).length, (d.encode e).length⟩)

variable {toUtf16 e}

/-- **The round trip**: a value comes back iff no function or object is its root or the element of
an array, and all sizes fit. -/
theorem returnsKept_iff {v : RuntimeValue} {b : Buffer} {n : Nat} (hv : b.Valid)
    (hb : b.length < 2 ^ 32) (htexts : v.Texts (Inverse toUtf16)) (hdistinct : v.Distinct)
    (hn : v.height < n) :
    ReturnsKept toUtf16 e n v b ↔
      v.Encodable toUtf16 ∧ fits .c (stores toUtf16 e v) b.length b.position := by
  have hb : b.length < 2 ^ Library.bits .c := hb
  -- a run of the stores leaves less than `2^32` bytes, so their positions do not wrap around
  have hanswers {d : Doc} {b' : Buffer} (hd : written toUtf16 v = some d) (hsized : d.Sized)
      (hv' : b'.Valid ∧ b'.length < 2 ^ Library.bits .c) (hwritten : b'.written = b.written ++ d.encode e) :
      Answers (d.encode e) (At (d.encode e) (d.encode e).length)
        (returns (convertWsonToRuntimeValue e n)) (d.encode e) (decoded d) := by
    have hlength := congrArg List.length hwritten
    rw [hv'.1.written_length, List.length_append] at hlength
    have hinside := hv'.1.inside
    have hlt : b'.length < 2 ^ 32 := hv'.2
    exact answers_convert (by omega) (Doc.encodes_encode e hsized) ((height_written_le hd).trans_lt hn)
  have hdrop (data : Bytes) : data.drop 0 = data ++ [] := (List.append_nil data).symm
  constructor
  · rintro ⟨d, b', hd, hsized, hrun, hwritten, hconvert⟩
    rw [putValuesToWson_eq] at hrun
    have hfits := fits_of_storeAll hv hb hrun
    obtain ⟨b'', hrun', hv', -⟩ := storeAll_of_fits hv hb hfits
    obtain rfl : b'' = b' := by
      have hsame := hrun'.symm.trans hrun
      cases hsame
      rfl
    have hdecoded := (hanswers hd hsized hv' hwritten).eq_map
      (s := ⟨d.encode e, 0, (d.encode e).length⟩) (p := 0) ⟨rfl, Nat.zero_le _⟩ (hdrop _)
    rw [hconvert] at hdecoded
    -- a text that is cut shows in the decoded value
    exact ⟨encodable_of_decoded htexts hd hsized hdecoded.symm, hfits⟩
  · rintro ⟨hencodable, hfits⟩
    obtain ⟨d, hd, hsized, hstored, hdecoded⟩ := written_of_encodable (e := e) htexts hdistinct hencodable
    obtain ⟨b', hrun, hv', hwritten⟩ := storeAll_of_fits hv hb hfits
    rw [hstored] at hwritten
    have hanswer := hanswers hd hsized hv' hwritten
    rw [hdecoded] at hanswer
    obtain ⟨_, hconvert, rfl, -⟩ := hanswer ⟨d.encode e, 0, (d.encode e).length⟩ 0 []
      ⟨rfl, Nat.zero_le _⟩ (hdrop _)
    rw [Nat.zero_add] at hconvert
    exact ⟨d, b', hd, hsized, by rw [putValuesToWson_eq]; exact hrun, hwritten, hconvert⟩

/-- ASCII text, unit by unit. -/
def asciiUnits (s : Bytes) : Utf16 :=
  s.map (BitVec.setWidth 16)

/-- The map `{"k": ["a", undefined], "f": function}`. -/
theorem returnsKept_sample_iff :
    ReturnsKept asciiUnits .little 3
        (.map [([0x6B], .array [.string [0x61], .undefined]), ([0x66], .function)])
        (Buffer.new (List.replicate 1024 0)) ↔
      Encodable asciiUnits
          (.map [([0x6B], .array [.string [0x61], .undefined]), ([0x66], .function)]) ∧
        fits .c (stores asciiUnits .little
            (.map [([0x6B], .array [.string [0x61], .undefined]), ([0x66], .function)]))
          (Buffer.new (List.replicate 1024 0)).length 0 :=
  returnsKept_iff (Buffer.valid_new _) (by rw [Buffer.new, List.length_replicate]; decide)
    ⟨rfl, ⟨rfl, trivial, trivial⟩, rfl, trivial, trivial⟩
    ⟨by decide, ⟨trivial, trivial, trivial⟩, trivial, trivial⟩ (by decide)

/-- The array of one function: the header `5B 01` stands alone. -/
theorem not_returnsKept_function :
    (∃ b', putValuesToWson asciiUnits .little (.array [.function])
        (Buffer.new (List.replicate 1024 0)) = .ok () b' ∧ b'.written = [0x5B, 0x01]) ∧
      ∀ n, ¬ ReturnsKept asciiUnits .little n (.array [.function])
        (Buffer.new (List.replicate 1024 0)) := by
  have hfits : fits .c (stores asciiUnits .little (.array [.function]))
      (Buffer.new (List.replicate 1024 0)).length 0 := by
    rw [Buffer.new, List.length_replicate]
    exact ⟨by decide, by decide, trivial⟩
  obtain ⟨b', hrun, -, hwritten⟩ := storeAll_of_fits (Buffer.valid_new (List.replicate 1024 0))
    (by rw [Buffer.new, List.length_replicate]; decide) hfits
  have hput : putValuesToWson asciiUnits .little (.array [.function]) (Buffer.new (List.replicate 1024 0))
      = .ok () b' := by
    rw [putValuesToWson_eq]
    exact hrun
  refine ⟨⟨b', hput, hwritten⟩, ?_⟩
  -- the document of what is written is the empty array
  rintro n ⟨d, b'', hd, -, hrun', hwritten', -⟩
  obtain rfl := Option.some.inj hd
  have hsame := hput.symm.trans hrun'
  cases hsame
  have hbytes : (Buffer.new (List.replicate 1024 0)).written ++ [0x5B, 0x01]
      = (Buffer.new (List.replicate 1024 0)).written ++ [0x5B, 0x00] := hwritten.symm.trans hwritten'
  exact absurd (List.append_cancel_left hbytes) (by decide)

end Wson.Runtime
