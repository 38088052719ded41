import Wson.Interop.Sense

/-!
# What native values say

The sense of the values of the runtime and of the objects of `WsonParser.m`. The runtime keeps
its texts in UTF-8, so it keeps only those whose units come back from UTF-8 (`WellFormed`).
-/

namespace Wson

open Wire Native

/-! ## The runtime -/

namespace Runtime

variable (toUtf16 : Bytes → Utf16)

/-- The units come back from UTF-8. -/
def WellFormed (s : Utf16) : Prop :=
  toUtf16 (utf16ConvertToUtf8Cstr s) = s

namespace RuntimeValue

mutual

def sense : RuntimeValue → Sense
  | .undefined | .null | .function | .object => .null
  | .int num => .ofInt num.toInt
  | .double bits => .ofDouble bits
  | .bool flag => .boolean flag
  | .string s => .text (toUtf16 s)
  | .array items => .list (senseItems items)
  | .map entries => .ofEntries (senseEntries entries)

def senseItems : List RuntimeValue → List Sense
  | [] => []
  | item :: items => sense item :: senseItems items

def senseEntries : List (Bytes × RuntimeValue) → List (Utf16 × Sense)
  | [] => []
  | (key, value) :: entries => (toUtf16 key, sense value) :: senseEntries entries

end

variable {toUtf16}

theorem keys_senseEntries (entries : List (Bytes × RuntimeValue)) :
    (senseEntries toUtf16 entries).map Prod.fst = (entries.map Prod.fst).map toUtf16 := by
  induction entries with
  | nil => rfl
  | cons entry entries ih =>
    obtain ⟨key, value⟩ := entry
    rw [senseEntries, List.map_cons, List.map_cons, List.map_cons, ih]

theorem sense_of_isDropped {value : RuntimeValue} (h : value.isDropped = true) : value.sense toUtf16 = .null := by
  cases value with
  | undefined | null | function | object => rfl
  | _ => cases h

/-- Texts that come back are told apart in UTF-16. -/
theorem inverse_inj {s s' : Bytes} (hs : Inverse toUtf16 s) (hs' : Inverse toUtf16 s')
    (h : toUtf16 s = toUtf16 s') : s = s' := by
  have hs : utf16ConvertToUtf8Cstr (toUtf16 s) = s := hs
  rw [← hs, h]
  exact hs'

theorem wellFormed_of_inverse {s : Bytes} (hs : Inverse toUtf16 s) : WellFormed toUtf16 (toUtf16 s) :=
  congrArg toUtf16 hs

theorem key_notMem {key : Bytes} {entries : List (Bytes × RuntimeValue)} (hkey : Inverse toUtf16 key)
    (htexts : TextsEntries (Inverse toUtf16) entries) (h : key ∉ entries.map Prod.fst) :
    toUtf16 key ∉ (senseEntries toUtf16 entries).map Prod.fst := by
  induction entries with
  | nil => exact List.not_mem_nil
  | cons entry entries ih =>
    obtain ⟨key', value⟩ := entry
    rw [List.map_cons, List.mem_cons, not_or] at h
    rw [senseEntries, List.map_cons, List.mem_cons, not_or]
    exact ⟨fun heq => h.1 (inverse_inj hkey htexts.1 heq), ih htexts.2.2 h.2⟩

/-- What is written of a value. -/
structure Written (P : Java.Platform) (toUtf16 : Bytes → Utf16) (v : RuntimeValue) (d : Doc) : Prop where
  written : RuntimeValue.written toUtf16 v = some d
  plain : d.Plain P
  distinct : Jsc.DistinctKeys d
  texts : d.Texts (WellFormed toUtf16)
  sense : d.sense = v.sense toUtf16

/-- What is written of the entries of a map. -/
structure WrittenEntries (P : Java.Platform) (toUtf16 : Bytes → Utf16) (entries : List (Bytes × RuntimeValue)) :
    Prop where
  keys : ((writtenEntries toUtf16 entries).map Prod.fst).Sublist ((senseEntries toUtf16 entries).map Prod.fst)
  plain : Doc.LeavesEntries (Doc.PlainLeaf P) (fun _ => True) (writtenEntries toUtf16 entries)
  distinct : Jsc.DistinctKeysEntries (writtenEntries toUtf16 entries)
  texts : Doc.LeavesEntries (Doc.TextLeaf (WellFormed toUtf16)) (WellFormed toUtf16)
    (writtenEntries toUtf16 entries)
  sense (key : Utf16) : Sense.valueAt key (Doc.senseEntries (writtenEntries toUtf16 entries)) =
    Sense.valueAt key (senseEntries toUtf16 entries)

theorem nodup_keys {entries : List (Bytes × RuntimeValue)} (htexts : TextsEntries (Inverse toUtf16) entries)
    (h : (entries.map Prod.fst).Nodup) : ((senseEntries toUtf16 entries).map Prod.fst).Nodup := by
  induction entries with
  | nil => exact List.nodup_nil
  | cons entry entries ih =>
    obtain ⟨key, value⟩ := entry
    rw [List.map_cons, List.nodup_cons] at h
    rw [senseEntries, List.map_cons, List.nodup_cons]
    exact ⟨key_notMem htexts.1 htexts.2.2 h.1, ih htexts.2.2 h.2⟩

mutual

/-- **The encoder** writes what a value says. -/
theorem sense_written (P : Java.Platform) : ∀ {v : RuntimeValue}, v.Texts (Inverse toUtf16) → v.Distinct →
    v.Encodable toUtf16 → ∃ d, Written P toUtf16 v d
  | .undefined, _, _, _ | .null, _, _, _ | .int _, _, _, _ | .double _, _, _, _ | .bool _, _, _, _ =>
    ⟨_, rfl, trivial, trivial, trivial, rfl⟩
  | .string s, htexts, _, h => by
    have hcovered : covered (toUtf16 s) = toUtf16 s := covered_of_short h
    refine ⟨_, congrArg (fun s => some (Doc.text .string s)) hcovered, trivial, trivial, ?_, rfl⟩
    exact wellFormed_of_inverse htexts
  | .array items, htexts, hdistinct, h => by
    obtain ⟨hplain, hkeys, hvalid, hsense⟩ := senseItems_written P htexts hdistinct h.2
    have hlength : (BitVec.ofNat 32 items.length).toNat = items.length := by
      rw [BitVec.toNat_ofNat, Nat.mod_eq_of_lt h.1]
    refine ⟨.array (writtenItems toUtf16 items.length items), ?_, hplain, hkeys, hvalid,
      congrArg Sense.list hsense⟩
    rw [written, hlength]
  | .map entries, htexts, hdistinct, h => by
    have hentries := senseEntries_written P htexts hdistinct.1 hdistinct.2 h.2
    refine ⟨_, rfl, hentries.plain, ⟨?_, hentries.distinct⟩, hentries.texts, ?_⟩
    · exact (nodup_keys htexts hdistinct.1).sublist hentries.keys
    · exact congrArg Sense.map (funext hentries.sense)
  | .function, _, _, h | .object, _, _, h => h.elim

theorem senseItems_written (P : Java.Platform) : ∀ {items : List RuntimeValue},
    TextsItems (Inverse toUtf16) items → DistinctItems items → EncodableItems toUtf16 items →
      Doc.LeavesItems (Doc.PlainLeaf P) (fun _ => True) (writtenItems toUtf16 items.length items) ∧
        Jsc.DistinctKeysItems (writtenItems toUtf16 items.length items) ∧
          Doc.LeavesItems (Doc.TextLeaf (WellFormed toUtf16)) (WellFormed toUtf16)
              (writtenItems toUtf16 items.length items) ∧
            Doc.senseItems (writtenItems toUtf16 items.length items) = senseItems toUtf16 items
  | [], _, _, _ => ⟨trivial, trivial, trivial, rfl⟩
  | item :: items, htexts, hdistinct, h => by
    obtain ⟨d, hd⟩ := sense_written P htexts.1 hdistinct.1 h.1
    obtain ⟨hplain, hkeys, hvalid, hsense⟩ := senseItems_written P htexts.2 hdistinct.2 h.2
    rw [List.length_cons, writtenItems_cons hd.written]
    refine ⟨⟨hd.plain, hplain⟩, ⟨hd.distinct, hkeys⟩, ⟨hd.texts, hvalid⟩, ?_⟩
    rw [Doc.senseItems, senseItems, hd.sense, hsense]

/-- An entry that is left out says nothing, and no other one has its key. -/
theorem senseEntries_written (P : Java.Platform) : ∀ {entries : List (Bytes × RuntimeValue)},
    TextsEntries (Inverse toUtf16) entries → (entries.map Prod.fst).Nodup → DistinctEntries entries →
      EncodableEntries toUtf16 entries → WrittenEntries P toUtf16 entries
  | [], _, _, _, _ => ⟨.refl _, trivial, trivial, trivial, fun _ => rfl⟩
  | (key, value) :: entries, htexts, hkeys, hdistinct, h => by
    rw [List.map_cons, List.nodup_cons] at hkeys
    have hrest := senseEntries_written P htexts.2.2 hkeys.2 hdistinct.2 h.2
    have hnew := key_notMem htexts.1 htexts.2.2 hkeys.1
    cases hdropped : value.isDropped with
    | true =>
      have hwritten : writtenEntries toUtf16 ((key, value) :: entries) = writtenEntries toUtf16 entries := by
        rw [writtenEntries, hdropped]
        rfl
      refine ⟨?_, ?_, ?_, ?_, fun k => ?_⟩
      all_goals rw [hwritten]
      · exact hrest.keys.cons _
      · exact hrest.plain
      · exact hrest.distinct
      · exact hrest.texts
      · rw [hrest.sense, senseEntries, Sense.valueAt, sense_of_isDropped hdropped]
        by_cases hk : toUtf16 key = k
        · rw [if_pos hk, Sense.valueAt_of_notMem (hk ▸ hnew)]
        · rw [if_neg hk]
    | false =>
      obtain ⟨hshort, hencodable⟩ := h.1 hdropped
      obtain ⟨d, hd⟩ := sense_written P htexts.2.1 hdistinct.1 hencodable
      have hwritten := writtenEntries_cons hdropped hd.written key entries
      rw [covered_of_short hshort] at hwritten
      refine ⟨?_, ?_, ?_, ?_, fun k => ?_⟩
      all_goals rw [hwritten]
      · exact hrest.keys.cons_cons _
      · exact ⟨trivial, hd.plain, hrest.plain⟩
      · exact ⟨hd.distinct, hrest.distinct⟩
      · exact ⟨wellFormed_of_inverse htexts.1, hd.texts, hrest.texts⟩
      · rw [Doc.senseEntries, senseEntries, Sense.valueAt, Sense.valueAt, hd.sense, hrest.sense]

end

end RuntimeValue

open RuntimeValue

variable {toUtf16}

theorem decodedText_of_within {s : Utf16} (h : 2 * s.length < 2 ^ 30) :
    decodedText s = some (utf16ConvertToUtf8Cstr s) :=
  if_pos h

mutual

/-- **The decoder** builds what a document says, where its texts come back from UTF-8. -/
theorem sense_decoded (P : Java.Platform) : ∀ {d : Doc}, d.Plain P → Jsc.DistinctKeys d →
    d.Texts (WellFormed toUtf16) → d.Within (2 ^ 30) →
      ∃ v, decoded d = some v ∧ v.sense toUtf16 = d.sense
  | .null, _, _, _, _ | .boolean _, _, _, _, _ | .int _, _, _, _, _ | .long _, _, _, _, _ | .float _, _, _, _, _
  | .double _, _, _, _, _ => ⟨_, rfl, rfl⟩
  | .text _ s, _, _, htexts, h => by
    refine ⟨.string (utf16ConvertToUtf8Cstr s), ?_, congrArg Sense.text htexts⟩
    exact congrArg (Option.map RuntimeValue.string) (decodedText_of_within h)
  | .uint8String _, hplain, _, _, _ => hplain.elim
  | .array ds, hplain, hdistinct, htexts, h => by
    obtain ⟨items, hitems, hsense⟩ := senseItems_decoded P hplain hdistinct htexts h.2
    exact ⟨.array items, congrArg (Option.map RuntimeValue.array) hitems, congrArg Sense.list hsense⟩
  | .map es, hplain, hdistinct, htexts, h => by
    obtain ⟨entries, hentries, hsense⟩ := senseEntries_decoded P hplain hdistinct.2 htexts h.2
    -- the keys are told apart in UTF-8, too
    have hkeys : (entries.map Prod.fst).Nodup := by
      refine List.Nodup.of_map toUtf16 ?_
      rw [← keys_senseEntries, hsense, Doc.keys_senseEntries]
      exact hdistinct.1
    refine ⟨.map entries, ?_, congrArg Sense.ofEntries hsense⟩
    rw [decoded, hentries, Option.map_some, insertAll_of_nodup (m := []) hkeys]
    rfl

theorem senseItems_decoded (P : Java.Platform) : ∀ {ds : List Doc},
    Doc.LeavesItems (Doc.PlainLeaf P) (fun _ => True) ds → Jsc.DistinctKeysItems ds →
      Doc.LeavesItems (Doc.TextLeaf (WellFormed toUtf16)) (WellFormed toUtf16) ds →
        Doc.WithinItems (2 ^ 30) ds →
          ∃ items, decodedItems ds = some items ∧ senseItems toUtf16 items = Doc.senseItems ds
  | [], _, _, _, _ => ⟨[], rfl, rfl⟩
  | d :: ds, hplain, hdistinct, htexts, h => by
    obtain ⟨v, hv, hsense⟩ := sense_decoded P hplain.1 hdistinct.1 htexts.1 h.1
    obtain ⟨items, hitems, hsenses⟩ := senseItems_decoded P hplain.2 hdistinct.2 htexts.2 h.2
    refine ⟨v :: items, ?_, ?_⟩
    · rw [decodedItems, hv, hitems]
      rfl
    · rw [senseItems, Doc.senseItems, hsense, hsenses]

theorem senseEntries_decoded (P : Java.Platform) : ∀ {es : List (Utf16 × Doc)},
    Doc.LeavesEntries (Doc.PlainLeaf P) (fun _ => True) es → Jsc.DistinctKeysEntries es →
      Doc.LeavesEntries (Doc.TextLeaf (WellFormed toUtf16)) (WellFormed toUtf16) es →
        Doc.WithinEntries (2 ^ 30) es →
          ∃ entries, decodedEntries es = some entries ∧ senseEntries toUtf16 entries = Doc.senseEntries es
  | [], _, _, _, _ => ⟨[], rfl, rfl⟩
  | (k, d) :: es, hplain, hdistinct, htexts, h => by
    have hkey : toUtf16 (utf16ConvertToUtf8Cstr k) = k := htexts.1
    obtain ⟨v, hv, hsense⟩ := sense_decoded P hplain.2.1 hdistinct.1 htexts.2.1 h.2.1
    obtain ⟨entries, hentries, hsenses⟩ := senseEntries_decoded P hplain.2.2 hdistinct.2 htexts.2.2 h.2.2
    refine ⟨(utf16ConvertToUtf8Cstr k, v) :: entries, ?_, ?_⟩
    · rw [decodedEntries, decodedText_of_within h.1, hv, hentries]
      rfl
    · rw [senseEntries, Doc.senseEntries, hkey, hsense, hsenses]

end

end Runtime

/-! ## `WsonParser.m` -/

namespace Ios

namespace Parsed

mutual

def sense : Parsed → Sense
  | .string s => .text s
  | .array items => .list (senseItems items)
  | .dictionary entries => .ofEntries (senseEntries entries)
  | .int num => .ofInt num.toInt
  | .bool b => .boolean b
  | .double bits => .ofDouble bits
  | .float bits => .ofFloat bits
  | .longLong num => .ofInt num.toInt
  | .null => .null

def senseItems : List Parsed → List Sense
  | [] => []
  | item :: items => sense item :: senseItems items

def senseEntries : List (Utf16 × Parsed) → List (Utf16 × Sense)
  | [] => []
  | (key, value) :: entries => (key, sense value) :: senseEntries entries

end

theorem senseEntries_append (entries entries' : List (Utf16 × Parsed)) :
    senseEntries (entries ++ entries') = senseEntries entries ++ senseEntries entries' := by
  induction entries with
  | nil => rfl
  | cons entry entries ih => rw [List.cons_append, senseEntries, senseEntries, ih, List.cons_append]

end Parsed

theorem setObject_of_new {key : Utf16} {value : Parsed} {entries : List (Utf16 × Parsed)}
    (h : key ∉ entries.map Prod.fst) : setObject key value entries = entries ++ [(key, value)] := by
  induction entries with
  | nil => rfl
  | cons entry entries ih =>
    rw [List.map_cons, List.mem_cons, not_or] at h
    rw [setObject, if_neg (Ne.symm h.1), ih h.2]
    rfl

open Parsed

mutual

/-- **The decoder** builds what a document says. -/
theorem sense_parsed : ∀ {d : Doc}, Known d → Jsc.DistinctKeys d → (parsed d).sense = d.sense
  | .null, _, _ | .boolean _, _, _ | .int _, _, _ | .long _, _, _ | .float _, _, _ | .double _, _, _
  | .text _ _, _, _ => rfl
  | .uint8String _, h, _ => absurd rfl h
  | .array _, h, hdistinct => congrArg Sense.list (senseItems_parsed h hdistinct)
  | .map _, h, hdistinct => congrArg Sense.ofEntries (senseEntries_parsed [] hdistinct.1 h hdistinct.2)

theorem senseItems_parsed : ∀ {ds : List Doc},
    Doc.LeavesItems (fun u => u.kind ≠ .uint8String) (fun _ => True) ds → Jsc.DistinctKeysItems ds →
      senseItems (parsedItems ds) = Doc.senseItems ds
  | [], _, _ => rfl
  | _ :: _, h, hdistinct => by
    rw [parsedItems, senseItems, Doc.senseItems, sense_parsed h.1 hdistinct.1, senseItems_parsed h.2 hdistinct.2]

theorem senseEntries_parsed : ∀ {es : List (Utf16 × Doc)} (dic : List (Utf16 × Parsed)),
    (dic.map Prod.fst ++ es.map Prod.fst).Nodup →
      Doc.LeavesEntries (fun u => u.kind ≠ .uint8String) (fun _ => True) es → Jsc.DistinctKeysEntries es →
        senseEntries (parsedEntries es dic) = senseEntries dic ++ Doc.senseEntries es
  | [], dic, _, _, _ => by rw [parsedEntries, Doc.senseEntries, List.append_nil]
  | (k, d) :: es, dic, hkeys, h, hdistinct => by
    rw [List.map_cons] at hkeys
    have hk : k ∉ dic.map Prod.fst := fun hmem =>
      (List.nodup_cons.mp (List.nodup_middle.mp hkeys)).1 (List.mem_append_left _ hmem)
    rw [parsedEntries, setObject_of_new hk,
      senseEntries_parsed (dic ++ [(k, parsed d)]) (by simpa using hkeys) h.2.2 hdistinct.2,
      senseEntries_append, senseEntries, sense_parsed h.2.1 hdistinct.1, List.append_assoc]
    rfl

end

section Object

variable {F : Type} (T : Target F)

/-- The switch over the type of a number decides how it is understood. -/
def NSNumber.sense (number : NSNumber) : Sense :=
  match number.numberCase with
  | .double => .ofDouble number.doubleValue
  | .float => .ofFloat number.floatValue
  | .int => .ofInt number.intValue.toInt
  | .long => .ofInt number.longLongValue.toInt
  | .boolean => .boolean number.boolValue

/-- A boxed struct is the map of its fields. -/
def NSValue.sense (value : NSValue F) : Sense :=
  match value.struct with
  | some s => .ofEntries ((value.fields T s).map fun field => (field.1, .ofFloat field.2))
  | none => .null

namespace Object

mutual

def sense : Object F → Sense
  | .string s => .text s
  | .number num => num.sense
  | .dictionary entries => .ofEntries (senseEntries entries)
  | .array items => .list (senseItems items)
  | .date interval => .ofInt (T.milliseconds interval).toInt
  | .value boxed => boxed.sense T
  | .null | .other none => .null
  | .other (some description) => .text description

def senseItems : List (Object F) → List Sense
  | [] => []
  | ele :: items => sense ele :: senseItems items

def senseEntries : List (Option Utf16 × Object F) → List (Utf16 × Sense)
  | [] => []
  | (key, val) :: entries => (key.getD [], sense val) :: senseEntries entries

end

end Object

variable {T}

theorem senseEntries_fieldsDoc (fields : List (Utf16 × BitVec 32)) :
    Doc.senseEntries (fieldsDoc fields) = fields.map fun field => (field.1, Sense.ofFloat field.2) := by
  induction fields with
  | nil => rfl
  | cons field fields ih =>
    obtain ⟨key, num⟩ := field
    rw [fieldsDoc, Doc.senseEntries, List.map_cons, ih]
    rfl

theorem plain_fieldsDoc (P : Java.Platform) (fields : List (Utf16 × BitVec 32)) :
    Doc.LeavesEntries (Doc.PlainLeaf P) (fun _ => True) (fieldsDoc fields) := by
  induction fields with
  | nil => trivial
  | cons field fields ih => exact ⟨trivial, trivial, ih⟩

mutual

/-- **The encoder** writes what an object says. -/
theorem sense_doc : ∀ val : Object F, (doc T val).sense = val.sense T
  | .string _ | .date _ | .null | .other none | .other (some _) => rfl
  | .number number => by
    rw [doc, NSNumber.doc, Object.sense, NSNumber.sense]
    cases number.numberCase <;> rfl
  | .dictionary entries => congrArg Sense.ofEntries (senseEntries_doc entries)
  | .array items => congrArg Sense.list (senseItems_doc items)
  | .value value => by
    rw [doc, NSValue.doc, Object.sense, NSValue.sense]
    cases value.struct with
    | none => rfl
    | some s => exact congrArg Sense.ofEntries (senseEntries_fieldsDoc _)

theorem senseItems_doc : ∀ items : List (Object F),
    Doc.senseItems (docItems T items) = Object.senseItems T items
  | [] => rfl
  | ele :: items => by rw [docItems, Doc.senseItems, Object.senseItems, sense_doc ele, senseItems_doc items]

theorem senseEntries_doc : ∀ entries : List (Option Utf16 × Object F),
    Doc.senseEntries (docEntries T entries) = Object.senseEntries T entries
  | [] => rfl
  | (_, val) :: entries => by
    rw [docEntries, Doc.senseEntries, Object.senseEntries, sense_doc val, senseEntries_doc entries]

end

mutual

/-- No object is written as a big number. -/
theorem plain_doc (P : Java.Platform) : ∀ val : Object F, (doc T val).Plain P
  | .string _ | .date _ | .null | .other none | .other (some _) => trivial
  | .number number => by
    rw [doc, NSNumber.doc]
    cases number.numberCase <;> exact trivial
  | .dictionary entries => plainEntries_doc P entries
  | .array items => plainItems_doc P items
  | .value value => by
    rw [doc, NSValue.doc]
    cases value.struct with
    | none => exact trivial
    | some s => exact plain_fieldsDoc P _

theorem plainItems_doc (P : Java.Platform) : ∀ items : List (Object F),
    Doc.LeavesItems (Doc.PlainLeaf P) (fun _ => True) (docItems T items)
  | [] => trivial
  | ele :: items => ⟨plain_doc P ele, plainItems_doc P items⟩

theorem plainEntries_doc (P : Java.Platform) : ∀ entries : List (Option Utf16 × Object F),
    Doc.LeavesEntries (Doc.PlainLeaf P) (fun _ => True) (docEntries T entries)
  | [] => trivial
  | (_, val) :: entries => ⟨trivial, plain_doc P val, plainEntries_doc P entries⟩

end

end Object

end Ios

end Wson
