import Wson.Ios.Reading
import Wson.Float.Binary64

/-!
# One value per object

Each branch of the encoder is to append one value. The branch of a `CGVector` does not
return: behind its map it reaches the null at the end of the method, so every boxed vector
appends a second value (`length_stored`). Without a vector the bytes are the encoding of the
document of the object, and `toObj:` consumes exactly them, as long as the buffer can grow
(`appendsOne_iff`).
-/

namespace Wson.Ios

open Effect Wire Native Native.Buffer

section Encoder

variable {F : Type} (T : Target F) (e : Endian)

/-! ## The stores of the encoder -/

def charactersStore (s : Utf16) : Store where
  width := 64
  request := 2 * s.length
  bytes := units e s

def charactersStores (s : Utf16) : List Store :=
  [Call.uintStore (BitVec.ofNat 32 (2 * s.length)), charactersStore e s]

def stringStores (s : Utf16) : List Store :=
  Call.typeStore Tag.string :: charactersStores e s

def descriptionStores : Option Utf16 → List Store
  | none => Call.typeNull.stores .c
  | some s => stringStores e s

/-- The writer that is called for a number. -/
def NSNumber.call (number : NSNumber) : Call :=
  match number.numberCase with
  | .double => .doubleWithTag number.doubleValue
  | .float => .floatWithTag number.floatValue
  | .int => .varIntWithTag number.intValue
  | .long => .fixedInt64WithTag number.longLongValue
  | .boolean => .booleanWithTag (if number.boolValue then 1 else 0)

def fieldsStores : List (Utf16 × BitVec 32) → List Store
  | [] => []
  | (key, num) :: fields =>
    charactersStores e key ++ (Call.floatWithTag num).stores .c ++ fieldsStores fields

def structStores (value : NSValue F) (s : Struct) : List Store :=
  (Call.typeMap s.size).stores .c ++ fieldsStores e (value.fields T s)

/-- The struct that a boxed value is taken for. -/
def NSValue.struct (value : NSValue F) : Option Struct :=
  if value.objCType.head? = some '{' then Struct.ofType value.objCType.tail else none

def valueStores (value : NSValue F) : List Store :=
  match value.struct with
  | some .CGVector => structStores T e value .CGVector ++ Call.typeNull.stores .c
  | some s => structStores T e value s
  | none => Call.typeNull.stores .c

mutual

def stores : Object F → List Store
  | .string s => stringStores e s
  | .number number => number.call.stores .c
  | .dictionary entries =>
    (Call.typeMap (BitVec.ofNat 32 entries.length)).stores .c ++ storesEntries entries
  | .array items => (Call.typeArray (BitVec.ofNat 32 items.length)).stores .c ++ storesItems items
  | .date interval => (Call.fixedInt64WithTag (T.milliseconds interval)).stores .c
  | .value value => valueStores T e value
  | .null => Call.typeNull.stores .c
  | .other description => descriptionStores e description

def storesItems : List (Object F) → List Store
  | [] => []
  | ele :: items => stores ele ++ storesItems items

def storesEntries : List (Option Utf16 × Object F) → List Store
  | [] => []
  | (key, val) :: entries => charactersStores e (key.getD []) ++ stores val ++ storesEntries entries

end

variable {T e}

theorem pushCharacters_eq (s : Utf16) : pushCharacters e s = storeAll .c (charactersStores e s) := by
  have hunits : store .c (charactersStore e s)
      = (do ensureSize .c 64 (2 * s.length); put .c (units e s)) := Call.store_eq .c rfl
  rw [charactersStores, storeAll, storeAll, storeAll, bind_pure_unit, hunits, ← Call.writeVarUint_eq]
  rfl

theorem pushString_eq (s : Utf16) : pushString e s = storeAll .c (stringStores e s) := by
  have htype : store .c (Call.typeStore Tag.string) = writeType .c Tag.string := Call.store_eq .c rfl
  rw [pushString, stringStores, storeAll, pushCharacters_eq, htype]

theorem pushDescription_eq (description : Option Utf16) :
    pushDescription e description = storeAll .c (descriptionStores e description) := by
  cases description with
  | none => exact Call.run_eq_storeAll .c .typeNull
  | some s => exact pushString_eq s

theorem pushNumber_eq (number : NSNumber) :
    pushNumber number = storeAll .c (number.call.stores .c) := by
  rw [← Call.run_eq_storeAll, pushNumber, NSNumber.call]
  cases number.numberCase <;> rfl

theorem pushFields_eq (fields : List (Utf16 × BitVec 32)) :
    pushFields e fields = storeAll .c (fieldsStores e fields) := by
  induction fields with
  | nil => rfl
  | cons field fields ih =>
    obtain ⟨key, num⟩ := field
    have hkey : pushKeyString e (some key) = _ := pushCharacters_eq key
    have hfloat : writeFloatWithTag .c num = _ := Call.run_eq_storeAll .c (.floatWithTag num)
    rw [pushFields, fieldsStores, storeAll_append, storeAll_append, hkey, hfloat, ih, bind_assoc]

theorem pushStruct_eq (value : NSValue F) (s : Struct) :
    pushStruct T e value s = storeAll .c (structStores T e value s) := by
  have hmap : writeTypeMap .c s.size = _ := Call.run_eq_storeAll .c (.typeMap s.size)
  rw [pushStruct, structStores, storeAll_append, hmap, pushFields_eq]

theorem pushValue_eq (value : NSValue F) :
    pushValue T e value = storeAll .c (valueStores T e value) := by
  have hnull : writeTypeNull .c = storeAll .c (Call.typeNull.stores .c) :=
    Call.run_eq_storeAll .c .typeNull
  unfold pushValue valueStores NSValue.struct
  by_cases hstruct : value.objCType.head? = some '{'
  · rw [if_pos hstruct, if_pos hstruct]
    cases Struct.ofType value.objCType.tail with
    | none => exact bind_pure_unit.trans hnull
    | some s =>
      cases s with
      | CGVector =>
        -- the null at the end
        show (do pushStruct T e value .CGVector; writeTypeNull .c) = _
        rw [pushStruct_eq, hnull, ← storeAll_append]
      | _ => exact bind_pure_unit.trans (pushStruct_eq value _)
  · rw [if_neg hstruct, if_neg hstruct]
    exact hnull

mutual

/-- **The encoder** makes these stores. -/
theorem pushObject_eq : ∀ val : Object F, pushObject T e val = storeAll .c (stores T e val)
  | .string s => by
    rw [pushObject, stores]
    exact pushString_eq s
  | .number number => by
    rw [pushObject, stores]
    exact pushNumber_eq number
  | .dictionary entries => by
    rw [pushObject, stores, storeAll_append, ← pushEntries_eq entries, ← Call.run_eq_storeAll]
    rfl
  | .array items => by
    rw [pushObject, stores, storeAll_append, ← pushItems_eq items, ← Call.run_eq_storeAll]
    rfl
  | .date interval => by
    rw [pushObject, stores, ← Call.run_eq_storeAll]
    rfl
  | .value value => by
    rw [pushObject, stores]
    exact pushValue_eq value
  | .null => by
    rw [pushObject, stores, ← Call.run_eq_storeAll]
    rfl
  | .other description => by
    rw [pushObject, stores]
    exact pushDescription_eq description

theorem pushItems_eq : ∀ items : List (Object F),
    pushItems T e items = storeAll .c (storesItems T e items)
  | [] => by
    rw [pushItems, storesItems, storeAll]
  | ele :: items => by
    rw [pushItems, storesItems, storeAll_append, ← pushObject_eq ele, ← pushItems_eq items]

theorem pushEntries_eq : ∀ entries : List (Option Utf16 × Object F),
    pushEntries T e entries = storeAll .c (storesEntries T e entries)
  | [] => by
    rw [pushEntries, storesEntries, storeAll]
  | (key, val) :: entries => by
    rw [pushEntries, storesEntries, storeAll_append, storeAll_append, ← pushObject_eq val,
      ← pushEntries_eq entries, ← pushCharacters_eq, bind_assoc]
    rfl

end

end Encoder

/-! ## The document of an object -/

section Doc

variable {F : Type} (T : Target F)

def NSNumber.doc (number : NSNumber) : Doc :=
  match number.numberCase with
  | .double => .double number.doubleValue
  | .float => .float number.floatValue
  | .int => .int number.intValue
  | .long => .long number.longLongValue
  | .boolean => .boolean number.boolValue

def fieldsDoc : List (Utf16 × BitVec 32) → List (Utf16 × Doc)
  | [] => []
  | (key, num) :: fields => (key, .float num) :: fieldsDoc fields

def NSValue.doc (value : NSValue F) : Doc :=
  match value.struct with
  | some s => .map (fieldsDoc (value.fields T s))
  | none => .null

def descriptionDoc : Option Utf16 → Doc
  | none => .null
  | some s => .text .string s

mutual

/-- The value that stands for the object. -/
def doc : Object F → Doc
  | .string s => .text .string s
  | .number number => number.doc
  | .dictionary entries => .map (docEntries entries)
  | .array items => .array (docItems items)
  | .date interval => .long (T.milliseconds interval)
  | .value value => value.doc T
  | .null => .null
  | .other description => descriptionDoc description

def docItems : List (Object F) → List Doc
  | [] => []
  | ele :: items => doc ele :: docItems items

def docEntries : List (Option Utf16 × Object F) → List (Utf16 × Doc)
  | [] => []
  | (key, val) :: entries => (key.getD [], doc val) :: docEntries entries

end

mutual

/-- How many boxed values in the object are taken for a `CGVector`. -/
def vectors : Object F → Nat
  | .dictionary entries => vectorsEntries entries
  | .array items => vectorsItems items
  | .value value => if value.struct = some .CGVector then 1 else 0
  | _ => 0

def vectorsItems : List (Object F) → Nat
  | [] => 0
  | ele :: items => vectors ele + vectorsItems items

def vectorsEntries : List (Option Utf16 × Object F) → Nat
  | [] => 0
  | (_, val) :: entries => vectors val + vectorsEntries entries

end

variable {T}

theorem docItems_length (items : List (Object F)) : (docItems T items).length = items.length := by
  induction items with
  | nil => rfl
  | cons ele items ih => rw [docItems, List.length_cons, ih, List.length_cons]

theorem docEntries_length (entries : List (Option Utf16 × Object F)) :
    (docEntries T entries).length = entries.length := by
  induction entries with
  | nil => rfl
  | cons entry entries ih => rw [docEntries, List.length_cons, ih, List.length_cons]

theorem fieldsDoc_length (fields : List (Utf16 × BitVec 32)) :
    (fieldsDoc fields).length = fields.length := by
  induction fields with
  | nil => rfl
  | cons field fields ih => rw [fieldsDoc, List.length_cons, ih, List.length_cons]

/-- The header of a struct counts its fields. -/
theorem length_fields (value : NSValue F) (s : Struct) :
    (value.fields T s).length = s.size.toNat := by
  cases s <;> rfl

end Doc

/-! ## What is stored -/

/-- `bs'` is `bs` with `n` bytes more in between. -/
structure Excess (n : Nat) (bs bs' : Bytes) : Prop where
  sublist : bs.Sublist bs'
  length_eq : bs'.length = bs.length + n

namespace Excess

theorem refl (bs : Bytes) : Excess 0 bs bs :=
  ⟨.refl bs, rfl⟩

theorem of_eq {bs bs' : Bytes} (h : bs' = bs) : Excess 0 bs bs' := by
  rw [h]
  exact refl bs

theorem append {n m : Nat} {bs bs' cs cs' : Bytes} (h : Excess n bs bs') (h' : Excess m cs cs') :
    Excess (n + m) (bs ++ cs) (bs' ++ cs') := by
  refine ⟨h.sublist.append h'.sublist, ?_⟩
  rw [List.length_append, List.length_append, h.length_eq, h'.length_eq]
  omega

theorem cons {n : Nat} {bs bs' : Bytes} (b : Byte) (h : Excess n bs bs') :
    Excess n (b :: bs) (b :: bs') := by
  refine ⟨h.sublist.cons_cons b, ?_⟩
  rw [List.length_cons, List.length_cons, h.length_eq]
  omega

theorem eq {bs bs' : Bytes} (h : Excess 0 bs bs') : bs' = bs :=
  (h.sublist.eq_of_length h.length_eq.symm).symm

end Excess

section Stored

variable {F : Type} {T : Target F} {e : Endian}

theorem stored_charactersStores {s : Utf16} (h : (stored (charactersStores e s)).length < 2 ^ 32) :
    stored (charactersStores e s) = encode (2 * s.length) ++ units e s := by
  have hlength : 2 * s.length < 2 ^ 32 := by
    rw [charactersStores, stored_cons, stored_cons, List.length_append, List.length_append] at h
    have hunits : (charactersStore e s).bytes.length = 2 * s.length := units_length e s
    omega
  show encode (BitVec.ofNat 32 (2 * s.length)).toNat ++ (units e s ++ []) = _
  rw [BitVec.toNat_ofNat, Nat.mod_eq_of_lt hlength, List.append_nil]

theorem stored_stringStores {s : Utf16} (h : (stored (stringStores e s)).length < 2 ^ 32) :
    stored (stringStores e s) = (Doc.text .string s).encode e := by
  rw [stringStores, stored_cons, List.length_append] at h
  rw [stringStores, stored_cons, stored_charactersStores (by omega)]
  rfl

theorem stored_descriptionStores {description : Option Utf16}
    (h : (stored (descriptionStores e description)).length < 2 ^ 32) :
    stored (descriptionStores e description) = (descriptionDoc description).encode e := by
  cases description with
  | none => rfl
  | some s => exact stored_stringStores h

theorem stored_number (number : NSNumber) :
    stored (number.call.stores .c) = number.doc.encode e := by
  unfold NSNumber.call NSNumber.doc
  cases number.numberCase with
  | boolean => cases number.boolValue <;> rfl
  | int =>
    show Tag.int :: (encode _ ++ []) = _
    rw [List.append_nil]
    rfl
  | _ => rfl

theorem stored_typeMap (size : BitVec 32) (ss : List Store) :
    stored ((Call.typeMap size).stores .c ++ ss) = Tag.map :: (encode size.toNat ++ stored ss) :=
  rfl

theorem stored_typeArray (size : BitVec 32) (ss : List Store) :
    stored ((Call.typeArray size).stores .c ++ ss) = Tag.array :: (encode size.toNat ++ stored ss) :=
  rfl

theorem stored_fieldsStores {fields : List (Utf16 × BitVec 32)}
    (h : (stored (fieldsStores e fields)).length < 2 ^ 32) :
    stored (fieldsStores e fields) = Doc.encodeEntries e (fieldsDoc fields) := by
  induction fields with
  | nil => rfl
  | cons field fields ih =>
    obtain ⟨key, num⟩ := field
    rw [fieldsStores, stored_append, stored_append, List.length_append, List.length_append] at h
    rw [fieldsStores, stored_append, stored_append, stored_charactersStores (by omega), ih (by omega)]
    rfl

theorem stored_structStores {value : NSValue F} {s : Struct}
    (h : (stored (structStores T e value s)).length < 2 ^ 32) :
    stored (structStores T e value s) = (Doc.map (fieldsDoc (value.fields T s))).encode e := by
  rw [structStores, stored_typeMap, List.length_cons, List.length_append] at h
  rw [structStores, stored_typeMap, stored_fieldsStores (by omega), Doc.encode, fieldsDoc_length,
    length_fields]

/-- A vector has a null behind it. -/
theorem excess_value {value : NSValue F} (h : (stored (valueStores T e value)).length < 2 ^ 32) :
    Excess (if value.struct = some .CGVector then 1 else 0) ((value.doc T).encode e)
      (stored (valueStores T e value)) := by
  unfold valueStores NSValue.doc at *
  cases hstruct : value.struct with
  | none => exact .refl _
  | some s =>
    rw [hstruct] at h
    cases s with
    | CGVector =>
      dsimp only at h ⊢
      rw [stored_append, List.length_append] at h
      rw [stored_append, stored_structStores (by omega), if_pos rfl]
      exact ⟨List.sublist_append_left _ _, List.length_append⟩
    | _ => exact .of_eq (stored_structStores h)

theorem length_valueStores_pos (value : NSValue F) : 0 < (stored (valueStores T e value)).length := by
  unfold valueStores
  cases value.struct with
  | none => exact Nat.one_pos
  | some s => cases s <;> exact Nat.succ_pos _

/-- Something is stored for every object. -/
theorem length_stores_pos (val : Object F) : 0 < (stored (stores T e val)).length := by
  cases val with
  | number number =>
    rw [stores, NSNumber.call]
    cases number.numberCase <;> exact Nat.succ_pos _
  | value value =>
    rw [stores]
    exact length_valueStores_pos value
  | other description =>
    rw [stores]
    cases description <;> exact Nat.succ_pos _
  | _ =>
    rw [stores]
    exact Nat.succ_pos _

theorem length_le_storesItems (items : List (Object F)) :
    items.length ≤ (stored (storesItems T e items)).length := by
  induction items with
  | nil => exact Nat.zero_le _
  | cons ele items ih =>
    have hpos := length_stores_pos (T := T) (e := e) ele
    rw [storesItems, stored_append, List.length_append, List.length_cons]
    omega

theorem length_le_storesEntries (entries : List (Option Utf16 × Object F)) :
    entries.length ≤ (stored (storesEntries T e entries)).length := by
  induction entries with
  | nil => exact Nat.zero_le _
  | cons entry entries ih =>
    obtain ⟨key, val⟩ := entry
    have hpos := length_stores_pos (T := T) (e := e) val
    rw [storesEntries, stored_append, stored_append, List.length_append, List.length_append,
      List.length_cons]
    omega

mutual

/-- **What is stored** for an object is the encoding of its document, and one byte for each
vector. -/
theorem excess_stores : ∀ {val : Object F}, (stored (stores T e val)).length < 2 ^ 32 →
    Excess (vectors val) ((doc T val).encode e) (stored (stores T e val))
  | .string s, h => by
    rw [stores] at h ⊢
    exact .of_eq (stored_stringStores h)
  | .number number, _ => by
    rw [stores]
    exact .of_eq (stored_number number)
  | .dictionary entries, h => by
    rw [stores, stored_typeMap, List.length_cons, List.length_append] at h
    -- each entry stores a byte or more, so that the count fits its header
    have hle := length_le_storesEntries (T := T) (e := e) entries
    have hentries : Excess (vectorsEntries entries) _ (stored (storesEntries T e entries)) :=
      excess_storesEntries (by omega)
    rw [stores, stored_typeMap, BitVec.toNat_ofNat, Nat.mod_eq_of_lt (by omega), doc, Doc.encode,
      docEntries_length, vectors]
    have happend := Excess.append (.refl (encode entries.length)) hentries
    rw [Nat.zero_add] at happend
    exact happend.cons Tag.map
  | .array items, h => by
    rw [stores, stored_typeArray, List.length_cons, List.length_append] at h
    -- likewise
    have hle := length_le_storesItems (T := T) (e := e) items
    have hitems : Excess (vectorsItems items) _ (stored (storesItems T e items)) :=
      excess_storesItems (by omega)
    rw [stores, stored_typeArray, BitVec.toNat_ofNat, Nat.mod_eq_of_lt (by omega), doc, Doc.encode,
      docItems_length, vectors]
    have happend := Excess.append (.refl (encode items.length)) hitems
    rw [Nat.zero_add] at happend
    exact happend.cons Tag.array
  | .date interval, _ => by
    rw [stores]
    exact .of_eq rfl
  | .value value, h => by
    rw [stores] at h ⊢
    exact excess_value h
  | .null, _ => by
    rw [stores]
    exact .of_eq rfl
  | .other description, h => by
    rw [stores] at h ⊢
    exact .of_eq (stored_descriptionStores h)

theorem excess_storesItems : ∀ {items : List (Object F)},
    (stored (storesItems T e items)).length < 2 ^ 32 →
      Excess (vectorsItems items) (Doc.encodeItems e (docItems T items)) (stored (storesItems T e items))
  | [], _ => by
    rw [storesItems]
    exact .of_eq rfl
  | ele :: items, h => by
    rw [storesItems, stored_append, List.length_append] at h
    rw [storesItems, stored_append, docItems, Doc.encodeItems, vectorsItems]
    exact (excess_stores (by omega)).append (excess_storesItems (by omega))

theorem excess_storesEntries : ∀ {entries : List (Option Utf16 × Object F)},
    (stored (storesEntries T e entries)).length < 2 ^ 32 →
      Excess (vectorsEntries entries) (Doc.encodeEntries e (docEntries T entries))
        (stored (storesEntries T e entries))
  | [], _ => by
    rw [storesEntries]
    exact .of_eq rfl
  | (key, val) :: entries, h => by
    rw [storesEntries, stored_append, stored_append, List.length_append, List.length_append] at h
    have hkey := stored_charactersStores (e := e) (s := key.getD []) (by omega)
    have hval : Excess (vectors val) _ (stored (stores T e val)) := excess_stores (by omega)
    have happend := (Excess.of_eq hkey).append hval
    rw [Nat.zero_add] at happend
    rw [storesEntries, stored_append, stored_append, docEntries, Doc.encodeEntries, vectorsEntries]
    exact happend.append (excess_storesEntries (by omega))

end

theorem tight_charactersStores (s : Utf16) : ∀ store ∈ charactersStores e s, store.Tight := by
  have hlength : (charactersStore e s).bytes.length = (charactersStore e s).request := units_length e s
  have hunits : (charactersStore e s).Tight := ⟨by show 32 ≤ 64; decide, by omega, by omega⟩
  exact List.forall_mem_cons.mpr ⟨Call.tight_uintStore _, List.forall_mem_singleton.mpr hunits⟩

theorem tight_stringStores (s : Utf16) : ∀ store ∈ stringStores e s, store.Tight :=
  List.forall_mem_cons.mpr ⟨Call.tight_typeStore _, tight_charactersStores s⟩

theorem tight_fieldsStores (fields : List (Utf16 × BitVec 32)) :
    ∀ store ∈ fieldsStores e fields, store.Tight := by
  induction fields with
  | nil => exact nofun
  | cons field fields ih =>
    have hfield := List.forall_mem_append.mpr
      ⟨tight_charactersStores (e := e) field.1, (Call.floatWithTag field.2).tight_of_mem_stores .c⟩
    exact List.forall_mem_append.mpr ⟨hfield, ih⟩

theorem tight_valueStores (value : NSValue F) : ∀ store ∈ valueStores T e value, store.Tight := by
  have hnull := Call.typeNull.tight_of_mem_stores .c
  have hstruct (s : Struct) : ∀ store ∈ structStores T e value s, store.Tight :=
    List.forall_mem_append.mpr ⟨(Call.typeMap s.size).tight_of_mem_stores .c, tight_fieldsStores _⟩
  unfold valueStores
  cases value.struct with
  | none => exact hnull
  | some s =>
    cases s with
    | CGVector => exact List.forall_mem_append.mpr ⟨hstruct .CGVector, hnull⟩
    | _ => exact hstruct _

mutual

/-- Hardly more room is asked for than is needed. -/
theorem tight_stores : ∀ val : Object F, ∀ s ∈ stores T e val, s.Tight
  | .string s => by
    rw [stores]
    exact tight_stringStores s
  | .number number => by
    rw [stores]
    exact number.call.tight_of_mem_stores .c
  | .dictionary entries => by
    rw [stores]
    exact List.forall_mem_append.mpr ⟨Call.tight_of_mem_stores .c _, tight_storesEntries entries⟩
  | .array items => by
    rw [stores]
    exact List.forall_mem_append.mpr ⟨Call.tight_of_mem_stores .c _, tight_storesItems items⟩
  | .date interval => by
    rw [stores]
    exact Call.tight_of_mem_stores .c _
  | .value value => by
    rw [stores]
    exact tight_valueStores value
  | .null => by
    rw [stores]
    exact Call.tight_of_mem_stores .c _
  | .other none => by
    rw [stores]
    exact Call.typeNull.tight_of_mem_stores .c
  | .other (some s) => by
    rw [stores]
    exact tight_stringStores s

theorem tight_storesItems : ∀ items : List (Object F), ∀ s ∈ storesItems T e items, s.Tight
  | [] => by
    rw [storesItems]
    exact nofun
  | ele :: items => by
    rw [storesItems]
    exact List.forall_mem_append.mpr ⟨tight_stores ele, tight_storesItems items⟩

theorem tight_storesEntries : ∀ entries : List (Option Utf16 × Object F),
    ∀ s ∈ storesEntries T e entries, s.Tight
  | [] => by
    rw [storesEntries]
    exact nofun
  | (key, val) :: entries => by
    rw [storesEntries]
    exact List.forall_mem_append.mpr
      ⟨List.forall_mem_append.mpr ⟨tight_charactersStores _, tight_stores val⟩, tight_storesEntries entries⟩

end

end Stored

/-! ## What `toObj:` reads -/

section Known

variable {F : Type} {T : Target F}

theorem known_fieldsDoc (fields : List (Utf16 × BitVec 32)) :
    Doc.LeavesEntries (fun u => u.kind ≠ .uint8String) (fun _ => True) (fieldsDoc fields) := by
  induction fields with
  | nil => exact trivial
  | cons field fields ih => exact ⟨trivial, nofun, ih⟩

mutual

/-- No object is written as a text in UTF-8. -/
theorem known_doc : ∀ val : Object F, Known (doc T val)
  | .string _ | .date _ | .null => nofun
  | .number number => by
    rw [doc, NSNumber.doc]
    cases number.numberCase <;> exact nofun
  | .dictionary entries => known_docEntries entries
  | .array items => known_docItems items
  | .value value => by
    rw [doc, NSValue.doc]
    cases value.struct with
    | none => exact nofun
    | some s => exact known_fieldsDoc _
  | .other none | .other (some _) => nofun

theorem known_docItems : ∀ items : List (Object F),
    Doc.LeavesItems (fun u => u.kind ≠ .uint8String) (fun _ => True) (docItems T items)
  | [] => trivial
  | ele :: items => ⟨known_doc ele, known_docItems items⟩

theorem known_docEntries : ∀ entries : List (Option Utf16 × Object F),
    Doc.LeavesEntries (fun u => u.kind ≠ .uint8String) (fun _ => True) (docEntries T entries)
  | [] => trivial
  | (_, val) :: entries => ⟨trivial, known_doc val, known_docEntries entries⟩

end

end Known

/-! ## One value per object -/

section AppendsOne

variable {F : Type} (T : Target F) (e : Endian)

/-- `toWson:` returns and has appended the encoding of one well-formed document; `toObj:` consumes
exactly this encoding, wherever it stands. -/
def AppendsOne (d : Doc) (val : Object F) (b : Buffer) : Prop :=
  ∃ b', toWson T e (some val) b = .ok () b' ∧ b'.written = b.written ++ d.encode e ∧ d.Sized ∧
    ∃ object : Parsed, ∀ (data : Bytes) (length n : Nat), data.length < 2 ^ 32 → data.length ≤ length →
      d.height < n →
        Consumes data (Buffer.At data length) (returns (toObj e n)) (d.encode e) (some object)

variable {T e}

/-- What a run that fits leaves. -/
theorem toWson_of_fits {val : Object F} {b : Buffer} (hv : b.Valid) (hb : b.length < 2 ^ 32)
    (hfits : fits .c (stores T e val) b.length b.position) :
    ∃ b', toWson T e (some val) b = .ok () b' ∧ b'.written = b.written ++ stored (stores T e val) ∧
      (stored (stores T e val)).length < 2 ^ 32 := by
  have hb : b.length < 2 ^ Library.bits .c := hb
  obtain ⟨b', hrun, ⟨hv', hlt⟩, hwritten⟩ := storeAll_of_fits hv hb hfits
  have hlength := congrArg List.length hwritten
  have hinside := hv'.inside
  have hlt : b'.length < 2 ^ 32 := hlt
  rw [hv'.written_length, List.length_append] at hlength
  exact ⟨b', by rw [toWson, pushObject_eq, hrun], hwritten, by omega⟩

/-- **One value per object**: the encoder appends the document of the object iff no boxed value in
it is taken for a `CGVector` and the buffer can grow. -/
theorem appendsOne_iff {val : Object F} {b : Buffer} (hv : b.Valid) (hb : b.length < 2 ^ 32) :
    AppendsOne T e (doc T val) val b ↔
      vectors val = 0 ∧ fits .c (stores T e val) b.length b.position := by
  constructor
  · rintro ⟨b', hrun, hwritten, -, -⟩
    have hstores := hrun
    rw [toWson, pushObject_eq] at hstores
    have hfits := fits_of_storeAll hv (show b.length < 2 ^ Library.bits .c from hb) hstores
    refine ⟨?_, hfits⟩
    obtain ⟨b'', hrun', hwritten', hlt⟩ := toWson_of_fits hv hb hfits
    obtain rfl : b'' = b' := by
      have hsame := hrun'.symm.trans hrun
      cases hsame
      rfl
    -- the lengths differ by the number of the vectors
    have hbytes : stored (stores T e val) = (doc T val).encode e :=
      List.append_cancel_left (hwritten'.symm.trans hwritten)
    have hexcess := (excess_stores hlt).length_eq
    rw [hbytes] at hexcess
    omega
  · rintro ⟨hvectors, hfits⟩
    obtain ⟨b', hrun, hwritten, hlt⟩ := toWson_of_fits hv hb hfits
    -- without vectors nothing is written in excess
    have hexcess := excess_stores hlt
    rw [hvectors] at hexcess
    have hbytes := hexcess.eq
    rw [hbytes] at hwritten hlt
    have hsized := Doc.sized_of_encode_lt e hlt
    refine ⟨b', hrun, hwritten, hsized, parsed (doc T val), fun data length n hdata hlength hn => ?_⟩
    exact consumes_toObj hdata hlength (Doc.encodes_encode e hsized) (known_doc val) hn

/-- Up to `2^30` bytes the buffer grows. -/
theorem fits_stores {val : Object F} {b : Buffer} (hv : b.Valid)
    (hsmall : b.position + (stored (stores T e val)).length ≤ limit .c) :
    fits .c (stores T e val) b.length b.position :=
  fits_of_tight (tight_stores val) hv.inside hsmall

/-- No document is encoded by the bytes of a vector. -/
theorem not_encodes_vector {value : NSValue F} (hstruct : value.struct = some .CGVector)
    (hlt : (stored (stores T e (.value value))).length < 2 ^ 32) (d : Doc) :
    ¬ d.Encodes e (stored (stores T e (.value value))) := by
  intro hd
  have hstored : stored (stores T e (.value value)) = (value.doc T).encode e ++ [Tag.null] := by
    rw [stores, valueStores, hstruct] at hlt ⊢
    dsimp only at hlt ⊢
    rw [stored_append, List.length_append] at hlt
    rw [stored_append, stored_structStores (by omega), NSValue.doc, hstruct]
    rfl
  rw [hstored] at hlt hd
  rw [List.length_append] at hlt
  have hsized : (value.doc T).Sized := Doc.sized_of_encode_lt e (by omega)
  -- the null is left over
  obtain ⟨-, -, hrest⟩ := Doc.encodes_append_inj (r := []) hd (Doc.encodes_encode e hsized) (List.append_nil _)
  exact nomatch hrest

/-! ## A vector in a new buffer -/

/-- A target on which a `CGFloat` is a `float`. Integers are converted exactly up to `2^24`. -/
def sampleTarget : Target (BitVec 32) where
  floatOfCGFloat num := num
  floatOfNSUInteger num :=
    let place := num.toNat.log2
    if num = 0 then 0
    else BitVec.ofNat 32 ((126 + place) * 2 ^ 23 + num.toNat * 2 ^ 23 / 2 ^ place)
  milliseconds interval :=
    match Binary64.value interval with
    | .finite q => BitVec.ofInt 64 (Binary64.value (Binary64.ofRat (q * 1000))).toInt64
    | other => BitVec.ofInt 64 other.toInt64

/-- A boxed value of the given type, all of zeros. -/
def boxed (objCType : String) : NSValue (BitVec 32) where
  objCType := objCType.toList
  rect := ⟨⟨0, 0⟩, ⟨0, 0⟩⟩
  point := ⟨0, 0⟩
  size := ⟨0, 0⟩
  range := ⟨0, 0⟩
  vector := ⟨0, 0⟩
  edgeInsets := ⟨0, 0, 0, 0⟩

/-- `@{@"k": @[@7, point, [NSNull null]]}` -/
def sampleObject : Object (BitVec 32) :=
  .dictionary [(some (literal "k"), .array
    [.number ⟨"i".toList, 0x401C000000000000, 0x40E00000, 7, 7, true⟩, .value (boxed "{CGPoint=ff}"), .null])]

theorem new_lt_pow : (Buffer.new (List.replicate 1024 0)).length < 2 ^ 32 := by
  show (List.replicate 1024 (0 : Byte)).length < 2 ^ 32
  rw [List.length_replicate]
  decide

theorem appendsOne_sample_iff :
    AppendsOne sampleTarget .little (doc sampleTarget sampleObject) sampleObject
        (Buffer.new (List.replicate 1024 0)) ↔
      vectors sampleObject = 0 ∧ fits .c (stores sampleTarget .little sampleObject)
        (Buffer.new (List.replicate 1024 0)).length (Buffer.new (List.replicate 1024 0)).position :=
  appendsOne_iff (valid_new _) new_lt_pow

/-- A boxed vector is encoded, but not as one value. -/
theorem not_appendsOne_vector :
    (∃ b', toWson sampleTarget .little (some (.value (boxed "{CGVector=ff}")))
        (Buffer.new (List.replicate 1024 0)) = .ok () b' ∧ ∀ d : Doc, ¬ d.Encodes .little b'.written) ∧
      ∀ d : Doc, ¬ AppendsOne sampleTarget .little d (.value (boxed "{CGVector=ff}"))
        (Buffer.new (List.replicate 1024 0)) := by
  have hstruct : (boxed "{CGVector=ff}").struct = some .CGVector := by decide
  have hsmall : (stored (stores sampleTarget .little (.value (boxed "{CGVector=ff}")))).length ≤ 2 ^ 30 := by
    decide
  have hfits : fits .c (stores sampleTarget .little (.value (boxed "{CGVector=ff}")))
      (Buffer.new (List.replicate 1024 0)).length (Buffer.new (List.replicate 1024 0)).position :=
    fits_stores (valid_new _) ((Nat.zero_add _).trans_le hsmall)
  obtain ⟨b', hrun, hwritten, hlt⟩ := toWson_of_fits (valid_new _) new_lt_pow hfits
  rw [written_new, List.nil_append] at hwritten
  have hencodes (d : Doc) : ¬ d.Encodes .little b'.written := by
    rw [hwritten]
    exact not_encodes_vector hstruct hlt d
  refine ⟨⟨b', hrun, hencodes⟩, ?_⟩
  rintro d ⟨b'', hrun', hwritten', hsized, -⟩
  obtain rfl : b'' = b' := by
    have hsame := hrun'.symm.trans hrun
    cases hsame
    rfl
  rw [written_new, List.nil_append] at hwritten'
  exact hencodes d (hwritten' ▸ Doc.encodes_encode .little hsized)

end AppendsOne

end Wson.Ios
