import Wson.Jsc.RoundTrip

/-!
# Boxed primitives

`wson_push_js_value` of a `StringObject`, a `NumberObject` or a `BooleanObject`, beside
that of the primitive in it. Two engines that answer alike, except that one gives the
wrapper where the other gives the primitive (`Swaps`), are led through the same states
and to the same stores (`pushJsValue_alike`), unless the wrapper holds a number that is
no integer: the test `val.isDouble()` then asks the wrapper and not the number in it,
and the text of the number is written (`sameBytes_iff`).
-/

namespace Wson.Jsc

open Effect Wire Native

variable {O W : Type}

/-- What a wrapper object holds. A number that is an `int32` is stored as one. -/
inductive Primitive where
  | string (s : JsString)
  | int32 (num : BitVec 32)
  | double (bits : BitVec 64)
  | boolean (value : Bool)

namespace Primitive

def value : Primitive → JSValue O
  | .string s => .string s
  | .int32 num => .int32 num
  | .double bits => .double bits
  | .boolean value => .boolean value

/-- The class of the wrapper. -/
def kind : Primitive → Kind
  | .string _ => .stringObject
  | .int32 _ | .double _ => .numberObject
  | .boolean _ => .booleanObject

/-- What the engine returns for the wrapper, without running scripts. -/
def Unboxed (E : Engine O W) (o : O) : Primitive → Prop
  | .string s => E.toString o = pure s
  | .int32 num => E.toNumber o = pure (.inl num)
  | .double bits => E.toNumber o = pure (.inr bits)
  | .boolean value => E.toPrimitive o = pure (.boolean value)

/-- A number that is neither an `int32` nor another exact integer. -/
def IsFraction (E : Engine O W) (p : Primitive) : Prop :=
  ∃ bits, p = .double bits ∧ E.asAnyInt bits = none

end Primitive

/-- The object is a wrapper of the primitive, and nothing more: it has no `toJSON`. -/
structure Wraps (E : Engine O W) (o : O) (p : Primitive) : Prop where
  kind_eq : E.kind o = p.kind
  unboxed : p.Unboxed E o
  toJSON_eq : E.getToJSON o = pure none

/-- The same value, or the wrapper where the other one is the primitive. -/
inductive Swapped (o : O) (p : Primitive) : JSValue O → JSValue O → Prop
  | same (val : JSValue O) : Swapped o p val val
  | boxed : Swapped o p p.value (.object o)

/-- The two answers to the question for a property. -/
inductive SwappedAnswer (o : O) (p : Primitive) : Option (JSValue O) → Option (JSValue O) → Prop
  | none : SwappedAnswer o p none none
  | some {val val' : JSValue O} (h : Swapped o p val val') : SwappedAnswer o p (some val) (some val')

/-- `E'` answers as `E` does, but elements, properties and results of `toJSON` may be the wrapper
where those of `E` are the primitive. -/
structure Swaps (E E' : Engine O W) (o : O) (p : Primitive) : Prop where
  kind_eq : E'.kind = E.kind
  length_eq : E'.length = E.length
  getOwnPropertyNames_eq : E'.getOwnPropertyNames = E.getOwnPropertyNames
  getToJSON_eq : E'.getToJSON = E.getToJSON
  isCallable_eq : E'.isCallable = E.isCallable
  toString_eq : E'.toString = E.toString
  toNumber_eq : E'.toNumber = E.toNumber
  toPrimitive_eq : E'.toPrimitive = E.toPrimitive
  asAnyInt_eq : E'.asAnyInt = E.asAnyInt
  numberText_eq : E'.numberText = E.numberText
  getIndex : ∀ array index, Alike (Swapped o p) (E.getIndex array index) (E'.getIndex array index)
  getOwnProperty : ∀ object name,
    Alike (SwappedAnswer o p) (E.getOwnProperty object name) (E'.getOwnProperty object name)
  call : ∀ toJSONFunction object identifier,
    Alike (Swapped o p) (E.call toJSONFunction object identifier) (E'.call toJSONFunction object identifier)

theorem Swaps.refl (E : Engine O W) (o : O) (p : Primitive) : Swaps E E o p where
  kind_eq := rfl
  length_eq := rfl
  getOwnPropertyNames_eq := rfl
  getToJSON_eq := rfl
  isCallable_eq := rfl
  toString_eq := rfl
  toNumber_eq := rfl
  toPrimitive_eq := rfl
  asAnyInt_eq := rfl
  numberText_eq := rfl
  getIndex _ _ := .refl .same _
  getOwnProperty _ _ := by
    refine .refl (fun answer => ?_) _
    cases answer with
    | none => exact .none
    | some val => exact .some (.same val)
  call _ _ _ := .refl .same _

namespace Primitive

/-- A primitive is no function, and it is written under its key. -/
theorem skipped_value (E : Engine O W) (p : Primitive) : skipped E (some p.value) = false := by
  cases p <;> rfl

/-- A primitive has no `toJSON`. -/
theorem toJson_value (E : Engine O W) (p : Primitive) (identifier : Utf16) :
    toJson E identifier p.value = pure p.value := by
  cases p <;> rfl

theorem kind_ne_function (p : Primitive) : p.kind ≠ .function := by
  cases p <;> exact nofun

end Primitive

section Swaps

variable {E E' : Engine O W} {o : O} {p : Primitive}

theorem Wraps.skipped_object (hw : Wraps E o p) : skipped E (some (.object o)) = false := by
  simp [skipped, JSValue.isUndefined, JSValue.isFunction, hw.kind_eq, p.kind_ne_function]

namespace Swaps

/-- The wrapper is one for both engines. -/
theorem wraps (h : Swaps E E' o p) (hw : Wraps E o p) : Wraps E' o p where
  kind_eq := by rw [h.kind_eq, hw.kind_eq]
  unboxed := by
    have hunboxed := hw.unboxed
    cases p with
    | string s => exact (congrFun h.toString_eq o).trans hunboxed
    | int32 num => exact (congrFun h.toNumber_eq o).trans hunboxed
    | double bits => exact (congrFun h.toNumber_eq o).trans hunboxed
    | boolean value => exact (congrFun h.toPrimitive_eq o).trans hunboxed
  toJSON_eq := by rw [h.getToJSON_eq, hw.toJSON_eq]

/-- Both engines leave out the same properties. -/
theorem skipped_eq (h : Swaps E E' o p) (hw : Wraps E o p) {answer answer' : Option (JSValue O)}
    (ha : SwappedAnswer o p answer answer') : skipped E' answer' = skipped E answer := by
  cases ha with
  | none => rfl
  | @some val _ hv =>
    cases hv with
    | same _ =>
      cases val with
      | object object => simp [skipped, JSValue.isUndefined, JSValue.isFunction, h.kind_eq]
      | _ => rfl
    | boxed => rw [(h.wraps hw).skipped_object, p.skipped_value]

theorem toJson_alike (h : Swaps E E' o p) (hw : Wraps E o p) (identifier : Utf16) {val val' : JSValue O}
    (hv : Swapped o p val val') :
    Alike (Swapped o p) (toJson E identifier val) (toJson E' identifier val') := by
  cases hv with
  | same val =>
    cases val with
    | object object =>
      unfold toJson callObjectJsValueToJson
      rw [h.getToJSON_eq, h.isCallable_eq]
      refine .bind_same fun answer => ?_
      cases answer with
      | none => exact alike_pure (.same _)
      | some toJSONFunction =>
        dsimp only
        split
        · exact h.call _ _ _
        · exact alike_pure (.same _)
    | _ => exact alike_pure (.same _)
  | boxed =>
    have hobject : toJson E' identifier (.object o) = pure (.object o) := by
      show callObjectJsValueToJson E' o identifier = _
      unfold callObjectJsValueToJson
      rw [(h.wraps hw).toJSON_eq]
      rfl
    rw [p.toJson_value, hobject]
    exact alike_pure .boxed

/-- The first passes leave out the same properties. -/
theorem readProperties_alike (h : Swaps E E' o p) (hw : Wraps E o p) (object : O)
    (names : List JsString) :
    Alike (fun first first' => first'.map (skipped E') = first.map (skipped E))
      (readProperties E object names) (readProperties E' object names) := by
  induction names with
  | nil => exact alike_pure rfl
  | cons propertyName names ih =>
    unfold readProperties
    refine (h.getOwnProperty object propertyName).bind fun answer answer' ha => ?_
    refine ih.bind fun first first' hfirst => alike_pure ?_
    rw [List.map_cons, List.map_cons, hfirst, h.skipped_eq hw ha]

/-- The sizes in the headers are the same. -/
theorem headerSize_eq {first first' : List (Option (JSValue O))}
    (h : first'.map (skipped E') = first.map (skipped E)) : headerSize E' first' = headerSize E first := by
  have hlength : first'.length = first.length := by
    simpa only [List.length_map] using congrArg List.length h
  have hcount : first'.countP (skipped E') = first.countP (skipped E) := by
    simpa only [List.countP_map, Function.id_comp] using congrArg (List.countP id) h
  rw [headerSize, headerSize, hlength, hcount]

variable {push push' : JSValue O → StateM W (List Store × Visit O)}

theorem pushElements_alike (h : Swaps E E' o p) (hw : Wraps E o p)
    (hpush : ∀ val val', Swapped o p val val' → Alike (fun a b => b.1 = a.1) (push val) (push' val'))
    (array : O) (k : Nat) (index : BitVec 32) :
    Alike (fun a b => b.1 = a.1) (pushElements E push array k index) (pushElements E' push' array k index) := by
  induction k generalizing index with
  | zero => exact alike_pure rfl
  | succ k ih =>
    unfold pushElements
    refine (h.getIndex array index).bind fun ele ele' hele => ?_
    refine (h.toJson_alike hw _ hele).bind fun ele ele' hele => ?_
    refine (hpush ele ele' hele).bind fun a b hab => ?_
    refine (ih (index + 1)).bind fun c d hcd => alike_pure ?_
    rw [hab, hcd]

theorem pushProperties_alike (h : Swaps E E' o p) (hw : Wraps E o p) (e : Endian)
    (hpush : ∀ val val', Swapped o p val val' → Alike (fun a b => b.1 = a.1) (push val) (push' val'))
    (object : O) (names : List JsString) :
    Alike (fun a b => b.1 = a.1) (pushProperties E e push object names)
      (pushProperties E' e push' object names) := by
  induction names with
  | nil => exact alike_pure rfl
  | cons propertyName names ih =>
    unfold pushProperties
    refine (h.getOwnProperty object propertyName).bind fun answer answer' ha => ?_
    have hskip := h.skipped_eq hw ha
    cases ha with
    | none => exact ih.bind fun a b hab => alike_pure hab
    | some hv =>
      simp only [skipped] at hskip
      dsimp only
      rw [hskip]
      split
      · exact ih.bind fun a b hab => alike_pure hab
      · refine (h.toJson_alike hw _ hv).bind fun value value' hvalue => ?_
        refine (hpush value value' hvalue).bind fun a b hab => ?_
        refine ih.bind fun c d hcd => alike_pure ?_
        rw [hab, hcd]

end Swaps

variable {e : Endian} [DecidableEq O]

/-- A wrapper that holds no fraction is written as the primitive in it. -/
theorem Wraps.pushJsValue_eq (hw : Wraps E o p) (hp : ¬ p.IsFraction E) (objectStack : List O) :
    pushJsValue E e objectStack (.object o) = pushJsValue E e objectStack p.value := by
  have hkind := hw.kind_eq
  have hunboxed := hw.unboxed
  rw [pushJsValue]
  cases p with
  | string s =>
    rw [hkind, Primitive.kind, Primitive.value, pushJsValue, hunboxed]
    rfl
  | int32 num =>
    rw [hkind, Primitive.kind, Primitive.value, pushJsValue, hunboxed]
    rfl
  | double bits =>
    rw [hkind, Primitive.kind, Primitive.value, pushJsValue, pushDouble, hunboxed]
    cases hint : E.asAnyInt bits with
    | none => exact absurd ⟨bits, rfl, hint⟩ hp
    | some num => simp only [pure_bind, hint]
  | boolean value =>
    rw [hkind, Primitive.kind, Primitive.value, pushJsValue, hunboxed]
    cases value <;> rfl

/-- **In step**: the two engines are led through the same states, to the same stores. -/
theorem pushJsValue_alike (h : Swaps E E' o p) (hw : Wraps E o p) (hp : ¬ p.IsFraction E) :
    ∀ (k : Nat) (objectStack : List O), maxDeep + 1 - objectStack.length = k →
      ∀ val val', Swapped o p val val' →
        Alike (fun a b => b.1 = a.1) (pushJsValue E e objectStack val) (pushJsValue E' e objectStack val') := by
  intro k
  induction k using Nat.strong_induction_on with
  | _ k ih =>
    intro objectStack hk
    have hpush (object : O) (hdeep : ¬(object ∈ objectStack ∨ maxDeep < objectStack.length)) :
        ∀ val val', Swapped o p val val' → Alike (fun a b => b.1 = a.1)
          (pushJsValue E e (objectStack ++ [object]) val) (pushJsValue E' e (objectStack ++ [object]) val') := by
      rw [not_or] at hdeep
      refine ih _ ?_ _ rfl
      rw [List.length_append, List.length_singleton]
      omega
    -- a value that is the same in both engines meets the swapped one only further inside
    have hsame (val : JSValue O) : Alike (fun a b => b.1 = a.1)
        (pushJsValue E e objectStack val) (pushJsValue E' e objectStack val) := by
      cases val with
      | empty | null | undefined | symbol | string _ | int32 _ | boolean _ =>
        rw [pushJsValue, pushJsValue]
        exact alike_pure rfl
      | double bits =>
        rw [pushJsValue, pushJsValue, pushDouble, pushDouble, h.asAnyInt_eq]
        exact alike_pure rfl
      | object object =>
        rw [pushJsValue, pushJsValue, h.kind_eq]
        cases E.kind object with
        | function => exact alike_pure rfl
        | stringObject =>
          dsimp only
          rw [h.toString_eq]
          refine .refl ?_ _
          exact fun _ => rfl
        | booleanObject =>
          dsimp only
          rw [h.toPrimitive_eq]
          refine .refl ?_ _
          exact fun _ => rfl
        | numberObject =>
          dsimp only
          rw [h.toNumber_eq, h.asAnyInt_eq, h.numberText_eq]
          refine .refl ?_ _
          exact fun _ => rfl
        | array =>
          dsimp only
          split
          · exact alike_pure rfl
          · next hdeep =>
            rw [h.length_eq]
            refine .bind_same fun length => ?_
            refine (h.pushElements_alike hw (hpush object hdeep) object length.toNat 0).bind fun a b hab => ?_
            exact alike_pure (by rw [hab])
        | plain =>
          dsimp only
          split
          · exact alike_pure rfl
          · next hdeep =>
            rw [h.getOwnPropertyNames_eq]
            refine .bind_same fun names => ?_
            refine (h.readProperties_alike hw object names).bind fun first first' hfirst => ?_
            refine (h.pushProperties_alike hw e (hpush object hdeep) object names).bind fun a b hab => ?_
            exact alike_pure (by rw [hab, Swaps.headerSize_eq hfirst])
    intro val val' hv
    cases hv with
    | same _ => exact hsame val
    | boxed =>
      have hp' : ¬ p.IsFraction E' := by rwa [Primitive.IsFraction, h.asAnyInt_eq]
      rw [(h.wraps hw).pushJsValue_eq hp']
      exact hsame p.value

end Swaps

/-! ## The same bytes -/

section SameBytes

open Buffer

variable [DecidableEq O] (E : Engine O W) (e : Endian)

/-- Wherever the engine gives the wrapper in place of the primitive, the encoder leaves the same
in every buffer. -/
def SameBytes (o : O) (p : Primitive) (w : W) : Prop :=
  ∀ E', Swaps E E' o p → ∀ objectStack val val', Swapped o p val val' → ∀ b,
    storeAll .c (pushJsValue E' e objectStack val' w).1.1 b
      = storeAll .c (pushJsValue E e objectStack val w).1.1 b

variable {E e}

/-- **Boxed primitives** are written as the primitives in them, unless they are numbers that are no
integers. -/
theorem sameBytes_iff {o : O} {p : Primitive} (hw : Wraps E o p) (w : W) :
    SameBytes E e o p w ↔ ¬ p.IsFraction E := by
  constructor
  · rintro hsame ⟨bits, rfl, hnone⟩
    have hkind := hw.kind_eq
    have hunboxed : E.toNumber o = pure (.inr bits) := hw.unboxed
    have hboxed := hsame E (.refl E o _) [] _ _ .boxed (Buffer.new (List.replicate 1024 0))
    -- the primitive has the tag of a double, the wrapper that of a string
    have hvalue : (pushJsValue E e [] (Primitive.double bits).value w).1.1 = (Call.doubleWithTag bits).stores .c := by
      rw [Primitive.value, pushJsValue, pushDouble, hnone]
      rfl
    have hobject : (pushJsValue E e [] (.object o) w).1.1 = pushJsString e (E.numberText bits) := by
      rw [pushJsValue, hkind, Primitive.kind]
      dsimp only
      rw [hunboxed]
      simp only [pure_bind, hnone]
      rfl
    -- both are written to a new buffer, where the first bytes can be compared
    have hfits : fits .c ((Call.doubleWithTag bits).stores .c) (Buffer.new (List.replicate 1024 0)).length 0 :=
      fits_of_tight ((Call.doubleWithTag bits).tight_of_mem_stores .c) (Nat.zero_le _)
        (show 0 + 9 ≤ limit .c by decide)
    obtain ⟨b, hb, -, hwritten⟩ := storeAll_of_fits (Buffer.valid_new _) new_lt hfits
    rw [hvalue, hobject, hb] at hboxed
    have hfits' := fits_of_storeAll (Buffer.valid_new _) new_lt hboxed
    obtain ⟨b', hb', -, hwritten'⟩ := storeAll_of_fits (Buffer.valid_new _) new_lt hfits'
    obtain ⟨-, rfl⟩ := EStateM.Result.ok.inj (hb'.symm.trans hboxed)
    have hbytes := hwritten'.symm.trans hwritten
    exact absurd (List.cons.inj (List.append_cancel_left hbytes)).1 (by decide)
  · intro hp E' h objectStack val val' hv b
    rw [(pushJsValue_alike h hw hp _ objectStack rfl val val' hv w).1]

end SameBytes

/-! ## An array with a number -/

/-- The double 1.5. -/
def oneAndAHalf : Primitive := .double 0x3FF8000000000000#64

/-- The object 0 is an array with one element, the object 1 is `new Number(1.5)`. -/
def boxEngine (ele : JSValue (Fin 2)) : Engine (Fin 2) Unit where
  kind o := if o = 0 then .array else .numberObject
  length _ := pure 1
  getIndex _ _ := pure ele
  getOwnPropertyNames _ := pure ⟨[], length_noNames_lt⟩
  getOwnProperty _ _ := pure none
  getToJSON _ := pure none
  isCallable _ := false
  call _ _ _ := pure .undefined
  toString _ := pure ⟨[0x31, 0x2E, 0x35], true, by decide⟩
  toNumber _ := pure (.inr 0x3FF8000000000000#64)
  toPrimitive _ := pure oneAndAHalf.value
  asAnyInt _ := none
  numberText _ := ⟨[0x31, 0x2E, 0x35], true, by decide⟩

theorem wraps_box (ele : JSValue (Fin 2)) : Wraps (boxEngine ele) 1 oneAndAHalf := ⟨rfl, rfl, rfl⟩

theorem sameBytes_box_iff :
    SameBytes (boxEngine oneAndAHalf.value) .little 1 oneAndAHalf () ↔
      ¬ oneAndAHalf.IsFraction (boxEngine oneAndAHalf.value) :=
  sameBytes_iff (wraps_box _) ()

/-- The array is its header and the element. -/
theorem stores_box (ele : JSValue (Fin 2)) :
    (pushJsValue (boxEngine ele) .little [] (.object 0) ()).1.1
      = (Call.typeArray 1).stores .c ++ (pushJsValue (boxEngine ele) .little [0] ele ()).1.1 := by
  have hroom : ¬((0 : Fin 2) ∈ [] ∨ maxDeep < ([] : List (Fin 2)).length) := by simp
  have hjson : toJson (boxEngine ele) (indexString 0) ele = pure ele := by
    cases ele <;> rfl
  rw [pushJsValue, show (boxEngine ele).kind 0 = .array from rfl]
  dsimp only
  rw [dif_neg hroom, List.nil_append, show (boxEngine ele).length 0 = pure 1 from rfl, pure_bind,
    show (1 : BitVec 32).toNat = 0 + 1 from rfl, pushElements, pushElements,
    show (boxEngine ele).getIndex 0 0 = pure ele from rfl, pure_bind, hjson, pure_bind]
  show _ ++ (_ ++ []) = _
  rw [List.append_nil]

/-- `[1.5]` is an array with a double, `[new Number(1.5)]` is one with the string `1.5`. -/
theorem not_sameBytes_box :
    (∃ b, Buffer.storeAll .c (pushJsValue (boxEngine oneAndAHalf.value) .little [] (.object 0) ()).1.1
        (Buffer.new (List.replicate 1024 0)) = .ok () b ∧
      b.written = [0x5B, 0x01, 0x64, 0x3F, 0xF8, 0, 0, 0, 0, 0, 0]) ∧
    (∃ b, Buffer.storeAll .c (pushJsValue (boxEngine (.object 1)) .little [] (.object 0) ()).1.1
        (Buffer.new (List.replicate 1024 0)) = .ok () b ∧
      b.written = [0x5B, 0x01, 0x73, 0x06, 0x31, 0, 0x2E, 0, 0x35, 0]) ∧
    ¬ SameBytes (boxEngine oneAndAHalf.value) .little 1 oneAndAHalf () := by
  have hnew : (Buffer.new (List.replicate 1024 0)).length = 1024 := List.length_replicate
  have hvalue : (pushJsValue (boxEngine oneAndAHalf.value) .little [] (.object 0) ()).1.1
      = (Call.typeArray 1).stores .c ++ (Call.doubleWithTag 0x3FF8000000000000#64).stores .c := by
    rw [stores_box, oneAndAHalf, Primitive.value, pushJsValue]
    rfl
  have hobject : (pushJsValue (boxEngine (.object 1)) .little [] (.object 0) ()).1.1
      = (Call.typeArray 1).stores .c ++ pushJsString .little ⟨[0x31, 0x2E, 0x35], true, by decide⟩ := by
    rw [stores_box, pushJsValue]
    rfl
  have hboth : Swaps (boxEngine oneAndAHalf.value) (boxEngine (.object 1)) 1 oneAndAHalf :=
    { Swaps.refl (boxEngine oneAndAHalf.value) 1 oneAndAHalf with
      getIndex := fun _ _ => alike_pure .boxed }
  have hrun (ss : List Store) (hfits : Buffer.fits .c ss 1024 0) :
      ∃ b, Buffer.storeAll .c ss (Buffer.new (List.replicate 1024 0)) = .ok () b ∧
        b.written = Buffer.stored ss := by
    rw [← hnew] at hfits
    obtain ⟨b, hb, -, hwritten⟩ := Buffer.storeAll_of_fits (Buffer.valid_new _) new_lt hfits
    exact ⟨b, hb, hwritten⟩
  obtain ⟨b, hb, hwritten⟩ := hrun
    ((Call.typeArray 1).stores .c ++ (Call.doubleWithTag 0x3FF8000000000000#64).stores .c) (by decide)
  obtain ⟨b', hb', hwritten'⟩ := hrun
    ((Call.typeArray 1).stores .c ++ pushJsString .little ⟨[0x31, 0x2E, 0x35], true, by decide⟩) (by decide)
  rw [← hvalue] at hb
  rw [← hobject] at hb'
  refine ⟨⟨b, hb, hwritten⟩, ⟨b', hb', hwritten'⟩, fun hsame => ?_⟩
  have h := hsame (boxEngine (.object 1)) hboth [] _ _ (.same (.object 0)) (Buffer.new (List.replicate 1024 0))
  rw [hb, hb'] at h
  obtain ⟨-, rfl⟩ := EStateM.Result.ok.inj h
  exact absurd (hwritten'.symm.trans hwritten) (by decide)

end Wson.Jsc
