import Wson.Float.Difference
import Wson.Jsc.RoundTrip
import Wson.Jsc.System

/-!
# `wsonjsc.cpp`

The other file with an encoder and a decoder for JavaScriptCore. Its encoder writes a double
above `2^50` that is an integer as a long, and its decoder has no case for texts in UTF-8. Its
`makeIdentifer` caches a pointer to the units of a `String` of its own, which is freed when the
VM has an equal atomic string (and so its `destory` frees no units). In all else the encoders
and the decoders of the two files say the same, so only these functions are given here.

- `pushJsValue_alike`: the encoders ask the engine the same questions in the same order, and
  what they have met differs in such numbers only (`Visit.renumbered`).
- `decoded_renumbered`: the numbers are the same in JavaScript.
- `consumes_wsonToJsValue`: without texts in UTF-8, this decoder reads what the other one reads,
  if nothing is freed.
- `simulates_wsonToJsValue`: it does so, too, if something is, or it stops at a key that it
  compares with units that have been freed.
- `encodersAgree`: whichever encoder writes a value and whichever decoder reads it, the value is
  the same, if the decoder does not stop there.
-/

namespace Wson.Wsonjsc

open Effect Wire Native Jsc

section Encoder

variable {O W : Type} (E : Engine O W) (e : Endian) (toInt64 : BitVec 64 → BitVec 64)

/-- `number > (1 << 50)` and `number - (double)(int64_t)number == 0.0`; `toInt64` is the conversion,
which the language does not define for numbers that are too large. -/
def isInt64Number (number : BitVec 64) : Bool :=
  Binary64.Value.lt (.finite (2 ^ 50)) (Binary64.value number) &&
    decide (Binary64.sub number (Binary64.ofInt (toInt64 number).toInt) = .finite 0)

def pushDouble (bits : BitVec 64) : List Store × Visit O :=
  match E.asAnyInt bits with
  | some num => pushLong num
  | none =>
    if isInt64Number toInt64 bits then pushLong (toInt64 bits)
    else pushCall (.doubleWithTag bits) (.double bits)

variable [DecidableEq O]

/-- `wson_push_js_value`. -/
def pushJsValue (objectStack : List O) : JSValue O → StateM W (List Store × Visit O)
  | .empty | .null | .undefined => pure pushNull
  | .string s => pure (pushString e s)
  | .int32 num => pure (pushInt num)
  | .double bits => pure (pushDouble E toInt64 bits)
  | .boolean value => pure (pushBoolean value)
  | .symbol => pure pushNull
  | .object o =>
    match E.kind o with
    | .array =>
      if _h : o ∈ objectStack ∨ maxDeep < objectStack.length then pure pushNull
      else do
        let length ← E.length o
        let (stores, visits) ← pushElements E (fun ele => pushJsValue (objectStack ++ [o]) ele) o
          length.toNat 0
        return ((Call.typeArray length).stores .c ++ stores, .array visits)
    | .stringObject => do return pushString e (← E.toString o)
    | .numberObject => do
      match ← E.toNumber o with
      | .inl num => return pushInt num
      | .inr bits =>
        match E.asAnyInt bits with
        | some num => return pushLong num
        -- `val.isDouble()` asks the object here, too
        | none => return pushString e (E.numberText bits)
    | .booleanObject => do
      match ← E.toPrimitive o with
      | .boolean true => return pushBoolean true
      | _ => return pushBoolean false
    | .function => pure pushNull
    | .plain =>
      if _h : o ∈ objectStack ∨ maxDeep < objectStack.length then pure pushNull
      else do
        let names ← E.getOwnPropertyNames o
        let first ← readProperties E o names
        let (stores, second, entries) ← pushProperties E e
          (fun value => pushJsValue (objectStack ++ [o]) value) o names
        return ((Call.typeMap (headerSize E first)).stores .c ++ stores, .object first second entries)
termination_by maxDeep + 1 - objectStack.length
decreasing_by
  all_goals
    rw [not_or] at _h
    rw [List.length_append, List.length_singleton]
    omega

end Encoder

section Decoder

variable {N : Type} (V : Vm N) (e : Endian)

/-- Whether the VM has an atomic string of these units when the decoder stands at a position. It
moves on between any two identifiers that it makes, so that this can change from one to the next. -/
abbrev AtomicStrings :=
  Nat → Utf16 → Bool

variable (atomic : AtomicStrings)

/-- `makeIdentifer`: the units of a new slot are those of a `String`, of which the identifier is
made. Where the VM has an equal atomic string, the identifier is that one, and the `String` is
freed at the end of the call. -/
def makeIdentifer (utf16 length : Nat) : DecoderM Utf16 :=
  makeIdentiferTo e (fun position units => if atomic position units then .freed else .units units)
    utf16 length

/-- The switch of `wson_to_js_value`, which has no case for texts in UTF-8. -/
def readValue (child : DecoderM (Decoded N)) (type : Byte) : DecoderM (Decoded N) :=
  match Doc.Kind.ofTag type with
  | some .uint8String => return .null
  | _ => Jsc.readValue V e (makeIdentifer e atomic) child type

def wsonToJsValue : Nat → DecoderM (Decoded N)
  | 0 => throw .stackOverflow
  | n + 1 => do readValue V e atomic (wsonToJsValue n) (← onBuffer (Buffer.readType .c))

end Decoder

/-! ## The other numbers -/

section Renumbered

variable {O : Type} (toInt64 : BitVec 64 → BitVec 64)

mutual

/-- The document with every double that is taken for an integer as a long. -/
def renumbered : Doc → Doc
  | .double bits => if isInt64Number toInt64 bits then .long (toInt64 bits) else .double bits
  | .array ds => .array (renumberedItems ds)
  | .map es => .map (renumberedEntries es)
  | d => d

def renumberedItems : List Doc → List Doc
  | [] => []
  | d :: ds => renumbered d :: renumberedItems ds

def renumberedEntries : List (Utf16 × Doc) → List (Utf16 × Doc)
  | [] => []
  | (k, d) :: es => (k, renumbered d) :: renumberedEntries es

end

theorem keys_renumbered (es : List (Utf16 × Doc)) :
    (renumberedEntries toInt64 es).map Prod.fst = es.map Prod.fst := by
  induction es with
  | nil => rfl
  | cons x es ih =>
    obtain ⟨k, d⟩ := x
    rw [renumberedEntries, List.map_cons, List.map_cons, ih]

theorem length_renumberedItems (ds : List Doc) : (renumberedItems toInt64 ds).length = ds.length := by
  induction ds with
  | nil => rfl
  | cons d ds ih => rw [renumberedItems, List.length_cons, List.length_cons, ih]

variable {toInt64}

mutual

theorem height_renumbered : ∀ d : Doc, (renumbered toInt64 d).height = d.height
  | .null | .boolean _ | .int _ | .long _ | .float _ | .text _ _ | .uint8String _ => rfl
  | .double bits => by
    rw [renumbered]
    split <;> rfl
  | .array ds => congrArg Nat.succ (heightItems_renumbered ds)
  | .map es => congrArg Nat.succ (heightEntries_renumbered es)

theorem heightItems_renumbered : ∀ ds : List Doc,
    Doc.heightItems (renumberedItems toInt64 ds) = Doc.heightItems ds
  | [] => rfl
  | d :: ds => by
    rw [renumberedItems, Doc.heightItems, Doc.heightItems, height_renumbered d, heightItems_renumbered ds]

theorem heightEntries_renumbered : ∀ es : List (Utf16 × Doc),
    Doc.heightEntries (renumberedEntries toInt64 es) = Doc.heightEntries es
  | [] => rfl
  | entry :: es => by
    obtain ⟨_, d⟩ := entry
    rw [renumberedEntries, Doc.heightEntries, Doc.heightEntries, height_renumbered d,
      heightEntries_renumbered es]

end

mutual

theorem distinctKeys_renumbered : ∀ {d : Doc}, DistinctKeys d → DistinctKeys (renumbered toInt64 d)
  | .null, _ | .boolean _, _ | .int _, _ | .long _, _ | .float _, _ | .text _ _, _ | .uint8String _, _ =>
    trivial
  | .double bits, _ => by
    rw [renumbered]
    split <;> trivial
  | .array _, h => distinctKeysItems_renumbered h
  | .map es, h => ⟨(keys_renumbered toInt64 es).symm ▸ h.1, distinctKeysEntries_renumbered h.2⟩

theorem distinctKeysItems_renumbered : ∀ {ds : List Doc}, DistinctKeysItems ds →
    DistinctKeysItems (renumberedItems toInt64 ds)
  | [], _ => trivial
  | _ :: _, h => ⟨distinctKeys_renumbered h.1, distinctKeysItems_renumbered h.2⟩

theorem distinctKeysEntries_renumbered : ∀ {es : List (Utf16 × Doc)}, DistinctKeysEntries es →
    DistinctKeysEntries (renumberedEntries toInt64 es)
  | [], _ => trivial
  | (_, _) :: _, h => ⟨distinctKeys_renumbered h.1, distinctKeysEntries_renumbered h.2⟩

end

mutual

/-- What holds of the leaves holds of those of the new document, if longs are covered. -/
theorem leaves_renumbered {leaf : Doc → Prop} {key : Utf16 → Prop} (hlong : ∀ num, leaf (.long num)) :
    ∀ {d : Doc}, d.Leaves leaf key → (renumbered toInt64 d).Leaves leaf key
  | .null, h | .boolean _, h | .int _, h | .long _, h | .float _, h | .text _ _, h | .uint8String _, h => h
  | .double bits, h => by
    rw [renumbered]
    split
    · exact hlong _
    · exact h
  | .array _, h => leavesItems_renumbered hlong h
  | .map _, h => leavesEntries_renumbered hlong h

theorem leavesItems_renumbered {leaf : Doc → Prop} {key : Utf16 → Prop} (hlong : ∀ num, leaf (.long num)) :
    ∀ {ds : List Doc}, Doc.LeavesItems leaf key ds → Doc.LeavesItems leaf key (renumberedItems toInt64 ds)
  | [], _ => trivial
  | _ :: _, h => ⟨leaves_renumbered hlong h.1, leavesItems_renumbered hlong h.2⟩

theorem leavesEntries_renumbered {leaf : Doc → Prop} {key : Utf16 → Prop} (hlong : ∀ num, leaf (.long num)) :
    ∀ {es : List (Utf16 × Doc)}, Doc.LeavesEntries leaf key es →
      Doc.LeavesEntries leaf key (renumberedEntries toInt64 es)
  | [], _ => trivial
  | (_, _) :: _, h => ⟨h.1, leaves_renumbered hlong h.2.1, leavesEntries_renumbered hlong h.2.2⟩

end

/-- A double that is taken for an integer is that integer. -/
theorem ofInt_toInt64 {bits : BitVec 64} (h : isInt64Number toInt64 bits = true) :
    Binary64.ofInt (toInt64 bits).toInt = bits := by
  rw [isInt64Number, Bool.and_eq_true, decide_eq_true_eq] at h
  obtain ⟨hlarge, hsub⟩ := h
  refine (Binary64.eq_of_sub ?_ hsub).symm
  cases hv : Binary64.value bits with
  | nan =>
    rw [hv] at hlarge
    cases hlarge
  | infinity negative =>
    rw [hv] at hlarge
    exact hlarge
  | finite q =>
    rw [hv] at hlarge
    have hq : (2 : ℚ) ^ 50 < q := of_decide_eq_true hlarge
    exact decide_eq_true (lt_trans (by positivity) hq)

variable {N : Type} {V : Vm N}

mutual

/-- **The numbers are the same** in JavaScript, where a long is taken for its double. -/
theorem decoded_renumbered (hlong : ∀ num, V.ofInt64 num = V.ofDouble (Binary64.ofInt num.toInt)) :
    ∀ d : Doc, decoded V (renumbered toInt64 d) = decoded V d
  | .null | .boolean _ | .int _ | .long _ | .float _ | .text _ _ | .uint8String _ => rfl
  | .double bits => by
    rw [renumbered]
    split
    · next h => rw [decoded, decoded, hlong, ofInt_toInt64 h]
    · rfl
  | .array ds => congrArg Decoded.array (decodedItems_renumbered hlong ds)
  | .map es => congrArg Decoded.object (decodedEntries_renumbered hlong es)

theorem decodedItems_renumbered (hlong : ∀ num, V.ofInt64 num = V.ofDouble (Binary64.ofInt num.toInt)) :
    ∀ ds : List Doc, decodedItems V (renumberedItems toInt64 ds) = decodedItems V ds
  | [] => rfl
  | d :: ds => by
    rw [renumberedItems, decodedItems, decodedItems, decoded_renumbered hlong d, decodedItems_renumbered hlong ds]

theorem decodedEntries_renumbered (hlong : ∀ num, V.ofInt64 num = V.ofDouble (Binary64.ofInt num.toInt)) :
    ∀ es : List (Utf16 × Doc), decodedEntries V (renumberedEntries toInt64 es) = decodedEntries V es
  | [] => rfl
  | entry :: es => by
    obtain ⟨k, d⟩ := entry
    rw [renumberedEntries, decodedEntries, decodedEntries, decoded_renumbered hlong d,
      decodedEntries_renumbered hlong es]

end

end Renumbered

/-! ## The encoders -/

section Visits

variable {O : Type} (toInt64 : BitVec 64 → BitVec 64)

mutual

/-- The run with the other numbers. -/
def visitRenumbered : Visit O → Visit O
  | .scalar d => .scalar (renumbered toInt64 d)
  | .array items => .array (itemsRenumbered items)
  | .object first second entries => .object first second (entriesRenumbered entries)

def itemsRenumbered : List (Visit O) → List (Visit O)
  | [] => []
  | v :: vs => visitRenumbered v :: itemsRenumbered vs

def entriesRenumbered : List (Utf16 × Visit O) → List (Utf16 × Visit O)
  | [] => []
  | (k, v) :: es => (k, visitRenumbered v) :: entriesRenumbered es

end

variable {toInt64}

mutual

theorem doc_visitRenumbered : ∀ v : Visit O, (visitRenumbered toInt64 v).doc = renumbered toInt64 v.doc
  | .scalar _ => rfl
  | .array items => congrArg Doc.array (docItems_itemsRenumbered items)
  | .object _ _ entries => congrArg Doc.map (docEntries_entriesRenumbered entries)

theorem docItems_itemsRenumbered : ∀ vs : List (Visit O),
    Visit.docItems (itemsRenumbered toInt64 vs) = renumberedItems toInt64 (Visit.docItems vs)
  | [] => rfl
  | v :: vs => by
    rw [itemsRenumbered, Visit.docItems, Visit.docItems, renumberedItems, doc_visitRenumbered v,
      docItems_itemsRenumbered vs]

theorem docEntries_entriesRenumbered : ∀ es : List (Utf16 × Visit O),
    Visit.docEntries (entriesRenumbered toInt64 es) = renumberedEntries toInt64 (Visit.docEntries es)
  | [] => rfl
  | (_, v) :: es => by
    rw [entriesRenumbered, Visit.docEntries, Visit.docEntries, renumberedEntries, doc_visitRenumbered v,
      docEntries_entriesRenumbered es]

end

variable {W : Type} {E : Engine O W}

mutual

/-- The passes over the properties are the same. -/
theorem steady_visitRenumbered : ∀ {v : Visit O}, v.Steady E → (visitRenumbered toInt64 v).Steady E
  | .scalar _, _ => trivial
  | .array _, h => steadyItems_itemsRenumbered h
  | .object _ _ _, h => ⟨h.1, steadyEntries_entriesRenumbered h.2⟩

theorem steadyItems_itemsRenumbered : ∀ {vs : List (Visit O)}, Visit.SteadyItems E vs →
    Visit.SteadyItems E (itemsRenumbered toInt64 vs)
  | [], _ => trivial
  | _ :: _, h => ⟨steady_visitRenumbered h.1, steadyItems_itemsRenumbered h.2⟩

theorem steadyEntries_entriesRenumbered : ∀ {es : List (Utf16 × Visit O)}, Visit.SteadyEntries E es →
    Visit.SteadyEntries E (entriesRenumbered toInt64 es)
  | [], _ => trivial
  | (_, _) :: _, h => ⟨steady_visitRenumbered h.1, steadyEntries_entriesRenumbered h.2⟩

end

end Visits

section Alike

variable {O W : Type} {E : Engine O W} {e : Endian} {toInt64 : BitVec 64 → BitVec 64}

/-- The document has no text in UTF-8. -/
abbrev NoUtf8 : Doc → Prop :=
  Doc.AllLeaves fun u => u.kind ≠ .uint8String

/-- The second run has met what the first one has, up to the numbers. -/
def SameVisit (toInt64 : BitVec 64 → BitVec 64) (p q : List Store × Visit O) : Prop :=
  q.2 = visitRenumbered toInt64 p.2 ∧ NoUtf8 p.2.doc

theorem sameVisit_scalar {call call' : Call} {d : Doc} (hsame : renumbered toInt64 d = d) (hd : NoUtf8 d) :
    SameVisit (O := O) toInt64 (pushCall call d) (pushCall call' d) :=
  ⟨congrArg Visit.scalar hsame.symm, hd⟩

theorem sameVisit_pushString (s : JsString) :
    SameVisit (O := O) toInt64 (pushString e s) (pushString e s) :=
  ⟨rfl, Doc.Kind.noConfusion⟩

theorem sameVisit_pushDouble (bits : BitVec 64) :
    SameVisit (O := O) toInt64 (Jsc.pushDouble E bits) (pushDouble E toInt64 bits) := by
  unfold Jsc.pushDouble pushDouble
  cases E.asAnyInt bits with
  | some num => exact sameVisit_scalar rfl Doc.Kind.noConfusion
  | none =>
    refine ⟨?_, Doc.Kind.noConfusion⟩
    show _ = Visit.scalar (renumbered toInt64 (.double bits))
    dsimp only
    rw [renumbered]
    split <;> rfl

variable {push push' : JSValue O → StateM W (List Store × Visit O)}

theorem pushElements_alike (hpush : ∀ val, Alike (SameVisit toInt64) (push val) (push' val)) (array : O)
    (k : Nat) (index : BitVec 32) :
    Alike (fun p q => q.2 = itemsRenumbered toInt64 p.2 ∧
        Doc.LeavesItems (fun u => u.kind ≠ .uint8String) (fun _ => True) (Visit.docItems p.2))
      (pushElements E push array k index) (pushElements E push' array k index) := by
  induction k generalizing index with
  | zero => exact alike_pure ⟨rfl, trivial⟩
  | succ k ih =>
    unfold pushElements
    refine .bind_same fun ele => .bind_same fun ele => ?_
    refine (hpush ele).bind fun p q hpq => (ih (index + 1)).bind fun p' q' hrest => alike_pure ⟨?_, ?_⟩
    · rw [hpq.1, hrest.1, itemsRenumbered]
    · exact ⟨hpq.2, hrest.2⟩

theorem pushProperties_alike (hpush : ∀ val, Alike (SameVisit toInt64) (push val) (push' val)) (object : O)
    (names : List JsString) :
    Alike (fun p q => q.2.1 = p.2.1 ∧ q.2.2 = entriesRenumbered toInt64 p.2.2 ∧
        Doc.LeavesEntries (fun u => u.kind ≠ .uint8String) (fun _ => True) (Visit.docEntries p.2.2))
      (pushProperties E e push object names) (pushProperties E e push' object names) := by
  induction names with
  | nil => exact alike_pure ⟨rfl, rfl, trivial⟩
  | cons propertyName names ih =>
    unfold pushProperties
    refine .bind_same fun answer => ?_
    cases answer with
    | none => exact ih.bind fun p q hpq => alike_pure ⟨by rw [hpq.1], hpq.2⟩
    | some propertyValue =>
      dsimp only
      split
      · exact ih.bind fun p q hpq => alike_pure ⟨by rw [hpq.1], hpq.2⟩
      · refine .bind_same fun value => ?_
        refine (hpush value).bind fun p q hpq => ih.bind fun p' q' hrest => alike_pure ⟨?_, ?_, ?_⟩
        · rw [hrest.1]
        · rw [hpq.1, hrest.2.1, entriesRenumbered]
        · exact ⟨trivial, hpq.2, hrest.2.2⟩

variable [DecidableEq O]

/-- **In step**: both encoders lead the engine through the same states, and meet the same values up to
the numbers. -/
theorem pushJsValue_alike : ∀ (k : Nat) (objectStack : List O), maxDeep + 1 - objectStack.length = k →
    ∀ val, Alike (SameVisit toInt64) (Jsc.pushJsValue E e objectStack val)
      (pushJsValue E e toInt64 objectStack val) := by
  intro k
  induction k using Nat.strong_induction_on with
  | _ k ih =>
    intro objectStack hk val
    -- both encoders cut at the same objects and at the same depth
    have hpush (o : O) (hdeep : ¬(o ∈ objectStack ∨ maxDeep < objectStack.length)) :
        ∀ val, Alike (SameVisit toInt64) (Jsc.pushJsValue E e (objectStack ++ [o]) val)
          (pushJsValue E e toInt64 (objectStack ++ [o]) val) := by
      rw [not_or] at hdeep
      refine ih _ ?_ _ rfl
      rw [List.length_append, List.length_singleton]
      omega
    cases val with
    | empty | null | undefined | symbol | int32 num | boolean value =>
      rw [Jsc.pushJsValue, pushJsValue]
      exact alike_pure (sameVisit_scalar rfl Doc.Kind.noConfusion)
    | string s =>
      rw [Jsc.pushJsValue, pushJsValue]
      exact alike_pure (sameVisit_pushString s)
    | double bits =>
      rw [Jsc.pushJsValue, pushJsValue]
      exact alike_pure (sameVisit_pushDouble bits)
    | object o =>
      rw [Jsc.pushJsValue, pushJsValue]
      cases E.kind o with
      | function => exact alike_pure (sameVisit_scalar rfl Doc.Kind.noConfusion)
      | stringObject => exact .bind_same fun s => alike_pure (sameVisit_pushString s)
      | booleanObject =>
        refine .bind_same fun value => ?_
        cases value with
        | boolean b => cases b <;> exact alike_pure (sameVisit_scalar rfl Doc.Kind.noConfusion)
        | _ => exact alike_pure (sameVisit_scalar rfl Doc.Kind.noConfusion)
      | numberObject =>
        refine .bind_same fun number => ?_
        cases number with
        | inl num => exact alike_pure (sameVisit_scalar rfl Doc.Kind.noConfusion)
        | inr bits =>
          dsimp only
          cases E.asAnyInt bits with
          | some num => exact alike_pure (sameVisit_scalar rfl Doc.Kind.noConfusion)
          | none => exact alike_pure (sameVisit_pushString _)
      | array =>
        dsimp only
        split
        · exact alike_pure (sameVisit_scalar rfl Doc.Kind.noConfusion)
        · next hdeep =>
          refine .bind_same fun length => ?_
          refine (pushElements_alike (hpush o hdeep) o length.toNat 0).bind fun p q hpq => alike_pure ⟨?_, hpq.2⟩
          show Visit.array q.2 = Visit.array (itemsRenumbered toInt64 p.2)
          rw [hpq.1]
      | plain =>
        dsimp only
        split
        · exact alike_pure (sameVisit_scalar rfl Doc.Kind.noConfusion)
        · next hdeep =>
          refine .bind_same fun names => .bind_same fun first => ?_
          refine (pushProperties_alike (hpush o hdeep) o names).bind fun p q hpq => alike_pure ⟨?_, hpq.2.2⟩
          show Visit.object first q.2.1 q.2.2 = Visit.object first p.2.1 (entriesRenumbered toInt64 p.2.2)
          rw [hpq.1, hpq.2.1]

end Alike

/-! ## What the encoder writes -/

section Agrees

open Buffer Visit

variable {O W : Type} {E : Engine O W} {e : Endian} {toInt64 : BitVec 64 → BitVec 64}

theorem agrees_pushDouble (bits : BitVec 64) : Agrees E e (pushDouble E toInt64 bits) := by
  unfold pushDouble
  cases E.asAnyInt bits with
  | some num => exact agrees_pushLong num
  | none =>
    dsimp only
    split
    · exact agrees_pushLong _
    · exact agrees_pushCall trivial rfl

variable [DecidableEq O]

/-- The stores hold the bytes of the visit. -/
theorem agrees_pushJsValue : ∀ (k : Nat) (objectStack : List O), maxDeep + 1 - objectStack.length = k →
    ∀ val, Always (pushJsValue E e toInt64 objectStack val) (Agrees E e) := by
  intro k
  induction k using Nat.strong_induction_on with
  | _ k ih =>
    intro objectStack hk val
    have hpush (o : O) (hdeep : ¬(o ∈ objectStack ∨ maxDeep < objectStack.length)) :
        ∀ val, Always (pushJsValue E e toInt64 (objectStack ++ [o]) val) (Agrees E e) := by
      rw [not_or] at hdeep
      refine ih _ ?_ _ rfl
      rw [List.length_append, List.length_singleton]
      omega
    cases val with
    | double bits =>
      rw [pushJsValue]
      exact always_pure (agrees_pushDouble bits)
    | object o =>
      -- as it is written, but for what is below it
      rw [pushJsValue]
      cases hkind : E.kind o with
      | function => exact always_pure agrees_pushNull
      | stringObject => exact (always_true _).bind fun s _ => always_pure (agrees_pushString s)
      | booleanObject =>
        refine (always_true _).bind fun value _ => ?_
        split <;> exact always_pure (agrees_pushBoolean _)
      | numberObject =>
        refine (always_true _).bind fun number _ => ?_
        cases number with
        | inl num => exact always_pure (agrees_pushInt num)
        | inr bits =>
          dsimp only
          split
          · exact always_pure (agrees_pushLong _)
          · exact always_pure (agrees_pushString _)
      | array =>
        dsimp only
        split
        · exact always_pure agrees_pushNull
        · next hdeep =>
          refine (always_true _).bind fun length _ => ?_
          refine (agrees_pushElements (hpush o hdeep) o length.toNat 0).bind fun p hp => ?_
          refine always_pure ⟨?_, ⟨by rw [hp.2.1]; exact length.isLt, hp.2.2.1⟩, ?_⟩
          · show Tag.array :: (encode length.toNat ++ stored p.1) = _
            rw [hp.1, bytes, hp.2.1]
          · exact List.forall_mem_append.mpr ⟨(Call.typeArray length).tight_of_mem_stores .c, hp.2.2.2⟩
      | plain =>
        dsimp only
        split
        · exact always_pure agrees_pushNull
        · next hdeep =>
          refine (always_true _).bind fun names _ => ?_
          refine (length_readProperties o names).bind fun first hfirst => ?_
          refine (agrees_pushProperties (hpush o hdeep) o names).bind fun p hp => ?_
          refine always_pure ⟨?_, ⟨hfirst.trans_lt names.property, hp.2.1.trans_lt names.property,
            hp.2.2.1, hp.2.2.2.1⟩, ?_⟩
          · show Tag.map :: (encode (headerSize E first).toNat ++ stored p.1) = _
            rw [hp.1, bytes]
          · exact List.forall_mem_append.mpr
              ⟨(Call.typeMap (headerSize E first)).tight_of_mem_stores .c, hp.2.2.2.2⟩
    | empty | null | undefined | symbol =>
      rw [pushJsValue]
      exact always_pure agrees_pushNull
    | string s =>
      rw [pushJsValue]
      exact always_pure (agrees_pushString s)
    | int32 num =>
      rw [pushJsValue]
      exact always_pure (agrees_pushInt num)
    | boolean value =>
      rw [pushJsValue]
      exact always_pure (agrees_pushBoolean value)

end Agrees

/-! ## The decoder -/

section Tables

variable {N : Type} {V : Vm N} {e : Endian} {atomic : AtomicStrings}

theorem keeps_makeIdentifer (ptr length : Nat) :
    Preserves (KeepsSlots Slot.Sound) (makeIdentifer e atomic ptr length) := by
  refine keeps_makeIdentiferTo e ptr length fun position units _ hlength _ => ⟨units, ?_, rfl, hlength⟩
  show (if atomic position units then UnitsPtr.freed else .units units) = _ ∨ _ = UnitsPtr.freed
  split
  · exact .inr rfl
  · exact .inl rfl

/-- A decode keeps what its lookups keep. -/
theorem keeps_wsonToJsValue {valid : Slot → Prop}
    (hmake : ∀ ptr length, Preserves (KeepsSlots valid) (makeIdentifer e atomic ptr length)) :
    ∀ n : Nat, Preserves (KeepsSlots valid) (wsonToJsValue V e atomic n)
  | 0 => keeps_throw _
  | n + 1 => by
    refine keeps_bind (keeps_onBuffer _) fun type => ?_
    unfold readValue
    split
    · exact keeps_pure _
    · exact keeps_readValue hmake (keeps_wsonToJsValue hmake n) type

/-- The VM never has an equal atomic string. -/
def unshared : AtomicStrings :=
  fun _ _ => false

/-- Then nothing is freed, and the slots are those of the other file. -/
theorem makeIdentifer_unshared : makeIdentifer e unshared = Jsc.makeIdentifer e :=
  rfl

/-- **In step**: what the VM has changes nothing, unless a key is compared with units that have been
freed. -/
theorem simulates_wsonToJsValue (n : Nat) :
    SimulatesUnless (· = .freed) (Alongside Slot.Sound) Eq (wsonToJsValue V e atomic n)
      (wsonToJsValue V e unshared n) := by
  induction n with
  | zero => exact (simulates_throw _).unless
  | succ n ih =>
    refine (simulates_onBuffer _).unless.bind_eq fun type => ?_
    unfold readValue
    split
    · exact (simulates_pure rfl).unless
    · exact simulates_readValue (fun ptr length =>
        simulates_makeIdentiferTo (fun _ h => h.answers) (keeps_makeIdentifer ptr length)) ih type

end Tables

section Reading

variable {N : Type} {V : Vm N} {e : Endian} {data : Bytes}

theorem readValue_eq {kind : Doc.Kind} (hkind : kind ≠ .uint8String) (child : DecoderM (Decoded N)) :
    readValue V e unshared child kind.tag = Jsc.readValue V e (Jsc.makeIdentifer e) child kind.tag := by
  rw [readValue, Doc.Kind.ofTag_tag, makeIdentifer_unshared]
  cases kind with
  | uint8String => exact absurd rfl hkind
  | _ => rfl

/-- A tag is read, and then the value behind it as in the other file. -/
theorem consumes_tagged (hdata : data.length < 2 ^ Library.bits .c) {n : Nat} (kind : Doc.Kind)
    (hkind : kind ≠ .uint8String) {bs : Bytes} {v : Decoded N}
    (h : Consumes data (AtDecoder data)
      (returns (Jsc.readValue V e (Jsc.makeIdentifer e) (wsonToJsValue V e unshared n) kind.tag)) bs v) :
    Consumes data (AtDecoder data) (returns (wsonToJsValue V e unshared (n + 1))) (kind.tag :: bs) v := by
  rw [wsonToJsValue, returns_bind_eq]
  refine (consumes_onBuffer (Buffer.consumes_readType hdata kind.tag)).bind ?_
  rw [readValue_eq hkind]
  exact h

/-- A value without parts is read as in the other file. -/
theorem consumes_leaf (hdata : data.length < 2 ^ Library.bits .c) (hindex : V.CanonicalIndex) {d : Doc}
    {bs : Bytes} {n : Nat} (hleaf : d.IsLeaf) (hd : d.Encodes e bs) (hutf8 : NoUtf8 d) :
    Consumes data (AtDecoder data) (returns (wsonToJsValue V e unshared (n + 1))) bs (decoded V d) := by
  obtain ⟨tl, rfl⟩ := hd.head
  have hkind : d.kind ≠ .uint8String := by
    cases d <;> first | exact hutf8 | exact hleaf.elim
  have hdistinct : DistinctKeys d := by
    cases d <;> trivial
  have hheight : d.height < 1 := by
    cases d <;> first | exact Nat.zero_lt_one | exact hleaf.elim
  have hpart : Jsc.readValue V e (Jsc.makeIdentifer e) (wsonToJsValue V e unshared n) d.kind.tag =
      Jsc.readValue V e (Jsc.makeIdentifer e) (Jsc.wsonToJsValue V e 0) d.kind.tag := by
    rw [Jsc.readValue, Jsc.readValue, Doc.Kind.ofTag_tag]
    cases d <;> first | rfl | exact hleaf.elim
  intro dec p rest hat hdrop
  obtain ⟨dec', hrun, hat'⟩ := Jsc.consumes_wsonToJsValue hdata hindex hd (Doc.leaves_of_isLeaf hleaf trivial)
    hdistinct hutf8 hheight dec p rest hat hdrop
  obtain ⟨dec₁, htype, -⟩ := consumes_onBuffer (Buffer.consumes_readType hdata d.kind.tag) dec p (tl ++ rest)
    hat hdrop
  refine ⟨dec', ?_, hat'⟩
  rw [← hrun, wsonToJsValue, Jsc.wsonToJsValue, returns_bind, returns_bind, htype, Option.bind_some,
    Option.bind_some, readValue_eq hkind, hpart]

mutual

/-- **Without texts in UTF-8**, a document is decoded to the value that it stands for. -/
theorem consumes_wsonToJsValue (hdata : data.length < 2 ^ Library.bits .c) (hindex : V.CanonicalIndex) :
    ∀ {d : Doc} {bs : Bytes} {n : Nat}, d.Encodes e bs → ShortKeys d → DistinctKeys d → NoUtf8 d →
      d.height < n → Consumes data (AtDecoder data) (returns (wsonToJsValue V e unshared n)) bs (decoded V d)
  | .null, _, _ + 1, hd, _, _, hleaves, _ | .boolean _, _, _ + 1, hd, _, _, hleaves, _
  | .int _, _, _ + 1, hd, _, _, hleaves, _ | .long _, _, _ + 1, hd, _, _, hleaves, _
  | .float _, _, _ + 1, hd, _, _, hleaves, _ | .double _, _, _ + 1, hd, _, _, hleaves, _
  | .text _ _, _, _ + 1, hd, _, _, hleaves, _ | .uint8String _, _, _ + 1, hd, _, _, hleaves, _ =>
    consumes_leaf hdata hindex trivial hd hleaves
  | .array ds, _, n + 1, ⟨h, body, hc, hds, hd⟩, hshort, hdistinct, hleaves, hn => by
    obtain rfl := hd
    refine consumes_tagged hdata .array Doc.Kind.noConfusion ?_
    have hitems := consumes_readElements hdata hindex hds hshort hdistinct hleaves
      (Nat.lt_of_succ_lt_succ hn) []
    show Consumes data (AtDecoder data) (returns do
      let length ← onBuffer (Buffer.readVarUint .c)
      return Decoded.array (← readElements (wsonToJsValue V e unshared n) length.toNat [])) _ _
    rw [returns_bind_eq]
    refine (consumes_onBuffer (Buffer.consumes_readVarUint hdata hc)).bind ?_
    rw [BitVec.toNat_ofNat, Nat.mod_eq_of_lt hc.fits]
    exact consumes_wrap hitems
  | .map es, _, n + 1, ⟨h, body, hc, hes, hd⟩, hshort, hdistinct, hleaves, hn => by
    obtain rfl := hd
    refine consumes_tagged hdata .map Doc.Kind.noConfusion ?_
    have hentries := consumes_readEntries hdata hindex hes hshort hdistinct.1 hdistinct.2 hleaves
      (Nat.lt_of_succ_lt_succ hn) [] fun _ _ => List.not_mem_nil
    show Consumes data (AtDecoder data) (returns do
      let length ← onBuffer (Buffer.readVarUint .c)
      return Decoded.object
        (← readEntries V (Jsc.makeIdentifer e) (wsonToJsValue V e unshared n) length.toNat [])) _ _
    rw [returns_bind_eq]
    refine (consumes_onBuffer (Buffer.consumes_readVarUint hdata hc)).bind ?_
    rw [BitVec.toNat_ofNat, Nat.mod_eq_of_lt hc.fits]
    exact consumes_wrap hentries

theorem consumes_readElements (hdata : data.length < 2 ^ Library.bits .c) (hindex : V.CanonicalIndex) :
    ∀ {ds : List Doc} {bs : Bytes} {n : Nat}, Doc.EncodesItems e ds bs →
      Doc.LeavesItems (fun _ => True) ShortKey ds → DistinctKeysItems ds →
        Doc.LeavesItems (fun u => u.kind ≠ .uint8String) (fun _ => True) ds → Doc.heightItems ds < n →
          ∀ items, Consumes data (AtDecoder data)
            (returns (readElements (wsonToJsValue V e unshared n) ds.length items)) bs (items ++ decodedItems V ds)
  | [], _, _, hd, _, _, _, _, items => by
    obtain rfl := hd
    rw [decodedItems, List.append_nil]
    exact consumes_pure _
  | d :: ds, _, n, ⟨b₁, b₂, h₁, h₂, hd⟩, hshort, hdistinct, hleaves, hn, items => by
    obtain rfl := hd
    rw [Doc.heightItems, Nat.max_lt] at hn
    have hvalue := consumes_wsonToJsValue hdata hindex h₁ hshort.1 hdistinct.1 hleaves.1 hn.1
    have hrest := consumes_readElements hdata hindex h₂ hshort.2 hdistinct.2 hleaves.2 hn.2
      (items ++ [decoded V d])
    rw [List.append_assoc, List.singleton_append] at hrest
    rw [List.length_cons, readElements]
    refine consumes_hasNext (List.append_ne_nil_of_left_ne_nil (List.ne_nil_of_length_pos h₁.length_pos) _) ?_
    rw [returns_bind_eq]
    exact hvalue.bind hrest

theorem consumes_readEntries (hdata : data.length < 2 ^ Library.bits .c) (hindex : V.CanonicalIndex) :
    ∀ {es : List (Utf16 × Doc)} {bs : Bytes} {n : Nat}, Doc.EncodesEntries e es bs →
      Doc.LeavesEntries (fun _ => True) ShortKey es → (es.map Prod.fst).Nodup → DistinctKeysEntries es →
        Doc.LeavesEntries (fun u => u.kind ≠ .uint8String) (fun _ => True) es → Doc.heightEntries es < n →
          ∀ properties, (∀ x ∈ es, V.propertyKey x.1 ∉ properties.map Prod.fst) →
            Consumes data (AtDecoder data)
              (returns (readEntries V (Jsc.makeIdentifer e) (wsonToJsValue V e unshared n) es.length properties)) bs
              (properties ++ decodedEntries V es)
  | [], _, _, hd, _, _, _, _, _, properties, _ => by
    obtain rfl := hd
    rw [decodedEntries, List.append_nil]
    exact consumes_pure _
  | (k, d) :: es, _, n, ⟨h, b₁, b₂, hk, h₁, h₂, hd⟩, hshort, hnodup, hdistinct, hleaves, hn,
      properties, hnew => by
    obtain rfl := hd
    rw [Doc.heightEntries, Nat.max_lt] at hn
    rw [List.map_cons, List.nodup_cons] at hnodup
    rw [List.forall_mem_cons] at hnew
    have hvalue := consumes_wsonToJsValue hdata hindex h₁ hshort.2.1 hdistinct.1 hleaves.2.1 hn.1
    have hrest := consumes_readEntries hdata hindex h₂ hshort.2.2 hnodup.2 hdistinct.2 hleaves.2.2 hn.2
      (properties ++ [(V.propertyKey k, decoded V d)]) fun x hx => by
        rw [List.map_append, List.mem_append, not_or]
        refine ⟨hnew.2 x hx, fun hmem => hnodup.1 ?_⟩
        rw [← hindex.propertyKey_injective (List.mem_singleton.mp hmem)]
        exact List.mem_map.mpr ⟨x, hx, rfl⟩
    rw [List.append_assoc, List.singleton_append, ← putProperty_of_new hnew.1] at hrest
    rw [List.length_cons, readEntries, List.append_assoc]
    refine consumes_hasNext (List.append_ne_nil_of_right_ne_nil _ (List.append_ne_nil_of_left_ne_nil
      (List.ne_nil_of_length_pos h₁.length_pos) _)) ?_
    rw [← readIdentifer_bind, returns_bind_eq]
    refine (consumes_readIdentifer hdata hk hshort.1).bind ?_
    rw [returns_bind_eq]
    exact hvalue.bind hrest

end

end Reading

/-! ## Four ways -/

section Length

variable {toInt64 : BitVec 64 → BitVec 64} {e : Endian}

mutual

/-- A long has as many bytes as a double. -/
theorem length_encode_renumbered : ∀ d : Doc, ((renumbered toInt64 d).encode e).length = (d.encode e).length
  | .null | .boolean _ | .int _ | .long _ | .float _ | .text _ _ | .uint8String _ => rfl
  | .double bits => by
    rw [renumbered]
    split <;> rfl
  | .array ds => by
    rw [renumbered, Doc.encode, Doc.encode, length_renumberedItems toInt64 ds, List.length_cons, List.length_cons,
      List.length_append, List.length_append, length_encodeItems_renumbered ds]
  | .map es => by
    have hcount : (renumberedEntries toInt64 es).length = es.length := by
      simpa only [List.length_map] using congrArg List.length (keys_renumbered toInt64 es)
    rw [renumbered, Doc.encode, Doc.encode, hcount, List.length_cons, List.length_cons,
      List.length_append, List.length_append, length_encodeEntries_renumbered es]

theorem length_encodeItems_renumbered : ∀ ds : List Doc,
    (Doc.encodeItems e (renumberedItems toInt64 ds)).length = (Doc.encodeItems e ds).length
  | [] => rfl
  | d :: ds => by
    rw [renumberedItems, Doc.encodeItems, Doc.encodeItems, List.length_append, List.length_append,
      length_encode_renumbered d, length_encodeItems_renumbered ds]

theorem length_encodeEntries_renumbered : ∀ es : List (Utf16 × Doc),
    (Doc.encodeEntries e (renumberedEntries toInt64 es)).length = (Doc.encodeEntries e es).length
  | [] => rfl
  | entry :: es => by
    obtain ⟨k, d⟩ := entry
    simp only [renumberedEntries, Doc.encodeEntries, List.length_append, length_encode_renumbered d,
      length_encodeEntries_renumbered es]

end

end Length

/-- The two files. -/
inductive File where
  | wsonJsc
  | wsonjsc

/-- A decode of a buffer, with room for so many calls. -/
structure Decode where
  room : Nat
  buffer : Buffer
  atomic : AtomicStrings

/-- A key that is met has an equal atomic string in the VM. -/
def Shared (atomic : AtomicStrings) : Prop :=
  ∃ position units, atomic position units = true

theorem eq_unshared {atomic : AtomicStrings} (h : ¬ Shared atomic) : atomic = unshared := by
  funext position units
  unfold unshared
  by_contra hatomic
  exact h ⟨position, units, by simpa using hatomic⟩

namespace File

variable {O W N : Type} [DecidableEq O] (E : Engine O W) (V : Vm N) (e : Endian)
  (toInt64 : BitVec 64 → BitVec 64)

/-- `wson_push_js_value`, of the file. -/
def pushJsValue : File → JSValue O → StateM W (List Store × Visit O)
  | .wsonJsc => Jsc.pushJsValue E e []
  | .wsonjsc => Wsonjsc.pushJsValue E e toInt64 []

/-- `wson_to_js_value`, of the file; what the VM has matters to one of them only. -/
def wsonToJsValue (atomic : AtomicStrings) : File → Nat → DecoderM (Decoded N)
  | .wsonJsc => Jsc.wsonToJsValue V e
  | .wsonjsc => Wsonjsc.wsonToJsValue V e atomic

/-- The table after a decode. -/
def decodeStep (file : File) (cache : Cache) (decode : Decode) : Cache :=
  (final (file.wsonToJsValue V e decode.atomic decode.room) ⟨decode.buffer, cache⟩).cache

variable {E V e toInt64}

/-- What every decode keeps of the table, all of them keep. -/
theorem keeps_run (file : File) {valid : Slot → Prop} {decodes : List Decode}
    (hkeeps : ∀ decode ∈ decodes, ∀ n,
      Preserves (KeepsSlots valid) (file.wsonToJsValue V e decode.atomic n)) {cache : Cache}
    (h : ∀ slot ∈ cache.slots, valid slot) :
    ∀ slot ∈ (run (file.decodeStep V e) cache decodes).slots, valid slot := by
  induction decodes generalizing cache with
  | nil => exact h
  | cons decode decodes ih =>
    obtain ⟨hdecode, hdecodes⟩ := List.forall_mem_cons.mp hkeeps
    exact ih hdecodes (hdecode decode.room ⟨decode.buffer, cache⟩ h)

/-- The decoder of `wson_jsc.cpp` keeps the table consistent, and the other one does where nothing is
freed. -/
theorem keeps_consistent (file : File) {atomic : AtomicStrings} (h : file = .wsonjsc → ¬ Shared atomic) (n : Nat) :
    Preserves KeepsCache (file.wsonToJsValue V e atomic n) := by
  cases file with
  | wsonJsc => exact Jsc.keeps_wsonToJsValue n
  | wsonjsc =>
    obtain rfl := eq_unshared (h rfl)
    refine Wsonjsc.keeps_wsonToJsValue (fun ptr length => ?_) n
    rw [makeIdentifer_unshared]
    exact Jsc.keeps_makeIdentifer e ptr length

theorem reads (file : File) {atomic : AtomicStrings} (hunshared : file = .wsonjsc → ¬ Shared atomic) {data : Bytes}
    (hdata : data.length < 2 ^ Library.bits .c) (hindex : V.CanonicalIndex) {d : Doc} {bs : Bytes} {n : Nat}
    (hd : d.Encodes e bs) (hshort : ShortKeys d) (hdistinct : DistinctKeys d) (hutf8 : NoUtf8 d)
    (hn : d.height < n) :
    Consumes data (AtDecoder data) (returns (file.wsonToJsValue V e atomic n)) bs (decoded V d) := by
  cases file with
  | wsonJsc => exact Jsc.consumes_wsonToJsValue hdata hindex hd hshort hdistinct hutf8 hn
  | wsonjsc =>
    obtain rfl := eq_unshared (hunshared rfl)
    exact Wsonjsc.consumes_wsonToJsValue hdata hindex hd hshort hdistinct hutf8 hn

/-- What either encoder does with a value, compared with the one of `wson_jsc.cpp`. -/
theorem writes (file : File) (toInt64 : BitVec 64 → BitVec 64) (val : JSValue O) (w : W)
    (hsteady : (Jsc.pushJsValue E e [] val w).1.2.Steady E) :
    ∃ d : Doc, (file.pushJsValue E e toInt64 val w).2 = (Jsc.pushJsValue E e [] val w).2 ∧
      Buffer.stored (file.pushJsValue E e toInt64 val w).1.1 = d.encode e ∧
      (∀ s ∈ (file.pushJsValue E e toInt64 val w).1.1, s.Tight) ∧ d.Sized ∧
      (d = (Jsc.pushJsValue E e [] val w).1.2.doc ∨
        d = renumbered toInt64 (Jsc.pushJsValue E e [] val w).1.2.doc) := by
  cases file with
  | wsonJsc =>
    obtain ⟨hstored, hcomplete, htight⟩ := Jsc.agrees_pushJsValue (E := E) (e := e) _ [] rfl val w
    rw [Visit.bytes_of_steady hcomplete hsteady] at hstored
    exact ⟨_, rfl, hstored, htight, Visit.sized_of_complete hcomplete, .inl rfl⟩
  | wsonjsc =>
    have hagrees : Agrees E e (Wsonjsc.pushJsValue E e toInt64 [] val w).1 :=
      Wsonjsc.agrees_pushJsValue _ [] rfl val w
    obtain ⟨hstored, hcomplete, htight⟩ := hagrees
    obtain ⟨⟨hvisit, -⟩, hstate⟩ :
        SameVisit toInt64 (Jsc.pushJsValue E e [] val w).1 (Wsonjsc.pushJsValue E e toInt64 [] val w).1 ∧ _ :=
      pushJsValue_alike _ [] rfl val w
    have hsteady' : (visitRenumbered toInt64 (Jsc.pushJsValue E e [] val w).1.2).Steady E :=
      steady_visitRenumbered hsteady
    rw [← hvisit] at hsteady'
    rw [Visit.bytes_of_steady hcomplete hsteady'] at hstored
    refine ⟨_, hstate.symm, hstored, htight, Visit.sized_of_complete hcomplete, .inr ?_⟩
    rw [hvisit, doc_visitRenumbered]

end File

section Agree

variable {O W N : Type} [DecidableEq O] {E : Engine O W} {V : Vm N} {e : Endian}
  {toInt64 : BitVec 64 → BitVec 64}

/-- The decode of the bytes of one value gives this value and ends behind them. -/
def ReadsWhole (m : DecoderM (Decoded N)) (bytes : Bytes) (cache : Cache) (value : Decoded N) : Prop :=
  ∃ d, m ⟨⟨bytes, 0, bytes.length⟩, cache⟩ = .ok value d ∧ d.buffer.position = bytes.length

/-- The decode stops where it compares a key with units that have been freed. -/
def StopsAtFreed (m : DecoderM (Decoded N)) (bytes : Bytes) (cache : Cache) : Prop :=
  ∃ d, m ⟨⟨bytes, 0, bytes.length⟩, cache⟩ = .error .freed d

/-- What either encoder writes of `val` into a new buffer, either decoder reads as `value`, with the
table that earlier decodes have left; the engine is led to the state that `wson_jsc.cpp` leads it
to. Only `wsonjsc.cpp` can stop before, and only if a key had an equal atomic string in the VM. -/
def ReadAlike (E : Engine O W) (V : Vm N) (e : Endian) (toInt64 : BitVec 64 → BitVec 64) (block : Bytes)
    (val : JSValue O) (w : W) (n : Nat) (value : Decoded N) : Prop :=
  ∀ (writer reader : File) (table : Cache) (decodes : List Decode) (atomic : AtomicStrings),
    (∀ slot ∈ table.slots, slot.length = 0) →
      (writer.pushJsValue E e toInt64 val w).2 = (Jsc.pushJsValue E e [] val w).2 ∧
        ∃ b, Buffer.storeAll .c (writer.pushJsValue E e toInt64 val w).1.1 (Buffer.new block) = .ok () b ∧
          (ReadsWhole (reader.wsonToJsValue V e atomic n) b.written (run (reader.decodeStep V e) table decodes)
              value ∨
            reader = .wsonjsc ∧ (Shared atomic ∨ ∃ decode ∈ decodes, Shared decode.atomic) ∧
              StopsAtFreed (reader.wsonToJsValue V e atomic n) b.written
                (run (reader.decodeStep V e) table decodes))

/-- Where nothing is freed, an encoding is read as a whole with a consistent table. -/
theorem File.readsWhole (file : File) {atomic : AtomicStrings} (hunshared : file = .wsonjsc → ¬ Shared atomic)
    {cache : Cache} (hcache : cache.Consistent) {d : Doc} {bytes : Bytes} {n : Nat} (hindex : V.CanonicalIndex)
    (hd : d.Encodes e bytes) (hlength : bytes.length < 2 ^ 31) (hdistinct : DistinctKeys d) (hutf8 : NoUtf8 d)
    (hn : d.height < n) : ReadsWhole (file.wsonToJsValue V e atomic n) bytes cache (decoded V d) := by
  have hdata : bytes.length < 2 ^ Library.bits .c := Nat.lt_trans hlength (by decide)
  obtain ⟨dec, hread, ⟨hbuffer, -⟩, -⟩ :=
    file.reads hunshared hdata hindex hd (shortKeys_of_within (hd.within hlength)) hdistinct hutf8 hn
      ⟨⟨bytes, 0, bytes.length⟩, cache⟩ 0 [] ⟨⟨rfl, Nat.zero_le _⟩, hcache⟩ (List.append_nil bytes).symm
  refine ⟨dec, returns_eq_some.mp hread, ?_⟩
  rw [hbuffer]
  exact Nat.zero_add _

/-- An encoding is read as a whole, or the decoder of `wsonjsc.cpp` stops. -/
theorem File.reads_or_stops (reader : File) {table : Cache} {decodes : List Decode} {atomic : AtomicStrings}
    (htable : ∀ slot ∈ table.slots, slot.length = 0) {d : Doc} {bytes : Bytes} {n : Nat}
    (hindex : V.CanonicalIndex) (hd : d.Encodes e bytes) (hlength : bytes.length < 2 ^ 31)
    (hdistinct : DistinctKeys d) (hutf8 : NoUtf8 d) (hn : d.height < n) :
    ReadsWhole (reader.wsonToJsValue V e atomic n) bytes (run (reader.decodeStep V e) table decodes)
        (decoded V d) ∨
      reader = .wsonjsc ∧ (Shared atomic ∨ ∃ decode ∈ decodes, Shared decode.atomic) ∧
        StopsAtFreed (reader.wsonToJsValue V e atomic n) bytes (run (reader.decodeStep V e) table decodes) := by
  by_cases hshared : reader = .wsonjsc ∧ (Shared atomic ∨ ∃ decode ∈ decodes, Shared decode.atomic)
  · obtain ⟨rfl, hshared⟩ := hshared
    -- an unused slot is sound, and decodes keep it so
    have hsound : ∀ slot ∈ (run (File.wsonjsc.decodeStep V e) table decodes).slots, slot.Sound :=
      File.keeps_run .wsonjsc (fun _ _ n => Wsonjsc.keeps_wsonToJsValue keeps_makeIdentifer n)
        fun slot hslot hused => absurd (htable slot hslot) hused
    have hnew : Cache.new.Consistent := Cache.consistent_replicate _ _ fun h => absurd rfl h
    have hnone : ¬ Shared unshared := by
      rintro ⟨_, _, ⟨⟩⟩
    obtain ⟨dec', hrun', hend⟩ : ReadsWhole (File.wsonjsc.wsonToJsValue V e unshared n) bytes .new (decoded V d) :=
      File.readsWhole .wsonjsc (fun _ => hnone) hnew hindex hd hlength hdistinct hutf8 hn
    have halong : Alongside Slot.Sound
        ⟨⟨bytes, 0, bytes.length⟩, run (File.wsonjsc.decodeStep V e) table decodes⟩
        ⟨⟨bytes, 0, bytes.length⟩, .new⟩ := ⟨rfl, hsound, hnew⟩
    have hsimulates : SimulatesUnless (· = .freed) (Alongside Slot.Sound) Eq
        (Wsonjsc.wsonToJsValue V e atomic n) _ :=
      simulates_wsonToJsValue n
    rcases hsimulates halong with hsame | ⟨_, dec, hrun, rfl⟩
    · cases hrun : Wsonjsc.wsonToJsValue V e atomic n
          ⟨⟨bytes, 0, bytes.length⟩, run (File.wsonjsc.decodeStep V e) table decodes⟩ with
      | ok value dec =>
        rw [hrun] at hsame
        obtain ⟨_, dec₁, hrun₁, rfl, halong'⟩ := hsame.eq_ok
        cases hrun'.symm.trans hrun₁
        exact .inl ⟨dec, hrun, halong'.buffer ▸ hend⟩
      | error fault dec =>
        rw [hrun] at hsame
        obtain ⟨_, hrun₁, -⟩ := hsame.eq_error
        cases hrun'.symm.trans hrun₁
    · exact .inr ⟨rfl, hshared, dec, hrun⟩
  · left
    have hunshared : reader = .wsonjsc → ¬ Shared atomic := fun h hatomic => hshared ⟨h, .inl hatomic⟩
    refine reader.readsWhole hunshared (File.keeps_run reader (fun decode hdecode n => ?_) ?_) hindex hd hlength
      hdistinct hutf8 hn
    · exact reader.keeps_consistent (fun h hatomic => hshared ⟨h, .inr ⟨decode, hdecode, hatomic⟩⟩) n
    · exact fun slot hslot (hused : slot.length ≠ 0) => absurd (htable slot hslot) hused

end Agree

/-- `[{"k": null}, {"k": null}]`, where the VM has an atomic string `k`: the second key is compared
with the units of the first one, which have been freed. -/
example : StopsAtFreed (wsonToJsValue sampleVm .little (fun _ _ => true) 3)
    [Tag.array, 2, Tag.map, 1, 2, 0x6B, 0, Tag.null, Tag.map, 1, 2, 0x6B, 0, Tag.null] .new :=
  ⟨_, rfl⟩

/-- The object `{"k": [7, x]}`, where `x` is the double of these bits. -/
def numberEngine (bits : BitVec 64) : Engine (Fin 2) Unit :=
  { sampleEngine sampleString with
    getIndex := fun _ index => pure (if index = 0 then .int32 7 else .double bits) }

end Wson.Wsonjsc
