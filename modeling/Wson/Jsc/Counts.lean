import Wson.Effect.Run
import Wson.Jsc.Encoder

/-!
# Headers and entries

The encoder counts the entries of an object in a first pass over its properties and
writes them in a second one. What it appends is the encoding of the values it has met
iff at every object both passes find equally many properties to write
(`appendsDoc_iff`), and the buffer can grow as far as is needed.
-/

namespace Wson.Jsc

open Effect Wire Native

variable {O W : Type} (E : Engine O W) (e : Endian)

namespace Visit

mutual

/-- The document of the elements and entries that were written. -/
def doc : Visit O → Doc
  | .scalar d => d
  | .array items => .array (docItems items)
  | .object _ _ entries => .map (docEntries entries)

def docItems : List (Visit O) → List Doc
  | [] => []
  | v :: vs => doc v :: docItems vs

def docEntries : List (Utf16 × Visit O) → List (Utf16 × Doc)
  | [] => []
  | (k, v) :: es => (k, doc v) :: docEntries es

end

mutual

/-- The bytes that were written, with the headers of the first passes. -/
def bytes : Visit O → Bytes
  | .scalar d => d.encode e
  | .array items => Tag.array :: (encode items.length ++ bytesItems items)
  | .object first _ entries => Tag.map :: (encode (headerSize E first).toNat ++ bytesEntries entries)

def bytesItems : List (Visit O) → Bytes
  | [] => []
  | v :: vs => bytes v ++ bytesItems vs

def bytesEntries : List (Utf16 × Visit O) → Bytes
  | [] => []
  | (k, v) :: es => encode (2 * k.length) ++ units e k ++ bytes v ++ bytesEntries es

end

mutual

/-- At every object, both passes get equally many answers that are not left out. -/
def Steady : Visit O → Prop
  | .scalar _ => True
  | .array items => SteadyItems items
  | .object first second entries =>
    first.countP (fun a => !skipped E a) = second.countP (fun a => !skipped E a) ∧
      SteadyEntries entries

def SteadyItems : List (Visit O) → Prop
  | [] => True
  | v :: vs => Steady v ∧ SteadyItems vs

def SteadyEntries : List (Utf16 × Visit O) → Prop
  | [] => True
  | (_, v) :: es => Steady v ∧ SteadyEntries es

end

mutual

/-- What every run of the encoder meets: all sizes fit into 32 bits, and an object has an entry
for every answer of the second pass that is not left out. -/
def Complete : Visit O → Prop
  | .scalar d => d.Sized
  | .array items => items.length < 2 ^ 32 ∧ CompleteItems items
  | .object first second entries =>
    first.length < 2 ^ 32 ∧ second.length < 2 ^ 32 ∧
      entries.length = second.countP (fun a => !skipped E a) ∧ CompleteEntries entries

def CompleteItems : List (Visit O) → Prop
  | [] => True
  | v :: vs => Complete v ∧ CompleteItems vs

def CompleteEntries : List (Utf16 × Visit O) → Prop
  | [] => True
  | (k, v) :: es => 2 * k.length < 2 ^ 32 ∧ Complete v ∧ CompleteEntries es

end

theorem docItems_length : ∀ vs : List (Visit O), (docItems vs).length = vs.length
  | [] => rfl
  | _ :: vs => congrArg Nat.succ (docItems_length vs)

theorem docEntries_length : ∀ es : List (Utf16 × Visit O), (docEntries es).length = es.length
  | [] => rfl
  | _ :: es => congrArg Nat.succ (docEntries_length es)

variable {E e}

/-- The header of an object is the number of answers that are not left out. -/
theorem toNat_headerSize {answers : List (Option (JSValue O))} (h : answers.length < 2 ^ 32) :
    (headerSize E answers).toNat = answers.countP fun a => !skipped E a := by
  have hsplit := List.length_eq_countP_add_countP (skipped E) (l := answers)
  have hnot : answers.countP (fun a => decide ¬skipped E a = true)
      = answers.countP fun a => !skipped E a :=
    List.countP_congr fun a _ => by simp
  rw [hnot] at hsplit
  rw [headerSize, BitVec.toNat_sub, BitVec.toNat_ofNat, BitVec.toNat_ofNat]
  omega

mutual

/-- What was written is the encoding only where the passes agree. -/
theorem steady_of_append : ∀ {v : Visit O} {r r' : Bytes}, v.Complete E →
    v.bytes E e ++ r = v.doc.encode e ++ r' → v.Steady E ∧ r = r'
  | .scalar _, _, _, _, h => ⟨trivial, List.append_cancel_left h⟩
  | .array items, _, _, hc, h => by
    rw [bytes, doc, Doc.encode, docItems_length, List.cons_append, List.cons_append, List.append_assoc,
      List.append_assoc] at h
    exact steadyItems_of_append hc.2 (List.append_cancel_left (List.cons.inj h).2)
  | .object first second entries, _, _, ⟨hfirst, hsecond, hlength, hc⟩, h => by
    rw [bytes, doc, Doc.encode, docEntries_length, hlength, toNat_headerSize hfirst, List.cons_append,
      List.cons_append, List.append_assoc, List.append_assoc] at h
    have hle₁ : first.countP (fun a => !skipped E a) ≤ first.length := List.countP_le_length
    have hle₂ : second.countP (fun a => !skipped E a) ≤ second.length := List.countP_le_length
    obtain ⟨hcount, -, hrest⟩ := (varUInt_encode (by omega)).append_inj (varUInt_encode (by omega))
      (List.cons.inj h).2
    obtain ⟨hsteady, hr⟩ := steadyEntries_of_append hc hrest
    exact ⟨⟨hcount, hsteady⟩, hr⟩

theorem steadyItems_of_append : ∀ {vs : List (Visit O)} {r r' : Bytes}, CompleteItems E vs →
    bytesItems E e vs ++ r = Doc.encodeItems e (docItems vs) ++ r' → SteadyItems E vs ∧ r = r'
  | [], _, _, _, h => ⟨trivial, h⟩
  | v :: vs, _, _, hc, h => by
    rw [bytesItems, docItems, Doc.encodeItems, List.append_assoc, List.append_assoc] at h
    obtain ⟨hv, h⟩ := steady_of_append hc.1 h
    obtain ⟨hvs, hr⟩ := steadyItems_of_append hc.2 h
    exact ⟨⟨hv, hvs⟩, hr⟩

theorem steadyEntries_of_append : ∀ {es : List (Utf16 × Visit O)} {r r' : Bytes},
    CompleteEntries E es → bytesEntries E e es ++ r = Doc.encodeEntries e (docEntries es) ++ r' →
      SteadyEntries E es ∧ r = r'
  | [], _, _, _, h => ⟨trivial, h⟩
  | (k, v) :: es, _, _, hc, h => by
    simp only [bytesEntries, docEntries, Doc.encodeEntries, List.append_assoc] at h
    obtain ⟨hv, h⟩ := steady_of_append hc.2.1 (List.append_cancel_left (List.append_cancel_left h))
    obtain ⟨hes, hr⟩ := steadyEntries_of_append hc.2.2 h
    exact ⟨⟨hv, hes⟩, hr⟩

end

mutual

theorem bytes_of_steady : ∀ {v : Visit O}, v.Complete E → v.Steady E → v.bytes E e = v.doc.encode e
  | .scalar _, _, _ => rfl
  | .array items, hc, hs => by
    rw [bytes, doc, Doc.encode, docItems_length, bytesItems_of_steady hc.2 hs]
  | .object first second entries, ⟨hfirst, hsecond, hlength, hc⟩, ⟨hcount, hs⟩ => by
    rw [bytes, doc, Doc.encode, docEntries_length, hlength, toNat_headerSize hfirst, hcount,
      bytesEntries_of_steady hc hs]

theorem bytesItems_of_steady : ∀ {vs : List (Visit O)}, CompleteItems E vs → SteadyItems E vs →
    bytesItems E e vs = Doc.encodeItems e (docItems vs)
  | [], _, _ => rfl
  | v :: vs, hc, hs => by
    rw [bytesItems, docItems, Doc.encodeItems, bytes_of_steady hc.1 hs.1, bytesItems_of_steady hc.2 hs.2]

theorem bytesEntries_of_steady : ∀ {es : List (Utf16 × Visit O)}, CompleteEntries E es →
    SteadyEntries E es → bytesEntries E e es = Doc.encodeEntries e (docEntries es)
  | [], _, _ => rfl
  | (k, v) :: es, hc, hs => by
    rw [bytesEntries, docEntries, Doc.encodeEntries, bytes_of_steady hc.2.1 hs.1,
      bytesEntries_of_steady hc.2.2 hs.2]

end

mutual

theorem sized_of_complete : ∀ {v : Visit O}, v.Complete E → v.doc.Sized
  | .scalar _, h => h
  | .array items, h => by
    refine ⟨?_, sizedItems_of_complete h.2⟩
    rw [docItems_length]
    exact h.1
  | .object first second entries, ⟨_, hsecond, hlength, h⟩ => by
    refine ⟨?_, sizedEntries_of_complete h⟩
    rw [docEntries_length, hlength]
    exact List.countP_le_length.trans_lt hsecond

theorem sizedItems_of_complete : ∀ {vs : List (Visit O)}, CompleteItems E vs →
    Doc.SizedItems (docItems vs)
  | [], _ => trivial
  | _ :: _, h => ⟨sized_of_complete h.1, sizedItems_of_complete h.2⟩

theorem sizedEntries_of_complete : ∀ {es : List (Utf16 × Visit O)}, CompleteEntries E es →
    Doc.SizedEntries (docEntries es)
  | [], _ => trivial
  | (_, _) :: _, h => ⟨h.1, sized_of_complete h.2.1, sizedEntries_of_complete h.2.2⟩

end

end Visit

/-! ## The stores of a run -/

section Stores

open Buffer Visit

variable {E e}

/-- The stores hold the bytes of the visit. -/
structure Agrees (E : Engine O W) (e : Endian) (p : List Store × Visit O) : Prop where
  stored_eq : stored p.1 = p.2.bytes E e
  complete : p.2.Complete E
  tight : ∀ s ∈ p.1, s.Tight

theorem agrees_pushCall {call : Call} {d : Doc} (hd : d.Sized)
    (h : stored (call.stores .c) = d.encode e) : Agrees E e (pushCall call d) :=
  ⟨h, hd, call.tight_of_mem_stores .c⟩

theorem agrees_pushNull : Agrees E e pushNull :=
  agrees_pushCall trivial rfl

theorem agrees_pushBoolean (value : Bool) : Agrees E e (pushBoolean value) :=
  agrees_pushCall trivial (by cases value <;> rfl)

theorem agrees_pushInt (num : BitVec 32) : Agrees E e (pushInt num) := by
  refine agrees_pushCall trivial ?_
  show Tag.int :: (encode _ ++ []) = _
  rw [List.append_nil]
  rfl

theorem agrees_pushLong (num : BitVec 64) : Agrees E e (pushLong num) :=
  agrees_pushCall trivial rfl

theorem agrees_pushDouble (bits : BitVec 64) : Agrees E e (pushDouble E bits) := by
  unfold pushDouble
  split
  · exact agrees_pushLong _
  · exact agrees_pushCall trivial rfl

theorem stored_pushJsIdentifier (s : JsString) :
    stored (pushJsIdentifier e s) = encode (2 * s.units.length) ++ units e s.units := by
  have hlength := s.length_lt
  show encode (BitVec.ofNat 32 (2 * s.units.length)).toNat ++ (units e s.units ++ []) = _
  rw [List.append_nil, BitVec.toNat_ofNat, Nat.mod_eq_of_lt (by omega)]

theorem tight_pushJsIdentifier (s : JsString) : ∀ store ∈ pushJsIdentifier e s, store.Tight := by
  have hwidth : 32 ≤ (unitsStore e s).width := by
    show 32 ≤ if s.is8Bit then 64 else 32
    split <;> decide
  have hbytes : (unitsStore e s).bytes.length = (unitsStore e s).request := units_length e s.units
  have hunits : (unitsStore e s).Tight := ⟨hwidth, by omega, by omega⟩
  exact List.forall_mem_cons.mpr ⟨Call.tight_uintStore _, List.forall_mem_singleton.mpr hunits⟩

theorem agrees_pushString (s : JsString) : Agrees E e (pushString e s) := by
  have hlength := s.length_lt
  refine ⟨?_, show 2 * s.units.length < 2 ^ 32 by omega, ?_⟩
  · show Tag.string :: stored (pushJsIdentifier e s) = _
    rw [stored_pushJsIdentifier]
    rfl
  · exact List.forall_mem_cons.mpr ⟨Call.tight_typeStore _, tight_pushJsIdentifier s⟩

variable {push : JSValue O → StateM W (List Store × Visit O)}

theorem agrees_pushElements (hpush : ∀ val, Always (push val) (Agrees E e)) (array : O) :
    ∀ (k : Nat) (index : BitVec 32), Always (pushElements E push array k index) fun p =>
      stored p.1 = bytesItems E e p.2 ∧ p.2.length = k ∧ CompleteItems E p.2 ∧ ∀ s ∈ p.1, s.Tight
  | 0, _ => always_pure ⟨rfl, rfl, trivial, nofun⟩
  | k + 1, index => by
    unfold pushElements
    refine (always_true _).bind fun ele _ => (always_true _).bind fun ele _ => ?_
    refine (hpush ele).bind fun p hp => ?_
    refine (agrees_pushElements hpush array k (index + 1)).bind fun q hq => ?_
    refine always_pure ⟨?_, congrArg Nat.succ hq.2.1, ⟨hp.complete, hq.2.2.1⟩,
      List.forall_mem_append.mpr ⟨hp.tight, hq.2.2.2⟩⟩
    rw [stored_append, hp.stored_eq, hq.1]
    rfl

theorem length_readProperties (object : O) : ∀ names : List JsString,
    Always (readProperties E object names) fun answers => answers.length = names.length
  | [] => always_pure rfl
  | _ :: names => by
    unfold readProperties
    refine (always_true _).bind fun answer _ => ?_
    refine (length_readProperties object names).bind fun answers h => ?_
    exact always_pure (congrArg Nat.succ h)

theorem agrees_pushProperties (hpush : ∀ val, Always (push val) (Agrees E e)) (object : O) :
    ∀ names : List JsString, Always (pushProperties E e push object names) fun p =>
      stored p.1 = bytesEntries E e p.2.2 ∧ p.2.1.length = names.length ∧
        p.2.2.length = p.2.1.countP (fun a => !skipped E a) ∧ CompleteEntries E p.2.2 ∧
          ∀ s ∈ p.1, s.Tight
  | [] => always_pure ⟨rfl, rfl, rfl, trivial, nofun⟩
  | propertyName :: names => by
    have ih := agrees_pushProperties hpush object names
    unfold pushProperties
    refine (always_true _).bind fun answer _ => ?_
    cases answer with
    | none =>
      refine ih.bind fun p hp => always_pure ⟨hp.1, congrArg Nat.succ hp.2.1, ?_, hp.2.2.2⟩
      rw [List.countP_cons_of_neg (by simp [skipped])]
      exact hp.2.2.1
    | some propertyValue =>
      by_cases hskip : propertyValue.isUndefined || propertyValue.isFunction E
      · simp only [hskip, if_true]
        refine ih.bind fun p hp => always_pure ⟨hp.1, congrArg Nat.succ hp.2.1, ?_, hp.2.2.2⟩
        rw [List.countP_cons_of_neg (by simp [skipped, hskip])]
        exact hp.2.2.1
      · simp only [hskip]
        refine (always_true _).bind fun value _ => ?_
        refine (hpush value).bind fun p hp => ih.bind fun q hq => ?_
        have hlength := propertyName.length_lt
        refine always_pure ⟨?_, congrArg Nat.succ hq.2.1, ?_, ⟨by omega, hp.complete, hq.2.2.2.1⟩, ?_⟩
        · rw [stored_append, stored_append, stored_pushJsIdentifier, hp.stored_eq, hq.1]
          rfl
        · rw [List.countP_cons_of_pos (by simp [skipped, hskip])]
          exact congrArg Nat.succ hq.2.2.1
        · exact List.forall_mem_append.mpr
            ⟨List.forall_mem_append.mpr ⟨tight_pushJsIdentifier propertyName, hp.tight⟩, hq.2.2.2.2⟩

variable [DecidableEq O]

/-- **What the encoder writes**: the bytes of its visit. -/
theorem agrees_pushJsValue : ∀ (k : Nat) (objectStack : List O),
    maxDeep + 1 - objectStack.length = k → ∀ val,
      Always (pushJsValue E e objectStack val) (Agrees E e) := by
  intro k
  induction k using Nat.strong_induction_on with
  | _ k ih =>
    intro objectStack hk val
    -- the stack grows towards its limit with each nested object
    have hpush (o : O) (hdeep : ¬(o ∈ objectStack ∨ maxDeep < objectStack.length)) :
        ∀ val, Always (pushJsValue E e (objectStack ++ [o]) val) (Agrees E e) := by
      rw [not_or] at hdeep
      refine ih _ ?_ _ rfl
      rw [List.length_append, List.length_singleton]
      omega
    cases val with
    | empty | null | undefined | symbol =>
      rw [pushJsValue]
      exact always_pure agrees_pushNull
    | string s =>
      rw [pushJsValue]
      exact always_pure (agrees_pushString s)
    | int32 num =>
      rw [pushJsValue]
      exact always_pure (agrees_pushInt num)
    | double bits =>
      rw [pushJsValue]
      exact always_pure (agrees_pushDouble bits)
    | boolean value =>
      rw [pushJsValue]
      exact always_pure (agrees_pushBoolean value)
    | object o =>
      rw [pushJsValue]
      cases E.kind o with
      | function => exact always_pure agrees_pushNull
      | stringObject => exact (always_true _).bind fun s _ => always_pure (agrees_pushString s)
      | booleanObject =>
        refine (always_true _).bind fun value _ => ?_
        split <;> exact always_pure (agrees_pushBoolean _)
      | numberObject =>
        refine (always_true _).bind fun number _ => ?_
        cases number with
        | inl num => exact always_pure (agrees_pushInt num)
        | inr bits =>
          dsimp only
          split
          · exact always_pure (agrees_pushLong _)
          · exact always_pure (agrees_pushString _)
      | array =>
        dsimp only
        split
        · exact always_pure agrees_pushNull
        · next hdeep =>
          refine (always_true _).bind fun length _ => ?_
          refine (agrees_pushElements (hpush o hdeep) o length.toNat 0).bind fun p hp => ?_
          refine always_pure ⟨?_, ⟨by rw [hp.2.1]; exact length.isLt, hp.2.2.1⟩, ?_⟩
          · show Tag.array :: (encode length.toNat ++ stored p.1) = _
            rw [hp.1, bytes, hp.2.1]
          · exact List.forall_mem_append.mpr ⟨(Call.typeArray length).tight_of_mem_stores .c, hp.2.2.2⟩
      | plain =>
        dsimp only
        split
        · exact always_pure agrees_pushNull
        · next hdeep =>
          refine (always_true _).bind fun names _ => ?_
          refine (length_readProperties o names).bind fun first hfirst => ?_
          refine (agrees_pushProperties (hpush o hdeep) o names).bind fun p hp => ?_
          refine always_pure ⟨?_, ⟨hfirst.trans_lt names.property, hp.2.1.trans_lt names.property,
            hp.2.2.1, hp.2.2.2.1⟩, ?_⟩
          · show Tag.map :: (encode (headerSize E first).toNat ++ stored p.1) = _
            rw [hp.1, bytes]
          · exact List.forall_mem_append.mpr
              ⟨(Call.typeMap (headerSize E first)).tight_of_mem_stores .c, hp.2.2.2.2⟩

end Stores

/-! ## The encoder -/

section Appends

open Buffer

variable [DecidableEq O]

/-- The encoder returns, and has appended the encoding of the document of the elements and entries
that it has written. -/
def AppendsDoc (b : Buffer) (objectStack : List O) (val : JSValue O) (w : W) : Prop :=
  let pushed := (pushJsValue E e objectStack val w).1
  ∃ b', storeAll .c pushed.1 b = .ok () b' ∧ b'.written = b.written ++ pushed.2.doc.encode e

/-- An encoding of up to `2^30` bytes fits. -/
theorem fits_pushJsValue {b : Buffer} (hv : b.Valid) (objectStack : List O) (val : JSValue O) (w : W)
    (hsmall : b.position + ((pushJsValue E e objectStack val w).1.2.bytes E e).length ≤ limit .c) :
    fits .c (pushJsValue E e objectStack val w).1.1 b.length b.position := by
  obtain ⟨hstored, -, htight⟩ := agrees_pushJsValue (E := E) (e := e) _ objectStack rfl val w
  rw [← hstored] at hsmall
  exact fits_of_tight htight hv.inside hsmall

/-- The encoder appends one well-formed value where the passes agree and the buffer can grow. -/
theorem appendsDoc_of_steady {b : Buffer} (hv : b.Valid) (hb : b.length < 2 ^ 32) {objectStack : List O}
    {val : JSValue O} {w : W} (hsteady : (pushJsValue E e objectStack val w).1.2.Steady E)
    (hfits : fits .c (pushJsValue E e objectStack val w).1.1 b.length b.position) :
    AppendsDoc E e b objectStack val w := by
  obtain ⟨hstored, hcomplete, -⟩ := agrees_pushJsValue (E := E) (e := e) _ objectStack rfl val w
  obtain ⟨b', hrun, -, hwritten⟩ := storeAll_of_fits hv (show b.length < 2 ^ Library.bits .c from hb) hfits
  exact ⟨b', hrun, by rw [hwritten, hstored, Visit.bytes_of_steady hcomplete hsteady]⟩

/-- And nowhere else. -/
theorem AppendsDoc.steady {b : Buffer} (hv : b.Valid) (hb : b.length < 2 ^ 32) {objectStack : List O}
    {val : JSValue O} {w : W} (h : AppendsDoc E e b objectStack val w) :
    (pushJsValue E e objectStack val w).1.2.Steady E ∧
      fits .c (pushJsValue E e objectStack val w).1.1 b.length b.position := by
  obtain ⟨hstored, hcomplete, -⟩ := agrees_pushJsValue (E := E) (e := e) _ objectStack rfl val w
  have hb : b.length < 2 ^ Library.bits .c := hb
  obtain ⟨b', hrun, hwritten⟩ := h
  have hfits := fits_of_storeAll hv hb hrun
  obtain ⟨b'', hrun', -, hwritten'⟩ := storeAll_of_fits hv hb hfits
  obtain rfl : b'' = b' := by
    have hsame := hrun'.symm.trans hrun
    cases hsame
    rfl
  have hbytes := List.append_cancel_left (hwritten'.symm.trans hwritten)
  rw [hstored] at hbytes
  exact ⟨(Visit.steady_of_append hcomplete (congrArg (· ++ []) hbytes)).1, hfits⟩

/-- **Headers**: the encoder appends one well-formed value iff at every object it meets the two
passes over the properties get equally many values to write, and the buffer can grow. -/
theorem appendsDoc_iff {b : Buffer} (hv : b.Valid) (hb : b.length < 2 ^ 32) (objectStack : List O)
    (val : JSValue O) (w : W) :
    AppendsDoc E e b objectStack val w ↔
      (pushJsValue E e objectStack val w).1.2.Steady E ∧
        fits .c (pushJsValue E e objectStack val w).1.1 b.length b.position := by
  constructor
  · intro h
    exact h.steady E e hv hb
  · rintro ⟨hsteady, hfits⟩
    exact appendsDoc_of_steady E e hv hb hsteady hfits

end Appends

/-! ## A getter -/

/-- The property `x` of the only object runs a getter, which counts its calls in the state. It
answers 1 at first, and `later` from then on. -/
def getterEngine (later : JSValue Unit) : Engine Unit Nat where
  kind _ := .plain
  length _ := pure 0
  getIndex _ _ := pure .undefined
  getOwnPropertyNames _ := pure ⟨[⟨[0x78], true, by decide⟩], by decide⟩
  getOwnProperty _ _ := fun calls => (some (if calls = 0 then .int32 1 else later), calls + 1)
  getToJSON _ := pure none
  isCallable _ := false
  call _ _ _ := pure .undefined
  toString _ := pure ⟨[], true, length_nil_lt⟩
  toNumber _ := pure (.inl 0)
  toPrimitive _ := pure .undefined
  asAnyInt _ := none
  numberText _ := ⟨[], true, length_nil_lt⟩

/-- `wson_buffer_new`. -/
theorem new_lt : (Buffer.new (List.replicate 1024 0)).length < 2 ^ 32 := by
  rw [Buffer.new, List.length_replicate]
  decide

theorem appendsDoc_getter_iff :
    AppendsDoc (getterEngine (.int32 2)) .little (Buffer.new (List.replicate 1024 0)) [] (.object ()) 0 ↔
      (pushJsValue (getterEngine (.int32 2)) .little [] (.object ()) 0).1.2.Steady
          (getterEngine (.int32 2)) ∧
        Buffer.fits .c (pushJsValue (getterEngine (.int32 2)) .little [] (.object ()) 0).1.1
          (Buffer.new (List.replicate 1024 0)).length 0 :=
  appendsDoc_iff _ _ (Buffer.valid_new _) new_lt [] _ 0

/-- Where the second call of the getter returns undefined, the header `7B 01` stands alone. -/
theorem not_appendsDoc_getter :
    (∃ b', Buffer.storeAll .c (pushJsValue (getterEngine .undefined) .little [] (.object ()) 0).1.1
        (Buffer.new (List.replicate 1024 0)) = .ok () b' ∧ b'.written = [0x7B, 0x01]) ∧
      ¬ AppendsDoc (getterEngine .undefined) .little (Buffer.new (List.replicate 1024 0)) []
        (.object ()) 0 := by
  have hpush : (pushJsValue (getterEngine .undefined) .little [] (.object ()) 0).1
      = ((Call.typeMap 1).stores .c, .object [some (.int32 1)] [some .undefined] []) := by
    rw [pushJsValue]
    rfl
  have hfits : Buffer.fits .c ((Call.typeMap 1).stores .c) (Buffer.new (List.replicate 1024 0)).length 0 := by
    rw [Buffer.new, List.length_replicate]
    decide
  obtain ⟨b', hrun, -, hwritten⟩ := Buffer.storeAll_of_fits (Buffer.valid_new _) new_lt hfits
  refine ⟨⟨b', by rw [hpush]; exact hrun, hwritten⟩, fun h => ?_⟩
  -- the first call finds a number, the second nothing to write
  obtain ⟨hsteady, -⟩ := h.steady _ _ (Buffer.valid_new _) new_lt
  rw [hpush] at hsteady
  exact absurd hsteady.1 (by decide)

end Wson.Jsc
