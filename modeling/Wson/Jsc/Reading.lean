import Wson.Jsc.Decoder

/-!
# Decoding a document

What `wson_to_js_value` makes of the encoding of a document in which no map has a key
twice (`consumes_wsonToJsValue`). The length of a key is taken for an `int`, so
decoding a document with a key of `2^31` bytes or more does not return
(`returns_wsonToJsValue_none`).
-/

namespace Wson.Jsc

open Effect Wire Native

variable {N : Type} (V : Vm N)

mutual

/-- The value that a document stands for. -/
def decoded : Doc → Decoded N
  | .null => .null
  | .boolean b => .boolean b
  | .int x => .number (V.ofInt32 x)
  | .long x => .number (V.ofInt64 x)
  | .float x => .number (V.ofFloat x)
  | .double x => .number (V.ofDouble x)
  | .text _ s => .string s
  | .uint8String bs => .string (V.fromUTF8 bs)
  | .array ds => .array (decodedItems ds)
  | .map es => .object (decodedEntries es)

def decodedItems : List Doc → List (Decoded N)
  | [] => []
  | d :: ds => decoded d :: decodedItems ds

def decodedEntries : List (Utf16 × Doc) → List (PropertyKey × Decoded N)
  | [] => []
  | (k, d) :: es => (V.propertyKey k, decoded d) :: decodedEntries es

end

mutual

/-- No map has a key twice. -/
def DistinctKeys : Doc → Prop
  | .array ds => DistinctKeysItems ds
  | .map es => (es.map Prod.fst).Nodup ∧ DistinctKeysEntries es
  | _ => True

def DistinctKeysItems : List Doc → Prop
  | [] => True
  | d :: ds => DistinctKeys d ∧ DistinctKeysItems ds

def DistinctKeysEntries : List (Utf16 × Doc) → Prop
  | [] => True
  | (_, d) :: es => DistinctKeys d ∧ DistinctKeysEntries es

end

/-- The length of a key is positive as an `int`. -/
def ShortKey (k : Utf16) : Prop :=
  2 * k.length < 2 ^ 31

/-- All keys are short. -/
abbrev ShortKeys : Doc → Prop :=
  Doc.Leaves (fun _ => True) ShortKey

mutual

/-- In an encoding of less than `2^31` bytes every key is short. -/
theorem shortKeys_of_within : ∀ {d : Doc}, d.Within (2 ^ 31) → ShortKeys d
  | .null, _ | .boolean _, _ | .int _, _ | .long _, _ | .float _, _ | .double _, _
  | .text _ _, _ | .uint8String _, _ => trivial
  | .array _, h => shortKeysItems_of_within h.2
  | .map _, h => shortKeysEntries_of_within h.2

theorem shortKeysItems_of_within : ∀ {ds : List Doc}, Doc.WithinItems (2 ^ 31) ds →
    Doc.LeavesItems (fun _ => True) ShortKey ds
  | [], _ => trivial
  | _ :: _, h => ⟨shortKeys_of_within h.1, shortKeysItems_of_within h.2⟩

theorem shortKeysEntries_of_within : ∀ {es : List (Utf16 × Doc)}, Doc.WithinEntries (2 ^ 31) es →
    Doc.LeavesEntries (fun _ => True) ShortKey es
  | [], _ => trivial
  | (_, _) :: _, h => ⟨h.1, shortKeys_of_within h.2.1, shortKeysEntries_of_within h.2.2⟩

end

/-- `parseIndex` accepts one text for each index. -/
def Vm.CanonicalIndex : Prop :=
  ∀ ⦃a b index⦄, V.parseIndex a = some index → V.parseIndex b = some index → a = b

variable {V}

theorem Vm.CanonicalIndex.propertyKey_injective (h : V.CanonicalIndex) :
    Function.Injective V.propertyKey := by
  intro a b hab
  unfold Vm.propertyKey at hab
  cases ha : V.parseIndex a <;> cases hb : V.parseIndex b <;> simp only [ha, hb] at hab
  · exact PropertyKey.name.inj hab
  · exact nomatch hab
  · exact nomatch hab
  · exact h ha (PropertyKey.index.inj hab ▸ hb)

theorem putProperty_of_new {key : PropertyKey} {value : Decoded N} :
    ∀ {properties : List (PropertyKey × Decoded N)}, key ∉ properties.map Prod.fst →
      putProperty key value properties = properties ++ [(key, value)]
  | [], _ => rfl
  | property :: properties, h => by
    rw [List.map_cons, List.mem_cons, not_or] at h
    rw [putProperty, if_neg (Ne.symm h.1), putProperty_of_new h.2]
    rfl

/-! ## Reading from the buffer -/

/-- The buffer stands at an offset of `data`, and the table is consistent. -/
def AtDecoder (data : Bytes) (d : Decoder) (p : Nat) : Prop :=
  Buffer.At data data.length d.buffer p ∧ d.cache.Consistent

section Reading

variable {e : Endian} {data : Bytes}

theorem consumes_onBuffer {α : Type} {m : BufferM α} {xs : Bytes} {a : α}
    (h : Consumes data (Buffer.At data data.length) (returns m) xs a) :
    Consumes data (AtDecoder data) (returns (onBuffer m)) xs a := by
  rintro d p rest ⟨hat, hcache⟩ hd
  obtain ⟨buffer, hm, hat'⟩ := h d.buffer p rest hat hd
  exact ⟨{ d with buffer := buffer }, by rw [onBuffer, returns_zoom, hm]; rfl, hat', hcache⟩

/-- There is a next value where there are bytes. -/
theorem returns_hasNext {xs rest : Bytes} {d : Decoder} {p : Nat} (hpos : 0 < xs.length)
    (hat : AtDecoder data d p) (hd : data.drop p = xs ++ rest) :
    returns hasNext d = some (true, d) := by
  have hlength := congrArg List.length hd
  rw [List.length_drop, List.length_append] at hlength
  obtain ⟨⟨hbuffer, -⟩, -⟩ := hat
  show some (decide (d.buffer.position < d.buffer.length), d) = _
  rw [hbuffer, decide_eq_true]
  show p < data.length
  omega

theorem consumes_hasNext {α : Type} {m m' : DecoderM α} {xs : Bytes} {a : α} (hne : xs ≠ [])
    (h : Consumes data (AtDecoder data) (returns m) xs a) :
    Consumes data (AtDecoder data) (returns (do if ← hasNext then m else m')) xs a := by
  rintro d p rest hat hd
  obtain ⟨d', hm, hat'⟩ := h d p rest hat hd
  refine ⟨d', ?_, hat'⟩
  rw [returns_bind, returns_hasNext (List.length_pos_of_ne_nil hne) hat hd]
  exact hm

theorem unitCount_of_short {k : Utf16} (h : ShortKey k) :
    unitCount (BitVec.ofNat 32 (2 * k.length)) = k.length := by
  unfold ShortKey at h
  have hmsb : (BitVec.ofNat 32 (2 * k.length)).msb = false := by
    rw [BitVec.msb_eq_false_iff_two_mul_lt, BitVec.toNat_ofNat]
    omega
  rw [unitCount, BitVec.signExtend_eq_setWidth_of_msb_false hmsb, BitVec.toNat_setWidth,
    BitVec.toNat_ofNat]
  omega

/-- Otherwise the `int` is negative, and huge as a `size_t`. -/
theorem le_unitCount_of_long {k : Utf16} (h : ¬ ShortKey k) (hk : 2 * k.length < 2 ^ 32) :
    2 ^ 32 ≤ unitCount (BitVec.ofNat 32 (2 * k.length)) := by
  unfold ShortKey at h
  have hmsb : (BitVec.ofNat 32 (2 * k.length)).msb = true := by
    rw [BitVec.msb_eq_true_iff_two_mul_ge, BitVec.toNat_ofNat]
    omega
  rw [unitCount, BitVec.toNat_signExtend, hmsb]
  simp only [BitVec.toNat_setWidth, BitVec.toNat_ofNat, if_true]
  omega

/-- The identifier of an entry. -/
def readIdentifer (identifers : Nat → Nat → DecoderM Utf16) : DecoderM Utf16 := do
  let propertyLength ← onBuffer (Buffer.readVarUint .c)
  let ptr ← onBuffer (Buffer.readBts .c propertyLength)
  identifers ptr (unitCount propertyLength)

theorem readIdentifer_bind {α : Type} (identifers : Nat → Nat → DecoderM Utf16) (f : Utf16 → DecoderM α) :
    (readIdentifer identifers >>= f) = (do
      let propertyLength ← onBuffer (Buffer.readVarUint .c)
      let ptr ← onBuffer (Buffer.readBts .c propertyLength)
      let identifer ← identifers ptr (unitCount propertyLength)
      f identifer) := by
  simp only [readIdentifer, bind_assoc]

variable (hdata : data.length < 2 ^ Library.bits .c)

include hdata

theorem consumes_readIdentifer {k : Utf16} {h : Bytes} (hv : VarUInt (2 * k.length) h)
    (hk : ShortKey k) :
    Consumes data (AtDecoder data) (returns (readIdentifer (makeIdentifer e))) (h ++ units e k) k := by
  rw [readIdentifer, returns_bind_eq]
  refine (consumes_onBuffer (Buffer.consumes_readVarUint hdata hv)).bind ?_
  rintro d p rest ⟨⟨hbuffer, hp⟩, hcache⟩ hd
  have hbts := Buffer.returns_readBts data.length hdata hd hp (by rw [units_length]; exact hv.fits)
  rw [units_length] at hbts
  have hread : returns (onBuffer (Buffer.readBts .c (BitVec.ofNat 32 (2 * k.length)))) d
      = some (p, ⟨⟨data, p + 2 * k.length, data.length⟩, d.cache⟩) := by
    rw [onBuffer, returns_zoom, hbuffer, hbts]
    rfl
  obtain ⟨cache, hmake⟩ := returns_makeIdentifer (e := e)
    (d := ⟨⟨data, p + 2 * k.length, data.length⟩, d.cache⟩) rfl hcache hd hp
  refine ⟨⟨⟨data, p + 2 * k.length, data.length⟩, cache⟩, ?_, ⟨?_, ?_⟩, ?_⟩
  · rw [returns_bind, hread, Option.bind_some, unitCount_of_short hk]
    exact hmake
  · rw [units_length]
  · exact Buffer.end_le_length hd hp
  · exact (keeps_makeIdentifer e p k.length).of_ok (returns_eq_some.mp hmake) hcache

/-- The units of a key that is not short are outside of the block. -/
theorem returns_readIdentifer_none {k : Utf16} {h rest : Bytes} {d : Decoder} {p : Nat}
    (hv : VarUInt (2 * k.length) h) (hk : ¬ ShortKey k) (hat : AtDecoder data d p)
    (hd : data.drop p = h ++ (units e k ++ rest)) : returns (readIdentifer (makeIdentifer e)) d = none := by
  obtain ⟨d₁, hheader, ⟨hbuffer, hp⟩, -⟩ :=
    consumes_onBuffer (Buffer.consumes_readVarUint hdata hv) d p _ hat hd
  have hbts := Buffer.returns_readBts data.length hdata (drop_append_of_drop hd) hp
    (by rw [units_length]; exact hv.fits)
  rw [units_length] at hbts
  have hread : returns (onBuffer (Buffer.readBts .c (BitVec.ofNat 32 (2 * k.length)))) d₁
      = some (p + h.length, ⟨⟨data, p + h.length + 2 * k.length, data.length⟩, d₁.cache⟩) := by
    rw [onBuffer, returns_zoom, hbuffer, hbts]
    rfl
  rw [readIdentifer, returns_bind, hheader, Option.bind_some, returns_bind, hread, Option.bind_some]
  have hcount := le_unitCount_of_long hk hv.fits
  generalize unitCount (BitVec.ofNat 32 (2 * k.length)) = count at hcount
  have hbits : data.length < 2 ^ 32 := hdata
  have hunits (length : Nat) (hlength : count ≤ length) :
      returns (unitsAt e (p + h.length) length)
        ⟨⟨data, p + h.length + 2 * k.length, data.length⟩, d₁.cache⟩ = none := by
    rw [unitsAt_eq, if_neg (by simp only; omega)]
  rw [makeIdentifer, makeIdentiferTo, if_neg (by omega), returns_bind, unitAt, returns_bind, unitsAt_eq]
  split
  · rw [Option.bind_some, returns_pure, Option.bind_some, if_pos (.inr (.inr (by omega)))]
    exact hunits count (Nat.le_refl _)
  · rfl

/-! ## Values -/

/-- A tag is read, and then the value behind it. -/
theorem consumes_tagged {n : Nat} (kind : Doc.Kind) {bs : Bytes} {v : Decoded N}
    (h : Consumes data (AtDecoder data)
      (returns (readValue V e (makeIdentifer e) (wsonToJsValue V e n) kind.tag)) bs v) :
    Consumes data (AtDecoder data) (returns (wsonToJsValue V e (n + 1))) (kind.tag :: bs) v := by
  rw [wsonToJsValue, returns_bind_eq]
  exact (consumes_onBuffer (Buffer.consumes_readType hdata kind.tag)).bind h

theorem consumes_readString {s : Utf16} {h : Bytes} (hv : VarUInt (2 * s.length) h) :
    Consumes data (AtDecoder data) (returns (readString e)) (h ++ units e s) s := by
  rw [readString, returns_bind_eq]
  refine (consumes_onBuffer (Buffer.consumes_readVarUint hdata hv)).bind ?_
  rintro d p rest ⟨⟨hbuffer, hp⟩, hcache⟩ hd
  have hbts := Buffer.returns_readBts data.length hdata hd hp (by rw [units_length]; exact hv.fits)
  have hlen : (BitVec.ofNat 32 (2 * s.length)).toNat = 2 * s.length := by
    rw [BitVec.toNat_ofNat, Nat.mod_eq_of_lt hv.fits]
  rw [units_length] at hbts
  have hread : returns (onBuffer (Buffer.readBts .c (BitVec.ofNat 32 (2 * s.length)))) d
      = some (p, ⟨⟨data, p + 2 * s.length, data.length⟩, d.cache⟩) := by
    rw [onBuffer, returns_zoom, hbuffer, hbts]
    rfl
  refine ⟨⟨⟨data, p + 2 * s.length, data.length⟩, d.cache⟩, ?_, ⟨?_, ?_⟩, hcache⟩
  · rw [returns_bind, hread, Option.bind_some, hlen, if_neg (by omega),
      Nat.mul_div_cancel_left _ (by decide)]
    exact returns_unitsAt rfl hd hp
  · rw [units_length]
  · exact Buffer.end_le_length hd hp

end Reading

section Values

variable {e : Endian} {data : Bytes}

mutual

/-- **Decoding** gives the value that a document stands for. -/
theorem consumes_wsonToJsValue (hdata : data.length < 2 ^ Library.bits .c)
    (hindex : V.CanonicalIndex) : ∀ {d : Doc} {bs : Bytes} {n : Nat},
    d.Encodes e bs → ShortKeys d → DistinctKeys d → d.AllLeaves (fun u => u.kind ≠ .uint8String) →
      d.height < n →
        Consumes data (AtDecoder data) (returns (wsonToJsValue V e n)) bs (decoded V d)
  | .null, _, n + 1, hd, _, _, _, _ => by
    obtain rfl := hd
    exact consumes_tagged hdata .null (consumes_pure _)
  | .boolean b, _, n + 1, hd, _, _, _, _ => by
    obtain rfl := hd
    refine consumes_tagged hdata (.boolean b) ?_
    rw [readValue, Doc.Kind.ofTag_tag]
    exact consumes_pure _
  | .int x, _, n + 1, ⟨h, hx, hd⟩, _, _, _, _ => by
    obtain rfl := hd
    exact consumes_tagged hdata .int (consumes_wrap (consumes_onBuffer (Buffer.consumes_readVarInt hdata hx)))
  | .long x, _, n + 1, hd, _, _, _, _ => by
    obtain rfl := hd
    exact consumes_tagged hdata .long
      (consumes_wrap (consumes_onBuffer (Buffer.consumes_readFixedUint64 hdata x)))
  | .float x, _, n + 1, hd, _, _, _, _ => by
    obtain rfl := hd
    exact consumes_tagged hdata .float
      (consumes_wrap (consumes_onBuffer (Buffer.consumes_readFloat hdata x)))
  | .double x, _, n + 1, hd, _, _, _, _ => by
    obtain rfl := hd
    exact consumes_tagged hdata .double
      (consumes_wrap (consumes_onBuffer (Buffer.consumes_readFixedUint64 hdata x)))
  | .text kind s, _, n + 1, ⟨h, hs, hd⟩, _, _, _, _ => by
    obtain rfl := hd
    refine consumes_tagged hdata (.text kind) ?_
    rw [readValue, Doc.Kind.ofTag_tag]
    exact consumes_wrap (consumes_readString hdata hs)
  | .uint8String _, _, _, _, _, _, h, _ => absurd rfl h
  | .array ds, _, n + 1, ⟨h, body, hc, hds, hd⟩, hshort, hdistinct, hleaves, hn => by
    obtain rfl := hd
    refine consumes_tagged hdata .array ?_
    -- the loops add to what they have read, from nothing on
    have hitems := consumes_readElements hdata hindex hds hshort hdistinct hleaves
      (Nat.lt_of_succ_lt_succ hn) []
    show Consumes data (AtDecoder data) (returns do
      let length ← onBuffer (Buffer.readVarUint .c)
      return Decoded.array (← readElements (wsonToJsValue V e n) length.toNat [])) _ _
    rw [returns_bind_eq]
    refine (consumes_onBuffer (Buffer.consumes_readVarUint hdata hc)).bind ?_
    rw [BitVec.toNat_ofNat, Nat.mod_eq_of_lt hc.fits]
    exact consumes_wrap hitems
  | .map es, _, n + 1, ⟨h, body, hc, hes, hd⟩, hshort, hdistinct, hleaves, hn => by
    obtain rfl := hd
    refine consumes_tagged hdata .map ?_
    have hentries := consumes_readEntries hdata hindex hes hshort hdistinct.1 hdistinct.2 hleaves
      (Nat.lt_of_succ_lt_succ hn) [] (fun _ _ h => nomatch h)
    show Consumes data (AtDecoder data) (returns do
      let length ← onBuffer (Buffer.readVarUint .c)
      return Decoded.object (← readEntries V (makeIdentifer e) (wsonToJsValue V e n) length.toNat [])) _ _
    rw [returns_bind_eq]
    refine (consumes_onBuffer (Buffer.consumes_readVarUint hdata hc)).bind ?_
    rw [BitVec.toNat_ofNat, Nat.mod_eq_of_lt hc.fits]
    exact consumes_wrap hentries

theorem consumes_readElements (hdata : data.length < 2 ^ Library.bits .c)
    (hindex : V.CanonicalIndex) :
    ∀ {ds : List Doc} {bs : Bytes} {n : Nat}, Doc.EncodesItems e ds bs →
      Doc.LeavesItems (fun _ => True) ShortKey ds → DistinctKeysItems ds →
        Doc.LeavesItems (fun u => u.kind ≠ .uint8String) (fun _ => True) ds → Doc.heightItems ds < n →
          ∀ items, Consumes data (AtDecoder data)
            (returns (readElements (wsonToJsValue V e n) ds.length items)) bs
            (items ++ decodedItems V ds)
  | [], _, _, hd, _, _, _, _, items => by
    obtain rfl := hd
    rw [decodedItems, List.append_nil]
    exact consumes_pure _
  | d :: ds, _, n, ⟨b₁, b₂, h₁, h₂, hd⟩, hshort, hdistinct, hleaves, hn, items => by
    obtain rfl := hd
    rw [Doc.heightItems, Nat.max_lt] at hn
    have hvalue := consumes_wsonToJsValue hdata hindex h₁ hshort.1 hdistinct.1 hleaves.1 hn.1
    have hrest := consumes_readElements hdata hindex h₂ hshort.2 hdistinct.2 hleaves.2 hn.2
      (items ++ [decoded V d])
    rw [List.append_assoc, List.singleton_append] at hrest
    rw [List.length_cons, readElements]
    refine consumes_hasNext (List.append_ne_nil_of_left_ne_nil (List.ne_nil_of_length_pos h₁.length_pos) _) ?_
    rw [returns_bind_eq]
    exact hvalue.bind hrest

theorem consumes_readEntries (hdata : data.length < 2 ^ Library.bits .c)
    (hindex : V.CanonicalIndex) :
    ∀ {es : List (Utf16 × Doc)} {bs : Bytes} {n : Nat}, Doc.EncodesEntries e es bs →
      Doc.LeavesEntries (fun _ => True) ShortKey es → (es.map Prod.fst).Nodup → DistinctKeysEntries es →
        Doc.LeavesEntries (fun u => u.kind ≠ .uint8String) (fun _ => True) es → Doc.heightEntries es < n →
          ∀ properties, (∀ x ∈ es, V.propertyKey x.1 ∉ properties.map Prod.fst) →
            Consumes data (AtDecoder data)
              (returns (readEntries V (makeIdentifer e) (wsonToJsValue V e n) es.length properties)) bs
              (properties ++ decodedEntries V es)
  | [], _, _, hd, _, _, _, _, _, properties, _ => by
    obtain rfl := hd
    rw [decodedEntries, List.append_nil]
    exact consumes_pure _
  | (k, d) :: es, _, n, ⟨h, b₁, b₂, hk, h₁, h₂, hd⟩, hshort, hnodup, hdistinct, hleaves, hn,
      properties, hnew => by
    obtain rfl := hd
    rw [Doc.heightEntries, Nat.max_lt] at hn
    rw [List.map_cons, List.nodup_cons] at hnodup
    rw [List.forall_mem_cons] at hnew
    have hvalue := consumes_wsonToJsValue hdata hindex h₁ hshort.2.1 hdistinct.1 hleaves.2.1 hn.1
    have hrest := consumes_readEntries hdata hindex h₂ hshort.2.2 hnodup.2 hdistinct.2 hleaves.2.2 hn.2
      (properties ++ [(V.propertyKey k, decoded V d)]) fun x hx => by
        rw [List.map_append, List.mem_append, not_or]
        refine ⟨hnew.2 x hx, fun hmem => hnodup.1 ?_⟩
        rw [← hindex.propertyKey_injective (List.mem_singleton.mp hmem)]
        exact List.mem_map.mpr ⟨x, hx, rfl⟩
    rw [List.append_assoc, List.singleton_append, ← putProperty_of_new hnew.1] at hrest
    rw [List.length_cons, readEntries, List.append_assoc]
    refine consumes_hasNext (List.append_ne_nil_of_right_ne_nil _ (List.append_ne_nil_of_left_ne_nil
      (List.ne_nil_of_length_pos h₁.length_pos) _)) ?_
    rw [← readIdentifer_bind, returns_bind_eq]
    refine (consumes_readIdentifer hdata hk hshort.1).bind ?_
    rw [returns_bind_eq]
    exact hvalue.bind hrest

end

mutual

/-- A document with a key that is not short is not decoded. -/
theorem returns_wsonToJsValue_none (hdata : data.length < 2 ^ Library.bits .c)
    (hindex : V.CanonicalIndex) : ∀ {u : Doc} {bs rest : Bytes} {n p : Nat} {d : Decoder},
    u.Encodes e bs → ¬ ShortKeys u → DistinctKeys u → u.AllLeaves (fun u => u.kind ≠ .uint8String) →
      u.height < n → AtDecoder data d p → data.drop p = bs ++ rest →
        returns (wsonToJsValue V e n) d = none
  | .null, _, _, _, _, _, _, h, _, _, _, _, _ | .boolean _, _, _, _, _, _, _, h, _, _, _, _, _
  | .int _, _, _, _, _, _, _, h, _, _, _, _, _ | .long _, _, _, _, _, _, _, h, _, _, _, _, _
  | .float _, _, _, _, _, _, _, h, _, _, _, _, _ | .double _, _, _, _, _, _, _, h, _, _, _, _, _
  | .text _ _, _, _, _, _, _, _, h, _, _, _, _, _ | .uint8String _, _, _, _, _, _, _, h, _, _, _, _, _ =>
    absurd trivial h
  | .array ds, _, rest, n + 1, p, d, ⟨h, body, hc, hds, hd⟩, hlong, hdistinct, hleaves, hn, hat, hdrop => by
    obtain rfl := hd
    have hdrop : data.drop p = [Tag.array] ++ (h ++ (body ++ rest)) := by
      rw [hdrop, List.cons_append, List.append_assoc]
      rfl
    obtain ⟨d₁, htype, hat₁⟩ := consumes_onBuffer (Buffer.consumes_readType hdata Tag.array) d p _ hat hdrop
    have hdrop₁ := drop_append_of_drop hdrop
    obtain ⟨d₂, hcount, hat₂⟩ := consumes_onBuffer (Buffer.consumes_readVarUint hdata hc) d₁ _ _ hat₁ hdrop₁
    have hitems := returns_readElements_none hdata hindex hds hlong hdistinct hleaves
      (Nat.lt_of_succ_lt_succ hn) [] hat₂ (drop_append_of_drop hdrop₁)
    rw [wsonToJsValue, returns_bind, htype, Option.bind_some]
    show returns (do
      let length ← onBuffer (Buffer.readVarUint .c)
      return Decoded.array (← readElements (wsonToJsValue V e n) length.toNat [])) d₁ = none
    rw [returns_bind, hcount, Option.bind_some, BitVec.toNat_ofNat, Nat.mod_eq_of_lt hc.fits, returns_bind,
      hitems]
    rfl
  | .map es, _, rest, n + 1, p, d, ⟨h, body, hc, hes, hd⟩, hlong, hdistinct, hleaves, hn, hat, hdrop => by
    obtain rfl := hd
    have hdrop : data.drop p = [Tag.map] ++ (h ++ (body ++ rest)) := by
      rw [hdrop, List.cons_append, List.append_assoc]
      rfl
    obtain ⟨d₁, htype, hat₁⟩ := consumes_onBuffer (Buffer.consumes_readType hdata Tag.map) d p _ hat hdrop
    have hdrop₁ := drop_append_of_drop hdrop
    obtain ⟨d₂, hcount, hat₂⟩ := consumes_onBuffer (Buffer.consumes_readVarUint hdata hc) d₁ _ _ hat₁ hdrop₁
    have hentries := returns_readEntries_none hdata hindex hes hlong hdistinct.2 hleaves
      (Nat.lt_of_succ_lt_succ hn) [] hat₂ (drop_append_of_drop hdrop₁)
    rw [wsonToJsValue, returns_bind, htype, Option.bind_some]
    show returns (do
      let length ← onBuffer (Buffer.readVarUint .c)
      return Decoded.object (← readEntries V (makeIdentifer e) (wsonToJsValue V e n) length.toNat [])) d₁ = none
    rw [returns_bind, hcount, Option.bind_some, BitVec.toNat_ofNat, Nat.mod_eq_of_lt hc.fits, returns_bind,
      hentries]
    rfl

theorem returns_readElements_none (hdata : data.length < 2 ^ Library.bits .c)
    (hindex : V.CanonicalIndex) : ∀ {ds : List Doc} {bs rest : Bytes} {n p : Nat} {d : Decoder},
    Doc.EncodesItems e ds bs → ¬ Doc.LeavesItems (fun _ => True) ShortKey ds → DistinctKeysItems ds →
      Doc.LeavesItems (fun u => u.kind ≠ .uint8String) (fun _ => True) ds → Doc.heightItems ds < n →
        ∀ items, AtDecoder data d p → data.drop p = bs ++ rest →
          returns (readElements (wsonToJsValue V e n) ds.length items) d = none
  | [], _, _, _, _, _, _, h, _, _, _, _, _, _ => absurd trivial h
  | u :: ds, _, rest, n, p, d, ⟨b₁, b₂, h₁, h₂, hd⟩, hlong, hdistinct, hleaves, hn, items, hat, hdrop => by
    obtain rfl := hd
    rw [Doc.heightItems, Nat.max_lt] at hn
    rw [List.append_assoc] at hdrop
    rw [List.length_cons, readElements, returns_bind, returns_hasNext h₁.length_pos hat hdrop]
    by_cases hu : ShortKeys u
    · obtain ⟨d₁, hvalue, hat₁⟩ := consumes_wsonToJsValue hdata hindex h₁ hu hdistinct.1 hleaves.1 hn.1
        d p _ hat hdrop
      have hrest := returns_readElements_none hdata hindex h₂ (fun hds => hlong ⟨hu, hds⟩) hdistinct.2
        hleaves.2 hn.2 (items ++ [decoded V u]) hat₁ (drop_append_of_drop hdrop)
      show returns (do
        let value ← wsonToJsValue V e n
        readElements (wsonToJsValue V e n) ds.length (items ++ [value])) d = none
      rw [returns_bind, hvalue]
      exact hrest
    · show returns (do
        let value ← wsonToJsValue V e n
        readElements (wsonToJsValue V e n) ds.length (items ++ [value])) d = none
      rw [returns_bind, returns_wsonToJsValue_none hdata hindex h₁ hu hdistinct.1 hleaves.1 hn.1 hat hdrop]
      rfl

theorem returns_readEntries_none (hdata : data.length < 2 ^ Library.bits .c)
    (hindex : V.CanonicalIndex) : ∀ {es : List (Utf16 × Doc)} {bs rest : Bytes} {n p : Nat} {d : Decoder},
    Doc.EncodesEntries e es bs → ¬ Doc.LeavesEntries (fun _ => True) ShortKey es → DistinctKeysEntries es →
      Doc.LeavesEntries (fun u => u.kind ≠ .uint8String) (fun _ => True) es → Doc.heightEntries es < n →
        ∀ properties, AtDecoder data d p → data.drop p = bs ++ rest →
          returns (readEntries V (makeIdentifer e) (wsonToJsValue V e n) es.length properties) d = none
  | [], _, _, _, _, _, _, h, _, _, _, _, _, _ => absurd trivial h
  | (k, u) :: es, _, rest, n, p, d, ⟨h, b₁, b₂, hk, h₁, h₂, hd⟩, hlong, hdistinct, hleaves, hn,
      properties, hat, hdrop => by
    obtain rfl := hd
    rw [Doc.heightEntries, Nat.max_lt] at hn
    simp only [List.append_assoc] at hdrop
    have hpos : 0 < (h ++ (units e k ++ b₁)).length := by
      have hpos := h₁.length_pos
      simp only [List.length_append]
      omega
    have hentry : data.drop p = (h ++ (units e k ++ b₁)) ++ (b₂ ++ rest) := by
      simp only [hdrop, List.append_assoc]
    rw [List.length_cons, readEntries, returns_bind, returns_hasNext hpos hat hentry]
    show returns (do
      let propertyLength ← onBuffer (Buffer.readVarUint .c)
      let data ← onBuffer (Buffer.readBts .c propertyLength)
      let identifer ← makeIdentifer e data (unitCount propertyLength)
      let value ← wsonToJsValue V e n
      readEntries V (makeIdentifer e) (wsonToJsValue V e n) es.length
        (putProperty (V.propertyKey identifer) value properties)) d = none
    rw [← readIdentifer_bind, returns_bind]
    by_cases hkey : ShortKey k
    · have hdrop' : data.drop p = (h ++ units e k) ++ (b₁ ++ (b₂ ++ rest)) := by
        rw [hdrop, List.append_assoc]
      obtain ⟨d₁, hidentifer, hat₁⟩ := consumes_readIdentifer hdata hk hkey d p _ hat hdrop'
      have hdrop₁ := drop_append_of_drop hdrop'
      rw [hidentifer, Option.bind_some, returns_bind]
      by_cases hu : ShortKeys u
      · obtain ⟨d₂, hvalue, hat₂⟩ := consumes_wsonToJsValue hdata hindex h₁ hu hdistinct.1 hleaves.2.1 hn.1
          d₁ _ _ hat₁ hdrop₁
        rw [hvalue]
        exact returns_readEntries_none hdata hindex h₂ (fun hes => hlong ⟨hkey, hu, hes⟩) hdistinct.2
          hleaves.2.2 hn.2 _ hat₂ (drop_append_of_drop hdrop₁)
      · rw [returns_wsonToJsValue_none hdata hindex h₁ hu hdistinct.1 hleaves.2.1 hn.1 hat₁ hdrop₁]
        rfl
    · rw [returns_readIdentifer_none hdata hk hkey hat hdrop]
      rfl

end

end Values

end Wson.Jsc
