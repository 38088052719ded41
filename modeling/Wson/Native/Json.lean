import Wson.Native.Skip

/-!
# The JSON text of a document

`answers_toJSONtring`: where an encoding of a document stands, `toJSONtring` moves to its
end and appends the text `rendered` of the document. It is `jsonText` if the size of
every 16-bit text and key can be doubled as an `int`; otherwise there is none.
-/

namespace Wson.Native

open Effect Wire

namespace Parser

open Buffer

section Text

variable (libc : Libc)

/-- `true` or `false`. -/
def booleanText (b : Bool) : Bytes :=
  if b then [0x74, 0x72, 0x75, 0x65] else [0x66, 0x61, 0x6C, 0x73, 0x65]

mutual

def jsonText : Doc → Bytes
  | .null => [0x22, 0x22]
  | .boolean b => booleanText b
  | .int x => libc.appendInt x
  | .long x => libc.appendLong x
  | .float x => libc.appendFloat x
  | .double x => libc.appendDouble x
  | .text _ s => utf16ConvertToUtf8QuoteCstr s
  | .uint8String bs => bs
  | .array ds => 0x5B :: (jsonTextItems ds ++ [0x5D])
  | .map es => 0x7B :: (jsonTextEntries es ++ [0x7D])

def jsonTextItems : List Doc → Bytes
  | [] => []
  | d :: ds => jsonText d ++ (if ds.length ≠ 0 then [0x2C] else []) ++ jsonTextItems ds

def jsonTextEntries : List (Utf16 × Doc) → Bytes
  | [] => []
  | (k, d) :: es =>
    utf16ConvertToUtf8QuoteCstr k ++ 0x3A :: (jsonText d ++ (if es.length ≠ 0 then [0x2C] else [])) ++
      jsonTextEntries es

end

end Text

/-- The decoding buffer of a 16-bit text of this length can be allocated. -/
def Decodable (s : Utf16) : Prop :=
  2 * s.length < 2 ^ 30

/-- A leaf that is no 16-bit text, or one that can be decoded. -/
def DecodableLeaf : Doc → Prop
  | .text _ s => Decodable s
  | _ => True

/-- Every 16-bit text and every key of the document can be decoded. -/
abbrev DecodableDoc : Doc → Prop :=
  Doc.Leaves DecodableLeaf Decodable

variable {lib : Library} {e : Endian} {libc : Libc} {data : Bytes} {length : Nat}

theorem returns_requireDecodingBuffer {size : BitVec 32} (h : size.toNat < 2 ^ 30) (buffer : Buffer) :
    returns (requireDecodingBuffer size) buffer = some ((), buffer) := by
  have hsize : size.toInt = size.toNat := BitVec.toInt_eq_toNat_of_lt (by omega)
  rw [requireDecodingBuffer, if_neg (by omega)]
  rfl

theorem returns_requireDecodingBuffer_none {size : BitVec 32} (h : ¬ size.toNat < 2 ^ 30)
    (buffer : Buffer) : returns (requireDecodingBuffer size) buffer = none := by
  have hlt := size.isLt
  have hsize : size.toInt < 0 ∨ 2 ^ 31 ≤ size.toInt * 2 := by
    by_cases hsmall : 2 * size.toNat < 2 ^ 32
    · rw [BitVec.toInt_eq_toNat_of_lt hsmall]
      omega
    · rw [BitVec.toInt_eq_toNat_cond, if_neg hsmall]
      omega
  rw [requireDecodingBuffer, if_pos hsize]
  rfl

theorem consumes_readUtf16 (hdata : data.length < 2 ^ lib.bits) {s : Utf16} {h : Bytes}
    (hv : VarUInt (2 * s.length) h) (hs : Decodable s) :
    Consumes data (At data length) (returns (readUtf16 lib e)) (h ++ units e s) s := by
  have hlen : (BitVec.ofNat 32 (units e s).length).toNat = (units e s).length := by
    rw [BitVec.toNat_ofNat, Nat.mod_eq_of_lt (by rw [units_length]; exact hv.fits)]
  rw [readUtf16, returns_bind_eq]
  refine (consumes_readVarUint hdata hv).bind ?_
  rintro _ p rest ⟨rfl, hp⟩ hd
  refine ⟨_, ?_, rfl, end_le_length hd hp⟩
  have hbts := returns_readBts length hdata hd hp (by rw [units_length]; exact hv.fits)
  have hbytes := returns_bytesAt length (p + (units e s).length) hd hp
  have heven : (units e s).length / 2 * 2 = (units e s).length := by
    rw [units_length]
    omega
  have hrequire := returns_requireDecodingBuffer
    (show (BitVec.ofNat 32 (units e s).length).toNat < 2 ^ 30 by rw [hlen, units_length]; exact hs)
  simp only [← units_length e s, returns_bind, hbts, Option.bind_some, hlen, heven, hbytes, hrequire,
    returns_pure, ofUnits_units]

/-- Otherwise the decoding buffer cannot be allocated. -/
theorem returns_readUtf16_none (hdata : data.length < 2 ^ lib.bits) {s : Utf16} {h rest : Bytes}
    {p : Nat} (hv : VarUInt (2 * s.length) h) (hs : ¬ Decodable s) (hp : p ≤ data.length)
    (hd : data.drop p = h ++ (units e s ++ rest)) :
    returns (readUtf16 lib e) ⟨data, p, length⟩ = none := by
  obtain ⟨_, hheader, rfl, hp'⟩ := consumes_readVarUint hdata hv ⟨data, p, length⟩ p _
    ⟨rfl, hp⟩ hd
  have hd' := drop_append_of_drop hd
  have hbts := returns_readBts length hdata hd' hp' (by rw [units_length]; exact hv.fits)
  rw [units_length] at hbts
  have hthrow : returns (requireDecodingBuffer (BitVec.ofNat 32 (2 * s.length)))
      ⟨data, p + h.length + 2 * s.length, length⟩ = none := by
    refine returns_requireDecodingBuffer_none ?_ _
    rw [BitVec.toNat_ofNat, Nat.mod_eq_of_lt hv.fits]
    exact hs
  rw [readUtf16, returns_bind, hheader, Option.bind_some, returns_bind, hbts, Option.bind_some,
    returns_bind, hthrow]
  rfl

/-- A length and a text, whichever size it has. -/
theorem answers_readUtf16 (hdata : data.length < 2 ^ lib.bits) {s : Utf16} {h : Bytes}
    (hv : VarUInt (2 * s.length) h) :
    Answers data (At data length) (returns (readUtf16 lib e)) (h ++ units e s)
      (if 2 * s.length < 2 ^ 30 then some s else none) := by
  split
  · next hs => exact consumes_readUtf16 hdata hv hs
  · next hs =>
    rintro _ p rest ⟨rfl, hp⟩ hd
    exact returns_readUtf16_none hdata hv hs hp (by rw [hd, List.append_assoc])

theorem consumes_readUtf8 (hdata : data.length < 2 ^ lib.bits) {bs h : Bytes}
    (hv : VarUInt bs.length h) (hsmall : bs.length < 2 ^ 31) :
    Consumes data (At data length) (returns (readUtf8 lib)) (h ++ bs) bs := by
  have hlen : (BitVec.ofNat 32 bs.length).toNat = bs.length := by
    rw [BitVec.toNat_ofNat, Nat.mod_eq_of_lt hv.fits]
  have hint : ¬ (BitVec.ofNat 32 bs.length).toInt < 0 := by
    rw [toInt_ofNat hsmall]
    omega
  rw [readUtf8, returns_bind_eq]
  refine (consumes_readVarUint hdata hv).bind ?_
  rintro _ p rest ⟨rfl, hp⟩ hd
  refine ⟨_, ?_, rfl, end_le_length hd hp⟩
  rw [returns_bind, returns_readBts length hdata hd hp hv.fits, Option.bind_some, appendBytes, if_neg hint,
    hlen]
  exact returns_bytesAt length _ hd hp

/-- The length of an 8-bit text is an `int`, too. -/
theorem answers_readUtf8 (hdata : data.length < 2 ^ lib.bits) {bs h : Bytes} (hv : VarUInt bs.length h) :
    Answers data (At data length) (returns (readUtf8 lib)) (h ++ bs)
      (if bs.length < 2 ^ 31 then some bs else none) := by
  split
  · next hbs => exact consumes_readUtf8 hdata hv hbs
  · next hbs =>
    rw [readUtf8, returns_bind_eq]
    refine (consumes_readVarUint hdata hv).answers (o := none) ?_
    rintro _ p rest ⟨rfl, hp⟩ hd
    have hfits := hv.fits
    have hint : (BitVec.ofNat 32 bs.length).toInt < 0 := by
      rw [BitVec.toInt_eq_toNat_cond, BitVec.toNat_ofNat, Nat.mod_eq_of_lt hfits, if_neg (by omega)]
      omega
    rw [returns_bind, returns_readBts length hdata hd hp hfits, Option.bind_some, appendBytes, if_pos hint]
    rfl

/-! ## The text that is appended -/

section Rendered

variable (libc)

mutual

/-- What `toJSONtring` appends, if it returns. -/
def rendered : Doc → Option Bytes
  | .null => some [0x22, 0x22]
  | .boolean b => some (booleanText b)
  | .int x => some (libc.appendInt x)
  | .long x => some (libc.appendLong x)
  | .float x => some (libc.appendFloat x)
  | .double x => some (libc.appendDouble x)
  | .text _ s => (if 2 * s.length < 2 ^ 30 then some s else none).map utf16ConvertToUtf8QuoteCstr
  | .uint8String bs => if bs.length < 2 ^ 31 then some bs else none
  | .array ds => (renderedItems ds).map fun items => 0x5B :: (items ++ [0x5D])
  | .map es => (renderedEntries es).map fun entries => 0x7B :: (entries ++ [0x7D])

def renderedItems : List Doc → Option Bytes
  | [] => some []
  | d :: ds => (rendered d).bind fun value => (renderedItems ds).map fun rest =>
      value ++ (if ds.length ≠ 0 then [0x2C] else []) ++ rest

def renderedEntries : List (Utf16 × Doc) → Option Bytes
  | [] => some []
  | (k, d) :: es => (if 2 * k.length < 2 ^ 30 then some k else none).bind fun key =>
      (rendered d).bind fun value => (renderedEntries es).map fun rest =>
        utf16ConvertToUtf8QuoteCstr key ++ 0x3A :: (value ++ (if es.length ≠ 0 then [0x2C] else [])) ++ rest

end

end Rendered

mutual

theorem rendered_of_decodable : ∀ {d : Doc}, DecodableDoc d → d.Within (2 ^ 31) →
    rendered libc d = some (jsonText libc d)
  | .null, _, _ | .boolean _, _, _ | .int _, _, _ | .long _, _, _ | .float _, _, _
  | .double _, _, _ => rfl
  | .text _ s, hdec, _ => by
    rw [rendered, if_pos (show 2 * s.length < 2 ^ 30 from hdec)]
    rfl
  | .uint8String _, _, hlen => if_pos hlen
  | .array _, hdec, hlen => by
    rw [rendered, renderedItems_of_decodable hdec hlen.2]
    rfl
  | .map _, hdec, hlen => by
    rw [rendered, renderedEntries_of_decodable hdec hlen.2]
    rfl

theorem renderedItems_of_decodable : ∀ {ds : List Doc}, Doc.LeavesItems DecodableLeaf Decodable ds →
    Doc.WithinItems (2 ^ 31) ds → renderedItems libc ds = some (jsonTextItems libc ds)
  | [], _, _ => rfl
  | _ :: _, hdec, hlen => by
    rw [renderedItems, rendered_of_decodable hdec.1 hlen.1, renderedItems_of_decodable hdec.2 hlen.2]
    rfl

theorem renderedEntries_of_decodable : ∀ {es : List (Utf16 × Doc)},
    Doc.LeavesEntries DecodableLeaf Decodable es → Doc.WithinEntries (2 ^ 31) es →
      renderedEntries libc es = some (jsonTextEntries libc es)
  | [], _, _ => rfl
  | (k, _) :: _, hdec, hlen => by
    rw [renderedEntries, if_pos (show 2 * k.length < 2 ^ 30 from hdec.1),
      rendered_of_decodable hdec.2.1 hlen.2.1, renderedEntries_of_decodable hdec.2.2 hlen.2.2]
    rfl

end

mutual

/-- Otherwise there is no text. -/
theorem decodable_of_rendered : ∀ {d : Doc} {text : Bytes}, rendered libc d = some text → DecodableDoc d
  | .null, _, _ | .boolean _, _, _ | .int _, _, _ | .long _, _, _ | .float _, _, _
  | .double _, _, _ | .uint8String _, _, _ => trivial
  | .text _ s, _, h => by
    obtain ⟨_, h, -⟩ := Option.map_eq_some_iff.mp h
    exact (Option.ite_none_right_eq_some.mp h).1
  | .array _, _, h => by
    obtain ⟨_, h, -⟩ := Option.map_eq_some_iff.mp h
    exact decodableItems_of_rendered h
  | .map _, _, h => by
    obtain ⟨_, h, -⟩ := Option.map_eq_some_iff.mp h
    exact decodableEntries_of_rendered h

theorem decodableItems_of_rendered : ∀ {ds : List Doc} {text : Bytes},
    renderedItems libc ds = some text → Doc.LeavesItems DecodableLeaf Decodable ds
  | [], _, _ => trivial
  | _ :: _, _, h => by
    obtain ⟨_, hd, h⟩ := Option.bind_eq_some_iff.mp h
    obtain ⟨_, h, -⟩ := Option.map_eq_some_iff.mp h
    exact ⟨decodable_of_rendered hd, decodableItems_of_rendered h⟩

theorem decodableEntries_of_rendered : ∀ {es : List (Utf16 × Doc)} {text : Bytes},
    renderedEntries libc es = some text → Doc.LeavesEntries DecodableLeaf Decodable es
  | [], _, _ => trivial
  | (_, _) :: _, _, h => by
    obtain ⟨_, hk, h⟩ := Option.bind_eq_some_iff.mp h
    obtain ⟨_, hd, h⟩ := Option.bind_eq_some_iff.mp h
    obtain ⟨_, h, -⟩ := Option.map_eq_some_iff.mp h
    exact ⟨(Option.ite_none_right_eq_some.mp hk).1, decodable_of_rendered hd,
      decodableEntries_of_rendered h⟩

end

mutual

/-- **The JSON text** is appended and the position moves behind the document, or nothing is
returned. -/
theorem answers_toJSONtring (hdata : data.length < 2 ^ lib.bits) :
    ∀ {d : Doc} {bs : Bytes} {n : Nat}, d.Encodes e bs → d.height < n → d.Within (2 ^ 31) →
      Answers data (At data length) (returns (toJSONtring lib e libc n)) bs (rendered libc d)
  | .null, _, n + 1, hd, _, _ | .boolean true, _, n + 1, hd, _, _
  | .boolean false, _, n + 1, hd, _, _ => by
    obtain rfl := hd
    exact answers_typed hdata (m := jsonValue lib e libc _) (consumes_pure _)
  | .int x, _, n + 1, ⟨h, hx, hd⟩, _, _ => by
    obtain rfl := hd
    exact answers_typed hdata (m := jsonValue lib e libc _)
      (consumes_wrap (consumes_readVarInt hdata hx))
  | .long x, _, n + 1, hd, _, _ => by
    obtain rfl := hd
    exact answers_typed hdata (m := jsonValue lib e libc _)
      (consumes_wrap (consumes_readFixedUint64 hdata x))
  | .float x, _, n + 1, hd, _, _ => by
    obtain rfl := hd
    exact answers_typed hdata (m := jsonValue lib e libc _)
      (consumes_wrap (consumes_readFloat hdata x))
  | .double x, _, n + 1, hd, _, _ => by
    obtain rfl := hd
    exact answers_typed hdata (m := jsonValue lib e libc _)
      (consumes_wrap (consumes_readFixedUint64 hdata x))
  | .text kind s, _, n + 1, ⟨h, hs, hd⟩, _, _ => by
    obtain rfl := hd
    refine answers_typed hdata (m := jsonValue lib e libc _) ?_
    have hread : Answers data (At data length)
        (returns do return utf16ConvertToUtf8QuoteCstr (← readUtf16 lib e)) _ _ :=
      answers_wrap (answers_readUtf16 hdata hs)
    cases kind <;> exact hread
  | .uint8String cs, _, n + 1, ⟨h, hcs, hd⟩, _, _ => by
    obtain rfl := hd
    exact answers_typed hdata (m := jsonValue lib e libc _) (answers_readUtf8 hdata hcs)
  | .array ds, _, n + 1, ⟨h, body, hc, hds, hd⟩, hn, hlen => by
    obtain rfl := hd
    refine answers_typed hdata (m := jsonValue lib e libc _) ?_
    refine answers_count hdata hc hlen.1
      (m := fun k => do return 0x5B :: ((← jsonItems (toJSONtring lib e libc n) k) ++ [0x5D])) ?_
    exact answers_wrap (answers_jsonItems hdata hds (Nat.lt_of_succ_lt_succ hn) hlen.2)
  | .map es, _, n + 1, ⟨h, body, hc, hes, hd⟩, hn, hlen => by
    obtain rfl := hd
    refine answers_typed hdata (m := jsonValue lib e libc _) ?_
    refine answers_count hdata hc hlen.1
      (m := fun k => do
        return 0x7B :: ((← jsonEntries lib e (toJSONtring lib e libc n) k) ++ [0x7D])) ?_
    exact answers_wrap (answers_jsonEntries hdata hes (Nat.lt_of_succ_lt_succ hn) hlen.2)

theorem answers_jsonItems (hdata : data.length < 2 ^ lib.bits) :
    ∀ {ds : List Doc} {bs : Bytes} {n : Nat}, Doc.EncodesItems e ds bs → Doc.heightItems ds < n →
      Doc.WithinItems (2 ^ 31) ds →
        Answers data (At data length) (returns (jsonItems (toJSONtring lib e libc n) ds.length)) bs
          (renderedItems libc ds)
  | [], _, _, hd, _, _ => by
    obtain rfl := hd
    exact consumes_pure _
  | d :: ds, _, n, ⟨b₁, b₂, h₁, h₂, hd⟩, hn, hlen => by
    obtain rfl := hd
    rw [Doc.heightItems, Nat.max_lt] at hn
    rw [List.length_cons, jsonItems, returns_bind_eq]
    refine (answers_toJSONtring hdata h₁ hn.1 hlen.1).bind fun value _ => ?_
    exact answers_wrap (answers_jsonItems hdata h₂ hn.2 hlen.2)

theorem answers_jsonEntries (hdata : data.length < 2 ^ lib.bits) :
    ∀ {es : List (Utf16 × Doc)} {bs : Bytes} {n : Nat}, Doc.EncodesEntries e es bs →
      Doc.heightEntries es < n → Doc.WithinEntries (2 ^ 31) es →
        Answers data (At data length)
          (returns (jsonEntries lib e (toJSONtring lib e libc n) es.length)) bs (renderedEntries libc es)
  | [], _, _, hd, _, _ => by
    obtain rfl := hd
    exact consumes_pure _
  | (k, d) :: es, _, n, ⟨h, b₁, b₂, hk, h₁, h₂, hd⟩, hn, hlen => by
    obtain rfl := hd
    rw [Doc.heightEntries, Nat.max_lt] at hn
    rw [List.length_cons, jsonEntries, List.append_assoc, returns_bind_eq]
    refine (answers_readUtf16 hdata hk).bind fun key _ => ?_
    rw [returns_bind_eq]
    refine (answers_toJSONtring hdata h₁ hn.1 hlen.2.1).bind fun value _ => ?_
    exact answers_wrap (answers_jsonEntries hdata h₂ hn.2 hlen.2.2)

end

theorem consumes_toJSONtring (hdata : data.length < 2 ^ lib.bits) {d : Doc} {bs : Bytes} {n : Nat}
    (hd : d.Encodes e bs) (hdec : DecodableDoc d) (hn : d.height < n) (hlen : d.Within (2 ^ 31)) :
    Consumes data (At data length) (returns (toJSONtring lib e libc n)) bs (jsonText libc d) := by
  have h : Answers data (At data length) (returns (toJSONtring lib e libc n)) bs (rendered libc d) :=
    answers_toJSONtring hdata hd hn hlen
  rw [rendered_of_decodable hdec hlen] at h
  exact h

/-- A document that cannot be decoded has no JSON text. -/
theorem returns_toJSONtring_none (hdata : data.length < 2 ^ lib.bits) {d : Doc} {bs rest : Bytes}
    {n p : Nat} (hd : d.Encodes e bs) (hdec : ¬ DecodableDoc d) (hn : d.height < n)
    (hlen : d.Within (2 ^ 31)) (hp : p ≤ data.length) (hdrop : data.drop p = bs ++ rest) :
    returns (toJSONtring lib e libc n) ⟨data, p, length⟩ = none := by
  have h : Answers data (At data length) (returns (toJSONtring lib e libc n)) bs (rendered libc d) :=
    answers_toJSONtring hdata hd hn hlen
  cases hr : rendered libc d with
  | some text => exact absurd (decodable_of_rendered hr) hdec
  | none =>
    rw [hr] at h
    exact h _ p rest ⟨rfl, hp⟩ hdrop

end Parser

end Wson.Native
