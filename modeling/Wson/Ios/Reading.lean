import Wson.Ios.Parser

/-!
# Decoding a document

What `toObj:` makes of the encoding of a document: it builds the object that the document
stands for and consumes exactly the encoding (`consumes_toObj`), unless there is a text in
UTF-8 in it, which `toObj:` does not know.
-/

namespace Wson.Ios

open Effect Wire Native

mutual

/-- The object that a document stands for. -/
def parsed : Doc → Parsed
  | .null => .null
  | .boolean b => .bool b
  | .int x => .int x
  | .long x => .longLong x
  | .float x => .float x
  | .double x => .double x
  | .text _ s => .string s
  -- not known to `toObj:`
  | .uint8String _ => .null
  | .array ds => .array (parsedItems ds)
  | .map es => .dictionary (parsedEntries es [])

def parsedItems : List Doc → List Parsed
  | [] => []
  | d :: ds => parsed d :: parsedItems ds

/-- The entries one by one; a key that is there already gets the later value. -/
def parsedEntries : List (Utf16 × Doc) → List (Utf16 × Parsed) → List (Utf16 × Parsed)
  | [], dic => dic
  | (k, d) :: es, dic => parsedEntries es (setObject k (parsed d) dic)

end

/-- A document that `toObj:` knows. -/
abbrev Known (d : Doc) : Prop :=
  d.AllLeaves fun u => u.kind ≠ .uint8String

theorem returns_onBuffer {α : Type} (m : BufferM α) : returns (onBuffer m) = returns m := by
  funext b
  unfold returns onBuffer EStateM.adaptExcept
  cases m b <;> rfl

section Reading

variable {e : Endian} {data : Bytes} {length : Nat}

theorem consumes_onBuffer {α : Type} {m : BufferM α} {xs : Bytes} {a : α}
    (h : Consumes data (Buffer.At data length) (returns m) xs a) :
    Consumes data (Buffer.At data length) (returns (onBuffer m)) xs a := by
  rw [returns_onBuffer]
  exact h

theorem consumes_member {toObj : ParserM (Option Parsed)} {xs : Bytes} {value : Parsed}
    (h : Consumes data (Buffer.At data length) (returns toObj) xs (some value)) :
    Consumes data (Buffer.At data length) (returns (member toObj)) xs value := by
  rw [member, returns_bind_eq]
  exact (h.bind (consumes_pure value)).of_eq (List.append_nil _) rfl

/-- There is a next value where there are bytes. -/
theorem consumes_hasNext (hlength : data.length ≤ length) {α : Type} {m m' : ParserM α} {xs : Bytes} {a : α}
    (hne : xs ≠ []) (h : Consumes data (Buffer.At data length) (returns m) xs a) :
    Consumes data (Buffer.At data length) (returns (do if ← hasNext then m else m')) xs a := by
  rintro buffer p rest ⟨rfl, hp⟩ hd
  obtain ⟨buffer', hm, hat⟩ := h _ p rest ⟨rfl, hp⟩ hd
  have hpos := List.length_pos_of_ne_nil hne
  have hend := Buffer.end_le_length hd hp
  have hmore : returns hasNext (⟨data, p, length⟩ : Buffer) = some (true, ⟨data, p, length⟩) := by
    show some (decide (p < length), (⟨data, p, length⟩ : Buffer)) = _
    rw [decide_eq_true (by omega)]
  refine ⟨buffer', ?_, hat⟩
  rw [returns_bind, hmore]
  exact hm

theorem consumes_readCharacters (hdata : data.length < 2 ^ Library.bits .c) {s : Utf16} {h : Bytes}
    (hv : VarUInt (2 * s.length) h) :
    Consumes data (Buffer.At data length) (returns (readCharacters e)) (h ++ units e s) s := by
  rw [readCharacters, returns_bind_eq]
  refine (Buffer.consumes_readVarUint hdata hv).bind ?_
  rintro _ p rest ⟨rfl, hp⟩ hd
  have hbts := Buffer.returns_readBts length hdata hd hp (by rw [units_length]; exact hv.fits)
  have hbytes := Buffer.returns_bytesAt length (p + 2 * s.length) hd hp
  have hlen : 2 * ((BitVec.ofNat 32 (2 * s.length)).toNat / 2) = 2 * s.length := by
    rw [BitVec.toNat_ofNat, Nat.mod_eq_of_lt hv.fits]
    omega
  rw [units_length] at hbts hbytes
  refine ⟨⟨data, p + 2 * s.length, length⟩, ?_, ?_, Buffer.end_le_length hd hp⟩
  · rw [returns_bind, hbts, Option.bind_some, hlen, returns_bind, hbytes, Option.bind_some,
      ofUnits_units]
    rfl
  · rw [units_length]

/-! ## Values -/

/-- A tag is read, and then the value behind it. -/
theorem consumes_tagged (hdata : data.length < 2 ^ Library.bits .c) {n : Nat} (kind : Doc.Kind) {bs : Bytes}
    {value : Option Parsed}
    (h : Consumes data (Buffer.At data length) (returns (readValue e (toObj e n) kind.tag)) bs value) :
    Consumes data (Buffer.At data length) (returns (toObj e (n + 1))) (kind.tag :: bs) value := by
  rw [toObj, returns_bind_eq]
  exact (consumes_onBuffer (Buffer.consumes_readType hdata kind.tag)).bind h

mutual

/-- **Decoding** builds the object that a document stands for. -/
theorem consumes_toObj (hdata : data.length < 2 ^ Library.bits .c) (hlength : data.length ≤ length) :
    ∀ {d : Doc} {bs : Bytes} {n : Nat}, d.Encodes e bs → Known d → d.height < n →
      Consumes data (Buffer.At data length) (returns (toObj e n)) bs (some (parsed d))
  | .null, _, n + 1, hd, _, _ => by
    obtain rfl := hd
    exact consumes_tagged hdata .null (consumes_pure _)
  | .boolean b, _, n + 1, hd, _, _ => by
    obtain rfl := hd
    refine consumes_tagged hdata (.boolean b) ?_
    rw [readValue, Doc.Kind.ofTag_tag]
    exact consumes_pure _
  | .int x, _, n + 1, ⟨h, hx, hd⟩, _, _ => by
    obtain rfl := hd
    exact consumes_tagged hdata .int (consumes_wrap (consumes_onBuffer (Buffer.consumes_readVarInt hdata hx)))
  | .long x, _, n + 1, hd, _, _ => by
    obtain rfl := hd
    exact consumes_tagged hdata .long
      (consumes_wrap (consumes_onBuffer (Buffer.consumes_readFixedUint64 hdata x)))
  | .float x, _, n + 1, hd, _, _ => by
    obtain rfl := hd
    exact consumes_tagged hdata .float
      (consumes_wrap (consumes_onBuffer (Buffer.consumes_readFloat hdata x)))
  | .double x, _, n + 1, hd, _, _ => by
    obtain rfl := hd
    exact consumes_tagged hdata .double
      (consumes_wrap (consumes_onBuffer (Buffer.consumes_readFixedUint64 hdata x)))
  | .text kind s, _, n + 1, ⟨h, hs, hd⟩, _, _ => by
    obtain rfl := hd
    refine consumes_tagged hdata (.text kind) ?_
    rw [readValue, Doc.Kind.ofTag_tag]
    exact consumes_wrap (consumes_onBuffer (consumes_readCharacters hdata hs))
  | .uint8String _, _, _, _, h, _ => absurd rfl h
  | .array ds, _, n + 1, ⟨h, body, hc, hds, hd⟩, hknown, hn => by
    obtain rfl := hd
    have hitems := consumes_readItems hdata hlength hds hknown (Nat.lt_of_succ_lt_succ hn) []
    refine consumes_tagged hdata .array ?_
    show Consumes data (Buffer.At data length) (returns do
      let length ← onBuffer (Buffer.readVarUint .c)
      return some (Parsed.array (← readItems (toObj e n) length.toNat []))) _ _
    rw [returns_bind_eq]
    refine (consumes_onBuffer (Buffer.consumes_readVarUint hdata hc)).bind ?_
    rw [BitVec.toNat_ofNat, Nat.mod_eq_of_lt hc.fits]
    exact consumes_wrap hitems
  | .map es, _, n + 1, ⟨h, body, hc, hes, hd⟩, hknown, hn => by
    obtain rfl := hd
    have hentries := consumes_readEntries hdata hlength hes hknown (Nat.lt_of_succ_lt_succ hn) []
    refine consumes_tagged hdata .map ?_
    show Consumes data (Buffer.At data length) (returns do
      let mapLength ← onBuffer (Buffer.readVarUint .c)
      return some (Parsed.dictionary (← readEntries e (toObj e n) mapLength.toNat []))) _ _
    rw [returns_bind_eq]
    refine (consumes_onBuffer (Buffer.consumes_readVarUint hdata hc)).bind ?_
    rw [BitVec.toNat_ofNat, Nat.mod_eq_of_lt hc.fits]
    exact consumes_wrap hentries

theorem consumes_readItems (hdata : data.length < 2 ^ Library.bits .c) (hlength : data.length ≤ length) :
    ∀ {ds : List Doc} {bs : Bytes} {n : Nat}, Doc.EncodesItems e ds bs →
      Doc.LeavesItems (fun u => u.kind ≠ .uint8String) (fun _ => True) ds → Doc.heightItems ds < n →
        ∀ array, Consumes data (Buffer.At data length) (returns (readItems (toObj e n) ds.length array)) bs
          (array ++ parsedItems ds)
  | [], _, _, hd, _, _, array => by
    obtain rfl := hd
    rw [parsedItems, List.append_nil]
    exact consumes_pure _
  | d :: ds, _, n, ⟨b₁, b₂, h₁, h₂, hd⟩, hknown, hn, array => by
    obtain rfl := hd
    rw [Doc.heightItems, Nat.max_lt] at hn
    have hvalue := consumes_toObj hdata hlength h₁ hknown.1 hn.1
    have hrest := consumes_readItems hdata hlength h₂ hknown.2 hn.2 (array ++ [parsed d])
    rw [List.append_assoc, List.singleton_append] at hrest
    rw [List.length_cons, readItems]
    refine consumes_hasNext hlength
      (List.append_ne_nil_of_left_ne_nil (List.ne_nil_of_length_pos h₁.length_pos) _) ?_
    rw [returns_bind_eq]
    exact (consumes_member hvalue).bind hrest

theorem consumes_readEntries (hdata : data.length < 2 ^ Library.bits .c) (hlength : data.length ≤ length) :
    ∀ {es : List (Utf16 × Doc)} {bs : Bytes} {n : Nat}, Doc.EncodesEntries e es bs →
      Doc.LeavesEntries (fun u => u.kind ≠ .uint8String) (fun _ => True) es → Doc.heightEntries es < n →
        ∀ dic, Consumes data (Buffer.At data length) (returns (readEntries e (toObj e n) es.length dic)) bs
          (parsedEntries es dic)
  | [], _, _, hd, _, _, dic => by
    obtain rfl := hd
    exact consumes_pure _
  | (k, d) :: es, _, n, ⟨h, b₁, b₂, hk, h₁, h₂, hd⟩, hknown, hn, dic => by
    obtain rfl := hd
    rw [Doc.heightEntries, Nat.max_lt] at hn
    have hvalue := consumes_toObj hdata hlength h₁ hknown.2.1 hn.1
    have hrest := consumes_readEntries hdata hlength h₂ hknown.2.2 hn.2 (setObject k (parsed d) dic)
    rw [List.length_cons, readEntries, parsedEntries, List.append_assoc, returns_bind_eq]
    refine (consumes_onBuffer (consumes_readCharacters hdata hk)).bind ?_
    rw [returns_bind_eq]
    exact (consumes_member hvalue).bind hrest

end

end Reading

end Wson.Ios
