import Wson.Native.Decoding
import Wson.Native.Json
import Wson.Runtime.Value

/-!
# Decoding a document

What `convertWsonToRuntimeValue` makes of the encoding of a document
(`answers_convert`): `decoded`, and nothing where a text is too long for an `int`.
The stores into the buffer of `wson16ToString` are left to `Native.Decoding.wson16ToString`,
which gives the same text where there is one at all (`staysInside_wson16ToString`).
-/

namespace Wson.Runtime

open Effect Wire Native RuntimeValue

/-- The text of 16-bit units. -/
def decodedText (s : Utf16) : Option Bytes :=
  if 2 * s.length < 2 ^ 30 then some (utf16ConvertToUtf8Cstr s) else none

/-- The entries that are inserted one after the other. -/
def insertAll (runtimeMap : List (Bytes × RuntimeValue)) (entries : List (Bytes × RuntimeValue)) :
    List (Bytes × RuntimeValue) :=
  entries.foldl (fun m entry => insert entry.1 entry.2 m) runtimeMap

mutual

/-- The value that a document stands for, if it can be decoded. -/
def decoded : Doc → Option RuntimeValue
  | .null => some .null
  | .boolean b => some (.bool b)
  | .int x => some (.int x)
  | .long x => some (.double (Binary64.ofInt x.toInt))
  | .float x => some (.double (Binary64.ofFloat x))
  | .double x => some (.double x)
  | .text _ s => (decodedText s).map .string
  | .uint8String bs => (if bs.length < 2 ^ 31 then some bs else none).map .string
  | .array ds => (decodedItems ds).map .array
  | .map es => (decodedEntries es).map fun entries => .map (insertAll [] entries)

def decodedItems : List Doc → Option (List RuntimeValue)
  | [] => some []
  | d :: ds => (decoded d).bind fun value => (decodedItems ds).map (value :: ·)

def decodedEntries : List (Utf16 × Doc) → Option (List (Bytes × RuntimeValue))
  | [] => some []
  | (k, d) :: es => (decodedText k).bind fun name => (decoded d).bind fun value =>
      (decodedEntries es).map ((name, value) :: ·)

end

/-! ## Containers -/

theorem length_insert_le (key : Bytes) (value : RuntimeValue) :
    ∀ m : List (Bytes × RuntimeValue), (insert key value m).length ≤ m.length + 1
  | [] => Nat.le_refl 1
  | entry :: m => by
    rw [insert]
    split
    · exact Nat.le_succ _
    · exact Nat.succ_le_succ (length_insert_le key value m)

theorem insert_of_new {key : Bytes} {value : RuntimeValue} :
    ∀ {m : List (Bytes × RuntimeValue)}, key ∉ m.map Prod.fst → insert key value m = m ++ [(key, value)]
  | [], _ => rfl
  | entry :: m, h => by
    rw [List.map_cons, List.mem_cons, not_or] at h
    rw [insert, if_neg (Ne.symm h.1), insert_of_new h.2]
    rfl

theorem length_insert_of_mem {key : Bytes} {value : RuntimeValue} :
    ∀ {m : List (Bytes × RuntimeValue)}, key ∈ m.map Prod.fst → (insert key value m).length = m.length
  | [], h => nomatch h
  | entry :: m, h => by
    rw [insert]
    split
    · rfl
    · next hne =>
      rw [List.map_cons, List.mem_cons] at h
      exact congrArg Nat.succ (length_insert_of_mem (h.resolve_left fun heq => hne heq.symm))

/-- New keys are added in order. -/
theorem insertAll_of_nodup : ∀ {m entries : List (Bytes × RuntimeValue)},
    ((m ++ entries).map Prod.fst).Nodup → insertAll m entries = m ++ entries
  | m, [], _ => (List.append_nil m).symm
  | m, entry :: entries, h => by
    have hnew : entry.1 ∉ m.map Prod.fst := by
      rw [List.map_append, List.nodup_append] at h
      intro hmem
      exact h.2.2 _ hmem _ List.mem_cons_self rfl
    show insertAll (insert entry.1 entry.2 m) entries = _
    rw [insert_of_new hnew, insertAll_of_nodup (by rwa [List.append_assoc]), List.append_assoc]
    rfl

theorem length_insertAll_le : ∀ m entries : List (Bytes × RuntimeValue),
    (insertAll m entries).length ≤ m.length + entries.length
  | m, [] => Nat.le_refl _
  | m, entry :: entries => by
    have hinsert := length_insert_le entry.1 entry.2 m
    have hrest := length_insertAll_le (insert entry.1 entry.2 m) entries
    show (insertAll (insert entry.1 entry.2 m) entries).length ≤ _
    rw [List.length_cons]
    omega

/-- If no entry is lost, none has replaced another. -/
theorem insertAll_of_length : ∀ {m entries : List (Bytes × RuntimeValue)},
    (insertAll m entries).length = m.length + entries.length → insertAll m entries = m ++ entries
  | m, [], _ => (List.append_nil m).symm
  | m, entry :: entries, h => by
    have hrest := length_insertAll_le (insert entry.1 entry.2 m) entries
    have h : (insertAll (insert entry.1 entry.2 m) entries).length = m.length + (entry :: entries).length := h
    rw [List.length_cons] at h
    by_cases hmem : entry.1 ∈ m.map Prod.fst
    · rw [length_insert_of_mem hmem] at hrest
      omega
    · have hinsert : insert entry.1 entry.2 m = m ++ [entry] := insert_of_new hmem
      show insertAll (insert entry.1 entry.2 m) entries = _
      rw [hinsert] at h ⊢
      rw [insertAll_of_length (by rw [h, List.length_append, List.length_singleton]; omega),
        List.append_assoc]
      rfl

/-! ## Reading from the buffer -/

section Reading

variable {e : Endian} {data : Bytes}

/-- There is a next value where there are bytes. -/
theorem answers_hasNext {α : Type} {m m' : BufferM α} {xs : Bytes} {o : Option α} (hpos : 0 < xs.length)
    (h : Answers data (Buffer.At data data.length) (returns m) xs o) :
    Answers data (Buffer.At data data.length) (returns (do if ← hasNext then m else m')) xs o := by
  have hrun {buffer : Buffer} {p : Nat} {rest : Bytes} (hat : Buffer.At data data.length buffer p)
      (hd : data.drop p = xs ++ rest) :
      returns (do if ← hasNext then m else m') buffer = returns m buffer := by
    obtain ⟨rfl, -⟩ := hat
    have hlength := congrArg List.length hd
    rw [List.length_drop, List.length_append] at hlength
    have hnext : returns hasNext ⟨data, p, data.length⟩ = some (true, ⟨data, p, data.length⟩) := by
      show some (decide (p < data.length), (⟨data, p, data.length⟩ : Buffer)) = _
      rw [decide_eq_true (by omega)]
    rw [returns_bind, hnext]
    rfl
  cases o with
  | none =>
    intro s p rest hat hd
    rw [hrun hat hd]
    exact h s p rest hat hd
  | some a =>
    intro s p rest hat hd
    rw [hrun hat hd]
    exact h s p rest hat hd

/-- The text is the one that the stores into the buffer of `wson16ToString` give, and these stay
inside, but for a text of no bytes, whose NUL is stored into an array of none. -/
theorem staysInside_wson16ToString {src : Nat} {length : BitVec 32} {buffer buffer' : Buffer} {text : Bytes}
    (h : wson16ToString e src length buffer = .ok text buffer') :
    ∃ utf16 : Utf16, utf16.length = length.toNat / 2 ∧ text = Text.utf8 utf16 ∧
      (Decoding.StringStaysInside length utf16 ↔ length ≠ 0) := by
  have hread := returns_eq_some.mpr h
  rw [wson16ToString, returns_bind] at hread
  obtain ⟨⟨_, s⟩, hrequire, hread⟩ := Option.bind_eq_some_iff.mp hread
  simp only [returns_bind] at hread
  obtain ⟨⟨bytes, s'⟩, hbytes, hread⟩ := Option.bind_eq_some_iff.mp hread
  -- both checks have passed: twice the length is an `int`, and the bytes are there
  have hsize : ¬ (length.toInt < 0 ∨ 2 ^ 31 ≤ length.toInt * 2) := by
    intro hsize
    rw [Parser.requireDecodingBuffer, if_pos hsize] at hrequire
    cases hrequire
  have hlength : bytes.length = length.toNat / 2 * 2 := by
    rw [returns_eq_some, Buffer.bytesAt] at hbytes
    split at hbytes
    · next hinside =>
      obtain ⟨rfl, -⟩ := EStateM.Result.ok.inj hbytes
      rw [List.length_take, List.length_drop]
      omega
    · cases hbytes
  have hunits : (ofUnits e bytes).length = length.toNat / 2 := by
    rw [ofUnits_length, hlength, Nat.mul_div_cancel _ (by decide)]
  obtain ⟨rfl, -⟩ := Prod.mk.inj (Option.some.inj hread)
  refine ⟨ofUnits e bytes, hunits, utf16ConvertToUtf8Cstr_eq _, ?_⟩
  rw [Decoding.stringStaysInside_iff_of_length hunits]
  have hzero : length ≠ 0 ↔ 0 < length.toNat := by
    rw [ne_eq, BitVec.toNat_eq, Nat.pos_iff_ne_zero]
    rfl
  have hint := BitVec.toInt_eq_toNat_cond length
  rw [hzero]
  constructor
  · rintro ⟨-, htext | hpositive⟩
    · rw [← List.length_pos_iff, hunits] at htext
      omega
    · exact hpositive
  · intro hpositive
    exact ⟨by omega, .inr hpositive⟩

theorem readString16_eq : readString16 e = (do return utf16ConvertToUtf8Cstr (← Parser.readUtf16 .c e)) := by
  simp only [readString16, wson16ToString, Parser.readUtf16, bind_assoc, pure_bind]

theorem answers_readString16 (hdata : data.length < 2 ^ Library.bits .c) {s : Utf16} {h : Bytes}
    (hv : VarUInt (2 * s.length) h) :
    Answers data (Buffer.At data data.length) (returns (readString16 e)) (h ++ units e s) (decodedText s) := by
  rw [readString16_eq]
  have hread : Answers data (Buffer.At data data.length) (returns (Parser.readUtf16 .c e)) _ _ :=
    Parser.answers_readUtf16 hdata hv
  refine (answers_wrap (f := utf16ConvertToUtf8Cstr) hread).of_eq rfl ?_
  unfold decodedText
  split <;> rfl

/-- A count is read, and then as many values as it says. -/
theorem answers_count {α : Type} (hdata : data.length < 2 ^ Library.bits .c) {m : Nat → BufferM α} {k : Nat}
    {h bs : Bytes} {o : Option α} (hk : VarUInt k h)
    (hm : Answers data (Buffer.At data data.length) (returns (m k)) bs o) :
    Answers data (Buffer.At data data.length)
      (returns (do let length ← Buffer.readVarUint .c; m length.toNat)) (h ++ bs) o := by
  rw [returns_bind_eq]
  refine (Buffer.consumes_readVarUint hdata hk).answers ?_
  rw [BitVec.toNat_ofNat, Nat.mod_eq_of_lt hk.fits]
  exact hm

mutual

/-- **Decoding** a document. -/
theorem answers_convert (hdata : data.length < 2 ^ Library.bits .c) : ∀ {d : Doc} {bs : Bytes} {n : Nat},
    d.Encodes e bs → d.height < n →
      Answers data (Buffer.At data data.length) (returns (convertWsonToRuntimeValue e n)) bs (decoded d)
  | .null, _, n + 1, hd, _ | .boolean true, _, n + 1, hd, _ | .boolean false, _, n + 1, hd, _ => by
    obtain rfl := hd
    exact Parser.answers_typed hdata (m := convertValue e _) (consumes_pure _)
  | .int x, _, n + 1, ⟨h, hx, hd⟩, _ => by
    obtain rfl := hd
    exact Parser.answers_typed hdata (m := convertValue e _)
      (consumes_wrap (Buffer.consumes_readVarInt hdata hx))
  | .long x, _, n + 1, hd, _ => by
    obtain rfl := hd
    exact Parser.answers_typed hdata (m := convertValue e _)
      (consumes_wrap (Buffer.consumes_readFixedUint64 hdata x))
  | .float x, _, n + 1, hd, _ => by
    obtain rfl := hd
    exact Parser.answers_typed hdata (m := convertValue e _)
      (consumes_wrap (Buffer.consumes_readFloat hdata x))
  | .double x, _, n + 1, hd, _ => by
    obtain rfl := hd
    exact Parser.answers_typed hdata (m := convertValue e _)
      (consumes_wrap (Buffer.consumes_readFixedUint64 hdata x))
  | .text kind s, _, n + 1, ⟨h, hs, hd⟩, _ => by
    obtain rfl := hd
    refine Parser.answers_typed hdata (m := convertValue e _) ?_
    have hread := answers_wrap (f := RuntimeValue.string) (answers_readString16 (e := e) hdata hs)
    cases kind <;> exact hread
  | .uint8String cs, _, n + 1, ⟨h, hcs, hd⟩, _ => by
    obtain rfl := hd
    exact Parser.answers_typed hdata (m := convertValue e _)
      (answers_wrap (Parser.answers_readUtf8 hdata hcs))
  | .array ds, _, n + 1, ⟨h, body, hc, hds, hd⟩, hn => by
    obtain rfl := hd
    refine Parser.answers_typed hdata (m := convertValue e _) (answers_count hdata hc
      (m := fun k => do return RuntimeValue.array (← convertItems (convertWsonToRuntimeValue e n) k)) ?_)
    exact answers_wrap (answers_convertItems hdata hds (Nat.lt_of_succ_lt_succ hn))
  | .map es, _, n + 1, ⟨h, body, hc, hes, hd⟩, hn => by
    obtain rfl := hd
    refine Parser.answers_typed hdata (m := convertValue e _) (answers_count hdata hc
      (m := fun k => do return RuntimeValue.map (← convertEntries e (convertWsonToRuntimeValue e n) k [])) ?_)
    refine (answers_wrap (answers_convertEntries hdata hes (Nat.lt_of_succ_lt_succ hn) [])).of_eq rfl ?_
    rw [Option.map_map]
    rfl

theorem answers_convertItems (hdata : data.length < 2 ^ Library.bits .c) : ∀ {ds : List Doc} {bs : Bytes} {n : Nat},
    Doc.EncodesItems e ds bs → Doc.heightItems ds < n →
      Answers data (Buffer.At data data.length)
        (returns (convertItems (convertWsonToRuntimeValue e n) ds.length)) bs (decodedItems ds)
  | [], _, _, hd, _ => by
    obtain rfl := hd
    exact consumes_pure _
  | d :: ds, _, n, ⟨b₁, b₂, h₁, h₂, hd⟩, hn => by
    obtain rfl := hd
    rw [Doc.heightItems, Nat.max_lt] at hn
    have hpos : 0 < (b₁ ++ b₂).length := by
      have hpos := h₁.length_pos
      rw [List.length_append]
      omega
    rw [List.length_cons, convertItems]
    refine answers_hasNext hpos ?_
    rw [returns_bind_eq]
    refine (answers_convert hdata h₁ hn.1).bind fun value _ => ?_
    exact answers_wrap (answers_convertItems hdata h₂ hn.2)

theorem answers_convertEntries (hdata : data.length < 2 ^ Library.bits .c) :
    ∀ {es : List (Utf16 × Doc)} {bs : Bytes} {n : Nat}, Doc.EncodesEntries e es bs →
      Doc.heightEntries es < n → ∀ runtimeMap : List (Bytes × RuntimeValue),
        Answers data (Buffer.At data data.length)
          (returns (convertEntries e (convertWsonToRuntimeValue e n) es.length runtimeMap)) bs
          ((decodedEntries es).map (insertAll runtimeMap))
  | [], _, _, hd, _, _ => by
    obtain rfl := hd
    exact consumes_pure _
  | (k, d) :: es, _, n, ⟨h, b₁, b₂, hk, h₁, h₂, hd⟩, hn, runtimeMap => by
    obtain rfl := hd
    rw [Doc.heightEntries, Nat.max_lt] at hn
    have hpos : 0 < (h ++ units e k ++ (b₁ ++ b₂)).length := by
      have hpos := h₁.length_pos
      simp only [List.length_append]
      omega
    rw [List.length_cons, convertEntries, List.append_assoc]
    refine answers_hasNext hpos ?_
    have hvalue (name : Bytes) : Answers data (Buffer.At data data.length)
        (returns (do
          let value ← convertWsonToRuntimeValue e n
          convertEntries e (convertWsonToRuntimeValue e n) es.length (insert name value runtimeMap)))
        (b₁ ++ b₂)
        ((decoded d).bind fun value => (decodedEntries es).map (insertAll (insert name value runtimeMap))) := by
      rw [returns_bind_eq]
      exact (answers_convert hdata h₁ hn.1).bind fun value _ =>
        answers_convertEntries hdata h₂ hn.2 (insert name value runtimeMap)
    rw [returns_bind_eq]
    refine ((answers_readString16 hdata hk).bind fun name _ => hvalue name).of_eq rfl ?_
    rw [decodedEntries]
    cases decodedText k <;> cases decoded d <;> cases decodedEntries es <;> rfl

end

end Reading

end Wson.Runtime
