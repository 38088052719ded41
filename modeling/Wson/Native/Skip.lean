import Wson.Native.Parser

/-!
# Skipping a value

`consumes_skipValue`: where an encoding of a document stands behind its tag,
`skipValue` moves to its end. In `io/` this needs that there is no float in the
document, as nothing is skipped for one.
-/

namespace Wson.Native

open Effect Wire

namespace Parser

open Buffer

variable {lib : Library} {e : Endian} {data : Bytes} {length : Nat}

/-- What the library skips: `io/` skips no float. -/
def Skips (lib : Library) (d : Doc) : Prop :=
  lib = .io → d.kind ≠ .float

theorem consumes_discard {α : Type} {m : BufferM α} {bs : Bytes} {a : α}
    (h : Consumes data (At data length) (returns m) bs a) :
    Consumes data (At data length) (returns (discard m)) bs () := by
  intro s p rest hs hd
  obtain ⟨t, ht, hat⟩ := h s p rest hs hd
  refine ⟨t, ?_, hat⟩
  show returns ((fun _ => ()) <$> m) s = _
  rw [returns_map, ht]
  rfl

theorem consumes_skipBlock (hdata : data.length < 2 ^ lib.bits) {bs h : Bytes}
    (hv : VarUInt bs.length h) :
    Consumes data (At data length) (returns (skipBlock lib)) (h ++ bs) () := by
  rw [skipBlock, returns_bind_eq]
  refine (consumes_readVarUint hdata hv).bind ?_
  rintro _ p rest ⟨rfl, hp⟩ hd
  refine ⟨_, ?_, rfl, end_le_length hd hp⟩
  rw [returns_bind, returns_readBts length hdata hd hp hv.fits]
  rfl

theorem toInt_ofNat {n : Nat} (h : n < 2 ^ 31) : (BitVec.ofNat 32 n).toInt = n := by
  rw [BitVec.toInt_eq_toNat_of_lt (by rw [BitVec.toNat_ofNat]; omega), BitVec.toNat_ofNat]
  omega

/-- A count is read, and then as many entries as it says. -/
theorem answers_count {α : Type} (hdata : data.length < 2 ^ lib.bits) {m : Nat → BufferM α}
    {k : Nat} {h bs : Bytes} {o : Option α} (hk : VarUInt k h) (hsmall : k < 2 ^ 31)
    (hm : Answers data (At data length) (returns (m k)) bs o) :
    Answers data (At data length)
      (returns (do let length := (← readVarUint lib).toInt; m length.toNat)) (h ++ bs) o := by
  rw [returns_bind_eq]
  refine (consumes_readVarUint hdata hk).answers ?_
  simp only [toInt_ofNat hsmall, Int.toNat_natCast]
  exact hm

theorem consumes_count {α : Type} (hdata : data.length < 2 ^ lib.bits) {m : Nat → BufferM α}
    {k : Nat} {h bs : Bytes} {a : α} (hk : VarUInt k h) (hsmall : k < 2 ^ 31)
    (hm : Consumes data (At data length) (returns (m k)) bs a) :
    Consumes data (At data length)
      (returns (do let length := (← readVarUint lib).toInt; m length.toNat)) (h ++ bs) a :=
  answers_count (o := some a) hdata hk hsmall hm

/-- A type is read, and then the value behind it. -/
theorem answers_typed {α : Type} (hdata : data.length < 2 ^ lib.bits) {m : Byte → BufferM α}
    {t : Byte} {bs : Bytes} {o : Option α} (h : Answers data (At data length) (returns (m t)) bs o) :
    Answers data (At data length) (returns (do m (← readType lib))) (t :: bs) o := by
  rw [returns_bind_eq]
  exact (consumes_readType hdata t).answers h

theorem consumes_typed {α : Type} (hdata : data.length < 2 ^ lib.bits) {m : Byte → BufferM α}
    {t : Byte} {bs : Bytes} {a : α} (h : Consumes data (At data length) (returns (m t)) bs a) :
    Consumes data (At data length) (returns (do m (← readType lib))) (t :: bs) a :=
  answers_typed (o := some a) hdata h

mutual

/-- **Skipping** moves over the payload of a value. -/
theorem consumes_skipValue (hdata : data.length < 2 ^ lib.bits) : ∀ {d : Doc} {tl : Bytes} {n : Nat},
    d.Encodes e (d.kind.tag :: tl) → d.AllLeaves (Skips lib) → d.height < n → d.Within (2 ^ 31) →
      Consumes data (At data length) (returns (skipValue lib n d.kind.tag)) tl ()
  | .null, _, n + 1, hd, _, _, _ => by
    obtain rfl := (List.cons.inj hd).2
    exact consumes_pure _
  | .boolean b, _, n + 1, hd, _, _, _ => by
    obtain rfl := (List.cons.inj hd).2
    rw [skipValue, Doc.Kind.ofTag_tag]
    exact consumes_pure _
  | .int x, _, n + 1, ⟨h, hx, hd⟩, _, _, _ => by
    obtain rfl := (List.cons.inj hd).2
    exact consumes_discard (consumes_readVarInt hdata hx)
  | .long x, _, n + 1, hd, _, _, _ => by
    obtain rfl := (List.cons.inj hd).2
    exact consumes_discard (consumes_readFixedUint64 hdata x)
  | .float x, _, n + 1, hd, hskips, _, _ => by
    obtain rfl := (List.cons.inj hd).2
    cases lib with
    | c => exact consumes_discard (consumes_readFloat hdata x)
    | io => exact absurd rfl (hskips rfl)
  | .double x, _, n + 1, hd, _, _, _ => by
    obtain rfl := (List.cons.inj hd).2
    exact consumes_discard (consumes_readFixedUint64 hdata x)
  | .text kind s, _, n + 1, ⟨h, hs, hd⟩, _, _, _ => by
    obtain rfl := (List.cons.inj hd).2
    rw [skipValue, Doc.Kind.ofTag_tag]
    exact consumes_skipBlock hdata (by rw [units_length]; exact hs)
  | .uint8String cs, _, n + 1, ⟨h, hcs, hd⟩, _, _, _ => by
    obtain rfl := (List.cons.inj hd).2
    exact consumes_skipBlock hdata hcs
  | .array ds, _, n + 1, ⟨h, body, hc, hds, hd⟩, hskips, hn, hlen => by
    obtain rfl := (List.cons.inj hd).2
    exact consumes_count hdata hc hlen.1
      (consumes_skipItems hdata hds hskips (Nat.lt_of_succ_lt_succ hn) hlen.2)
  | .map es, _, n + 1, ⟨h, body, hc, hes, hd⟩, hskips, hn, hlen => by
    obtain rfl := (List.cons.inj hd).2
    exact consumes_count hdata hc hlen.1
      (consumes_skipEntries hdata hes hskips (Nat.lt_of_succ_lt_succ hn) hlen.2)

theorem consumes_skipItems (hdata : data.length < 2 ^ lib.bits) :
    ∀ {ds : List Doc} {bs : Bytes} {n : Nat}, Doc.EncodesItems e ds bs →
      Doc.LeavesItems (Skips lib) (fun _ => True) ds → Doc.heightItems ds < n →
        Doc.WithinItems (2 ^ 31) ds →
          Consumes data (At data length) (returns (skipItems lib (skipValue lib n) ds.length)) bs ()
  | [], _, _, hd, _, _, _ => by
    obtain rfl := hd
    exact consumes_pure _
  | d :: ds, _, n, ⟨b₁, b₂, h₁, h₂, hd⟩, hskips, hn, hlen => by
    obtain rfl := hd
    obtain ⟨tl, rfl⟩ := h₁.head
    rw [Doc.heightItems, Nat.max_lt] at hn
    have hvalue := consumes_typed hdata (m := skipValue lib n)
      (consumes_skipValue hdata h₁ hskips.1 hn.1 hlen.1)
    have hrest := consumes_skipItems hdata h₂ hskips.2 hn.2 hlen.2
    rw [List.length_cons, skipItems, ← bind_assoc, returns_bind_eq]
    exact hvalue.bind hrest

theorem consumes_skipEntries (hdata : data.length < 2 ^ lib.bits) :
    ∀ {es : List (Utf16 × Doc)} {bs : Bytes} {n : Nat}, Doc.EncodesEntries e es bs →
      Doc.LeavesEntries (Skips lib) (fun _ => True) es → Doc.heightEntries es < n →
        Doc.WithinEntries (2 ^ 31) es →
          Consumes data (At data length) (returns (skipEntries lib (skipValue lib n) es.length)) bs ()
  | [], _, _, hd, _, _, _ => by
    obtain rfl := hd
    exact consumes_pure _
  | (k, d) :: es, _, n, ⟨h, b₁, b₂, hk, h₁, h₂, hd⟩, hskips, hn, hlen => by
    obtain rfl := hd
    obtain ⟨tl, rfl⟩ := h₁.head
    rw [Doc.heightEntries, Nat.max_lt] at hn
    have hkey : VarUInt (units e k).length h := by rwa [units_length]
    have hvalue := consumes_typed hdata (m := skipValue lib n)
      (consumes_skipValue hdata h₁ hskips.2.1 hn.1 hlen.2.1)
    have hrest := consumes_skipEntries hdata h₂ hskips.2.2 hn.2 hlen.2.2
    rw [List.length_cons, skipEntries, returns_bind_eq, List.append_assoc]
    refine (consumes_skipBlock hdata hkey).bind ?_
    rw [← bind_assoc, returns_bind_eq]
    exact hvalue.bind hrest

end

/-- The type is read where the declared length has not ended. -/
theorem returns_nextType {buffer : Buffer} (h : buffer.position < buffer.length) :
    returns (nextType lib) buffer = returns (readType lib) buffer := by
  have hrun : nextType lib buffer
      = (if buffer.position < buffer.length then readType lib else pure Tag.null) buffer :=
    rfl
  rw [returns, returns, hrun, if_pos h]

/-- **A document is skipped**, wherever it stands below the declared length. -/
theorem returns_skipValue (hdata : data.length < 2 ^ lib.bits) {d : Doc} {bs rest : Bytes}
    {n p : Nat} (hd : d.Encodes e bs) (hskips : d.AllLeaves (Skips lib)) (hn : d.height < n)
    (hlen : d.Within (2 ^ 31)) (hdrop : data.drop p = bs ++ rest) (hp : p < length) :
    returns (do skipValue lib n (← nextType lib)) ⟨data, p, length⟩
      = some ((), ⟨data, p + bs.length, length⟩) := by
  obtain ⟨tl, rfl⟩ := hd.head
  have hin := congrArg List.length hdrop
  rw [List.length_drop, List.length_append, List.length_cons] at hin
  have hskip : Consumes data (At data length) _ (d.kind.tag :: tl) () :=
    consumes_typed hdata (consumes_skipValue hdata hd hskips hn hlen)
  obtain ⟨_, hrun, rfl, -⟩ := hskip _ p rest ⟨rfl, by omega⟩ hdrop
  rw [← hrun, returns_bind, returns_bind, returns_nextType (by exact hp)]

end Parser

end Wson.Native
