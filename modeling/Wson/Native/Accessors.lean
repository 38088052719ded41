import Wson.Native.Json

/-!
# Reading one value

What each accessor makes of a value, called with the type that `nextType` has just
returned.

- `answers_skipValue`, `answers_nextStringUTF8`, `answers_nextBool`: they end behind the
  value, or do not return.
- `answers_nextNumber`: so does `nextNumber`, except for a text that is not empty. There it
  has passed over the text before it reads it (`returns_nextNumber_text`).
-/

namespace Wson.Native

open Effect Wire

namespace Parser

open Buffer

section Values

variable (libc : Libc)

/-- What `nextStringUTF8` returns. -/
def stringOf : Doc → Option Bytes
  | .null => some []
  | .text _ s => (if 2 * s.length < 2 ^ 30 then some s else none).map utf16ConvertToUtf8Cstr
  | d => rendered libc d

/-- What `nextNumber` returns, unless it reads the wrong text. -/
def numberOf : Doc → BitVec 64
  | .null => 0
  | .boolean b => Binary64.ofInt (if b then 1 else 0)
  | .int x => Binary64.ofInt x.toInt
  | .long x => Binary64.ofInt x.toInt
  | .float x => Binary64.ofFloat x
  | .double x => x
  | .text _ _ => strtodOf libc []
  | .uint8String _ => strtodOf libc []
  | .array _ | .map _ => 0

/-- What `nextBool` returns. -/
def boolOf : Doc → Bool
  | .null | .boolean false => false
  | _ => true

end Values

/-- The size in front of the bytes of a text. -/
def textSize : Doc → Nat
  | .text _ s => 2 * s.length
  | .uint8String bs => bs.length
  | _ => 0

variable {lib : Library} {e : Endian} {libc : Libc} {data : Bytes} {length n : Nat} {d : Doc} {bs : Bytes}

/-- The type of a value is read, and then the value. -/
theorem answers_nextType {α : Type} (hdata : data.length < 2 ^ lib.bits) (hlength : data.length ≤ length)
    {m : Byte → BufferM α} {t : Byte} {tl : Bytes} {o : Option α}
    (h : Answers data (At data length) (returns (m t)) tl o) :
    Answers data (At data length) (returns (do m (← nextType lib))) (t :: tl) o := by
  have htype : Consumes data (At data length) (returns (nextType lib)) [t] t := by
    rintro _ p rest ⟨rfl, hp⟩ hd
    have hend := end_le_length hd hp
    rw [List.length_singleton] at hend
    rw [returns_nextType (by show p < length; omega)]
    exact consumes_readType hdata t _ p rest ⟨rfl, hp⟩ hd
  rw [returns_bind_eq]
  exact htype.answers h

theorem answers_skipValue (hdata : data.length < 2 ^ lib.bits) (hlength : data.length ≤ length)
    (hd : d.Encodes e bs) (hskips : d.AllLeaves (Skips lib)) (hn : d.height < n)
    (hlen : d.Within (2 ^ 31)) :
    Answers data (At data length) (returns (do skipValue lib n (← nextType lib))) bs (some ()) := by
  obtain ⟨tl, rfl⟩ := hd.head
  exact answers_nextType hdata hlength (o := some ()) (consumes_skipValue hdata hd hskips hn hlen)

/-- For a container the tag is read a second time. -/
theorem returns_nextStringUTF8 (hdata : data.length < 2 ^ lib.bits) (hd : d.Encodes e bs)
    (hroot : ¬ d.IsLeaf) {p : Nat} {rest : Bytes} (hdrop : data.drop p = bs ++ rest)
    (hp : p ≤ data.length) (hlength : p < length) :
    returns (do nextStringUTF8 lib e libc n (← nextType lib)) ⟨data, p, length⟩ =
      returns (toJSONtring lib e libc n) ⟨data, p, length⟩ := by
  obtain ⟨tl, rfl⟩ := hd.head
  have hback : (p + 1 + 2 ^ lib.bits - 1) % 2 ^ lib.bits = p := by
    rw [Nat.add_right_comm, Nat.add_sub_cancel, Nat.add_mod_right, Nat.mod_eq_of_lt (by omega)]
  obtain ⟨_, htype, rfl, -⟩ :=
    consumes_readType hdata d.kind.tag ⟨data, p, length⟩ p (tl ++ rest) ⟨rfl, hp⟩ hdrop
  rw [List.length_singleton] at htype
  rw [returns_bind, returns_nextType (by exact hlength), htype, Option.bind_some]
  unfold nextStringUTF8
  cases d with
  | array ds | map es =>
    simp only [Doc.Kind.ofTag_tag, Doc.kind]
    rw [returns_bind, returns_modify, Option.bind_some]
    simp only [hback]
  | _ => exact absurd trivial hroot

theorem answers_nextStringUTF8 (hdata : data.length < 2 ^ lib.bits) (hlength : data.length ≤ length)
    (hd : d.Encodes e bs) (hn : d.height < n) (hlen : d.Within (2 ^ 31)) :
    Answers data (At data length) (returns (do nextStringUTF8 lib e libc n (← nextType lib))) bs
      (stringOf libc d) := by
  have hjson (hroot : ¬ d.IsLeaf) : Answers data (At data length)
      (returns (do nextStringUTF8 lib e libc n (← nextType lib))) bs (rendered libc d) := by
    refine Answers.congr (answers_toJSONtring hdata hd hn hlen) ?_
    rintro _ p rest ⟨rfl, hp⟩ hdrop
    have hend := end_le_length hdrop hp
    have hpos := hd.length_pos
    exact returns_nextStringUTF8 hdata hd hroot hdrop hp (by omega)
  cases d with
  | null =>
    obtain rfl := hd
    exact answers_nextType hdata hlength (consumes_pure _)
  | boolean b =>
    obtain rfl := hd
    cases b <;> exact answers_nextType hdata hlength (consumes_pure _)
  | int x =>
    obtain ⟨h, hx, rfl⟩ := hd
    exact answers_nextType hdata hlength (consumes_wrap (consumes_readVarInt hdata hx))
  | long x =>
    obtain rfl := hd
    exact answers_nextType hdata hlength (consumes_wrap (consumes_readFixedUint64 hdata x))
  | float x =>
    obtain rfl := hd
    exact answers_nextType hdata hlength (consumes_wrap (consumes_readFloat hdata x))
  | double x =>
    obtain rfl := hd
    exact answers_nextType hdata hlength (consumes_wrap (consumes_readFixedUint64 hdata x))
  | text kind s =>
    obtain ⟨h, hs, rfl⟩ := hd
    have hread : Answers data (At data length)
        (returns do return utf16ConvertToUtf8Cstr (← readUtf16 lib e)) _ _ :=
      answers_wrap (answers_readUtf16 hdata hs)
    cases kind <;> exact answers_nextType hdata hlength hread
  | uint8String cs =>
    obtain ⟨h, hcs, rfl⟩ := hd
    exact answers_nextType hdata hlength (answers_readUtf8 hdata hcs)
  | array ds => exact hjson fun h => h
  | map es => exact hjson fun h => h

theorem answers_nextBool (hdata : data.length < 2 ^ lib.bits) (hlength : data.length ≤ length)
    (hd : d.Encodes e bs) (hskips : d.AllLeaves (Skips lib)) (hn : d.height < n)
    (hlen : d.Within (2 ^ 31)) :
    Answers data (At data length) (returns (do nextBool lib n (← nextType lib))) bs
      (some (boolOf d)) := by
  obtain ⟨tl, rfl⟩ := hd.head
  refine answers_nextType hdata hlength ?_
  by_cases hfalse : d.kind.tag = Tag.booleanFalse ∨ d.kind.tag = Tag.null
  · rw [nextBool, if_pos hfalse]
    obtain hkind | hkind := hfalse
    · have hkind : d.kind = .boolean false := Doc.Kind.tag_injective hkind
      cases d with
      | boolean b =>
        obtain rfl := Doc.Kind.boolean.inj hkind
        obtain rfl := (List.cons.inj hd).2
        exact consumes_pure false
      | _ => exact nomatch hkind
    · have hkind : d.kind = .null := Doc.Kind.tag_injective hkind
      cases d with
      | null =>
        obtain rfl := (List.cons.inj hd).2
        exact consumes_pure false
      | _ => exact nomatch hkind
  · have htrue : boolOf d = true := by
      cases d with
      | null => exact absurd (.inr rfl) hfalse
      | boolean b =>
        cases b with
        | true => rfl
        | false => exact absurd (.inl rfl) hfalse
      | _ => rfl
    rw [htrue, nextBool, if_neg hfalse]
    exact consumes_wrap (f := fun _ => true) (consumes_skipValue hdata hd hskips hn hlen)

/-! ## `nextNumber` -/

/-- Two pointers in a row: the second one is past the text. -/
theorem returns_readBts_twice {α : Type} {m : Nat → BufferM α} {size : BitVec 32} {p : Nat} :
    returns (do let _ ← readBts lib size; let ptr ← readBts lib size; m ptr) ⟨data, p, length⟩ =
      returns (m ((p + size.toNat) % 2 ^ lib.bits))
        ⟨data, ((p + size.toNat) % 2 ^ lib.bits + size.toNat) % 2 ^ lib.bits, length⟩ := rfl

/-- The decoding of a text moves nothing. -/
theorem buffer_of_decode {α : Type} {size : BitVec 32} {ptr k : Nat} {f : Bytes → α}
    {buffer buffer' : Buffer} {a : α}
    (h : returns (do requireDecodingBuffer size; return f (← bytesAt ptr k)) buffer = some (a, buffer')) :
    buffer' = buffer := by
  by_cases hsize : size.toNat < 2 ^ 30
  · rw [returns_bind, returns_requireDecodingBuffer hsize, Option.bind_some, returns_bind] at h
    obtain ⟨⟨xs, buffer₁⟩, hbytes, h⟩ := Option.bind_eq_some_iff.mp h
    rw [returns_eq_some, bytesAt] at hbytes
    split at hbytes
    · injection hbytes with _ hbytes
      exact (congrArg Prod.snd (Option.some.inj h)).symm.trans hbytes.symm
    · cases hbytes
  · rw [returns_bind, returns_requireDecodingBuffer_none hsize] at h
    cases h

theorem buffer_of_append {α : Type} {size : BitVec 32} {ptr : Nat} {f : Bytes → α}
    {buffer buffer' : Buffer} {a : α}
    (h : returns (do return f (← appendBytes ptr size)) buffer = some (a, buffer')) :
    buffer' = buffer := by
  rw [returns_bind] at h
  obtain ⟨⟨xs, buffer₁⟩, hbytes, h⟩ := Option.bind_eq_some_iff.mp h
  rw [appendBytes] at hbytes
  split at hbytes
  · cases hbytes
  · rw [returns_eq_some] at hbytes
    have hbytes : bytesAt ptr size.toNat buffer = .ok xs buffer₁ := hbytes
    rw [bytesAt] at hbytes
    split at hbytes
    · injection hbytes with _ hbytes
      exact (congrArg Prod.snd (Option.some.inj h)).symm.trans hbytes.symm
    · cases hbytes

theorem two_pow_le_bits (lib : Library) : 2 ^ 32 ≤ 2 ^ lib.bits := by
  cases lib <;> decide

/-- A header and two pointers: what moves nothing from there on ends as far behind the text as the
text is long. -/
theorem buffer_of_readBts_twice (hdata : data.length < 2 ^ 31) (hlength : data.length ≤ length)
    {tag : Byte} {header cs rest : Bytes} {m : BitVec 32 → Nat → BufferM (BitVec 64)}
    (hnum : nextNumber lib e libc n tag = do
      let size ← readVarUint lib
      let _ ← readBts lib size
      let ptr ← readBts lib size
      m size ptr)
    (hm : ∀ {size ptr b b' y}, returns (m size ptr) b = some (y, b') → b' = b)
    (hv : VarUInt cs.length header) {p : Nat} (hdrop : data.drop p = tag :: (header ++ cs) ++ rest)
    (hp : p ≤ data.length) {x : BitVec 64} {buffer : Buffer}
    (h : returns (do nextNumber lib e libc n (← nextType lib)) ⟨data, p, length⟩ = some (x, buffer)) :
    buffer = ⟨data, p + (tag :: (header ++ cs)).length + cs.length, length⟩ := by
  have hbits : data.length < 2 ^ lib.bits := by
    have := two_pow_le_bits lib
    omega
  have hend := end_le_length hdrop hp
  simp only [List.length_cons, List.length_append] at hend
  have hcs : (BitVec.ofNat 32 cs.length).toNat = cs.length := by
    rw [BitVec.toNat_ofNat, Nat.mod_eq_of_lt hv.fits]
  obtain ⟨_, htype, rfl, hp₁⟩ :=
    consumes_readType hbits tag ⟨data, p, length⟩ p _ ⟨rfl, hp⟩ hdrop
  rw [List.length_singleton] at htype hp₁
  have hdrop₁ : data.drop (p + 1) = header ++ (cs ++ rest) := by
    rw [← List.append_assoc]
    exact drop_append_of_drop (s := [tag]) hdrop
  obtain ⟨_, hheader, rfl, -⟩ :=
    consumes_readVarUint hbits hv ⟨data, p + 1, length⟩ _ _ ⟨rfl, hp₁⟩ hdrop₁
  have hwide := two_pow_le_bits lib
  have hmid : p + 1 + header.length + cs.length < 2 ^ lib.bits := by omega
  have hlast : p + 1 + header.length + cs.length + cs.length < 2 ^ lib.bits := by omega
  rw [returns_bind, returns_nextType (by show p < length; omega), htype, Option.bind_some, hnum,
    returns_bind, hheader, Option.bind_some, returns_readBts_twice, hcs, Nat.mod_eq_of_lt hmid,
    Nat.mod_eq_of_lt hlast] at h
  rw [hm h, List.length_cons, List.length_append]
  congr 1
  omega

/-- Behind the header of an empty text, both pointers are where the text ends. -/
theorem consumes_emptyText {α : Type} (hdata : data.length < 2 ^ lib.bits) {header : Bytes}
    (hv : VarUInt 0 header) {m : BitVec 32 → Nat → BufferM α} {a : α}
    (hm : ∀ p ≤ data.length, returns (m 0 p) ⟨data, p, length⟩ = some (a, ⟨data, p, length⟩)) :
    Consumes data (At data length) (returns (do
      let size ← readVarUint lib
      let _ ← readBts lib size
      let ptr ← readBts lib size
      m size ptr)) header a := by
  rw [returns_bind_eq]
  refine ((consumes_readVarUint hdata hv).bind ?_).of_eq (List.append_nil header) rfl
  rintro _ p rest ⟨rfl, hp⟩ hdrop
  refine ⟨⟨data, p, length⟩, ?_, rfl, hp⟩
  have hp' := Nat.lt_of_le_of_lt hp hdata
  have hzero : (BitVec.ofNat 32 0).toNat = 0 := rfl
  rw [returns_readBts_twice, hzero, Nat.add_zero, Nat.mod_eq_of_lt hp', Nat.add_zero,
    Nat.mod_eq_of_lt hp']
  exact hm p hp

/-- The branch of `nextNumber` for a 16-bit text. -/
theorem nextNumber_text (kind : TextKind) : nextNumber lib e libc n kind.tag = do
    let size ← readVarUint lib
    let _ ← readBts lib size
    let ptr ← readBts lib size
    requireDecodingBuffer size
    return strtodOf libc (utf16ConvertToUtf8Cstr (ofUnits e (← bytesAt ptr (size.toNat / 2 * 2)))) := by
  rw [nextNumber, show Doc.Kind.ofTag kind.tag = _ from Doc.Kind.ofTag_tag (.text kind)]

/-- **A text is read from where it ends**, and the parser ends as far behind it again. -/
theorem returns_nextNumber_text (hdata : data.length < 2 ^ 31) (hlength : data.length ≤ length)
    (hd : d.Encodes e bs) (hd' : textSize d ≠ 0) {p : Nat} {rest : Bytes}
    (hdrop : data.drop p = bs ++ rest) (hp : p ≤ data.length) {x : BitVec 64} {buffer : Buffer}
    (h : returns (do nextNumber lib e libc n (← nextType lib)) ⟨data, p, length⟩ = some (x, buffer)) :
    buffer = ⟨data, p + bs.length + textSize d, length⟩ := by
  cases d with
  | text kind s =>
    obtain ⟨header, hs, rfl⟩ := hd
    rw [← units_length e] at hs
    rw [textSize, ← units_length e]
    refine buffer_of_readBts_twice hdata hlength (nextNumber_text kind)
      (fun h => buffer_of_decode (f := fun bytes => strtodOf libc (utf16ConvertToUtf8Cstr (ofUnits e bytes))) h)
      hs hdrop hp h
  | uint8String cs =>
    obtain ⟨header, hcs, rfl⟩ := hd
    exact buffer_of_readBts_twice hdata hlength rfl (fun h => buffer_of_append h) hcs hdrop hp h
  | _ => exact absurd rfl hd'

theorem answers_nextNumber (hdata : data.length < 2 ^ lib.bits) (hlength : data.length ≤ length)
    (hd : d.Encodes e bs) (hd' : textSize d = 0) (hskips : d.AllLeaves (Skips lib)) (hn : d.height < n)
    (hlen : d.Within (2 ^ 31)) :
    Answers data (At data length) (returns (do nextNumber lib e libc n (← nextType lib))) bs
      (some (numberOf libc d)) := by
  obtain ⟨tl, rfl⟩ := hd.head
  refine answers_nextType hdata hlength ?_
  rw [nextNumber, Doc.Kind.ofTag_tag]
  cases d with
  | null =>
    obtain rfl := (List.cons.inj hd).2
    exact consumes_pure _
  | boolean b =>
    obtain rfl := (List.cons.inj hd).2
    rw [numberOf]
    exact consumes_pure _
  | int x =>
    obtain ⟨h, hx, hd⟩ := hd
    obtain rfl := (List.cons.inj hd).2
    rw [numberOf]
    have hread : Consumes data (At data length) _ _ _ :=
      consumes_wrap (f := fun x => Binary64.ofInt x.toInt) (consumes_readVarInt hdata hx)
    exact hread
  | long x =>
    obtain rfl := (List.cons.inj hd).2
    rw [numberOf]
    have hread : Consumes data (At data length) _ _ _ :=
      consumes_wrap (f := fun x => Binary64.ofInt x.toInt) (consumes_readFixedUint64 hdata x)
    exact hread
  | float x =>
    obtain rfl := (List.cons.inj hd).2
    rw [numberOf]
    exact consumes_wrap (consumes_readFloat hdata x)
  | double x =>
    obtain rfl := (List.cons.inj hd).2
    exact consumes_readFixedUint64 hdata x
  | text kind s =>
    obtain ⟨h, hs, hd⟩ := hd
    obtain rfl := (List.cons.inj hd).2
    -- only the empty text needs no stored characters
    obtain rfl : s = [] := List.length_eq_zero_iff.mp (by simpa [textSize] using hd')
    refine (consumes_emptyText hdata hs fun p hp => ?_).of_eq (List.append_nil h).symm rfl
    have hbytes : returns (bytesAt p 0) ⟨data, p, length⟩ = some ([], ⟨data, p, length⟩) :=
      returns_bytesAt length p (s := []) rfl hp
    rw [returns_bind, returns_requireDecodingBuffer (by decide), Option.bind_some, returns_bind]
    show (returns (bytesAt p 0) _).bind _ = _
    rw [hbytes]
    rfl
  | uint8String cs =>
    obtain ⟨h, hcs, hd⟩ := hd
    obtain rfl := (List.cons.inj hd).2
    obtain rfl : cs = [] := List.length_eq_zero_iff.mp hd'
    refine (consumes_emptyText (m := fun size ptr => do return strtodOf libc (← appendBytes ptr size))
      hdata hcs fun p hp => ?_).of_eq (List.append_nil h).symm rfl
    have hbytes : returns (appendBytes p 0) ⟨data, p, length⟩ = some ([], ⟨data, p, length⟩) :=
      returns_bytesAt length p (s := []) rfl hp
    rw [returns_bind, hbytes]
    rfl
  | array ds | map es =>
    -- a container is no number: it is skipped
    exact consumes_wrap (f := fun _ => 0) (consumes_skipValue hdata hd hskips hn hlen)

end Parser

end Wson.Native
