import Wson.Effect.Program
import Wson.Float.Binary64
import Wson.Java.Lang
import Wson.Wire.Varint

/-!
# `io/Input.java`

The reader of primitives. Its state is the position, an `int` that may be anything
when reading starts; reading outside the array throws. A reader is a program over
any state that holds a position, so that the parser can use it with its own.

Each method has a lemma saying what it consumes: the bytes of the format for a
value, wherever they stand in the array. `readDouble` takes a detour through a
64-bit integer that never changes the number (`decodeDouble_eq`).
-/

namespace Wson.Java

open Effect Wire

/-- The state of `Wson.Parser`: the position of its input and the cache of map keys that
all parsers share. -/
structure Parser where
  position : Int
  globalStringBytesCache : BitVec 11 → Option Utf16

abbrev ParserM := EStateM Throwable Parser

namespace Input

variable (buffer : Bytes)

/-- `buffer[i]`. -/
def load (i : Int) : ParserM Byte :=
  if h : 0 ≤ i ∧ i < buffer.length then pure (buffer.get ⟨i.toNat, by omega⟩)
  else throw .arrayIndexOutOfBounds

def getPosition : ParserM Int := do
  let p ← get
  pure p.position

def move (step : Int) : ParserM Unit :=
  modify fun p => { p with position := p.position + step }

def readType : ParserM Byte := do
  let type ← load buffer (← getPosition)
  move 1
  pure type

def readByte : ParserM Byte := do
  let type ← load buffer (← getPosition)
  move 1
  pure type

/-- The loop of `readUInt`. It throws after its sixth continuation byte at the latest; the
shift by `i` is a shift by `i mod 32`. -/
def readUIntLoop : Nat → BitVec 32 → Nat → ParserM (BitVec 32)
  | 0, _, _ => throw .illegalArgument
  | k + 1, value, i => do
    let b ← load buffer (← getPosition)
    if b &&& 0x80 ≠ 0 then
      let value := value ||| (b.setWidth 32 &&& 0x7F) <<< (i % 32)
      let i := i + 7
      move 1
      if i > 35 then throw .illegalArgument
      readUIntLoop k value i
    else
      move 1
      pure (value ||| b.setWidth 32 <<< (i % 32))

def readUInt : ParserM (BitVec 32) :=
  readUIntLoop buffer 7 0 0

/-- The zigzag decoding of `readVarInt`. -/
def decodeVarInt (raw : BitVec 32) : BitVec 32 :=
  let num := ((raw <<< 31).sshiftRight 31 ^^^ raw).sshiftRight 1
  num ^^^ (raw &&& 0x80000000#32)

def readVarInt : ParserM (BitVec 32) := do
  let raw ← readUInt buffer
  pure (decodeVarInt raw)

def readLong : ParserM (BitVec 64) := do
  let position ← getPosition
  let b₇ ← load buffer (position + 7)
  let b₆ ← load buffer (position + 6)
  let b₅ ← load buffer (position + 5)
  let b₄ ← load buffer (position + 4)
  let b₃ ← load buffer (position + 3)
  let b₂ ← load buffer (position + 2)
  let b₁ ← load buffer (position + 1)
  let b₀ ← load buffer position
  move 8
  pure (b₇.setWidth 64 + b₆.setWidth 64 <<< 8 + b₅.setWidth 64 <<< 16 + b₄.setWidth 64 <<< 24 +
    b₃.setWidth 64 <<< 32 + b₂.setWidth 64 <<< 40 + b₁.setWidth 64 <<< 48 +
    b₀.signExtend 64 <<< 56)

/-- What `readDouble` makes of the bits it has read. -/
def decodeDouble (bits : BitVec 64) : BitVec 64 :=
  let number := Binary64.value bits
  if Binary64.Value.lt (.finite (2 ^ 31 - 1)) number then
    let numberLong := number.toInt64
    let doubleLong := Binary64.ofInt numberLong
    if Binary64.Value.lt (Binary64.sub bits doubleLong) (.finite (2 ^ (-1022 : ℤ))) then
      Binary64.ofInt numberLong
    else bits
  else bits

def readDouble : ParserM (BitVec 64) := do
  let bits ← readLong buffer
  pure (decodeDouble bits)

def readFloat : ParserM (BitVec 32) := do
  let position ← getPosition
  let b₃ ← load buffer (position + 3)
  let b₂ ← load buffer (position + 2)
  let b₁ ← load buffer (position + 1)
  let b₀ ← load buffer position
  move 4
  pure (b₃.setWidth 32 + b₂.setWidth 32 <<< 8 + b₁.setWidth 32 <<< 16 + b₀.setWidth 32 <<< 24)

/-- Like `readFloat`, but the bytes are widened with their sign. -/
def readInt : ParserM (BitVec 32) := do
  let position ← getPosition
  let b₃ ← load buffer (position + 3)
  let b₂ ← load buffer (position + 2)
  let b₁ ← load buffer (position + 1)
  let b₀ ← load buffer position
  move 4
  pure (b₃.signExtend 32 + b₂.signExtend 32 <<< 8 + b₁.signExtend 32 <<< 16 +
    b₀.signExtend 32 <<< 24)

def readFixedInt32 : ParserM (BitVec 32) :=
  readInt buffer

def readFixedInt64 : ParserM (BitVec 64) :=
  readLong buffer

/-! ## Values -/

/-- The lowest bit in every place. -/
theorem spread_eq_fill (raw : BitVec 32) :
    (raw <<< 31).sshiftRight 31 = BitVec.fill 32 (raw.getLsbD 0) := by
  apply BitVec.eq_of_getLsbD_eq
  intro i hi
  rw [BitVec.getLsbD_sshiftRight, getLsbD_fill]
  by_cases h0 : i = 0
  · subst h0
    simp
  · simp [hi, show ¬ 31 + i < 32 by omega, show ¬ 32 ≤ i by omega, BitVec.msb_eq_getLsbD_last]

/-- The shifts and masks of `readVarInt` undo the folding of the sign. -/
theorem decodeVarInt_eq (raw : BitVec 32) : decodeVarInt raw = unzigzag raw := by
  apply BitVec.eq_of_getLsbD_eq
  intro i hi
  have hmask : (0x80000000#32).getLsbD i = decide (i = 31) := by
    interval_cases i <;> rfl
  rw [getLsbD_unzigzag]
  simp only [decodeVarInt, spread_eq_fill, BitVec.getLsbD_xor, BitVec.getLsbD_sshiftRight,
    BitVec.getLsbD_and, hmask]
  by_cases h31 : i = 31
  · subst h31
    simp [BitVec.msb_eq_getLsbD_last]
  · simp [h31, hi, show ¬ 32 ≤ i by omega, show i + 1 < 32 by omega, Nat.add_comm, Bool.xor_comm]

/-- **The detour is none**: a double that is read comes out as its own bits. -/
theorem decodeDouble_eq (bits : BitVec 64) : decodeDouble bits = bits := by
  unfold decodeDouble
  simp only
  split
  · next hlarge =>
    split
    · next hsub =>
      refine Binary64.ofInt_toInt64_of_sub_lt ?_ hsub
      cases hv : Binary64.value bits with
      | nan => rw [hv] at hlarge; exact hlarge
      | infinity negative => rw [hv] at hlarge; exact hlarge
      | finite q =>
        rw [hv] at hlarge
        simp only [Binary64.Value.lt, decide_eq_true_eq] at hlarge ⊢
        linarith
    · rfl
  · rfl

/-! ## What is consumed -/

/-- The parser stands at offset `p`. -/
def At (s : Parser) (p : Nat) : Prop :=
  s.position = p

variable {buffer}

@[simp] theorem returns_getPosition (s : Parser) :
    returns getPosition s = some (s.position, s) := rfl

@[simp] theorem returns_move (step : Int) (s : Parser) :
    returns (move step) s = some ((), { s with position := s.position + step }) := rfl

/-- Loading succeeds inside the array, and only there. -/
theorem returns_load_eq_some {i : Int} {b : Byte} {s s' : Parser} :
    returns (load buffer i) s = some (b, s') ↔ ∃ j : Nat, i = j ∧ buffer[j]? = some b ∧ s' = s := by
  unfold load
  split
  · next h =>
    obtain ⟨j, rfl⟩ := Int.eq_ofNat_of_zero_le h.1
    have hj : j < buffer.length := by omega
    simp only [returns_pure, Option.some.injEq, Prod.mk.injEq]
    constructor
    · rintro ⟨rfl, rfl⟩
      exact ⟨j, rfl, by simp [List.getElem?_eq_getElem hj], rfl⟩
    · rintro ⟨k, hk, hb, rfl⟩
      obtain rfl : j = k := Int.ofNat.inj hk
      rw [List.getElem?_eq_getElem hj] at hb
      exact ⟨by simpa using hb, rfl⟩
  · next h =>
    constructor
    · intro h'
      cases h'
    rintro ⟨j, rfl, hb, -⟩
    have := (List.getElem?_eq_some_iff.mp hb).1
    exact absurd ⟨Int.natCast_nonneg j, by omega⟩ h

theorem returns_load {p j : Nat} {xs rest : Bytes} {b : Byte} (h : buffer.drop p = xs ++ rest)
    (hb : xs[j]? = some b) (s : Parser) :
    returns (load buffer ((p : Int) + j)) s = some (b, s) := by
  refine returns_load_eq_some.mpr ⟨p + j, by push_cast; rfl, ?_, rfl⟩
  rw [← List.getElem?_drop, h, List.getElem?_append_left (List.getElem?_eq_some_iff.mp hb).1, hb]

theorem consumes_readType (b : Byte) : Consumes buffer At (returns (readType buffer)) [b] b := by
  intro s p rest hs hd
  have hload := returns_load (j := 0) hd rfl s
  rw [Nat.cast_zero, add_zero, ← hs] at hload
  refine ⟨{ s with position := s.position + 1 }, ?_, ?_⟩
  · simp only [readType, returns_bind, returns_getPosition, Option.bind_some, hload,
      returns_move, returns_pure]
  · show s.position + 1 = ((p + 1 : Nat) : Int)
    rw [hs, Nat.cast_succ]

theorem consumes_readByte (b : Byte) : Consumes buffer At (returns (readByte buffer)) [b] b :=
  consumes_readType b

theorem produces_readType :
    Produces buffer At (returns (readType buffer)) fun xs b => xs = [b] := by
  intro s p b s' hs h
  rw [readType, returns_bind, returns_getPosition, Option.bind_some, returns_bind] at h
  obtain ⟨⟨a, t⟩, hload, hmove⟩ := Option.bind_eq_some_iff.mp h
  obtain ⟨j, hj, hb, rfl⟩ := returns_load_eq_some.mp hload
  obtain ⟨rfl, rfl⟩ := Prod.mk.inj (Option.some.inj hmove)
  obtain rfl : p = j := Int.ofNat.inj (hs.symm.trans hj)
  refine ⟨[a], buffer.drop (p + 1), ?_, rfl, ?_⟩
  · obtain ⟨hlt, ha⟩ := List.getElem?_eq_some_iff.mp hb
    rw [← ha]
    exact List.drop_eq_getElem_cons hlt
  · show t.position + 1 = ((p + 1 : Nat) : Int)
    rw [hs, Nat.cast_succ]

/-! ### Headers -/

/-- A turn of the loop reads a byte as `readType` does. -/
theorem readUIntLoop_succ (k : Nat) (value : BitVec 32) (i : Nat) :
    readUIntLoop buffer (k + 1) value i = (do
      let b ← readType buffer
      if b &&& 0x80 ≠ 0 then
        if i + 7 > 35 then throw .illegalArgument
        else readUIntLoop buffer k (value ||| (b.setWidth 32 &&& 0x7F) <<< (i % 32)) (i + 7)
      else pure (value ||| b.setWidth 32 <<< (i % 32))) := by
  rw [readUIntLoop, readType]
  simp only [bind_assoc, pure_bind]
  congr 1
  funext position
  congr 1
  funext b
  split <;> rfl

theorem consumes_readUIntLoop : ∀ {h : Bytes} {k i : Nat} (value : BitVec 32), Delimited h →
    h.length ≤ k → i + 7 * h.length ≤ 42 →
      Consumes buffer At (returns (readUIntLoop buffer k value i)) h (value ||| uintOf i h)
  | [], _, _, _, hd, _, _ => hd.elim
  | b :: bs, 0, _, _, _, hk, _ => by simp at hk
  | b :: bs, k + 1, i, value, hd, hk, hi => by
    rw [List.length_cons] at hk hi
    rw [readUIntLoop_succ, returns_bind_eq]
    refine (consumes_readType b).bind ?_
    by_cases hb : 128 ≤ b.toNat
    · rw [delimited_cons_of_le hb] at hd
      have hpos := hd.length_pos
      rw [if_pos ((and_continuation b).mpr hb), if_neg (by omega)]
      refine (consumes_readUIntLoop _ hd (by omega) (by omega)).of_eq rfl ?_
      rw [uintOf, BitVec.or_assoc]
    · obtain rfl := delimited_cons_of_lt (by omega) hd
      rw [if_neg (by rw [and_continuation]; exact hb)]
      exact (consumes_pure _).of_eq rfl (by rw [uintOf_last (by omega)])

theorem produces_readUIntLoop : ∀ (k : Nat) (value : BitVec 32) (i : Nat),
    Produces buffer At (returns (readUIntLoop buffer k value i)) fun h a =>
      Delimited h ∧ a = value ||| uintOf i h
  | 0, _, _ => by
    intro s p a s' _ h
    cases h
  | k + 1, value, i => by
    rw [readUIntLoop_succ, returns_bind_eq]
    have hturn : ∀ b : Byte, Produces buffer At (returns (
        if b &&& 0x80 ≠ 0 then
          if i + 7 > 35 then throw .illegalArgument
          else readUIntLoop buffer k (value ||| (b.setWidth 32 &&& 0x7F) <<< (i % 32)) (i + 7)
        else pure (value ||| b.setWidth 32 <<< (i % 32)))) fun bs a =>
          Delimited (b :: bs) ∧ a = value ||| uintOf i (b :: bs) := by
      intro b
      by_cases hb : 128 ≤ b.toNat
      · rw [if_pos ((and_continuation b).mpr hb)]
        split
        · intro s p a s' _ h
          cases h
        · refine (produces_readUIntLoop k _ _).mono ?_
          rintro bs a ⟨hd, ha⟩
          constructor
          · exact (delimited_cons_of_le hb).mpr hd
          · rw [ha, uintOf, BitVec.or_assoc]
      · rw [if_neg (by rw [and_continuation]; exact hb)]
        refine (produces_pure _).mono ?_
        rintro bs a ⟨rfl, rfl⟩
        exact ⟨show b.toNat < 128 by omega, by rw [uintOf_last (by omega)]⟩
    refine (produces_readType.bind hturn).mono ?_
    rintro _ a ⟨_, bs, b, rfl, rfl, h⟩
    exact h

/-- `readUInt` consumes a run of up to six groups. -/
theorem consumes_readUInt {h : Bytes} (hd : Delimited h) (hlen : h.length ≤ 6) :
    Consumes buffer At (returns (readUInt buffer)) h (uintOf 0 h) :=
  (consumes_readUIntLoop 0 hd (by omega) (by omega)).of_eq rfl BitVec.zero_or

/-- A header of the format is read as the number it denotes. -/
theorem consumes_readUInt_varUInt {n : Nat} {h : Bytes} (hv : VarUInt n h) :
    Consumes buffer At (returns (readUInt buffer)) h (BitVec.ofNat 32 n) :=
  (consumes_readUInt hv.delimited (by have := hv.short; omega)).of_eq rfl (uintOf_varUInt hv)

theorem produces_readUInt :
    Produces buffer At (returns (readUInt buffer)) fun h a => Delimited h ∧ a = uintOf 0 h :=
  (produces_readUIntLoop 7 0 0).mono fun _ _ h => ⟨h.1, h.2.trans BitVec.zero_or⟩

theorem consumes_readVarInt {x : BitVec 32} {h : Bytes} (hv : VarUInt (zigzag x).toNat h) :
    Consumes buffer At (returns (readVarInt buffer)) h x := by
  have hx : decodeVarInt (BitVec.ofNat 32 (zigzag x).toNat) = x := by
    rw [BitVec.ofNat_toNat, BitVec.setWidth_eq, decodeVarInt_eq, unzigzag_zigzag]
  rw [readVarInt, returns_bind_eq]
  refine ((consumes_readUInt_varUInt hv).bind ?_).of_eq (List.append_nil h) hx
  exact consumes_pure _

theorem produces_readVarInt :
    Produces buffer At (returns (readVarInt buffer)) fun h a =>
      Delimited h ∧ a = unzigzag (uintOf 0 h) := by
  rw [readVarInt, returns_bind_eq]
  refine (produces_readUInt.bind fun raw => produces_pure _).mono ?_
  rintro _ a ⟨h, _, raw, rfl, ⟨hd, rfl⟩, rfl, rfl⟩
  rw [List.append_nil, ← decodeVarInt_eq]
  exact ⟨hd, rfl⟩

/-! ### Words -/

theorem signExtend_shift (b : Byte) : b.signExtend 64 <<< 56 = b.setWidth 64 <<< 56 := by
  apply BitVec.eq_of_getLsbD_eq
  intro i hi
  simp only [BitVec.getLsbD_shiftLeft, BitVec.getLsbD_signExtend, BitVec.getLsbD_setWidth]
  by_cases h : i < 56
  · simp [h]
  · simp [h, show i - 56 < 8 by omega, show i - 56 < 64 by omega]

theorem sum_eq_beNat_64 (b₀ b₁ b₂ b₃ b₄ b₅ b₆ b₇ : Byte) :
    b₇.setWidth 64 + b₆.setWidth 64 <<< 8 + b₅.setWidth 64 <<< 16 + b₄.setWidth 64 <<< 24 +
      b₃.setWidth 64 <<< 32 + b₂.setWidth 64 <<< 40 + b₁.setWidth 64 <<< 48 +
      b₀.signExtend 64 <<< 56 = BitVec.ofNat 64 (beNat [b₀, b₁, b₂, b₃, b₄, b₅, b₆, b₇]) := by
  rw [signExtend_shift, sum_beNat_64]

/-- A reader that starts by loading the byte `j` places ahead only returns where that byte
is there. -/
theorem length_of_returns_load {α : Type} {j p : Nat} {f : Byte → ParserM α} {s : Parser}
    {r : α × Parser} (hs : At s p)
    (h : returns (getPosition >>= fun i => load buffer (i + j) >>= f) s = some r) :
    p + j < buffer.length := by
  rw [returns_bind, returns_getPosition, Option.bind_some, returns_bind] at h
  obtain ⟨⟨b, t⟩, hload, -⟩ := Option.bind_eq_some_iff.mp h
  obtain ⟨k, hk, hb, -⟩ := returns_load_eq_some.mp hload
  have hlt := (List.getElem?_eq_some_iff.mp hb).1
  rw [hs] at hk
  omega

theorem consumes_readLong (x : BitVec 64) :
    Consumes buffer At (returns (readLong buffer)) (be64 x) x := by
  intro s p rest hs hd
  obtain ⟨b₀, b₁, b₂, b₃, b₄, b₅, b₆, b₇, hx⟩ :
      ∃ b₀ b₁ b₂ b₃ b₄ b₅ b₆ b₇, be64 x = [b₀, b₁, b₂, b₃, b₄, b₅, b₆, b₇] :=
    ⟨_, _, _, _, _, _, _, _, rfl⟩
  have hload (j : Nat) {b : Byte} (hb : (be64 x)[j]? = some b) := returns_load hd hb s
  have hsum := sum_eq_beNat_64 b₀ b₁ b₂ b₃ b₄ b₅ b₆ b₇
  rw [← hx, ofNat_beNat_be64] at hsum
  rw [hx] at hload
  refine ⟨{ s with position := s.position + 8 }, ?_, ?_⟩
  · have hpos : s.position = p := hs
    have h₀ := hload 0 rfl
    rw [Nat.cast_zero, add_zero] at h₀
    have h₁ : returns (load buffer (p + 1)) s = some (b₁, s) := hload 1 rfl
    have h₂ : returns (load buffer (p + 2)) s = some (b₂, s) := hload 2 rfl
    have h₃ : returns (load buffer (p + 3)) s = some (b₃, s) := hload 3 rfl
    have h₄ : returns (load buffer (p + 4)) s = some (b₄, s) := hload 4 rfl
    have h₅ : returns (load buffer (p + 5)) s = some (b₅, s) := hload 5 rfl
    have h₆ : returns (load buffer (p + 6)) s = some (b₆, s) := hload 6 rfl
    have h₇ : returns (load buffer (p + 7)) s = some (b₇, s) := hload 7 rfl
    simp only [readLong, returns_bind, returns_getPosition, Option.bind_some, hpos,
      h₀, h₁, h₂, h₃, h₄, h₅, h₆, h₇, returns_move, returns_pure, hsum]
  · show s.position + 8 = ((p + 8 : Nat) : Int)
    rw [hs, Nat.cast_add]
    rfl

theorem produces_readLong :
    Produces buffer At (returns (readLong buffer)) fun xs a => xs = be64 a := by
  refine (produces_of_consumes (k := 8) (f := fun xs => BitVec.ofNat 64 (beNat xs))
    (fun _ _ _ hs h => by exact length_of_returns_load (j := 7) hs h) fun {xs} hxs => ?_).mono ?_
  · have h : Consumes buffer At (returns (readLong buffer)) _ _ :=
      consumes_readLong (BitVec.ofNat 64 (beNat xs))
    rwa [← eq_be64_of_length hxs] at h
  · rintro xs _ ⟨hxs, rfl⟩
    exact eq_be64_of_length hxs

theorem consumes_readDouble (x : BitVec 64) :
    Consumes buffer At (returns (readDouble buffer)) (be64 x) x := by
  rw [readDouble, returns_bind_eq]
  refine ((consumes_readLong x).bind ?_).of_eq (List.append_nil _) (decodeDouble_eq x)
  exact consumes_pure _

theorem produces_readDouble :
    Produces buffer At (returns (readDouble buffer)) fun xs a => xs = be64 a := by
  rw [readDouble, returns_bind_eq]
  refine (produces_readLong.bind fun bits => produces_pure _).mono ?_
  rintro _ a ⟨_, _, bits, rfl, rfl, rfl, rfl⟩
  rw [List.append_nil, decodeDouble_eq]

theorem consumes_readFloat (x : BitVec 32) :
    Consumes buffer At (returns (readFloat buffer)) (be32 x) x := by
  intro s p rest hs hd
  obtain ⟨b₀, b₁, b₂, b₃, hx⟩ : ∃ b₀ b₁ b₂ b₃, be32 x = [b₀, b₁, b₂, b₃] := ⟨_, _, _, _, rfl⟩
  have hload (j : Nat) {b : Byte} (hb : (be32 x)[j]? = some b) := returns_load hd hb s
  have hsum := sum_beNat_32 b₀ b₁ b₂ b₃
  rw [← hx, ofNat_beNat_be32] at hsum
  rw [hx] at hload
  refine ⟨{ s with position := s.position + 4 }, ?_, ?_⟩
  · have hpos : s.position = p := hs
    have h₀ := hload 0 rfl
    rw [Nat.cast_zero, add_zero] at h₀
    have h₁ : returns (load buffer (p + 1)) s = some (b₁, s) := hload 1 rfl
    have h₂ : returns (load buffer (p + 2)) s = some (b₂, s) := hload 2 rfl
    have h₃ : returns (load buffer (p + 3)) s = some (b₃, s) := hload 3 rfl
    simp only [readFloat, returns_bind, returns_getPosition, Option.bind_some, hpos,
      h₀, h₁, h₂, h₃, returns_move, returns_pure, hsum]
  · show s.position + 4 = ((p + 4 : Nat) : Int)
    rw [hs, Nat.cast_add]
    rfl

theorem produces_readFloat :
    Produces buffer At (returns (readFloat buffer)) fun xs a => xs = be32 a := by
  refine (produces_of_consumes (k := 4) (f := fun xs => BitVec.ofNat 32 (beNat xs))
    (fun _ _ _ hs h => by exact length_of_returns_load (j := 3) hs h) fun {xs} hxs => ?_).mono ?_
  · have h : Consumes buffer At (returns (readFloat buffer)) _ _ :=
      consumes_readFloat (BitVec.ofNat 32 (beNat xs))
    rwa [← eq_be32_of_length hxs] at h
  · rintro xs _ ⟨hxs, rfl⟩
    exact eq_be32_of_length hxs

end Input

end Wson.Java
