import Wson.Java.Input
import Wson.Java.Output
import Wson.Text.Utf8

/-!
# Streams of variable length

The methods of `Output` and `Input` whose values take one to ten bytes, or as many
as a string has, and sequences of calls to them.

- `Charset`: `String.getBytes` and `new String`, of which all that matters is that
  one undoes the other.
- `Call.chunk`: the room a call asks for and the bytes it stores. A run of calls is
  a run of chunks (`returns_writeAll`).
- `consumes_readAll`: reading consumes the bytes of the calls and returns them.
- `readsCalls`: together, every stream that has been written is read back.
-/

namespace Wson.Java

open Effect Wire

/-- `str.getBytes(UTF_8)` and `new String(bts, UTF_8)`. -/
structure Charset where
  getBytes : Utf16 → Bytes
  newString : Bytes → Utf16
  inverse : ∀ s, Text.WellFormed s → newString (getBytes s) = s
  newString_nil : newString [] = []

/-- Strict UTF-8, with no characters at all for malformed bytes. -/
def strictUtf8 : Charset where
  getBytes := Text.utf8
  newString bs := (Text.decodeText bs).getD []
  inverse s h := by rw [Text.decodeText_utf8 h, Option.getD_some]
  newString_nil := rfl

/-! ## `Output` -/

namespace Output

variable (charset : Charset)

/-- The rounds of `writeUInt64`; a 64-bit value has at most ten. -/
def writeUInt64Loop : Nat → BitVec 64 → OutputM Unit
  | 0, value => writeByte (value.setWidth 8)
  | k + 1, value =>
    if value &&& ~~~0x7F#64 = 0#64 then writeByte (value.setWidth 8)
    else do
      writeByte (((value.setWidth 32 ||| 0x80#32) &&& 0xFF#32).setWidth 8)
      writeUInt64Loop k (value >>> 7)

def writeUInt64 (value : BitVec 64) : OutputM Unit :=
  writeUInt64Loop 9 value

def encodeZigZag64 (n : BitVec 64) : BitVec 64 :=
  n <<< 1 ^^^ n.sshiftRight 63

def writeVarInt64 (value : BitVec 64) : OutputM Unit :=
  writeUInt64 (encodeZigZag64 value)

/-- `System.arraycopy(bts, 0, buffer, position, bts.length)`. -/
def arraycopy (bts : Bytes) : OutputM Unit := do
  let o ← get
  if o.position + bts.length ≤ o.buffer.length then
    set { o with buffer := overwrite o.buffer o.position bts }
  else throw .arrayIndexOutOfBounds

def writeStringUTF8 : Option Utf16 → OutputM Unit
  | some str => do
    let bts := charset.getBytes str
    ensureCapacity (int (bts.length + 12))
    writeVarInt (BitVec.ofNat 32 bts.length)
    if 0 < bts.length then do
      arraycopy bts
      move bts.length
  | none => do
    ensureCapacity 8
    writeVarInt (-1)

theorem last_group (value : BitVec 64) :
    value.setWidth 8 = BitVec.ofNat 8 value.toNat := by
  apply BitVec.eq_of_toNat_eq
  rw [BitVec.toNat_setWidth, BitVec.toNat_ofNat]

theorem continued_group (value : BitVec 64) :
    ((value.setWidth 32 ||| 0x80#32) &&& 0xFF#32).setWidth 8
      = BitVec.ofNat 8 (value.toNat % 128 + 128) := by
  have hbyte : ((value.setWidth 32 ||| 0x80#32) &&& 0xFF#32).setWidth 8
      = value.setWidth 8 ||| 0x80#8 := by
    apply BitVec.eq_of_getLsbD_eq
    intro i hi
    interval_cases i <;> simp
  apply BitVec.eq_of_toNat_eq
  rw [hbyte, toNat_or_continuation, BitVec.toNat_setWidth, BitVec.toNat_ofNat]
  omega

theorem appends_writeUInt64Loop (k : Nat) (value : BitVec 64) (h : value.toNat < 128 ^ (k + 1)) :
    Appends (writeUInt64Loop k value) (encodeGroups k value.toNat) := by
  induction k generalizing value with
  | zero =>
    rw [writeUInt64Loop, encodeGroups, Nat.mod_eq_of_lt (by omega), last_group]
    exact appends_writeByte _
  | succ k ih =>
    rw [writeUInt64Loop, encodeGroups]
    by_cases hlt : value.toNat < 128
    · rw [if_pos ((and_not_low_eq_zero value).mpr hlt), if_pos hlt, last_group]
      exact appends_writeByte _
    · have hs := toNat_ushiftRight_seven value
      have hk : (value >>> 7).toNat < 128 ^ (k + 1) := by
        rw [hs]
        exact div_lt_of_groups h
      rw [if_neg (fun h0 => hlt ((and_not_low_eq_zero value).mp h0)), if_neg hlt,
        continued_group, ← hs]
      exact Appends.bind (List.cons_ne_nil _ _) (appends_writeByte _) (ih (value >>> 7) hk)

theorem appends_writeUInt64 (value : BitVec 64) :
    Appends (writeUInt64 value) (encodeGroups 9 value.toNat) :=
  appends_writeUInt64Loop 9 value (by have := value.isLt; omega)

theorem appends_arraycopy (bts : Bytes) :
    Appends (arraycopy bts >>= fun _ => move bts.length) bts := by
  intro o _
  have hcopy : returns (arraycopy bts) o = if o.position + bts.length ≤ o.buffer.length then
      some ((), { o with buffer := overwrite o.buffer o.position bts }) else none := by
    show returns (if _ then _ else _) o = _
    rw [returns_ite]
    rfl
  rw [returns_bind, hcopy]
  split <;> rfl

theorem appends_body (bts : Bytes) :
    Appends (if 0 < bts.length then arraycopy bts >>= fun _ => move bts.length else pure ())
      bts := by
  by_cases h : 0 < bts.length
  · rw [if_pos h]
    exact appends_arraycopy bts
  · rw [if_neg h, List.eq_nil_of_length_eq_zero (Nat.eq_zero_of_not_pos h)]
    exact appends_pure

end Output

/-! ## `Input` -/

namespace Input

variable (buffer : Bytes) (charset : Charset)

/-- The rounds of `readUInt64`, for the shifts 0, 7, … 63. -/
def readUInt64Loop : Nat → BitVec 64 → Nat → ParserM (BitVec 64)
  | 0, _, _ => throw .illegalArgument
  | k + 1, result, shift => do
    let position ← getPosition
    move 1
    let b ← load buffer position
    let result := result ||| (b.setWidth 64 &&& 0x7F#64) <<< shift
    if b &&& 0x80 = 0 then pure result
    else readUInt64Loop k result (shift + 7)

def readUInt64 : ParserM (BitVec 64) :=
  readUInt64Loop buffer 10 0 0

def decodeZigZag64 (n : BitVec 64) : BitVec 64 :=
  n >>> 1 ^^^ -(n &&& 1#64)

def readVarInt64 : ParserM (BitVec 64) := do
  return decodeZigZag64 (← readUInt64 buffer)

/-- The bytes `new String(buffer, position, length, …)` decodes. -/
def slice (position length : Int) : ParserM Bytes :=
  if 0 ≤ position ∧ position + length ≤ buffer.length then
    pure ((buffer.drop position.toNat).take length.toNat)
  else throw .stringIndexOutOfBounds

def readStringUTF8 : ParserM (Option Utf16) := do
  let length ← readVarInt buffer
  if 0 < length.toInt then do
    let bts ← slice buffer (← getPosition) length.toInt
    move length.toInt
    pure (some (charset.newString bts))
  else if length.toInt = 0 then pure (some [])
  else pure none

variable {buffer}

theorem decodeZigZag64_eq (n : BitVec 64) : decodeZigZag64 n = unzigzag n := by
  have hlow : n &&& 1#64 = BitVec.ofNat 64 (n.getLsbD 0).toNat := by
    apply BitVec.eq_of_getLsbD_eq
    intro i hi
    rw [BitVec.getLsbD_and]
    cases h : n.getLsbD 0 <;> by_cases h0 : i = 0 <;> simp_all
  have hfill : -(n &&& 1#64) = BitVec.fill 64 (n.getLsbD 0) := by
    rw [hlow]
    cases n.getLsbD 0 <;> rfl
  rw [decodeZigZag64, hfill]
  rfl

/-- A round as a load and a move: where it returns they may change places. -/
theorem consumes_next (b : Byte) {α : Type} {f : Byte → ParserM α} {xs : Bytes} {a : α}
    (hf : Consumes buffer At (returns (f b)) xs a) :
    Consumes buffer At (returns (do
      let position ← getPosition
      move 1
      let b ← load buffer position
      f b)) (b :: xs) a := by
  intro s p rest hs hd
  have hload := returns_load (j := 0) hd rfl { s with position := s.position + 1 }
  have hpos : s.position = p := hs
  rw [Nat.cast_zero, add_zero, ← hpos] at hload
  have hs' : At { s with position := s.position + 1 } (p + 1) := by
    show s.position + 1 = ((p + 1 : Nat) : Int)
    rw [hpos, Nat.cast_succ]
  obtain ⟨t, ht, hpt⟩ := hf _ (p + 1) rest hs' (drop_append_of_drop (s := [b]) hd)
  refine ⟨t, ?_, ?_⟩
  · simp only [returns_bind, returns_getPosition, Option.bind_some, returns_move, hload, ht]
  · rwa [List.length_cons, Nat.add_comm xs.length, ← Nat.add_assoc]

theorem and_continuation_eq_zero (b : Byte) : b &&& 0x80 = 0 ↔ b.toNat < 128 := by
  have h := and_continuation b
  constructor
  · intro h0
    by_contra hge
    exact h.mpr (by omega) h0
  · intro hlt
    by_contra h0
    exact absurd (h.mp h0) (by omega)

theorem consumes_readUInt64Loop {h : Bytes} {k shift : Nat} (result : BitVec 64)
    (hd : Delimited h) (hk : h.length ≤ k) :
    Consumes buffer At (returns (readUInt64Loop buffer k result shift)) h
      (result ||| BitVec.ofNat 64 (groups h * 2 ^ shift)) := by
  induction h generalizing k result shift with
  | nil => exact hd.elim
  | cons b bs ih =>
    cases k with
    | zero => simp at hk
    | succ k =>
      rw [List.length_cons] at hk
      refine consumes_next b ?_
      have hgroup := shift_or_ofNat (toNat_group_64 b) (Nat.mod_lt _ (by decide)) (groups bs) shift
      rw [groups, ← hgroup, ← BitVec.or_assoc]
      by_cases hb : 128 ≤ b.toNat
      · rw [if_neg (by rw [and_continuation_eq_zero]; omega)]
        exact ih _ ((delimited_cons_of_le hb).mp hd) (by omega)
      · obtain rfl := delimited_cons_of_lt (by omega) hd
        rw [if_pos ((and_continuation_eq_zero b).mpr (by omega)), groups, Nat.zero_mul]
        exact (consumes_pure _).of_eq rfl BitVec.or_zero.symm

theorem consumes_readUInt64 (x : BitVec 64) :
    Consumes buffer At (returns (readUInt64 buffer)) (encodeGroups 9 x.toNat) x := by
  refine (consumes_readUInt64Loop 0 (delimited_encodeGroups 9 _)
    (encodeGroups_length_le 9 _)).of_eq rfl ?_
  rw [groups_encodeGroups 9 _ (by have := x.isLt; omega), pow_zero, Nat.mul_one,
    BitVec.ofNat_toNat, BitVec.setWidth_eq]
  exact BitVec.zero_or

theorem consumes_readVarInt64 (x : BitVec 64) :
    Consumes buffer At (returns (readVarInt64 buffer)) (encodeGroups 9 (zigzag x).toNat) x := by
  refine (consumes_wrap (consumes_readUInt64 (zigzag x))).of_eq rfl ?_
  rw [decodeZigZag64_eq, unzigzag_zigzag]

theorem returns_slice {xs rest : Bytes} {p : Nat} {s : Parser} (hs : At s p)
    (hd : buffer.drop p = xs ++ rest) (hp : p ≤ buffer.length) :
    returns (slice buffer s.position xs.length) s = some (xs, s) := by
  have hlen := congrArg List.length hd
  rw [List.length_drop, List.length_append] at hlen
  have hpos : s.position = p := hs
  unfold slice
  rw [hpos, if_pos (by omega), Int.toNat_natCast, Int.toNat_natCast, hd, List.take_left]
  rfl

/-- The length stands before the bytes; it is positive exactly where there are any. -/
theorem consumes_readStringUTF8 {charset : Charset} {bts : Bytes} (hlen : bts.length < 2 ^ 31) :
    Consumes buffer At (returns (readStringUTF8 buffer charset))
      (encode (zigzag (BitVec.ofNat 32 bts.length)).toNat ++ bts)
      (some (charset.newString bts)) := by
  have htoInt : (BitVec.ofNat 32 bts.length).toInt = bts.length := by
    rw [BitVec.toInt_eq_toNat_of_lt, BitVec.toNat_ofNat, Nat.mod_eq_of_lt (by omega)]
    rw [BitVec.toNat_ofNat]
    omega
  rw [readStringUTF8, returns_bind_eq]
  refine (consumes_readVarInt (varUInt_encode (BitVec.isLt _))).bind ?_
  rw [htoInt]
  by_cases h : 0 < bts.length
  · rw [if_pos (by omega)]
    intro s p rest hs hd
    have hp : p ≤ buffer.length := by
      have := congrArg List.length hd
      rw [List.length_drop, List.length_append] at this
      omega
    refine ⟨{ s with position := s.position + bts.length }, ?_, ?_⟩
    · simp only [returns_bind, returns_getPosition, Option.bind_some, returns_slice hs hd hp,
        returns_move, returns_pure]
    · show s.position + bts.length = ((p + bts.length : Nat) : Int)
      rw [show s.position = p from hs, Nat.cast_add]
  · have hnil : bts = [] := List.eq_nil_of_length_eq_zero (Nat.eq_zero_of_not_pos h)
    subst hnil
    rw [charset.newString_nil]
    exact consumes_pure _

theorem consumes_readStringUTF8_null {charset : Charset} :
    Consumes buffer At (returns (readStringUTF8 buffer charset))
      (encode (zigzag (-1 : BitVec 32)).toNat) none := by
  rw [readStringUTF8, returns_bind_eq]
  refine ((consumes_readVarInt (varUInt_encode (BitVec.isLt _))).bind ?_).of_eq
    (List.append_nil _) rfl
  exact consumes_pure _

end Input

/-! ## Calls -/

/-- One call of a writing method. -/
inductive Call where
  | byte (b : Byte)
  | uint (value : BitVec 32)
  | varInt (value : BitVec 32)
  | uint64 (value : BitVec 64)
  | varInt64 (value : BitVec 64)
  | stringUTF8 (str : Option Utf16)
  deriving DecidableEq, Repr

namespace Call

/-- The method that reads what a call has written. -/
inductive Kind where
  | byte
  | uint
  | varInt
  | uint64
  | varInt64
  | stringUTF8
  deriving DecidableEq, Repr

def kind : Call → Kind
  | .byte _ => .byte
  | .uint _ => .uint
  | .varInt _ => .varInt
  | .uint64 _ => .uint64
  | .varInt64 _ => .varInt64
  | .stringUTF8 _ => .stringUTF8

variable (charset : Charset)

def write : Call → OutputM Unit
  | .byte b => Output.writeByte b
  | .uint value => Output.writeUInt value
  | .varInt value => Output.writeVarInt value
  | .uint64 value => Output.writeUInt64 value
  | .varInt64 value => Output.writeVarInt64 value
  | .stringUTF8 str => Output.writeStringUTF8 charset str

def read (buffer : Bytes) : Kind → ParserM Call
  | .byte => do return .byte (← Input.readByte buffer)
  | .uint => do return .uint (← Input.readUInt buffer)
  | .varInt => do return .varInt (← Input.readVarInt buffer)
  | .uint64 => do return .uint64 (← Input.readUInt64 buffer)
  | .varInt64 => do return .varInt64 (← Input.readVarInt64 buffer)
  | .stringUTF8 => do return .stringUTF8 (← Input.readStringUTF8 buffer charset)

def writeAll : List Call → OutputM Unit
  | [] => pure ()
  | c :: cs => do
    c.write charset
    writeAll cs

def readAll (buffer : Bytes) : List Kind → ParserM (List Call)
  | [] => pure []
  | k :: ks => do
    let c ← read charset buffer k
    let cs ← readAll buffer ks
    pure (c :: cs)

/-- The string of a call has no unpaired surrogate. -/
def Paired : Call → Prop
  | .stringUTF8 (some str) => Text.WellFormed str
  | _ => True

instance : DecidablePred Paired
  | .stringUTF8 (some str) => inferInstanceAs (Decidable (Text.WellFormed str))
  | .stringUTF8 none | .byte _ | .uint _ | .varInt _ | .uint64 _ | .varInt64 _ => isTrue trivial

def bytes : Call → Bytes
  | .byte b => [b]
  | .uint value => encode value.toNat
  | .varInt value => encode (zigzag value).toNat
  | .uint64 value => encodeGroups 9 value.toNat
  | .varInt64 value => encodeGroups 9 (zigzag value).toNat
  | .stringUTF8 (some str) =>
    let bts := charset.getBytes str
    encode (zigzag (BitVec.ofNat 32 bts.length)).toNat ++ bts
  | .stringUTF8 none => encode (zigzag (-1 : BitVec 32)).toNat

/-- What a call passes to `ensureCapacity`, if it calls it. -/
def request : Call → Int
  | .stringUTF8 (some str) => int ((charset.getBytes str).length + 12)
  | .stringUTF8 none => 8
  | _ => 0

def chunk (c : Call) : Output.Chunk :=
  ⟨c.request charset, c.bytes charset⟩

theorem bytes_ne_nil (c : Call) : c.bytes charset ≠ [] := by
  cases c with
  | byte b => exact List.cons_ne_nil _ _
  | uint value => exact encodeGroups_ne_nil _ _
  | varInt value => exact encodeGroups_ne_nil _ _
  | uint64 value => exact encodeGroups_ne_nil _ _
  | varInt64 value => exact encodeGroups_ne_nil _ _
  | stringUTF8 str =>
    cases str with
    | none => exact encodeGroups_ne_nil _ _
    | some str => exact List.append_ne_nil_of_left_ne_nil (encodeGroups_ne_nil _ _) _

/-! ### Runs of calls -/

/-- A call is a chunk; where the code makes no request, a request of nothing changes nothing. -/
theorem returns_write (c : Call) {o : Output} (hv : o.Valid) :
    returns (c.write charset) o = (Output.accept o (c.chunk charset)).map fun o' => ((), o') := by
  have hplain {m : OutputM Unit} {bs : Bytes} (hm : Appends m bs) (hne : bs ≠ []) :
      returns m o = (Output.accept o ⟨0, bs⟩).map fun o' => ((), o') := by
    rw [hm o fun h => absurd h hne, Output.accept, Output.grow_zero hv, Option.bind_some]
    split <;> rfl
  have hne := c.bytes_ne_nil charset
  cases c with
  | byte b => exact hplain (Output.appends_writeByte b) hne
  | uint value => exact hplain (Output.appends_writeUInt value) hne
  | varInt value => exact hplain (Output.appends_writeVarInt value) hne
  | uint64 value => exact hplain (Output.appends_writeUInt64 value) hne
  | varInt64 value => exact hplain (Output.appends_writeUInt64 (zigzag value)) hne
  | stringUTF8 str =>
    cases str with
    | none => exact Output.returns_chunk (Output.appends_writeVarInt (-1)) hne o
    | some str =>
      refine Output.returns_chunk ?_ hne o
      exact Output.Appends.bind (encodeGroups_ne_nil _ _) (Output.appends_writeVarInt _)
        (Output.appends_body (charset.getBytes str))

theorem returns_writeAll (cs : List Call) {o : Output} (hv : o.Valid) :
    returns (writeAll charset cs) o
      = (Output.play o (cs.map (chunk charset))).map fun o' => ((), o') := by
  induction cs generalizing o with
  | nil => rfl
  | cons c cs ih =>
    rw [writeAll, returns_bind, returns_write charset c hv, List.map_cons, Output.play_cons]
    cases h : Output.accept o (c.chunk charset) with
    | none => rfl
    | some o' =>
      rw [Option.map_some, Option.bind_some, Option.bind_some]
      exact ih (Output.accept_spec hv h).1

/-- The bytes of a sequence of calls. -/
def allBytes (cs : List Call) : Bytes :=
  cs.flatMap (bytes charset)

theorem chunkBytes_map (cs : List Call) :
    Output.chunkBytes (cs.map (chunk charset)) = allBytes charset cs := by
  rw [Output.chunkBytes, List.flatMap_map]
  rfl

theorem consumes_read {buffer : Bytes} {c : Call} (hp : c.Paired)
    (hlen : (c.bytes charset).length < 2 ^ 31) :
    Consumes buffer Input.At (returns (read charset buffer c.kind)) (c.bytes charset) c := by
  cases c with
  | byte b => exact consumes_wrap (Input.consumes_readByte b)
  | uint value =>
    refine (consumes_wrap (Input.consumes_readUInt_varUInt (varUInt_encode value.isLt))).of_eq rfl ?_
    rw [BitVec.ofNat_toNat, BitVec.setWidth_eq]
  | varInt value => exact consumes_wrap (Input.consumes_readVarInt (varUInt_encode (BitVec.isLt _)))
  | uint64 value => exact consumes_wrap (Input.consumes_readUInt64 value)
  | varInt64 value => exact consumes_wrap (Input.consumes_readVarInt64 value)
  | stringUTF8 str =>
    cases str with
    | none => exact consumes_wrap Input.consumes_readStringUTF8_null
    | some str =>
      have hbts : (charset.getBytes str).length < 2 ^ 31 := by
        simp only [bytes, List.length_append] at hlen
        omega
      refine (consumes_wrap (Input.consumes_readStringUTF8 hbts)).of_eq rfl ?_
      rw [charset.inverse str hp]

theorem consumes_readAll {buffer : Bytes} {cs : List Call} (hp : ∀ c ∈ cs, c.Paired)
    (hlen : (allBytes charset cs).length < 2 ^ 31) :
    Consumes buffer Input.At (returns (readAll charset buffer (cs.map kind)))
      (allBytes charset cs) cs := by
  induction cs with
  | nil => exact consumes_pure _
  | cons c cs ih =>
    simp only [allBytes, List.flatMap_cons, List.length_append] at hlen ih ⊢
    rw [List.map_cons, readAll, returns_bind_eq]
    refine (consumes_read charset (hp c List.mem_cons_self) (by omega)).bind ?_
    exact consumes_wrap (ih (fun d hd => hp d (List.mem_cons_of_mem c hd)) (by omega))

/-! ### Capacity -/

/-- Room for `n` more bytes in an array of that length: `writeStringUTF8` asks for up to
eleven bytes more than it stores, which are there, or the array can be doubled. -/
structure Room (capacity position : Int) (n : Nat) : Prop where
  inside : position + n ≤ capacity
  slack : capacity < 2 ^ 30 ∨ position + n + 11 ≤ capacity

/-- Growing leaves room where there was room. -/
theorem Room.grown {capacity position request : Int} {n : Nat} (h : Room capacity position n)
    (hp : 0 ≤ position) (hc : capacity < 2 ^ 31) (hr : request ≤ n + 11) (hr₀ : 0 ≤ request) :
    Room (Output.grown capacity position request) position n := by
  have hin := h.inside
  have hint : int (request + position) = request + position := by
    apply int_of_fits
    · omega
    · rcases h.slack with hs | hs <;> omega
  unfold Output.grown
  simp only [hint]
  by_cases hm : request + position > capacity
  · have hsmall : capacity < 2 ^ 30 := by
      rcases h.slack with hs | hs
      · exact hs
      · omega
    have hdouble : int (2 * capacity) = 2 * capacity := int_of_fits (by omega) (by omega)
    rw [if_pos hm]
    unfold Output.newCapacity
    simp only [hdouble]
    -- the doubled length is at least 16384, so it exceeds the old one by the slack
    split <;> rw [if_neg (by omega)]
    · exact ⟨by omega, .inr (by omega)⟩
    · exact ⟨by omega, .inr (by omega)⟩
  · rw [if_neg hm]
    exact h

theorem request_le (c : Call) {capacity position : Int}
    (h : Room capacity position (c.bytes charset).length) (hp : 0 ≤ position)
    (hc : capacity < 2 ^ 31) :
    0 ≤ c.request charset ∧ c.request charset ≤ (c.bytes charset).length + 11 := by
  have hpos := List.length_pos_of_ne_nil (c.bytes_ne_nil charset)
  cases c with
  | byte b => exact ⟨le_refl 0, by simp only [request]; omega⟩
  | uint value => exact ⟨le_refl 0, by simp only [request]; omega⟩
  | varInt value => exact ⟨le_refl 0, by simp only [request]; omega⟩
  | uint64 value => exact ⟨le_refl 0, by simp only [request]; omega⟩
  | varInt64 value => exact ⟨le_refl 0, by simp only [request]; omega⟩
  | stringUTF8 str =>
    cases str with
    | none => exact ⟨by simp [request], by simp only [request]; omega⟩
    | some str =>
      have hheader := List.length_pos_of_ne_nil
        (encodeGroups_ne_nil 4 (zigzag (BitVec.ofNat 32 (charset.getBytes str).length)).toNat)
      have hin := h.inside
      have hslack := h.slack
      simp only [bytes, encode, List.length_append] at hin hslack ⊢
      simp only [request]
      rw [int_of_fits (by omega) (by omega)]
      omega

theorem fits_chunks (cs : List Call) {capacity position : Int} (hp : 0 ≤ position)
    (hc : capacity < 2 ^ 31) (h : Room capacity position (allBytes charset cs).length) :
    Output.fits (cs.map (chunk charset)) capacity position := by
  induction cs generalizing capacity position with
  | nil => rfl
  | cons c cs ih =>
    simp only [allBytes, List.flatMap_cons, List.length_append] at h ih
    have hin := h.inside
    have hslack := h.slack
    have hfirst : Room capacity position (c.bytes charset).length :=
      ⟨by omega, by omega⟩
    obtain ⟨hr₀, hr⟩ := request_le charset c hfirst hp hc
    have hgrown : Room (Output.grown capacity position (c.request charset)) position _ :=
      h.grown hp hc (by omega) hr₀
    have hin' := hgrown.inside
    have hslack' := hgrown.slack
    have hrest : Output.fits _ (Output.grown capacity position (c.request charset))
        (position + (c.bytes charset).length) :=
      ih (by omega) (Output.grown_lt _ _ hc) ⟨by omega, by omega⟩
    rw [List.map_cons, Output.fits]
    simp only [chunk, Bool.and_eq_true]
    exact ⟨⟨decide_eq_true (by omega), decide_eq_true (by omega)⟩, hrest⟩

/-! ### Round trips -/

/-- Where there is room the calls return, and once they have returned, the matching reads
over their bytes, whatever stands behind, return the same values and end where they end. -/
structure ReadsBack (cs : List Call) (o : Output) : Prop where
  returned : Room o.buffer.length o.position (allBytes charset cs).length →
    ∃ o', returns (writeAll charset cs) o = some ((), o')
  readBack : ∀ o', returns (writeAll charset cs) o = some ((), o') →
    o'.position = o.position + (allBytes charset cs).length ∧
    o'.buffer.take o.position = o.buffer.take o.position ∧
    ∀ (buffer : Bytes) (s : Parser), buffer.take o'.position = o'.buffer.take o'.position →
      s.position = o.position →
      ∃ s', returns (readAll charset buffer (cs.map kind)) s = some (cs, s') ∧
        s'.position = o'.position

/-- **Streams round trip**, from every position and for all values. -/
theorem readsCalls (cs : List Call) (hp : ∀ c ∈ cs, c.Paired) (o : Output) (hv : o.Valid) :
    ReadsBack charset cs o := by
  constructor
  · intro hroom
    have hfits := fits_chunks charset cs (Int.natCast_nonneg _)
      (by have := hv.small; omega) hroom
    rw [← Output.play_isSome, Option.isSome_iff_exists] at hfits
    obtain ⟨o', ho'⟩ := hfits
    exact ⟨o', by rw [returns_writeAll charset cs hv, ho', Option.map_some]⟩
  · intro o' h
    rw [returns_writeAll charset cs hv] at h
    obtain ⟨o₁, hplay, heq⟩ := Option.map_eq_some_iff.mp h
    obtain rfl : o₁ = o' := (Prod.mk.inj heq).2
    obtain ⟨hv', hwritten, hpos⟩ := Output.play_spec hv hplay
    rw [chunkBytes_map] at hwritten hpos
    have hlen := hv.written_length
    refine ⟨hpos, ?_, ?_⟩
    -- the bytes before the position are kept
    · have htake := congrArg (List.take o.position) hwritten
      rw [List.take_left' hlen, Output.written, List.take_take,
        Nat.min_eq_left (by omega)] at htake
      exact htake
    -- those behind it are read call by call
    · intro buffer s hbuffer hs
      have hin := hv'.inside
      have hsmall := hv'.small
      have hdrop : buffer.drop o.position = allBytes charset cs ++ buffer.drop o₁.position := by
        have hparts : buffer = o.written ++ (allBytes charset cs ++ buffer.drop o₁.position) := by
          rw [← List.append_assoc, ← hwritten, Output.written, ← hbuffer, List.take_append_drop]
        conv_lhs => rw [hparts]
        exact List.drop_left' hlen
      obtain ⟨s', hread, hend⟩ := consumes_readAll charset hp (by omega) s o.position _ hs hdrop
      refine ⟨s', hread, ?_⟩
      rw [hpos]
      exact hend

/-- Null, the empty string and the least values, behind the first of eight bytes. -/
theorem readsCalls_sample :
    ReadsBack strictUtf8 [.stringUTF8 none, .stringUTF8 (some []), .varInt 0x80000000,
      .varInt64 0x8000000000000000, .stringUTF8 (some [0x61, 0xD83D, 0xDE00])]
      ⟨List.replicate 8 0, 1⟩ :=
  readsCalls strictUtf8 _ (by decide) _ ⟨by decide, by decide⟩

end Call

end Wson.Java
