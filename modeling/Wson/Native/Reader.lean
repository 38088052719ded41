import Wson.Native.Writer

/-!
# `wson.c`: the readers

The readers of the C library move through the same buffer that the writers fill.
They never look at `length`: a load outside of the memory block is a fault, and
`readBts` hands out a pointer without any load at all.

Each reader has a lemma saying what it consumes: the bytes of the format for a
value, wherever they stand in a block whose offsets `position` can hold.
-/

namespace Wson.Native

open Effect Wire

namespace Buffer

/-- `ptr[i]`, for the pointer to the byte at the position. -/
def load (i : Nat) : BufferM Byte := fun buffer =>
  match buffer.data[buffer.position + i]? with
  | some b => .ok b buffer
  | none => .error .outOfBounds buffer

variable (lib : Library)

def move (step : Nat) : BufferM Unit :=
  modify fun buffer => { buffer with position := (buffer.position + step) % 2 ^ lib.bits }

/-- `wson_next_type` and `wson_io_read_type`. -/
def readType : BufferM Byte := do
  let type ← load 0
  move lib 1
  pure type

/-- `wson_next_byte` and `wson_io_read_byte`. -/
def readByte : BufferM Byte := do
  let bt ← load 0
  move lib 1
  pure bt

/-- `wson_next_uint` and `wson_io_read_var_uint`. -/
def readVarUint : BufferM (BitVec 32) := do
  let chunk ← load 0
  let num := chunk.setWidth 32
  if num &&& 0x80 = 0 then
    move lib 1
    return num
  let num := num &&& 0x7F
  let chunk ← load 1
  let num := num ||| (chunk.setWidth 32 &&& 0x7F) <<< 7
  if chunk &&& 0x80 = 0 then
    move lib 2
    return num
  let chunk ← load 2
  let num := num ||| (chunk.setWidth 32 &&& 0x7F) <<< 14
  if chunk &&& 0x80 = 0 then
    move lib 3
    return num
  let chunk ← load 3
  let num := num ||| (chunk.setWidth 32 &&& 0x7F) <<< 21
  if chunk &&& 0x80 = 0 then
    move lib 4
    return num
  let chunk ← load 4
  let num := num ||| (chunk.setWidth 32 &&& 0x0F) <<< 28
  move lib 5
  return num

/-- `msg_buffer_varint_Zag` and `wson_io_var_int32_Zag`. -/
def varInt32Zag (value : BitVec 32) : BitVec 32 :=
  -(value &&& 0x01#32) ^^^ (value.sshiftRight 1 &&& ~~~(1#32 <<< 31))

/-- `wson_next_int` and `wson_io_read_var_int`. -/
def readVarInt : BufferM (BitVec 32) := do
  let num ← readVarUint lib
  pure (varInt32Zag num)

/-- `wson_next_ulong` and `wson_io_read_fixed_uint64`. -/
def readFixedUint64 : BufferM (BitVec 64) := do
  let b₇ ← load 7
  let b₆ ← load 6
  let b₅ ← load 5
  let b₄ ← load 4
  let b₃ ← load 3
  let b₂ ← load 2
  let b₁ ← load 1
  let b₀ ← load 0
  move lib 8
  pure (b₇.setWidth 64 + b₆.setWidth 64 <<< 8 + b₅.setWidth 64 <<< 16 + b₄.setWidth 64 <<< 24 +
    b₃.setWidth 64 <<< 32 + b₂.setWidth 64 <<< 40 + b₁.setWidth 64 <<< 48 +
    b₀.setWidth 64 <<< 56)

/-- `wson_next_long` and `wson_io_read_long`. -/
def readLong : BufferM (BitVec 64) :=
  readFixedUint64 lib

/-- `wson_next_double` and `wson_io_read_double`, as a bit pattern. -/
def readDouble : BufferM (BitVec 64) :=
  readLong lib

/-- `wson_next_float` and `wson_io_read_float`, as a bit pattern. -/
def readFloat : BufferM (BitVec 32) := do
  let b₃ ← load 3
  let b₂ ← load 2
  let b₁ ← load 1
  let b₀ ← load 0
  move lib 4
  pure (b₃.setWidth 32 + b₂.setWidth 32 <<< 8 + b₁.setWidth 32 <<< 16 + b₀.setWidth 32 <<< 24)

/-- `wson_next_bts` and `wson_io_read_bts`: the offset of the pointer that is returned. -/
def readBts (length : BitVec 32) : BufferM Nat := do
  let ptr := (← get).position
  move lib length.toNat
  pure ptr

/-- The `n` bytes from a pointer on. -/
def bytesAt (ptr n : Nat) : BufferM Bytes := fun buffer =>
  if ptr + n ≤ buffer.data.length then .ok ((buffer.data.drop ptr).take n) buffer
  else .error .outOfBounds buffer

/-! ## What is consumed -/

/-- The buffer stands at offset `p` of the block `data`. -/
def At (data : Bytes) (length : Nat) (buffer : Buffer) (p : Nat) : Prop :=
  buffer = ⟨data, p, length⟩ ∧ p ≤ data.length

variable {data : Bytes} {length : Nat}

@[simp] theorem returns_move (step : Nat) (buffer : Buffer) :
    returns (move lib step) buffer
      = some ((), { buffer with position := (buffer.position + step) % 2 ^ lib.bits }) := rfl

theorem returns_load {p j : Nat} {xs rest : Bytes} {b : Byte} (h : data.drop p = xs ++ rest)
    (hb : xs[j]? = some b) : returns (load j) ⟨data, p, length⟩ = some (b, ⟨data, p, length⟩) := by
  have hload : data[p + j]? = some b := by
    rw [← List.getElem?_drop, h, List.getElem?_append_left (List.getElem?_eq_some_iff.mp hb).1, hb]
  rw [returns_eq_some, load]
  simp only [hload]

variable {lib}

/-- Where the items end is an offset of the block, too. -/
theorem end_le_length {p : Nat} {xs rest : Bytes} (h : data.drop p = xs ++ rest)
    (hp : p ≤ data.length) : p + xs.length ≤ data.length := by
  have hlen := congrArg List.length h
  rw [List.length_drop, List.length_append] at hlen
  omega

/-- Where `bs` stands between other bytes, what reads it gets from its front to its end. -/
theorem returns_of_consumesAt {α : Type} {m : BufferM α} {before bs after : Bytes} {a : α}
    (h : ConsumesAt (before ++ bs ++ after) (At (before ++ bs ++ after) length) before.length (returns m) bs a) :
    returns m ⟨before ++ bs ++ after, before.length, length⟩ =
      some (a, ⟨before ++ bs ++ after, (before ++ bs).length, length⟩) := by
  have hdrop : (before ++ bs ++ after).drop before.length = bs ++ after := by
    rw [List.append_assoc, List.drop_left]
  have hp : before.length ≤ (before ++ bs ++ after).length := by
    rw [List.append_assoc, List.length_append]
    exact Nat.le_add_right _ _
  obtain ⟨_, hrun, rfl, -⟩ := h _ after ⟨rfl, hp⟩ hdrop
  rw [hrun, List.length_append]

/-- The move behind what was loaded. -/
theorem returns_move_end (hdata : data.length < 2 ^ lib.bits) {p : Nat} {xs rest : Bytes}
    (h : data.drop p = xs ++ rest) (hp : p ≤ data.length) :
    returns (move lib xs.length) ⟨data, p, length⟩ = some ((), ⟨data, p + xs.length, length⟩) := by
  have hend := end_le_length h hp
  rw [returns_move, Nat.mod_eq_of_lt (by simp only; omega)]

theorem consumes_readType (hdata : data.length < 2 ^ lib.bits) (b : Byte) :
    Consumes data (At data length) (returns (readType lib)) [b] b := by
  rintro _ p rest ⟨rfl, hp⟩ hd
  have hmove : returns (move lib 1) ⟨data, p, length⟩ = _ :=
    returns_move_end hdata hd hp
  have h₀ : returns (load 0) ⟨data, p, length⟩ = _ := returns_load hd rfl
  refine ⟨_, ?_, rfl, end_le_length hd hp⟩
  simp only [readType, returns_bind, h₀, hmove, Option.bind_some, returns_pure]

theorem consumes_readByte (hdata : data.length < 2 ^ lib.bits) (b : Byte) :
    Consumes data (At data length) (returns (readByte lib)) [b] b :=
  consumes_readType hdata b

/-! ### Headers -/

theorem setWidth_and_continuation (b : Byte) :
    (b.setWidth 32 &&& 0x80 : BitVec 32) = 0 ↔ b &&& 0x80 = 0 := by
  revert b
  decide

theorem and_continuation_eq_zero (b : Byte) : b &&& 0x80 = 0 ↔ b.toNat < 128 := by
  rw [← not_iff_not, Nat.not_lt]
  exact and_continuation b

/-- Of the fifth group only four bits fit. -/
theorem shift_last_group (b : Byte) :
    ((b.setWidth 32 &&& 0x0F) <<< 28 : BitVec 32) = (b.setWidth 32 &&& 0x7F) <<< 28 := by
  revert b
  decide

/-- The tests and shifts of `readVarUint` join the groups of the run. -/
theorem consumes_readVarUint_header (hdata : data.length < 2 ^ lib.bits) {h : Bytes}
    (hd : Header 5 h) :
    Consumes data (At data length) (returns (readVarUint lib)) h (uintOf 0 h) := by
  rintro _ p rest ⟨rfl, hp⟩ hdrop
  refine ⟨_, ?_, rfl, end_le_length hdrop hp⟩
  have hmove : returns (move lib h.length) ⟨data, p, length⟩ = _ :=
    returns_move_end hdata hdrop hp
  have hload (j : Nat) {b : Byte} (hb : h[j]? = some b) :
      returns (load j) ⟨data, p, length⟩ = _ := returns_load hdrop hb
  have hlast {b : Byte} (hb : b.toNat < 128) : b &&& 0x80 = 0 := (and_continuation_eq_zero b).mpr hb
  have hmore {b : Byte} (hb : 128 ≤ b.toNat) : ¬ b &&& 0x80 = 0 := (and_continuation b).mpr hb
  -- one case for each number of bytes, as in the nested ifs of the source
  match h, hd with
  | [b₀], .inl hd =>
    have hb₀ := (setWidth_and_continuation b₀).mpr (hlast hd)
    have hmove : returns (move lib 1) ⟨data, p, length⟩ = _ := hmove
    simp only [readVarUint, returns_bind, hload 0 rfl, Option.bind_some, if_pos hb₀, hmove,
      returns_pure, uintOf_last hd]
    simp
  | [b₀, b₁], ⟨hd₀, .inl hd₁⟩ =>
    have hb₀ := (setWidth_and_continuation b₀).not.mpr (hmore hd₀)
    have hmove : returns (move lib 2) ⟨data, p, length⟩ = _ := hmove
    have h₀ := hload 0 rfl
    have h₁ := hload 1 rfl
    simp only [readVarUint, returns_bind, h₀, h₁, Option.bind_some, if_neg hb₀,
      if_pos (hlast hd₁), hmove, returns_pure, uintOf]
    simp
  | [b₀, b₁, b₂], ⟨hd₀, hd₁, .inl hd₂⟩ =>
    have hb₀ := (setWidth_and_continuation b₀).not.mpr (hmore hd₀)
    have hmove : returns (move lib 3) ⟨data, p, length⟩ = _ := hmove
    have h₀ := hload 0 rfl
    have h₁ := hload 1 rfl
    have h₂ := hload 2 rfl
    simp only [readVarUint, returns_bind, h₀, h₁, h₂, Option.bind_some, if_neg hb₀,
      if_neg (hmore hd₁), if_pos (hlast hd₂), hmove, returns_pure, uintOf]
    simp [BitVec.or_assoc]
  | [b₀, b₁, b₂, b₃], ⟨hd₀, hd₁, hd₂, .inl hd₃⟩ =>
    have hb₀ := (setWidth_and_continuation b₀).not.mpr (hmore hd₀)
    have hmove : returns (move lib 4) ⟨data, p, length⟩ = _ := hmove
    have h₀ := hload 0 rfl
    have h₁ := hload 1 rfl
    have h₂ := hload 2 rfl
    have h₃ := hload 3 rfl
    simp only [readVarUint, returns_bind, h₀, h₁, h₂, h₃, Option.bind_some, if_neg hb₀,
      if_neg (hmore hd₁), if_neg (hmore hd₂), if_pos (hlast hd₃), hmove, returns_pure, uintOf]
    simp [BitVec.or_assoc]
  | [b₀, b₁, b₂, b₃, b₄], ⟨hd₀, hd₁, hd₂, hd₃, _⟩ =>
    have hb₀ := (setWidth_and_continuation b₀).not.mpr (hmore hd₀)
    have hmove : returns (move lib 5) ⟨data, p, length⟩ = _ := hmove
    have h₀ := hload 0 rfl
    have h₁ := hload 1 rfl
    have h₂ := hload 2 rfl
    have h₃ := hload 3 rfl
    have h₄ := hload 4 rfl
    simp only [readVarUint, returns_bind, h₀, h₁, h₂, h₃, h₄, Option.bind_some, if_neg hb₀,
      if_neg (hmore hd₁), if_neg (hmore hd₂), if_neg (hmore hd₃), hmove, returns_pure,
      shift_last_group, uintOf]
    simp [BitVec.or_assoc]

theorem consumes_readVarUint_uintOf (hdata : data.length < 2 ^ lib.bits) {h : Bytes}
    (hd : Delimited h) (hshort : h.length ≤ 5) :
    Consumes data (At data length) (returns (readVarUint lib)) h (uintOf 0 h) :=
  consumes_readVarUint_header hdata (header_of_delimited hd hshort)

theorem consumes_readVarUint (hdata : data.length < 2 ^ lib.bits) {n : Nat} {h : Bytes}
    (hv : VarUInt n h) :
    Consumes data (At data length) (returns (readVarUint lib)) h (BitVec.ofNat 32 n) :=
  (consumes_readVarUint_uintOf hdata hv.delimited hv.short).of_eq rfl (uintOf_varUInt hv)

/-- The shifts and masks undo the folding of the sign. -/
theorem varInt32Zag_eq (value : BitVec 32) : varInt32Zag value = unzigzag value := by
  have hsign : -(value &&& 0x01#32) = BitVec.fill 32 (value.getLsbD 0) := by
    have hbit : value &&& 0x01#32 = BitVec.setWidth 32 (BitVec.ofBool (value.getLsbD 0)) := by
      apply BitVec.eq_of_getLsbD_eq
      intro i hi
      have hone : (0x01#32).getLsbD i = decide (i = 0) := by interval_cases i <;> rfl
      rw [BitVec.getLsbD_and, hone, BitVec.getLsbD_setWidth, BitVec.getLsbD_ofBool]
      by_cases h0 : i = 0
      · simp [h0]
      · simp [h0]
    rw [hbit]
    cases value.getLsbD 0 <;> rfl
  have hshift : value.sshiftRight 1 &&& ~~~(1#32 <<< 31) = value >>> 1 := by
    apply BitVec.eq_of_getLsbD_eq
    intro i hi
    have hmask : (~~~(1#32 <<< 31)).getLsbD i = decide (i < 31) := by interval_cases i <;> rfl
    rw [BitVec.getLsbD_and, hmask, BitVec.getLsbD_sshiftRight, BitVec.getLsbD_ushiftRight]
    by_cases h31 : i < 31
    · simp [h31, show ¬ 32 ≤ i by omega, show 1 + i < 32 by omega]
    · simp [h31, BitVec.getLsbD_of_ge value (1 + i) (by omega)]
  rw [varInt32Zag, hsign, hshift, BitVec.xor_comm]
  rfl

theorem consumes_readVarInt (hdata : data.length < 2 ^ lib.bits) {x : BitVec 32} {h : Bytes}
    (hv : VarUInt (zigzag x).toNat h) :
    Consumes data (At data length) (returns (readVarInt lib)) h x := by
  rw [readVarInt, returns_bind_eq]
  refine ((consumes_readVarUint hdata hv).bind ?_).of_eq (List.append_nil _) rfl
  refine (consumes_pure _).of_eq rfl ?_
  rw [varInt32Zag_eq, BitVec.ofNat_toNat, BitVec.setWidth_eq, unzigzag_zigzag]

/-! ### Words and blocks -/

theorem consumes_readFixedUint64 (hdata : data.length < 2 ^ lib.bits) (x : BitVec 64) :
    Consumes data (At data length) (returns (readFixedUint64 lib)) (be64 x) x := by
  rintro _ p rest ⟨rfl, hp⟩ hd
  have hmove : returns (move lib 8) ⟨data, p, length⟩ = _ :=
    returns_move_end hdata hd hp
  obtain ⟨b₀, b₁, b₂, b₃, b₄, b₅, b₆, b₇, hx⟩ :
      ∃ b₀ b₁ b₂ b₃ b₄ b₅ b₆ b₇, be64 x = [b₀, b₁, b₂, b₃, b₄, b₅, b₆, b₇] :=
    ⟨_, _, _, _, _, _, _, _, rfl⟩
  have hload (j : Nat) {b : Byte} (hb : (be64 x)[j]? = some b) :
      returns (load j) ⟨data, p, length⟩ = _ := returns_load hd hb
  have hsum := sum_beNat_64 b₀ b₁ b₂ b₃ b₄ b₅ b₆ b₇
  rw [← hx, ofNat_beNat_be64] at hsum
  rw [hx] at hload
  refine ⟨_, ?_, rfl, end_le_length hd hp⟩
  have h₀ := hload 0 rfl
  have h₁ := hload 1 rfl
  have h₂ := hload 2 rfl
  have h₃ := hload 3 rfl
  have h₄ := hload 4 rfl
  have h₅ := hload 5 rfl
  have h₆ := hload 6 rfl
  have h₇ := hload 7 rfl
  simp only [readFixedUint64, returns_bind, h₀, h₁, h₂, h₃, h₄, h₅, h₆, h₇, Option.bind_some,
    hmove, returns_pure, hsum]

theorem consumes_readFloat (hdata : data.length < 2 ^ lib.bits) (x : BitVec 32) :
    Consumes data (At data length) (returns (readFloat lib)) (be32 x) x := by
  rintro _ p rest ⟨rfl, hp⟩ hd
  have hmove : returns (move lib 4) ⟨data, p, length⟩ = _ :=
    returns_move_end hdata hd hp
  obtain ⟨b₀, b₁, b₂, b₃, hx⟩ : ∃ b₀ b₁ b₂ b₃, be32 x = [b₀, b₁, b₂, b₃] :=
    ⟨_, _, _, _, rfl⟩
  have hload (j : Nat) {b : Byte} (hb : (be32 x)[j]? = some b) :
      returns (load j) ⟨data, p, length⟩ = _ := returns_load hd hb
  have hsum := sum_beNat_32 b₀ b₁ b₂ b₃
  rw [← hx, ofNat_beNat_be32] at hsum
  rw [hx] at hload
  refine ⟨_, ?_, rfl, end_le_length hd hp⟩
  have h₀ := hload 0 rfl
  have h₁ := hload 1 rfl
  have h₂ := hload 2 rfl
  have h₃ := hload 3 rfl
  simp only [readFloat, returns_bind, h₀, h₁, h₂, h₃, Option.bind_some, hmove, returns_pure, hsum]

variable (length)

/-- A block of bytes is passed over, and its pointer is where it starts. -/
theorem returns_readBts (hdata : data.length < 2 ^ lib.bits) {p : Nat} {xs rest : Bytes}
    (hd : data.drop p = xs ++ rest) (hp : p ≤ data.length) (hxs : xs.length < 2 ^ 32) :
    returns (readBts lib (BitVec.ofNat 32 xs.length)) ⟨data, p, length⟩
      = some (p, ⟨data, p + xs.length, length⟩) := by
  rw [readBts, returns_bind, returns_get, Option.bind_some, returns_bind, BitVec.toNat_ofNat,
    Nat.mod_eq_of_lt hxs, returns_move_end hdata hd hp]
  rfl

theorem returns_bytesAt (q : Nat) {p : Nat} {s rest : Bytes} (hd : data.drop p = s ++ rest)
    (hp : p ≤ data.length) :
    returns (bytesAt p s.length) ⟨data, q, length⟩ = some (s, ⟨data, q, length⟩) := by
  have hend := end_le_length hd hp
  rw [returns_eq_some, bytesAt, if_pos (by exact hend)]
  simp only [hd, List.take_left]

end Buffer

end Wson.Native
