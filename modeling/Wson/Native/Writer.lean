import Wson.Effect.Program
import Wson.Native.Lang
import Wson.Format.Doc
import Wson.Wire.Store

/-!
# `wson.c` and `wson_protocol.c`: the writers

The growable buffer of the C library and its primitive writers, then the tagged
writers built on them. A writer has the same body in both copies of the library;
only how the buffer grows and where its fields wrap around differs.

`Writes lib m bs`: in a valid buffer with room below the limit of the library `m`
returns, `bs` stands behind what was written before, and the buffer is valid
again.
-/

namespace Wson.Native

open Effect Wire

/-- `wson_buffer` and `wson_io_buffer`; `data` is the allocated block. -/
structure Buffer where
  data : Bytes
  position : Nat
  length : Nat

abbrev BufferM := EStateM Fault Buffer

namespace Buffer

/-- `wson_buffer_new` and `wson_io_buffer_new_size`, around the block from `malloc`. -/
def new (block : Bytes) : Buffer where
  data := block
  position := 0
  length := block.length

/-- `realloc`; nothing reads the fresh bytes behind the old ones. -/
def realloc (data : Bytes) (size : Nat) : Bytes :=
  data.take size ++ List.replicate (size - data.length) 0

variable (lib : Library)

/-- The length that `msg_buffer_resize` or `wson_io_buffer_resize` computes. -/
def resizedLength (size length : Nat) : Nat :=
  let size :=
    if size < length then
      match lib with
      | .c => if length < 1024 * 16 then 1024 * 16 else length
      | .io => if length < 1024 * 8 then 1024 * 8 else length * 2
    else size + lib.bufferSize
  (size + length) % 2 ^ lib.bits

/-- `msg_buffer_resize` and `wson_io_buffer_resize`. -/
def resize (size : Nat) : BufferM Unit :=
  modify fun buffer =>
    let size := resizedLength lib size buffer.length
    { buffer with data := realloc buffer.data size, length := size }

/-- `WSON_BUFFER_ENSURE_SIZE` and `WSON_IO_BUFFER_ENSURE_SIZE`, where the sum has
`width` bits; the size is cast to `uint32_t`. -/
def ensureSize (width size : Nat) : BufferM Unit := do
  let buffer ← get
  if buffer.length < (buffer.position + size) % 2 ^ width then resize lib (size % 2 ^ 32)

/-- Store `bs` at the position, inside the allocated block, and move behind it. -/
def put (bs : Bytes) : BufferM Unit := fun buffer =>
  if buffer.position + bs.length ≤ buffer.data.length then
    .ok () { buffer with
      data := overwrite buffer.data buffer.position bs
      position := (buffer.position + bs.length) % 2 ^ lib.bits }
  else .error .outOfBounds buffer

/-! ## Primitive writers

The sizes are `sizeof` expressions, so the sums of `ensureSize` are of type `size_t`. -/

/-- The bytes that the `do` loop of `wson_push_uint` stores, of which a 32-bit
number has at most five. -/
def varUintBytes : Nat → BitVec 32 → Bytes
  | 0, _ => []
  | k + 1, num =>
    (num &&& 0x7F#32 ||| 0x80#32).setWidth 8 ::
      (if num >>> 7 ≠ 0 then varUintBytes k (num >>> 7) else [])

/-- `data[size - 1] &= 0x7F`. -/
def clearLast (bs : Bytes) : Bytes :=
  bs.modify (bs.length - 1) (· &&& 0x7F)

/-- `wson_push_uint` and `wson_io_write_var_uint`. -/
def writeVarUint (num : BitVec 32) : BufferM Unit := do
  ensureSize lib 64 5
  put lib (clearLast (varUintBytes 5 num))

/-- `msg_buffer_varint_Zig` and `wson_io_buffer_var_uint32_Zig`. -/
def varUint32Zig (value : BitVec 32) : BitVec 32 :=
  value <<< 1 ^^^ value.sshiftRight 31

/-- `wson_push_int` and `wson_io_write_var_int`. -/
def writeVarInt (value : BitVec 32) : BufferM Unit :=
  writeVarUint lib (varUint32Zig value)

/-- `wson_push_type` and `wson_io_write_type`. -/
def writeType (bt : Byte) : BufferM Unit := do
  ensureSize lib 64 1
  put lib [bt]

/-- `wson_push_byte` and `wson_io_write_byte`. -/
def writeByte (bt : Byte) : BufferM Unit := do
  ensureSize lib 64 1
  put lib [bt]

/-- `wson_push_ulong` and `wson_io_write_uint64`. -/
def writeUint64 (num : BitVec 64) : BufferM Unit := do
  ensureSize lib 64 8
  put lib [(num >>> 56).setWidth 8, (num >>> 48).setWidth 8, (num >>> 40).setWidth 8,
    (num >>> 32).setWidth 8, (num >>> 24).setWidth 8, (num >>> 16).setWidth 8,
    (num >>> 8).setWidth 8, num.setWidth 8]

/-- `wson_push_double` and `wson_io_write_double`, of a bit pattern. -/
def writeDouble (num : BitVec 64) : BufferM Unit :=
  writeUint64 lib num

/-- `wson_push_float` and `wson_io_write_float`, of a bit pattern. -/
def writeFloat (num : BitVec 32) : BufferM Unit := do
  ensureSize lib 64 4
  put lib [(num >>> 24).setWidth 8, (num >>> 16).setWidth 8, (num >>> 8).setWidth 8,
    num.setWidth 8]

/-- `wson_push_bytes` and `wson_io_write_bytes`, of the bytes from `src` to
`src + length`. The sum has the width of `position`. -/
def writeBytes (src : Bytes) : BufferM Unit := do
  ensureSize lib lib.bits src.length
  put lib src

/-! ## Tagged writers -/

/-- `wson_push_type_null` and `wson_io_write_type_null`. -/
def writeTypeNull : BufferM Unit :=
  writeType lib Tag.null

/-- `wson_push_type_boolean` and `wson_io_write_boolean_with_tag`. Room for two bytes
is asked for, and one is written. -/
def writeBooleanWithTag (value : Byte) : BufferM Unit := do
  ensureSize lib 64 2
  put lib [if value ≠ 0 then Tag.booleanTrue else Tag.booleanFalse]

/-- `wson_push_type_int` and `wson_io_write_var_int_with_tag`. -/
def writeVarIntWithTag (num : BitVec 32) : BufferM Unit := do
  writeType lib Tag.int
  writeVarInt lib num

/-- `wson_push_type_long` and `wson_io_write_fixed_int64_with_tag`. -/
def writeFixedInt64WithTag (num : BitVec 64) : BufferM Unit := do
  writeType lib Tag.long
  writeUint64 lib num

/-- `wson_push_type_float` and `wson_io_write_float_with_tag`. -/
def writeFloatWithTag (num : BitVec 32) : BufferM Unit := do
  writeType lib Tag.float
  writeFloat lib num

/-- `wson_push_type_double` and `wson_io_write_double_with_tag`. -/
def writeDoubleWithTag (num : BitVec 64) : BufferM Unit := do
  writeType lib Tag.double
  writeDouble lib num

/-- `wson_push_property` and `wson_io_write_map_key`: a length and the bytes behind it. -/
def writeMapKey (src : Bytes) : BufferM Unit := do
  writeVarUint lib (BitVec.ofNat 32 src.length)
  writeBytes lib src

/-- A tag in front of a length and the bytes behind it. -/
def writeBlockWithTag (tag : Byte) (src : Bytes) : BufferM Unit := do
  writeType lib tag
  writeVarUint lib (BitVec.ofNat 32 src.length)
  writeBytes lib src

/-- `wson_push_type_string` and `wson_io_write_string_with_tag`. -/
def writeStringWithTag (src : Bytes) : BufferM Unit :=
  writeBlockWithTag lib Tag.string src

/-- `wson_push_type_uint8_string` and `wson_io_write_uint8_string_with_tag`. -/
def writeUint8StringWithTag (src : Bytes) : BufferM Unit :=
  writeBlockWithTag lib Tag.uint8String src

/-- `WSON_EXTEND_TYPE`, `'b'`: no reader knows it. -/
abbrev extendTag : Byte := 0x62

/-- `wson_push_type_extend` and `wson_io_write_type_extend`. -/
def writeTypeExtend (src : Bytes) : BufferM Unit :=
  writeBlockWithTag lib extendTag src

/-- A tag in front of a number. -/
def writeCountWithTag (tag : Byte) (size : BitVec 32) : BufferM Unit := do
  writeType lib tag
  writeVarUint lib size

/-- `wson_push_type_string_length` and `wson_io_write_type_string_length`. -/
def writeTypeStringLength (length : BitVec 32) : BufferM Unit :=
  writeCountWithTag lib Tag.string length

/-- `wson_push_type_map` and `wson_io_write_type_map`. -/
def writeTypeMap (size : BitVec 32) : BufferM Unit :=
  writeCountWithTag lib Tag.map size

/-- `wson_push_type_array` and `wson_io_write_type_array`. -/
def writeTypeArray (size : BitVec 32) : BufferM Unit :=
  writeCountWithTag lib Tag.array size

/-! ## What is written -/

/-- The position is inside the block, and the length is the block's. -/
structure Valid (buffer : Buffer) : Prop where
  inside : buffer.position ≤ buffer.length
  length_eq : buffer.length = buffer.data.length

theorem valid_new (block : Bytes) : (new block).Valid :=
  ⟨Nat.zero_le _, rfl⟩

/-- The bytes before the position. -/
def written (buffer : Buffer) : Bytes :=
  buffer.data.take buffer.position

theorem written_new (block : Bytes) : (new block).written = [] :=
  rfl

theorem Valid.written_length {buffer : Buffer} (h : buffer.Valid) :
    buffer.written.length = buffer.position := by
  have h₁ := h.inside
  have h₂ := h.length_eq
  rw [written, List.length_take]
  omega

/-- Up to this position the buffer grows by as much as is asked for. -/
def limit : Library → Nat
  | .c => 2 ^ 30
  | .io => 2 ^ 31

/-- `m` returns, and `bs` stands behind what was written before. -/
def Writes (m : BufferM Unit) (bs : Bytes) : Prop :=
  ∀ buffer : Buffer, buffer.Valid → buffer.position + bs.length ≤ limit lib →
    ∃ buffer', m buffer = .ok () buffer' ∧ buffer'.Valid ∧
      buffer'.written = buffer.written ++ bs

variable {lib}

/-- Whatever is longer than the limit does not fit. -/
theorem writes_of_lt {m : BufferM Unit} {bs : Bytes} (h : bs.length < 2 ^ 32 → Writes lib m bs) :
    Writes lib m bs := by
  intro buffer hv hroom
  have hlimit : limit lib < 2 ^ 32 := by cases lib <;> decide
  exact h (by omega) buffer hv hroom

theorem writes_pure : Writes lib (pure ()) [] :=
  fun buffer h _ => ⟨buffer, rfl, h, (List.append_nil _).symm⟩

theorem position_of_written {buffer buffer' : Buffer} {bs : Bytes} (hv : buffer.Valid)
    (hv' : buffer'.Valid) (hw : buffer'.written = buffer.written ++ bs) :
    buffer'.position = buffer.position + bs.length := by
  rw [← hv'.written_length, hw, List.length_append, hv.written_length]

theorem Writes.bind {m m' : BufferM Unit} {as bs : Bytes} (hm : Writes lib m as)
    (hm' : Writes lib m' bs) : Writes lib (m >>= fun _ => m') (as ++ bs) := by
  intro buffer hv hroom
  rw [List.length_append] at hroom
  obtain ⟨b₁, h₁, hv₁, hw₁⟩ := hm buffer hv (by omega)
  have hp₁ := position_of_written hv hv₁ hw₁
  obtain ⟨b₂, h₂, hv₂, hw₂⟩ := hm' b₁ hv₁ (by omega)
  refine ⟨b₂, ?_, hv₂, by rw [hw₂, hw₁, List.append_assoc]⟩
  show EStateM.bind m _ buffer = _
  unfold EStateM.bind
  rw [h₁]
  exact h₂

theorem realloc_length {data : Bytes} {size : Nat} (h : data.length ≤ size) :
    (realloc data size).length = size := by
  rw [realloc, List.length_append, List.length_take, List.length_replicate]
  omega

theorem take_realloc {data : Bytes} {size n : Nat} (h : data.length ≤ size) (hn : n ≤ data.length) :
    (realloc data size).take n = data.take n := by
  rw [realloc, List.take_of_length_le h, List.take_append_of_le_length hn]

/-- Where the block is too short for a request below the limit, it grows by at least the
request and does not wrap around. -/
theorem le_resizedLength {p size length : Nat} (hlength : length < p + size)
    (hsum : p + size ≤ limit lib + 8) : length + size ≤ resizedLength lib size length := by
  unfold resizedLength
  cases lib with
  | c =>
    simp only [Library.bits, Library.bufferSize, limit] at hsum ⊢
    split
    · split <;> (rw [Nat.mod_eq_of_lt (by omega)]; omega)
    · rw [Nat.mod_eq_of_lt (by omega)]
      omega
  | io =>
    simp only [Library.bits, Library.bufferSize, limit] at hsum ⊢
    split
    · split <;> (rw [Nat.mod_eq_of_lt (by omega)]; omega)
    · rw [Nat.mod_eq_of_lt (by omega)]
      omega

variable (lib) in
/-- There is room after `ensureSize`. -/
theorem ensureSize_spec {buffer : Buffer} (hv : buffer.Valid) {width : Nat} (size : Nat)
    (hwidth : 32 ≤ width) (hsum : buffer.position + size ≤ limit lib + 8) :
    ∃ buffer', ensureSize lib width size buffer = .ok () buffer' ∧ buffer'.Valid ∧
      buffer'.position = buffer.position ∧ buffer'.written = buffer.written ∧
      buffer'.position + size ≤ buffer'.data.length := by
  have hinside := hv.inside
  have hlength := hv.length_eq
  have hlimit : limit lib + 8 < 2 ^ 32 := by cases lib <;> decide
  have hpow : 2 ^ 32 ≤ 2 ^ width := Nat.pow_le_pow_right (by decide) hwidth
  have hmod : (buffer.position + size) % 2 ^ width = buffer.position + size :=
    Nat.mod_eq_of_lt (by omega)
  have hrun : ensureSize lib width size buffer
      = (if buffer.length < buffer.position + size then resize lib (size % 2 ^ 32)
          else pure () : BufferM Unit) buffer := by
    rw [← hmod]
    rfl
  rw [hrun, Nat.mod_eq_of_lt (show size < 2 ^ 32 by omega)]
  by_cases hroom : buffer.length < buffer.position + size
  · have hgrow := le_resizedLength hroom hsum
    have hrealloc : (realloc buffer.data (resizedLength lib size buffer.length)).length
        = resizedLength lib size buffer.length := realloc_length (by omega)
    rw [if_pos hroom]
    refine ⟨_, rfl, ⟨?_, hrealloc.symm⟩, rfl, take_realloc (by omega) ?_, ?_⟩
    · show buffer.position ≤ resizedLength lib size buffer.length
      omega
    · show buffer.position ≤ _
      omega
    · show buffer.position + size ≤ (realloc buffer.data _).length
      omega
  · rw [if_neg hroom]
    exact ⟨buffer, rfl, hv, rfl, rfl, by omega⟩

/-- Room for `size` bytes, of which `bs` takes some. -/
theorem writes_put {width size : Nat} {bs : Bytes} (hwidth : 32 ≤ width) (hbs : bs.length ≤ size)
    (hsize : size ≤ bs.length + 8) :
    Writes lib (do ensureSize lib width size; put lib bs) bs := by
  intro buffer hv hroom
  obtain ⟨b₁, h₁, hv₁, hp, hw, hfits⟩ :=
    ensureSize_spec lib hv size hwidth (by omega)
  have hlength := hv₁.length_eq
  have hlimit : limit lib < 2 ^ 32 := by cases lib <;> decide
  have hbits : 2 ^ 32 ≤ 2 ^ lib.bits := by cases lib <;> decide
  have hmod : (b₁.position + bs.length) % 2 ^ lib.bits = b₁.position + bs.length :=
    Nat.mod_eq_of_lt (by omega)
  refine ⟨⟨overwrite b₁.data b₁.position bs, b₁.position + bs.length, b₁.length⟩, ?_, ⟨?_, ?_⟩, ?_⟩
  · show EStateM.bind (ensureSize lib width size) _ buffer = _
    unfold EStateM.bind
    rw [h₁]
    show put lib bs b₁ = _
    rw [put, if_pos (by omega), hmod]
  · show b₁.position + bs.length ≤ b₁.length
    omega
  · rw [overwrite_length]
    exact hlength
  · show (overwrite b₁.data b₁.position bs).take (b₁.position + bs.length) = _
    rw [take_overwrite_end _ _ (by omega), ← hw]
    rfl

/-! ### The bytes of a run -/

theorem varUintBytes_eq : ∀ (k : Nat) (num : BitVec 32), num.toNat < 128 ^ (k + 1) →
    varUintBytes (k + 1) num = (encodeGroups k num.toNat).map (· ||| 0x80)
  | k, num, h => by
    have hor : ∀ n < 128, BitVec.ofNat 8 (n + 128) = BitVec.ofNat 8 n ||| 0x80 := by decide
    have hmod := Nat.mod_lt num.toNat (show 0 < 128 by decide)
    have hbyte : (num &&& 0x7F#32 ||| 0x80#32).setWidth 8
        = BitVec.ofNat 8 (num.toNat % 128) ||| 0x80 := by
      rw [← hor _ hmod]
      apply BitVec.eq_of_toNat_eq
      rw [BitVec.toNat_setWidth, toNat_and_low_or, BitVec.toNat_ofNat]
    have hshift : (num >>> 7).toNat = num.toNat / 128 := by
      rw [BitVec.toNat_ushiftRight, Nat.shiftRight_eq_div_pow]
    have hzero : num >>> 7 = 0 ↔ num.toNat < 128 := by
      rw [← BitVec.toNat_inj, hshift]
      show num.toNat / 128 = 0 ↔ _
      omega
    rw [varUintBytes, hbyte]
    cases k with
    | zero =>
      rw [if_neg (by rw [not_not, hzero]; omega), encodeGroups]
      rfl
    | succ k =>
      rw [encodeGroups]
      by_cases hlt : num.toNat < 128
      · rw [if_neg (by rw [not_not, hzero]; exact hlt), if_pos hlt, Nat.mod_eq_of_lt hlt]
        rfl
      · have hk : (num >>> 7).toNat < 128 ^ (k + 1) := by
          rw [hshift, Nat.div_lt_iff_lt_mul (by decide), ← Nat.pow_succ]
          exact h
        have hidem : BitVec.ofNat 8 (num.toNat % 128) ||| 0x80#8
            = BitVec.ofNat 8 (num.toNat % 128 + 128) ||| 0x80#8 := by
          rw [hor _ hmod, BitVec.or_assoc]
          rfl
        rw [if_pos (by rw [ne_eq, hzero]; exact hlt), if_neg hlt, varUintBytes_eq k _ hk, hshift,
          List.map_cons]
        exact congrArg (· :: _) hidem

/-- A run whose last byte has lost its mark is a run again. -/
theorem clearLast_map : ∀ {h : Bytes}, Delimited h → clearLast (h.map (· ||| 0x80)) = h
  | [], hd => hd.elim
  | [b], hd => by
    have hclear : ∀ b : Byte, b.toNat < 128 → (b ||| 0x80) &&& 0x7F = b := by decide
    show [(b ||| 0x80) &&& 0x7F] = [b]
    rw [hclear b hd]
  | b :: b' :: bs, hd => by
    have hmark : ∀ b : Byte, 128 ≤ b.toNat → b ||| 0x80 = b := by decide
    have ih := clearLast_map hd.2
    unfold clearLast at ih ⊢
    rw [List.map_cons, List.length_cons, Nat.add_sub_cancel, hmark b hd.1]
    rw [List.length_map, List.length_cons, Nat.add_sub_cancel] at ih
    rw [List.length_map, List.length_cons, List.modify_succ_cons, ih]

theorem clearLast_varUintBytes (num : BitVec 32) :
    clearLast (varUintBytes 5 num) = encode num.toNat := by
  rw [varUintBytes_eq 4 num (by have := num.isLt; omega), encode,
    clearLast_map (delimited_encodeGroups 4 _)]

theorem writes_writeVarUint (num : BitVec 32) :
    Writes lib (writeVarUint lib num) (encode num.toNat) := by
  have hlen := encodeGroups_length_le 4 num.toNat
  rw [writeVarUint, clearLast_varUintBytes]
  exact writes_put (by decide) hlen (by omega)

theorem writes_writeType (bt : Byte) : Writes lib (writeType lib bt) [bt] :=
  writes_put (by decide) (Nat.le_refl 1) (Nat.le_add_left 1 8)

theorem writes_writeUint64 (num : BitVec 64) : Writes lib (writeUint64 lib num) (be64 num) :=
  writes_put (by decide) (Nat.le_refl 8) (Nat.le_add_right 8 8)

theorem writes_writeFloat (num : BitVec 32) : Writes lib (writeFloat lib num) (be32 num) :=
  writes_put (by decide) (Nat.le_refl 4) (Nat.le_add_right 4 8)

theorem writes_writeBytes (src : Bytes) : Writes lib (writeBytes lib src) src :=
  writes_put (by cases lib <;> decide) (Nat.le_refl _) (Nat.le_add_right _ 8)

theorem writes_writeMapKey (src : Bytes) :
    Writes lib (writeMapKey lib src) (encode src.length ++ src) := by
  refine writes_of_lt fun h => ?_
  rw [List.length_append] at h
  have hlen : (BitVec.ofNat 32 src.length).toNat = src.length := by
    rw [BitVec.toNat_ofNat, Nat.mod_eq_of_lt (by omega)]
  have hheader : Writes lib (writeVarUint lib (BitVec.ofNat 32 src.length)) _ :=
    writes_writeVarUint _
  rw [hlen] at hheader
  exact hheader.bind (writes_writeBytes src)

theorem writes_writeBlockWithTag (tag : Byte) (src : Bytes) :
    Writes lib (writeBlockWithTag lib tag src) (tag :: (encode src.length ++ src)) :=
  (writes_writeType tag).bind (writes_writeMapKey src)

theorem writes_writeCountWithTag (tag : Byte) (size : BitVec 32) :
    Writes lib (writeCountWithTag lib tag size) (tag :: encode size.toNat) :=
  (writes_writeType tag).bind (writes_writeVarUint size)

end Buffer

end Wson.Native
