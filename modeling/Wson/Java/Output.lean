import Wson.Effect.Program
import Wson.Java.Lang
import Wson.Wire.Store
import Wson.Wire.Varint

/-!
# `io/Output.java`

The growable byte buffer the builder writes to. Below the translated methods:

- `Appends m bs`: `m` stores `bs` at the position and moves behind it, or throws
  when the array is too short; one lemma for each writing method.
- `Chunk`, `Output.accept`: what the callers do over and over, one
  `ensureCapacity` followed by stores. `accept` fails exactly when growing the
  array or one of the stores throws.
- `Advances`: however a method ends, the position has not moved back.
-/

namespace Wson.Java

open Effect Wire

structure Output where
  buffer : Bytes
  position : Nat

abbrev OutputM := EStateM Throwable Output

namespace Output

/-- `buffer[i] = b`. -/
def store (i : Nat) (b : Byte) : OutputM Unit := do
  let o ← get
  if i < o.buffer.length then set { o with buffer := o.buffer.set i b }
  else throw .arrayIndexOutOfBounds

def getPosition : OutputM Nat := do
  let o ← get
  pure o.position

def move (step : Nat) : OutputM Unit :=
  modify fun o => { o with position := o.position + step }

/-- `buffer[position++] = b`: the position has moved when the store throws. -/
def writeByte (b : Byte) : OutputM Unit := do
  let p ← getPosition
  move 1
  store p b

def writeLong (val : BitVec 64) : OutputM Unit := do
  let position ← getPosition
  store (position + 7) (val.setWidth 8)
  store (position + 6) ((val >>> 8).setWidth 8)
  store (position + 5) ((val >>> 16).setWidth 8)
  store (position + 4) ((val >>> 24).setWidth 8)
  store (position + 3) ((val >>> 32).setWidth 8)
  store (position + 2) ((val >>> 40).setWidth 8)
  store (position + 1) ((val >>> 48).setWidth 8)
  store position ((val >>> 56).setWidth 8)
  move 8

/-- `Float.floatToIntBits`: the bit pattern, except that every NaN becomes one. -/
def floatToIntBits (value : BitVec 32) : BitVec 32 :=
  if value &&& 0x7F800000 = 0x7F800000 ∧ value &&& 0x007FFFFF ≠ 0 then 0x7FC00000 else value

/-- `Double.doubleToLongBits`. -/
def doubleToLongBits (value : BitVec 64) : BitVec 64 :=
  if value &&& 0x7FF0000000000000 = 0x7FF0000000000000 ∧ value &&& 0x000FFFFFFFFFFFFF ≠ 0 then
    0x7FF8000000000000
  else value

theorem floatToIntBits_idem (value : BitVec 32) :
    floatToIntBits (floatToIntBits value) = floatToIntBits value := by
  by_cases h : value &&& 0x7F800000 = 0x7F800000 ∧ value &&& 0x007FFFFF ≠ 0
  · rw [show floatToIntBits value = 0x7FC00000 from if_pos h]
    rfl
  · rw [show floatToIntBits value = value from if_neg h, show floatToIntBits value = value from if_neg h]

theorem doubleToLongBits_idem (value : BitVec 64) :
    doubleToLongBits (doubleToLongBits value) = doubleToLongBits value := by
  by_cases h : value &&& 0x7FF0000000000000 = 0x7FF0000000000000 ∧ value &&& 0x000FFFFFFFFFFFFF ≠ 0
  · rw [show doubleToLongBits value = 0x7FF8000000000000 from if_pos h]
    rfl
  · rw [show doubleToLongBits value = value from if_neg h,
      show doubleToLongBits value = value from if_neg h]

def writeDouble (value : BitVec 64) : OutputM Unit :=
  writeLong (doubleToLongBits value)

def writeFloat (value : BitVec 32) : OutputM Unit := do
  let val := floatToIntBits value
  let position ← getPosition
  store (position + 3) (val.setWidth 8)
  store (position + 2) ((val >>> 8).setWidth 8)
  store (position + 1) ((val >>> 16).setWidth 8)
  store position ((val >>> 24).setWidth 8)
  move 4

def writeInt (val : BitVec 32) : OutputM Unit := do
  let position ← getPosition
  store (position + 3) (val.setWidth 8)
  store (position + 2) ((val >>> 8).setWidth 8)
  store (position + 1) ((val >>> 16).setWidth 8)
  store position ((val >>> 24).setWidth 8)
  move 4

def writeFixedInt32 (val : BitVec 32) : OutputM Unit :=
  writeInt val

def writeFixedInt64 (value : BitVec 64) : OutputM Unit :=
  writeLong value

/-- The loop of `writeUInt`, of which a 32-bit value takes at most five rounds. -/
def writeUIntLoop : Nat → BitVec 32 → OutputM Unit
  | 0, value => writeByte ((value &&& 0x7F#32).setWidth 8)
  | k + 1, value =>
    if value &&& 0xFFFFFF80#32 ≠ 0#32 then do
      writeByte ((value &&& 0x7F#32 ||| 0x80#32).setWidth 8)
      writeUIntLoop k (value >>> 7)
    else writeByte ((value &&& 0x7F#32).setWidth 8)

def writeUInt (value : BitVec 32) : OutputM Unit :=
  writeUIntLoop 4 value

def writeVarInt (value : BitVec 32) : OutputM Unit :=
  writeUInt (value <<< 1 ^^^ value.sshiftRight 31)

/-- The first `n` bytes, padded with zeros. -/
def resize (buffer : Bytes) (n : Nat) : Bytes :=
  buffer.take n ++ List.replicate (n - buffer.length) 0

/-- `Arrays.copyOf`. -/
def copyOf (buffer : Bytes) (newLength : Int) : OutputM Bytes :=
  if newLength < 0 then throw .negativeArraySize
  else pure (resize buffer newLength.toNat)

/-- The new length `ensureCapacity` asks for; all arithmetic is on `int`s. -/
def newCapacity (oldCapacity minCapacity : Int) : Int :=
  let newCapacity := int (2 * oldCapacity)
  let newCapacity := if newCapacity < 1024 * 16 then 1024 * 16 else newCapacity
  if newCapacity < minCapacity then int (2 * minCapacity) else newCapacity

def ensureCapacity (minCapacity : Int) : OutputM Unit := do
  let o ← get
  let minCapacity := int (minCapacity + o.position)
  if minCapacity > o.buffer.length then
    let buffer ← copyOf o.buffer (newCapacity o.buffer.length minCapacity)
    set { o with buffer := buffer }

/-- `new byte[position]` filled by `System.arraycopy`. -/
def toBytes : OutputM Bytes := do
  let o ← get
  if o.position ≤ o.buffer.length then pure (o.buffer.take o.position)
  else throw .arrayIndexOutOfBounds

/-- The character loop of `Builder.writeUTF16String`, which stores through
`getBuffer()`. -/
def writeChars (e : Endian) : Utf16 → OutputM Unit
  | [] => pure ()
  | ch :: rest => do
    let position ← getPosition
    match e with
    | .little =>
      store position (ch.setWidth 8)
      store (position + 1) ((ch >>> 8).setWidth 8)
    | .big =>
      store (position + 1) (ch.setWidth 8)
      store position ((ch >>> 8).setWidth 8)
    move 2
    writeChars e rest

/-! ## Appending -/

/-- `bs` stored at the position, and the position moved behind it. -/
def put (o : Output) (bs : Bytes) : Output where
  buffer := overwrite o.buffer o.position bs
  position := o.position + bs.length

@[simp] theorem put_buffer_length (o : Output) (bs : Bytes) :
    (o.put bs).buffer.length = o.buffer.length :=
  overwrite_length _ _ _

@[simp] theorem put_position (o : Output) (bs : Bytes) :
    (o.put bs).position = o.position + bs.length := rfl

theorem put_put (o : Output) (as bs : Bytes) : (o.put as).put bs = o.put (as ++ bs) := by
  simp only [put, overwrite_append, List.length_append, Nat.add_assoc]

theorem returns_store {o : Output} {i : Nat} (b : Byte) (h : i < o.buffer.length) :
    returns (store i b) o = some ((), { o with buffer := o.buffer.set i b }) := by
  unfold store
  rw [returns_bind, returns_get, Option.bind_some]
  show returns (if i < o.buffer.length then _ else _) o = _
  rw [if_pos h]
  rfl

theorem returns_store_eq_none {o : Output} {i : Nat} (b : Byte) (h : o.buffer.length ≤ i) :
    returns (store i b) o = none := by
  unfold store
  rw [returns_bind, returns_get, Option.bind_some]
  show returns (if i < o.buffer.length then _ else _) o = _
  rw [if_neg (by omega)]
  rfl

@[simp] theorem returns_getPosition (o : Output) :
    returns getPosition o = some (o.position, o) := rfl

@[simp] theorem returns_move (o : Output) (n : Nat) :
    returns (move n) o = some ((), { o with position := o.position + n }) := rfl

end Output

/-- `m` appends exactly `bs`, and throws when the array is too short for it. -/
def Appends (m : OutputM Unit) (bs : Bytes) : Prop :=
  ∀ o : Output, (bs = [] → o.position ≤ o.buffer.length) →
    returns m o
      = if o.position + bs.length ≤ o.buffer.length then some ((), o.put bs) else none

namespace Output

theorem appends_pure : Appends (pure ()) [] := by
  intro o ho
  rw [if_pos (by simpa using ho rfl)]
  rfl

theorem Appends.bind {m m' : OutputM Unit} {as bs : Bytes} (hne : as ≠ [])
    (hm : Appends m as) (hm' : Appends m' bs) :
    Appends (m >>= fun _ => m') (as ++ bs) := by
  intro o _
  rw [returns_bind, hm o (fun h => absurd h hne), List.length_append]
  by_cases has : o.position + as.length ≤ o.buffer.length
  · rw [if_pos has, Option.bind_some, hm' (o.put as) (fun _ => by simpa using has), put_put]
    simp only [put_position, put_buffer_length, Nat.add_assoc]
  · rw [if_neg has, if_neg (by omega)]
    rfl

theorem appends_writeByte (b : Byte) : Appends (writeByte b) [b] := by
  intro o _
  unfold writeByte
  simp only [returns_bind, returns_getPosition, returns_move, Option.bind_some,
    List.length_singleton]
  by_cases h : o.position < o.buffer.length
  · rw [returns_store (o := ⟨o.buffer, o.position + 1⟩) b h, if_pos (by omega)]
    rfl
  · rw [returns_store_eq_none (o := ⟨o.buffer, o.position + 1⟩) b (by simpa using h),
      if_neg (by omega)]

/-- `writeLong` stores the last byte first, so it throws before storing anything. -/
theorem appends_writeLong (val : BitVec 64) : Appends (writeLong val) (be64 val) := by
  intro o _
  unfold writeLong
  by_cases h : o.position + 8 ≤ o.buffer.length
  · simp (disch := ((try simp only [List.length_set]); omega)) only
      [returns_bind, returns_getPosition, returns_store, returns_move, Option.bind_some]
    rw [be64_length, if_pos h]
    rfl
  · rw [returns_bind, returns_getPosition, Option.bind_some, returns_bind,
      returns_store_eq_none _ (by simp only; omega), be64_length, if_neg h]
    rfl

/-- `writeInt`, too, stores the last byte first. -/
theorem appends_writeInt (val : BitVec 32) : Appends (writeInt val) (be32 val) := by
  intro o _
  unfold writeInt
  by_cases h : o.position + 4 ≤ o.buffer.length
  · simp (disch := ((try simp only [List.length_set]); omega)) only
      [returns_bind, returns_getPosition, returns_store, returns_move, Option.bind_some]
    rw [be32_length, if_pos h]
    rfl
  · rw [returns_bind, returns_getPosition, Option.bind_some, returns_bind,
      returns_store_eq_none _ (by simp only; omega), be32_length, if_neg h]
    rfl

/-- `writeFloat` repeats the body of `writeInt`. -/
theorem appends_writeFloat (value : BitVec 32) :
    Appends (writeFloat value) (be32 (floatToIntBits value)) :=
  appends_writeInt (floatToIntBits value)

theorem appends_writeDouble (value : BitVec 64) :
    Appends (writeDouble value) (be64 (doubleToLongBits value)) :=
  appends_writeLong _

theorem appends_writeUIntLoop (k : Nat) (value : BitVec 32) (h : value.toNat < 128 ^ (k + 1)) :
    Appends (writeUIntLoop k value) (encodeGroups k value.toNat) := by
  induction k generalizing value with
  | zero =>
    rw [writeUIntLoop, encodeGroups, setWidth_and_low]
    exact appends_writeByte _
  | succ k ih =>
    rw [writeUIntLoop, encodeGroups]
    by_cases hlt : value.toNat < 128
    · rw [if_neg (not_not.mpr ((and_high_eq_zero value).mpr hlt)), if_pos hlt, setWidth_and_low,
        Nat.mod_eq_of_lt hlt]
      exact appends_writeByte _
    · have hs := toNat_ushiftRight_seven value
      have ih := ih (value >>> 7) (by rw [hs]; exact div_lt_of_groups h)
      rw [if_pos (fun h0 => hlt ((and_high_eq_zero value).mp h0)), if_neg hlt,
        setWidth_and_low_or, ← hs]
      exact Appends.bind (List.cons_ne_nil _ _) (appends_writeByte _) ih

theorem appends_writeUInt (value : BitVec 32) :
    Appends (writeUInt value) (encode value.toNat) :=
  appends_writeUIntLoop 4 value (by have := value.isLt; omega)

theorem appends_writeVarInt (value : BitVec 32) :
    Appends (writeVarInt value) (encode (zigzag value).toNat) :=
  appends_writeUInt _

theorem appends_writeChars (e : Endian) :
    ∀ s : Utf16, Appends (writeChars e s) (units e s)
  | [] => appends_pure
  | ch :: rest => by
    intro o ho
    have ih := appends_writeChars e rest
    rw [writeChars, units_cons]
    by_cases h : o.position + 2 ≤ o.buffer.length
    · have hput : ∀ o' : Output, o' = o.put (unit e ch) →
          returns (writeChars e rest) o'
            = if o.position + (unit e ch ++ units e rest).length ≤ o.buffer.length then
                some ((), o.put (unit e ch ++ units e rest)) else none := by
        rintro _ rfl
        have hlen : (unit e ch).length = 2 := by cases e <;> rfl
        rw [ih (o.put (unit e ch)) (fun _ => by simpa [hlen] using h), put_put]
        simp only [put_position, put_buffer_length, List.length_append, hlen, Nat.add_assoc]
      cases e <;>
        simp (disch := ((try simp only [List.length_set]); omega)) only
          [returns_bind, returns_getPosition, returns_store, returns_move, Option.bind_some] <;>
        refine hput _ ?_
      · simp only [put, unit, overwrite, List.length_cons, List.length_nil]
        rw [List.set_comm _ _ (by omega)]
      · rfl
    · have hlen : (unit e ch ++ units e rest).length = 2 + 2 * rest.length := by
        rw [List.length_append, units_length]
        cases e <;> rfl
      rw [if_neg (by omega)]
      cases e with
      | little =>
        by_cases h₁ : o.position < o.buffer.length
        · simp only [returns_bind, returns_getPosition, Option.bind_some, returns_store _ h₁]
          rw [returns_store_eq_none _ (by simp only [List.length_set]; omega)]
          rfl
        · simp only [returns_bind, returns_getPosition, Option.bind_some]
          rw [returns_store_eq_none _ (by omega)]
          rfl
      | big =>
        simp only [returns_bind, returns_getPosition, Option.bind_some]
        rw [returns_store_eq_none _ (by omega)]
        rfl

/-! ## Growing -/

@[simp] theorem resize_length (buffer : Bytes) (n : Nat) : (resize buffer n).length = n := by
  simp only [resize, List.length_append, List.length_take, List.length_replicate]
  omega

theorem resize_self (buffer : Bytes) : resize buffer buffer.length = buffer := by
  simp [resize]

theorem take_resize {buffer : Bytes} {k n : Nat} (hk : k ≤ buffer.length) (hn : k ≤ n) :
    (resize buffer n).take k = buffer.take k := by
  rw [resize, List.take_append_of_le_length (by rw [List.length_take]; omega), List.take_take,
    Nat.min_eq_left hn]

/-- The array length after `ensureCapacity(request)`; negative when it throws. -/
def grown (capacity position request : Int) : Int :=
  let minCapacity := int (request + position)
  if minCapacity > capacity then newCapacity capacity minCapacity else capacity

/-- The state after `ensureCapacity(request)`, unless it asks for a negative length. -/
def grow (request : Int) (o : Output) : Option Output :=
  let length := grown o.buffer.length o.position request
  if length < 0 then none else some { o with buffer := resize o.buffer length.toNat }

theorem grow_of_neg {request : Int} {o : Output}
    (h : grown o.buffer.length o.position request < 0) : grow request o = none := by
  rw [grow]
  simp only [if_pos h]

theorem grow_of_not_neg {request : Int} {o : Output}
    (h : ¬ grown o.buffer.length o.position request < 0) : grow request o
      = some { o with buffer := resize o.buffer (grown o.buffer.length o.position request).toNat } := by
  rw [grow]
  simp only [if_neg h]

/-- Growing fails only by asking for a negative length, and then nothing has changed. -/
theorem ensureCapacity_eq (request : Int) (o : Output) : ensureCapacity request o =
    match grow request o with
    | some o' => .ok () o'
    | none => .error .negativeArraySize o := by
  have hrun : ensureCapacity request o = (if int (request + o.position) > o.buffer.length then do
      let buffer ← copyOf o.buffer (newCapacity o.buffer.length (int (request + o.position)))
      set { o with buffer := buffer } else pure () : OutputM Unit) o := rfl
  rw [hrun]
  unfold grow grown copyOf
  simp only
  generalize newCapacity o.buffer.length (int (request + o.position)) = length
  by_cases h : int (request + o.position) > o.buffer.length
  · rw [if_pos h, if_pos h]
    by_cases hneg : length < 0
    · rw [if_pos hneg, if_pos hneg]
      rfl
    · rw [if_neg hneg, if_neg hneg]
      rfl
  · rw [if_neg h, if_neg h, if_neg (by omega), Int.toNat_natCast, resize_self]
    rfl

theorem returns_ensureCapacity (request : Int) (o : Output) :
    returns (ensureCapacity request) o = (grow request o).map fun o' => ((), o') := by
  rw [returns, ensureCapacity_eq]
  cases grow request o <;> rfl

/-- A length that is asked for and not negative is large enough. -/
theorem le_newCapacity {old m : Int} (hm : 0 ≤ m) (hm' : m < 2 ^ 31)
    (h : 0 ≤ newCapacity old m) : m ≤ newCapacity old m := by
  have hdouble : 0 ≤ int (2 * m) → m ≤ int (2 * m) := by
    unfold int
    rw [Int.bmod_def]
    split <;> omega
  unfold newCapacity at h ⊢
  simp only at h ⊢
  generalize (if int (2 * old) < 1024 * 16 then 1024 * 16 else int (2 * old)) = c at h ⊢
  by_cases hc : c < m
  · rw [if_pos hc] at h ⊢
    exact hdouble h
  · rw [if_neg hc]
    omega

theorem newCapacity_lt (old m : Int) : newCapacity old m < 2 ^ 31 := by
  have h₁ := (int_range (2 * old)).2
  have h₂ := (int_range (2 * m)).2
  unfold newCapacity
  simp only
  split <;> split <;> omega

/-- An array that is not given up only grows. -/
theorem le_grown {capacity position request : Int} (h₀ : 0 ≤ capacity)
    (h : 0 ≤ grown capacity position request) : capacity ≤ grown capacity position request := by
  unfold grown at h ⊢
  simp only at h ⊢
  have hrange := int_range (request + position)
  by_cases hm : int (request + position) > capacity
  · rw [if_pos hm] at h ⊢
    have := le_newCapacity (by omega) hrange.2 h
    omega
  · rw [if_neg hm]

/-- A request below `2^30` is met: doubling it is not beyond the range of `int`. -/
theorem request_le_grown {capacity position request : Int} (h₀ : 0 ≤ request + position)
    (h : request + position < 2 ^ 30) : request + position ≤ grown capacity position request := by
  have hint : int (request + position) = request + position := int_of_fits (by omega) (by omega)
  unfold grown
  simp only [hint]
  by_cases hm : request + position > capacity
  · rw [if_pos hm]
    refine le_newCapacity h₀ (by omega) ?_
    unfold newCapacity
    simp only
    have hdouble := int_of_fits (x := 2 * (request + position)) (by omega) (by omega)
    split <;> split <;> omega
  · rw [if_neg hm]
    omega

/-- An array of `2^31 - 1` bytes, the most there can be, never grows. -/
theorem grown_largest {capacity : Int} (h : 2 ^ 31 - 1 ≤ capacity) (position request : Int) :
    grown capacity position request = capacity := by
  have hint := (int_range (request + position)).2
  unfold grown
  simp only
  rw [if_neg (by omega)]

/-- Nor does a longer one. -/
theorem grown_large (position request : Int) : grown (2 ^ 31) position request = 2 ^ 31 :=
  grown_largest (by decide) position request

theorem grown_lt {capacity : Int} (position request : Int) (h : capacity < 2 ^ 31) :
    grown capacity position request < 2 ^ 31 := by
  unfold grown
  simp only
  split
  · exact newCapacity_lt _ _
  · exact h

/-- The bytes written so far. -/
def written (o : Output) : Bytes :=
  o.buffer.take o.position

/-- The position is inside the array, and the array is one Java can have. -/
structure Valid (o : Output) : Prop where
  inside : o.position ≤ o.buffer.length
  small : o.buffer.length < 2 ^ 31

theorem Valid.written_length {o : Output} (hv : o.Valid) : o.written.length = o.position := by
  rw [written, List.length_take]
  exact Nat.min_eq_left hv.inside

theorem grow_eq_some {request : Int} {o o' : Output} (h : grow request o = some o') :
    0 ≤ grown o.buffer.length o.position request ∧
      o' = { o with
        buffer := resize o.buffer (grown o.buffer.length o.position request).toNat } := by
  unfold grow at h
  simp only at h
  by_cases hneg : grown o.buffer.length o.position request < 0
  · rw [if_pos hneg] at h
    exact absurd h (by simp)
  · rw [if_neg hneg, Option.some.injEq] at h
    exact ⟨not_lt.mp hneg, h.symm⟩

theorem grow_zero {o : Output} (hv : o.Valid) : grow 0 o = some o := by
  have hin := hv.inside
  have hsmall := hv.small
  have hgrown : grown o.buffer.length o.position 0 = o.buffer.length := by
    unfold grown
    simp only
    rw [zero_add, int_of_fits (by omega) (by omega), if_neg (by omega)]
  rw [grow_of_not_neg (by omega), hgrown, Int.toNat_natCast, resize_self]

/-- An array of `2^31 - 1` bytes or more is never replaced. -/
theorem grow_largest {o : Output} (h : 2 ^ 31 - 1 ≤ o.buffer.length) (request : Int) :
    grow request o = some o := by
  have hgrown : grown o.buffer.length o.position request = o.buffer.length :=
    grown_largest (by omega) _ _
  rw [grow_of_not_neg (by omega), hgrown, Int.toNat_natCast, resize_self]

theorem grow_large {o : Output} (h : o.buffer.length = 2 ^ 31) (request : Int) : grow request o = some o :=
  grow_largest (by omega) request

/-- Growing keeps the position and the bytes written so far. -/
theorem grow_spec {request : Int} {o o' : Output} (hv : o.Valid) (h : grow request o = some o') :
    o'.Valid ∧ o'.position = o.position ∧ o'.written = o.written := by
  obtain ⟨hnonneg, rfl⟩ := grow_eq_some h
  have hle := le_grown (Int.natCast_nonneg _) hnonneg
  have hlt : grown o.buffer.length o.position request < 2 ^ 31 :=
    grown_lt _ _ (by have := hv.small; omega)
  have hin := hv.inside
  refine ⟨⟨?_, ?_⟩, rfl, ?_⟩
  · simp only [resize_length]
    omega
  · simp only [resize_length]
    omega
  · exact take_resize hv.inside (show o.position ≤ _ by omega)

/-! ## Chunks -/

/-- One `ensureCapacity` call and the bytes stored after it. -/
structure Chunk where
  request : Int
  bytes : Bytes
  deriving DecidableEq, Repr

/-- Grow for a chunk and store it. -/
def accept (o : Output) (c : Chunk) : Option Output :=
  (grow c.request o).bind fun o' =>
    if o'.position + c.bytes.length ≤ o'.buffer.length then some (o'.put c.bytes) else none

/-- Write the chunks one after the other. -/
def play (o : Output) (cs : List Chunk) : Option Output :=
  cs.foldlM accept o

theorem returns_chunk {m : OutputM Unit} {request : Int} {bytes : Bytes}
    (hm : Appends m bytes) (hne : bytes ≠ []) (o : Output) :
    returns (ensureCapacity request >>= fun _ => m) o
      = (accept o ⟨request, bytes⟩).map fun o' => ((), o') := by
  unfold accept
  rw [returns_bind, returns_ensureCapacity]
  cases grow request o with
  | none => rfl
  | some o' =>
    show returns m o' = Option.map _ (if _ then _ else _)
    rw [hm o' (fun h => absurd h hne)]
    split <;> rfl

@[simp] theorem play_nil (o : Output) : play o [] = some o := rfl

theorem play_cons (o : Output) (c : Chunk) (cs : List Chunk) :
    play o (c :: cs) = (accept o c).bind fun o' => play o' cs := rfl

theorem play_append (o : Output) (cs ds : List Chunk) :
    play o (cs ++ ds) = (play o cs).bind fun o' => play o' ds := by
  unfold play
  rw [List.foldlM_append]
  rfl

/-- The bytes of a list of chunks. -/
def chunkBytes (cs : List Chunk) : Bytes :=
  cs.flatMap Chunk.bytes

@[simp] theorem chunkBytes_nil : chunkBytes [] = [] := rfl

@[simp] theorem chunkBytes_cons (c : Chunk) (cs : List Chunk) :
    chunkBytes (c :: cs) = c.bytes ++ chunkBytes cs := rfl

@[simp] theorem chunkBytes_append (cs ds : List Chunk) :
    chunkBytes (cs ++ ds) = chunkBytes cs ++ chunkBytes ds := by
  simp [chunkBytes]

theorem accept_eq_some {o o' : Output} {c : Chunk} (h : accept o c = some o') :
    ∃ g, grow c.request o = some g ∧ g.position + c.bytes.length ≤ g.buffer.length ∧
      o' = g.put c.bytes := by
  obtain ⟨g, hg, hput⟩ := Option.bind_eq_some_iff.mp h
  by_cases hroom : g.position + c.bytes.length ≤ g.buffer.length
  · rw [if_pos hroom, Option.some.injEq] at hput
    exact ⟨g, hg, hroom, hput.symm⟩
  · rw [if_neg hroom] at hput
    exact absurd hput (by simp)

theorem accept_spec {o o' : Output} {c : Chunk} (hv : o.Valid) (h : accept o c = some o') :
    o'.Valid ∧ o'.written = o.written ++ c.bytes ∧
      o'.position = o.position + c.bytes.length := by
  obtain ⟨g, hg, hroom, rfl⟩ := accept_eq_some h
  obtain ⟨hgv, hpos, hwritten⟩ := grow_spec hv hg
  refine ⟨⟨by simpa using hroom, by simpa using hgv.small⟩, ?_, by simp [hpos]⟩
  show (overwrite _ _ _).take (g.position + c.bytes.length) = _
  rw [take_overwrite_end _ _ hroom, ← hwritten]
  rfl

/-- **A writer appends**: what playing chunks adds to the written bytes. -/
theorem play_spec {cs : List Chunk} :
    ∀ {o o' : Output}, o.Valid → play o cs = some o' →
      o'.Valid ∧ o'.written = o.written ++ chunkBytes cs ∧
        o'.position = o.position + (chunkBytes cs).length := by
  induction cs with
  | nil =>
    intro o o' hv h
    obtain rfl : o = o' := by simpa using h
    exact ⟨hv, by simp, by simp⟩
  | cons c cs ih =>
    intro o o' hv h
    rw [play_cons] at h
    obtain ⟨m, hm, hrest⟩ := Option.bind_eq_some_iff.mp h
    obtain ⟨hmv, hmw, hmp⟩ := accept_spec hv hm
    obtain ⟨hv', hw, hp⟩ := ih hmv hrest
    refine ⟨hv', ?_, ?_⟩
    · rw [hw, hmw, chunkBytes_cons, List.append_assoc]
    · rw [hp, hmp, chunkBytes_cons, List.length_append]
      omega

/-- Where playing chunks ends, from any state: inside the array once something is stored. -/
theorem play_position : ∀ {cs : List Chunk} {o o' : Output}, play o cs = some o' →
    o'.position = o.position + (chunkBytes cs).length ∧
      (cs ≠ [] → o'.position ≤ o'.buffer.length)
  | [], o, o', h => by
    obtain rfl : o = o' := by simpa using h
    exact ⟨by simp, fun h => absurd rfl h⟩
  | c :: cs, o, o', h => by
    rw [play_cons] at h
    obtain ⟨o₁, h₁, h₂⟩ := Option.bind_eq_some_iff.mp h
    obtain ⟨g, hg, hroom, rfl⟩ := accept_eq_some h₁
    have hpos : g.position = o.position := by
      unfold grow at hg
      simp only at hg
      split at hg
      · exact nomatch hg
      · obtain rfl := Option.some.inj hg
        rfl
    obtain ⟨hp, hin⟩ := play_position h₂
    refine ⟨?_, fun _ => ?_⟩
    · rw [hp, put_position, hpos, chunkBytes_cons, List.length_append]
      omega
    · cases cs with
      | nil =>
        obtain rfl : _ = o' := by simpa using h₂
        simpa using hroom
      | cons c' cs => exact hin (by simp)

/-- The length of such an array stays as it is. -/
theorem play_largest {cs : List Chunk} : ∀ {o o' : Output}, 2 ^ 31 - 1 ≤ o.buffer.length →
    play o cs = some o' → o'.buffer.length = o.buffer.length := by
  induction cs with
  | nil =>
    intro o o' _ h
    obtain rfl : o = o' := by simpa using h
    rfl
  | cons c cs ih =>
    intro o o' hlarge h
    rw [play_cons] at h
    obtain ⟨m, hm, hrest⟩ := Option.bind_eq_some_iff.mp h
    obtain ⟨g, hg, -, rfl⟩ := accept_eq_some hm
    obtain rfl := Option.some.inj ((grow_largest hlarge c.request).symm.trans hg)
    rw [ih (by simpa using hlarge) hrest, put_buffer_length]

/-- Whether no `ensureCapacity` call made while `cs` is written asks for a negative
length, and every store falls inside the array. -/
def fits : List Chunk → Int → Int → Bool
  | [], _, _ => true
  | c :: cs, capacity, position =>
    let capacity := grown capacity position c.request
    0 ≤ capacity && position + c.bytes.length ≤ capacity &&
      fits cs capacity (position + c.bytes.length)

/-- Whether chunks can be written depends only on the array length and the position. -/
theorem play_isSome {cs : List Chunk} :
    ∀ o : Output, (play o cs).isSome = fits cs o.buffer.length o.position := by
  induction cs with
  | nil => intro o; rfl
  | cons c cs ih =>
    intro o
    rw [play_cons, fits]
    unfold accept grow
    generalize hlen : grown o.buffer.length o.position c.request = len
    by_cases hneg : len < 0
    · simp [if_pos hneg, not_le.mpr hneg]
    · obtain ⟨n, rfl⟩ := Int.eq_ofNat_of_zero_le (not_lt.mp hneg)
      simp only [if_neg hneg, Option.bind_some, resize_length, Int.toNat_natCast]
      by_cases hroom : o.position + c.bytes.length ≤ n
      · have hroom' : ((o.position : Int) + c.bytes.length ≤ n) := by omega
        rw [if_pos hroom, Option.bind_some, ih]
        simp only [put_buffer_length, resize_length, put_position, Nat.cast_add, hroom',
          Int.natCast_nonneg, decide_true, Bool.and_self, Bool.true_and]
      · have hroom' : ¬ ((o.position : Int) + c.bytes.length ≤ n) := by omega
        rw [if_neg hroom]
        simp [hroom']

/-- Chunks whose requests exceed their bytes by little fit while the total stays below
`2^30`: doubling is then never beyond the range of `int`. -/
theorem fits_of_small {slack : Nat} :
    ∀ {cs : List Chunk} {capacity position : Int}, 0 ≤ position → 0 ≤ capacity →
      capacity < 2 ^ 31 →
      (∀ c ∈ cs, (c.bytes.length : Int) ≤ c.request ∧ c.request ≤ c.bytes.length + slack) →
      position + (chunkBytes cs).length + slack < 2 ^ 30 → fits cs capacity position
  | [], _, _, _, _, _, _, _ => rfl
  | c :: cs, capacity, position, hp, hc₀, hc, hcs, htotal => by
    obtain ⟨hle, hslack⟩ := hcs c List.mem_cons_self
    rw [chunkBytes_cons, List.length_append] at htotal
    have hlarge : c.request + position ≤ grown capacity position c.request :=
      request_le_grown (by omega) (by omega)
    have ih : fits cs (grown capacity position c.request) (position + c.bytes.length) :=
      fits_of_small (by omega) (by omega) (grown_lt _ _ hc)
        (fun d hd => hcs d (List.mem_cons_of_mem c hd)) (by push_cast at htotal; omega)
    rw [fits]
    simp only [ih, Bool.and_true, Bool.and_eq_true, decide_eq_true_eq]
    omega

/-- An array of `2^31` bytes takes that many. -/
theorem fits_large {cs : List Chunk} {position : Int} (hp : 0 ≤ position)
    (h : position + (chunkBytes cs).length ≤ 2 ^ 31) : fits cs (2 ^ 31) position := by
  induction cs generalizing position with
  | nil => rfl
  | cons c cs ih =>
    rw [chunkBytes_cons, List.length_append] at h
    push_cast at h
    have hrest := @ih (position + c.bytes.length) (by omega) (by omega)
    rw [fits, grown_large]
    simp only [hrest, Bool.and_true, Bool.and_eq_true, decide_eq_true_eq]
    exact ⟨by decide, by omega⟩

/-! ## The position never moves back -/

/-- The position has not moved back, and the array is no longer than an array can be. -/
structure Ahead (o o' : Output) : Prop where
  position : o.position ≤ o'.position
  small : o.buffer.length < 2 ^ 31 → o'.buffer.length < 2 ^ 31

theorem Ahead.refl (o : Output) : Ahead o o :=
  ⟨Nat.le_refl _, id⟩

theorem Ahead.trans ⦃o o' o'' : Output⦄ (h : Ahead o o') (h' : Ahead o' o'') : Ahead o o'' :=
  ⟨h.position.trans h'.position, h'.small ∘ h.small⟩

/-- However `m` ends, its last state is ahead of its first. -/
def Advances {α : Type} (m : OutputM α) : Prop :=
  Preserves Ahead m

theorem Advances.bind {α β : Type} {m : OutputM α} {f : α → OutputM β} (hm : Advances m)
    (hf : ∀ a, Advances (f a)) : Advances (m >>= f) :=
  Preserves.bind Ahead.trans hm hf

theorem advances_pure : Advances (pure ()) :=
  preserves_pure Ahead.refl ()

theorem advances_store (i : Nat) (b : Byte) : Advances (store i b) := by
  intro o
  show Ahead o (final (if i < o.buffer.length then set _ else _) o)
  split
  · refine ⟨Nat.le_refl _, fun h => ?_⟩
    show (o.buffer.set i b).length < 2 ^ 31
    rwa [List.length_set]
  · exact Ahead.refl o

theorem advances_getPosition : Advances getPosition :=
  Ahead.refl

theorem advances_move (n : Nat) : Advances (move n) :=
  fun _ => ⟨Nat.le_add_right _ _, id⟩

theorem advances_ensureCapacity (n : Int) : Advances (ensureCapacity n) := by
  intro o
  rw [final, ensureCapacity_eq]
  cases h : grow n o with
  | none => exact Ahead.refl o
  | some o' =>
    unfold grow at h
    simp only at h
    split at h
    · cases h
    · obtain rfl := Option.some.inj h
      refine ⟨Nat.le_refl _, fun hsmall => ?_⟩
      have := grown_lt o.position n (show (o.buffer.length : Int) < 2 ^ 31 by omega)
      simp only [resize_length]
      omega

theorem advances_writeByte (b : Byte) : Advances (writeByte b) :=
  advances_getPosition.bind fun p => (advances_move 1).bind fun _ => advances_store p b

theorem advances_writeLong (val : BitVec 64) : Advances (writeLong val) :=
  advances_getPosition.bind fun _ => (advances_store _ _).bind fun _ =>
    (advances_store _ _).bind fun _ => (advances_store _ _).bind fun _ =>
    (advances_store _ _).bind fun _ => (advances_store _ _).bind fun _ =>
    (advances_store _ _).bind fun _ => (advances_store _ _).bind fun _ =>
    (advances_store _ _).bind fun _ => advances_move 8

theorem advances_writeFloat (value : BitVec 32) : Advances (writeFloat value) :=
  advances_getPosition.bind fun _ => (advances_store _ _).bind fun _ =>
    (advances_store _ _).bind fun _ => (advances_store _ _).bind fun _ =>
    (advances_store _ _).bind fun _ => advances_move 4

theorem advances_writeUIntLoop :
    ∀ (k : Nat) (value : BitVec 32), Advances (writeUIntLoop k value)
  | 0, _ => advances_writeByte _
  | k + 1, _ =>
    Preserves.ite ((advances_writeByte _).bind fun _ => advances_writeUIntLoop k _)
      (advances_writeByte _)

theorem advances_writeUInt (value : BitVec 32) : Advances (writeUInt value) :=
  advances_writeUIntLoop 4 value

theorem advances_writeChars (e : Endian) : ∀ s : Utf16, Advances (writeChars e s)
  | [] => advances_pure
  | _ :: rest => by
    refine advances_getPosition.bind fun p => ?_
    cases e with
    | little =>
      exact (advances_store _ _).bind fun _ => (advances_store _ _).bind fun _ =>
        (advances_move 2).bind fun _ => advances_writeChars .little rest
    | big =>
      exact (advances_store _ _).bind fun _ => (advances_store _ _).bind fun _ =>
        (advances_move 2).bind fun _ => advances_writeChars .big rest

theorem writeChars_cons (e : Endian) (ch : Char16) (rest : Utf16) :
    writeChars e (ch :: rest) = (writeChars e [ch] >>= fun _ => writeChars e rest) := by
  cases e <;> simp [writeChars, bind_assoc]

/-- A loop over characters that runs out of the array has come to its end. -/
theorem le_position_writeChars (e : Endian) (s : Utf16) (o : Output) :
    min (o.position + 2 * s.length) (o.buffer.length - 1)
      ≤ (final (writeChars e s) o).position := by
  induction s generalizing o with
  | nil => exact Nat.min_le_left _ _
  | cons ch rest ih =>
    by_cases h : o.position + 2 ≤ o.buffer.length
    · have hlen : (units e [ch]).length = 2 := by
        rw [units_length]
        rfl
      have hone := appends_writeChars e [ch] o fun _ => by omega
      rw [hlen, if_pos h, returns_eq_some] at hone
      have ih := ih (o.put (units e [ch]))
      rw [put_position, put_buffer_length, hlen] at ih
      rw [writeChars_cons, final, bind_of_ok hone, ← final, List.length_cons]
      omega
    · have hkept := (advances_writeChars e (ch :: rest) o).position
      omega

end Output

end Wson.Java
