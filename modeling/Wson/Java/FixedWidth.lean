import Wson.Java.Input
import Wson.Java.Output

/-!
# Fixed-width values

What `Input` makes of the 32-bit and 64-bit values that `Output` has written, in
any order, at any offset.

- `Fixed.write`, `Kind.read`: one call and the matching one on the other side.
- `decodeInt`: the sum `readInt` forms of signed bytes. It is the word that was
  written exactly where none of its three lower bytes has its top bit set
  (`decodeInt_eq_iff`): a byte that counts as negative borrows from the ones above.
- `restored_iff`: hence the sequences that are read back.
-/

namespace Wson.Java

open Effect Wire Input

/-! ## What `readInt` reads -/

/-- The number `readInt` makes of the four bytes of `x`. -/
def decodeInt (x : BitVec 32) : BitVec 32 :=
  (x.setWidth 8).signExtend 32 + ((x >>> 8).setWidth 8).signExtend 32 <<< 8 +
    ((x >>> 16).setWidth 8).signExtend 32 <<< 16 + ((x >>> 24).setWidth 8).signExtend 32 <<< 24

/-- A byte widened with its sign: `256` less where the top bit is set. -/
theorem toNat_signExtend_byte (b : Byte) :
    (b.signExtend 32).toNat = b.toNat + if 128 ≤ b.toNat then 2 ^ 32 - 2 ^ 8 else 0 := by
  revert b
  decide

theorem sum_signExtend_iff (b₀ b₁ b₂ b₃ : Byte) :
    b₃.signExtend 32 + b₂.signExtend 32 <<< 8 + b₁.signExtend 32 <<< 16 + b₀.signExtend 32 <<< 24
        = BitVec.ofNat 32 (beNat [b₀, b₁, b₂, b₃]) ↔
      b₁.toNat < 128 ∧ b₂.toNat < 128 ∧ b₃.toNat < 128 := by
  have h₀ := b₀.isLt
  have h₁ := b₁.isLt
  have h₂ := b₂.isLt
  have h₃ := b₃.isLt
  rw [← BitVec.toNat_inj]
  simp only [BitVec.toNat_add, BitVec.toNat_shiftLeft, toNat_signExtend_byte,
    BitVec.toNat_ofNat, Nat.shiftLeft_eq, beNat, List.foldl_cons, List.foldl_nil]
  -- what a set top bit takes away is not made up for by the other bytes
  by_cases c₁ : 128 ≤ b₁.toNat <;> by_cases c₂ : 128 ≤ b₂.toNat <;>
    by_cases c₃ : 128 ≤ b₃.toNat <;> by_cases c₀ : 128 ≤ b₀.toNat <;>
    simp only [c₀, c₁, c₂, c₃, if_true, if_false] <;> omega

/-- No byte of `x` but the first one is negative as a Java byte. -/
def LowBytesPositive (x : BitVec 32) : Prop :=
  x &&& 0x00808080 = 0

instance (x : BitVec 32) : Decidable (LowBytesPositive x) :=
  inferInstanceAs (Decidable (_ = _))

theorem toNat_byte_lt_iff (x : BitVec 32) (k : Nat) :
    ((x >>> k).setWidth 8).toNat < 128 ↔ x.getLsbD (k + 7) = false := by
  have hmsb := BitVec.msb_eq_decide ((x >>> k).setWidth 8)
  rw [BitVec.msb_eq_getLsbD_last, BitVec.getLsbD_setWidth, BitVec.getLsbD_ushiftRight] at hmsb
  simp only [show (8 - 1 < 8) from by decide, decide_true, Bool.true_and] at hmsb
  rw [show k + 7 = k + (8 - 1) from rfl, hmsb, decide_eq_false_iff_not]
  omega

theorem lowBytesPositive_iff (x : BitVec 32) : LowBytesPositive x ↔
    ((x >>> 16).setWidth 8).toNat < 128 ∧ ((x >>> 8).setWidth 8).toNat < 128 ∧
      (x.setWidth 8).toNat < 128 := by
  have hzero : x = x >>> 0 := (BitVec.ushiftRight_zero x).symm
  rw [toNat_byte_lt_iff x 16, toNat_byte_lt_iff x 8, hzero, toNat_byte_lt_iff x 0, ← hzero]
  constructor
  · intro h
    have hbit (i : Nat) : (x &&& 0x00808080).getLsbD i = false := by
      rw [show x &&& 0x00808080 = 0 from h]
      simp
    refine ⟨?_, ?_, ?_⟩
    · simpa using hbit 23
    · simpa using hbit 15
    · simpa using hbit 7
  · rintro ⟨h₂, h₁, h₀⟩
    apply BitVec.eq_of_getLsbD_eq
    intro i hi
    rw [BitVec.getLsbD_and]
    interval_cases i <;> simp_all

theorem decodeInt_eq_iff (x : BitVec 32) : decodeInt x = x ↔ LowBytesPositive x := by
  have hsum := sum_signExtend_iff ((x >>> 24).setWidth 8) ((x >>> 16).setWidth 8)
    ((x >>> 8).setWidth 8) (x.setWidth 8)
  rw [show [(x >>> 24).setWidth 8, (x >>> 16).setWidth 8, (x >>> 8).setWidth 8, x.setWidth 8]
    = be32 x from rfl, ofNat_beNat_be32] at hsum
  rw [lowBytesPositive_iff, ← hsum]
  rfl

theorem consumes_readInt {buffer : Bytes} (x : BitVec 32) :
    Consumes buffer At (returns (readInt buffer)) (be32 x) (decodeInt x) := by
  intro s p rest hs hd
  have hload (j : Nat) {b : Byte} (hb : (be32 x)[j]? = some b) := returns_load hd hb s
  refine ⟨{ s with position := s.position + 4 }, ?_, ?_⟩
  · have hpos : s.position = p := hs
    have h₀ := hload 0 rfl
    rw [Nat.cast_zero, add_zero] at h₀
    have h₁ : returns (load buffer (p + 1)) s = some ((x >>> 16).setWidth 8, s) := hload 1 rfl
    have h₂ : returns (load buffer (p + 2)) s = some ((x >>> 8).setWidth 8, s) := hload 2 rfl
    have h₃ : returns (load buffer (p + 3)) s = some (x.setWidth 8, s) := hload 3 rfl
    simp only [readInt, returns_bind, returns_getPosition, Option.bind_some, hpos,
      h₀, h₁, h₂, h₃, returns_move, returns_pure]
    rfl
  · show s.position + 4 = ((p + 4 : Nat) : Int)
    rw [hs, Nat.cast_add]
    rfl

/-! ## Sequences of calls -/

/-- The value given to one of the writing methods; a float as its bits. -/
inductive Fixed where
  | int (val : BitVec 32)
  | fixedInt32 (val : BitVec 32)
  | long (val : BitVec 64)
  | fixedInt64 (val : BitVec 64)
  | float (bits : BitVec 32)
  deriving DecidableEq, Repr

namespace Fixed

/-- Which method reads the value. -/
inductive Kind where
  | int
  | fixedInt32
  | long
  | fixedInt64
  | float
  deriving DecidableEq, Repr

def kind : Fixed → Kind
  | .int _ => .int
  | .fixedInt32 _ => .fixedInt32
  | .long _ => .long
  | .fixedInt64 _ => .fixedInt64
  | .float _ => .float

def write : Fixed → OutputM Unit
  | .int val => Output.writeInt val
  | .fixedInt32 val => Output.writeFixedInt32 val
  | .long val => Output.writeLong val
  | .fixedInt64 val => Output.writeFixedInt64 val
  | .float bits => Output.writeFloat bits

def read (buffer : Bytes) : Kind → ParserM Fixed
  | .int => do return .int (← readInt buffer)
  | .fixedInt32 => do return .fixedInt32 (← readFixedInt32 buffer)
  | .long => do return .long (← readLong buffer)
  | .fixedInt64 => do return .fixedInt64 (← readFixedInt64 buffer)
  | .float => do return .float (← readFloat buffer)

def writeAll : List Fixed → OutputM Unit
  | [] => pure ()
  | f :: fs => do
    f.write
    writeAll fs

def readAll (buffer : Bytes) : List Kind → ParserM (List Fixed)
  | [] => pure []
  | k :: ks => do
    let f ← read buffer k
    let fs ← readAll buffer ks
    pure (f :: fs)

def width : Fixed → Nat
  | .int _ | .fixedInt32 _ | .float _ => 4
  | .long _ | .fixedInt64 _ => 8

/-- The value up to the payload of a NaN. -/
def canonical : Fixed → Fixed
  | .float bits => .float (Output.floatToIntBits bits)
  | f => f

/-- The bytes the format has for the value, big endian. -/
def bytes : Fixed → Bytes
  | .int val => be32 val
  | .fixedInt32 val => be32 val
  | .long val => be64 val
  | .fixedInt64 val => be64 val
  | .float bits => be32 (Output.floatToIntBits bits)

/-- The value that is read where `f` has been written. -/
def decoded : Fixed → Fixed
  | .int val => .int (decodeInt val)
  | .fixedInt32 val => .fixedInt32 (decodeInt val)
  | f => f.canonical

/-- All that is needed for the value to be read back. -/
def Kept : Fixed → Prop
  | .int val => LowBytesPositive val
  | .fixedInt32 val => LowBytesPositive val
  | _ => True

instance : DecidablePred Kept
  | .int val => inferInstanceAs (Decidable (LowBytesPositive val))
  | .fixedInt32 val => inferInstanceAs (Decidable (LowBytesPositive val))
  | .long _ | .fixedInt64 _ | .float _ => isTrue trivial

theorem decoded_eq_iff (f : Fixed) : f.decoded = f.canonical ↔ f.Kept := by
  cases f with
  | int val => simpa [decoded, canonical, Kept] using decodeInt_eq_iff val
  | fixedInt32 val => simpa [decoded, canonical, Kept] using decodeInt_eq_iff val
  | long val => exact iff_of_true rfl trivial
  | fixedInt64 val => exact iff_of_true rfl trivial
  | float bits => exact iff_of_true rfl trivial

theorem bytes_ne_nil (f : Fixed) : f.bytes ≠ [] := by
  cases f <;> exact List.cons_ne_nil _ _

theorem appends_write (f : Fixed) : Appends f.write f.bytes := by
  cases f with
  | int val => exact Output.appends_writeInt val
  | fixedInt32 val => exact Output.appends_writeInt val
  | long val => exact Output.appends_writeLong val
  | fixedInt64 val => exact Output.appends_writeLong val
  | float bits => exact Output.appends_writeFloat bits

theorem consumes_read {buffer : Bytes} (f : Fixed) :
    Consumes buffer At (returns (read buffer f.kind)) f.bytes f.decoded := by
  cases f with
  | int val => exact consumes_wrap (consumes_readInt val)
  | fixedInt32 val => exact consumes_wrap (consumes_readInt val)
  | long val => exact consumes_wrap (consumes_readLong val)
  | fixedInt64 val => exact consumes_wrap (consumes_readLong val)
  | float bits => exact consumes_wrap (consumes_readFloat _)

theorem appends_writeAll (fs : List Fixed) : Appends (writeAll fs) (fs.flatMap bytes) := by
  induction fs with
  | nil => exact Output.appends_pure
  | cons f fs ih =>
    rw [List.flatMap_cons]
    exact Output.Appends.bind f.bytes_ne_nil f.appends_write ih

theorem consumes_readAll {buffer : Bytes} (fs : List Fixed) :
    Consumes buffer At (returns (readAll buffer (fs.map kind))) (fs.flatMap bytes)
      (fs.map decoded) := by
  induction fs with
  | nil => exact consumes_pure _
  | cons f fs ih =>
    rw [List.map_cons, readAll, returns_bind_eq, List.flatMap_cons]
    refine f.consumes_read.bind ?_
    exact consumes_wrap ih

theorem length_flatMap_bytes (fs : List Fixed) :
    (fs.flatMap bytes).length = (fs.map width).sum := by
  induction fs with
  | nil => rfl
  | cons f fs ih =>
    rw [List.flatMap_cons, List.length_append, ih, List.map_cons, List.sum_cons]
    congr 1
    cases f <;> rfl

/-! ## Round trips -/

/-- Written anywhere in an array with room, and among any bytes, the values are read back,
and the reader has moved as far as the writer. -/
def Restored (fs : List Fixed) : Prop :=
  ∀ (o : Output) (s : Parser), o.position + (fs.map width).sum ≤ o.buffer.length →
    s.position = o.position →
    ∃ o' s', returns (writeAll fs) o = some ((), o') ∧
      o'.position = o.position + (fs.map width).sum ∧
      o'.buffer.take o.position = o.buffer.take o.position ∧
      o'.buffer.drop o'.position = o.buffer.drop o'.position ∧
      returns (readAll o'.buffer (fs.map kind)) s = some (fs.map canonical, s') ∧
      s'.position = o'.position

/-- What a run of writes and the matching run of reads do, whatever is read. -/
theorem returns_writeAll_readAll (fs : List Fixed) {o : Output} {s : Parser}
    (hroom : o.position + (fs.map width).sum ≤ o.buffer.length) (hs : s.position = o.position) :
    ∃ s', returns (writeAll fs) o = some ((), o.put (fs.flatMap bytes)) ∧
      returns (readAll (o.put (fs.flatMap bytes)).buffer (fs.map kind)) s
        = some (fs.map decoded, s') ∧
      s'.position = (o.put (fs.flatMap bytes)).position := by
  have hlen := length_flatMap_bytes fs
  have hwrite := appends_writeAll fs o fun _ => by omega
  rw [if_pos (by omega)] at hwrite
  have hdrop : (o.put (fs.flatMap bytes)).buffer.drop o.position
      = fs.flatMap bytes ++ o.buffer.drop (o.position + (fs.flatMap bytes).length) := by
    have htake := take_overwrite_end o.buffer (p := o.position) (fs.flatMap bytes) (by omega)
    have hrest := drop_overwrite_end o.buffer (p := o.position) (fs.flatMap bytes)
    rw [← List.take_append_drop (o.position + (fs.flatMap bytes).length)
      (o.put (fs.flatMap bytes)).buffer]
    rw [Output.put, htake, hrest, List.append_assoc, List.drop_append_of_le_length (by
      rw [List.length_take]; omega), List.drop_of_length_le (by rw [List.length_take]; omega),
      List.nil_append]
  obtain ⟨s', hread, hpos⟩ := consumes_readAll fs s o.position _ hs hdrop
  exact ⟨s', hwrite, hread, hpos⟩

/-- **Which sequences are restored**: those in which every 32-bit integer has three lower
bytes without the top bit. -/
theorem restored_iff (fs : List Fixed) : Restored fs ↔ ∀ f ∈ fs, f.Kept := by
  have hdecoded : fs.map decoded = fs.map canonical ↔ ∀ f ∈ fs, f.Kept := by
    rw [List.map_inj_left]
    exact forall₂_congr fun f _ => f.decoded_eq_iff
  rw [← hdecoded]
  constructor
  · intro h
    -- an array that is just long enough
    have hroom : 0 + (fs.map width).sum ≤ (List.replicate (fs.map width).sum (0 : Byte)).length := by
      simp
    obtain ⟨o', s', hw, -, -, -, hr, -⟩ := h ⟨_, 0⟩ ⟨0, fun _ => none⟩ hroom rfl
    -- what is read is what the written bytes decode to
    obtain ⟨t, hw', hr', -⟩ :=
      returns_writeAll_readAll (s := ⟨0, fun _ => none⟩) fs (o := ⟨_, 0⟩) hroom rfl
    obtain ⟨-, rfl⟩ := Prod.mk.inj (Option.some.inj (hw'.symm.trans hw))
    exact (Prod.mk.inj (Option.some.inj (hr'.symm.trans hr))).1
  · intro h o s hroom hs
    obtain ⟨s', hw, hr, hpos⟩ := returns_writeAll_readAll fs hroom hs
    rw [h] at hr
    have hlen := length_flatMap_bytes fs
    refine ⟨_, s', hw, ?_, ?_, ?_, hr, hpos⟩
    · rw [Output.put_position, hlen]
    · exact take_overwrite _ _ (Nat.le_refl _)
    · exact drop_overwrite_end _ _

/-- `writeInt(128)` is read as `-128`. -/
theorem not_restored_int : ¬ Restored [.int 128] := by
  intro h
  obtain ⟨o', s', hw, -, -, -, hr, -⟩ :=
    h ⟨[0, 0, 0, 0], 0⟩ ⟨0, fun _ => none⟩ (by decide) rfl
  obtain ⟨t, hw', hr', -⟩ := returns_writeAll_readAll (o := ⟨[0, 0, 0, 0], 0⟩)
    (s := ⟨0, fun _ => none⟩) [.int 128] (by decide) rfl
  obtain ⟨-, rfl⟩ := Prod.mk.inj (Option.some.inj (hw'.symm.trans hw))
  have hval := (Prod.mk.inj (Option.some.inj (hr'.symm.trans hr))).1
  exact absurd hval (by decide)

end Fixed

end Wson.Java
