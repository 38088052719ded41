import Wson.Effect.Simulation
import Wson.Java.Output

/-!
# `io/Output.java` over the arrays of the heap

In `Output` the buffer is a value. Here it is a reference: an array once allocated
stays where it is, growing makes `Output.buffer` refer to another one, and
`getBuffer()` hands the reference out. Every store and every growth is recorded.

- `Store.Inside`: the store went to the array that `Output.buffer` refers to, and
  below its length; `Growth.Keeps`: the new array starts with what had been written.
- `Fills m bs`: where there is room, `m` stores `bs` at the position, and all its
  stores are inside.
- `follows_chunk`: `ensureCapacity` and the stores behind it do here what they do in
  an `Output` whose array is never too short, as long as less than `2^29` bytes
  have been written.
-/

namespace Wson.Java

open Effect Wire

/-- One `array[index] = b`, with what `Output.buffer` refers to then. -/
structure Store where
  array : Nat
  index : Nat
  /-- The length of the array that is stored to. -/
  length : Nat
  buffer : Nat
  deriving DecidableEq, Repr

/-- The array before and after `ensureCapacity` has replaced it. -/
structure Growth where
  position : Nat
  before : Bytes
  after : Bytes
  deriving DecidableEq, Repr

def Store.Inside (s : Store) : Prop :=
  s.array = s.buffer ∧ s.index < s.length

def Growth.Keeps (g : Growth) : Prop :=
  g.position ≤ g.before.length ∧ g.before.take g.position = g.after.take g.position ∧
    g.position ≤ g.after.length

/-- The arrays, the fields of `Output`, and the record. -/
structure Memory where
  arrays : Nat → Bytes
  /-- The references from here on are unused. -/
  allocated : Nat
  buffer : Nat
  position : Nat
  stores : List Store
  growths : List Growth

abbrev MemoryM := EStateM Throwable Memory

namespace Memory

/-- A new `Output` over an array of the pool. -/
def start (pooled : Bytes) : Memory where
  arrays _ := pooled
  allocated := 1
  buffer := 0
  position := 0
  stores := []
  growths := []

/-- The array that `Output.buffer` refers to. -/
def current (m : Memory) : Bytes :=
  m.arrays m.buffer

/-- The record of `array[index] = b`. -/
def storeOf (m : Memory) (array index : Nat) : Store where
  array := array
  index := index
  length := (m.arrays array).length
  buffer := m.buffer

/-- The memory after a store inside the array. -/
def stored (m : Memory) (array index : Nat) (b : Byte) : Memory where
  arrays := Function.update m.arrays array ((m.arrays array).set index b)
  allocated := m.allocated
  buffer := m.buffer
  position := m.position
  stores := m.stores ++ [m.storeOf array index]
  growths := m.growths

/-- `array[index] = b`. -/
def store (array index : Nat) (b : Byte) : MemoryM Unit := do
  let m ← get
  if index < (m.arrays array).length then set (m.stored array index b)
  else do
    set { m with stores := m.stores ++ [m.storeOf array index] }
    throw .arrayIndexOutOfBounds

def getBuffer : MemoryM Nat := do
  let m ← get
  pure m.buffer

def getPosition : MemoryM Nat := do
  let m ← get
  pure m.position

def move (step : Nat) : MemoryM Unit :=
  modify fun m => { m with position := m.position + step }

/-- `buffer[position++] = b`. -/
def writeByte (b : Byte) : MemoryM Unit := do
  let array ← getBuffer
  let p ← getPosition
  move 1
  store array p b

/-- `buffer[position + offset] = b`. -/
def storeAt (offset : Nat) (b : Byte) : MemoryM Unit := do
  let array ← getBuffer
  let position ← getPosition
  store array (position + offset) b

def writeLong (val : BitVec 64) : MemoryM Unit := do
  storeAt 7 (val.setWidth 8)
  storeAt 6 ((val >>> 8).setWidth 8)
  storeAt 5 ((val >>> 16).setWidth 8)
  storeAt 4 ((val >>> 24).setWidth 8)
  storeAt 3 ((val >>> 32).setWidth 8)
  storeAt 2 ((val >>> 40).setWidth 8)
  storeAt 1 ((val >>> 48).setWidth 8)
  storeAt 0 ((val >>> 56).setWidth 8)
  move 8

def writeDouble (value : BitVec 64) : MemoryM Unit :=
  writeLong (Output.doubleToLongBits value)

def writeFloat (value : BitVec 32) : MemoryM Unit := do
  let val := Output.floatToIntBits value
  storeAt 3 (val.setWidth 8)
  storeAt 2 ((val >>> 8).setWidth 8)
  storeAt 1 ((val >>> 16).setWidth 8)
  storeAt 0 ((val >>> 24).setWidth 8)
  move 4

def writeUIntLoop : Nat → BitVec 32 → MemoryM Unit
  | 0, value => writeByte ((value &&& 0x7F#32).setWidth 8)
  | k + 1, value =>
    if value &&& 0xFFFFFF80#32 ≠ 0#32 then do
      writeByte ((value &&& 0x7F#32 ||| 0x80#32).setWidth 8)
      writeUIntLoop k (value >>> 7)
    else writeByte ((value &&& 0x7F#32).setWidth 8)

def writeUInt (value : BitVec 32) : MemoryM Unit :=
  writeUIntLoop 4 value

def writeVarInt (value : BitVec 32) : MemoryM Unit :=
  writeUInt (value <<< 1 ^^^ value.sshiftRight 31)

/-- `Arrays.copyOf(buffer, newLength)`: a new array. -/
def copyOf (newLength : Int) : MemoryM Nat := do
  let m ← get
  if newLength < 0 then throw .negativeArraySize
  else do
    set { m with
      arrays := Function.update m.arrays m.allocated (Output.resize m.current newLength.toNat)
      allocated := m.allocated + 1 }
    pure m.allocated

/-- `buffer = array`. -/
def setBuffer (array : Nat) : MemoryM Unit :=
  modify fun m => { m with
    buffer := array
    growths := m.growths ++ [⟨m.position, m.current, m.arrays array⟩] }

def ensureCapacity (minCapacity : Int) : MemoryM Unit := do
  let m ← get
  let minCapacity := int (minCapacity + m.position)
  if minCapacity > m.current.length then do
    let array ← copyOf (Output.newCapacity m.current.length minCapacity)
    setBuffer array

/-- The two stores of a character. -/
def storeChar (e : Endian) (array position : Nat) (ch : Char16) : MemoryM Unit :=
  match e with
  | .little => do
    store array position (ch.setWidth 8)
    store array (position + 1) ((ch >>> 8).setWidth 8)
  | .big => do
    store array (position + 1) (ch.setWidth 8)
    store array position ((ch >>> 8).setWidth 8)

/-- The loop of `writeUTF16String`, which stores through the reference it has got before. -/
def writeChars (e : Endian) (array : Nat) : Utf16 → MemoryM Unit
  | [] => pure ()
  | ch :: rest => do
    let position ← getPosition
    storeChar e array position ch
    move 2
    writeChars e array rest

def writeUTF16String (e : Endian) (value : Utf16) : MemoryM Unit := do
  let length : Int := value.length
  ensureCapacity (int (length * 2 + 8))
  writeUInt (BitVec.ofInt 32 (length * 2))
  let array ← getBuffer
  writeChars e array value

/-! ## Stores -/

/-- Nothing that is recorded went wrong. -/
structure Clean (m : Memory) : Prop where
  stores : ∀ s ∈ m.stores, s.Inside
  growths : ∀ g ∈ m.growths, g.Keeps

theorem clean_start (pooled : Bytes) : (start pooled).Clean where
  stores _ hs := nomatch hs
  growths _ hg := nomatch hg

@[simp] theorem stored_current (m : Memory) (index : Nat) (b : Byte) :
    (m.stored m.buffer index b).current = m.current.set index b :=
  Function.update_self ..

theorem Clean.stored {m : Memory} (h : m.Clean) {index : Nat} (b : Byte)
    (hi : index < m.current.length) : (m.stored m.buffer index b).Clean where
  stores := by
    intro s hs
    rcases List.mem_append.mp hs with hs | hs
    · exact h.stores s hs
    · obtain rfl := List.mem_singleton.mp hs
      exact ⟨rfl, hi⟩
  growths := h.growths

theorem store_eq {m : Memory} {array index : Nat} (b : Byte) (h : index < (m.arrays array).length) :
    store array index b m = .ok () (m.stored array index b) := by
  show (if index < (m.arrays array).length then set (m.stored array index b) else _ : MemoryM Unit) m
    = _
  rw [if_pos h]
  rfl

/-! ## Filling -/

/-- `mem'` is `mem` with `bs` stored at the position of the current array, without mishap. -/
structure Filled (bs : Bytes) (mem mem' : Memory) : Prop where
  current : mem'.current = overwrite mem.current mem.position bs
  position : mem'.position = mem.position + bs.length
  buffer : mem'.buffer = mem.buffer
  allocated : mem'.allocated = mem.allocated
  clean : mem.Clean → mem'.Clean

/-- Where there is room, `m` stores `bs`. -/
def Fills (m : MemoryM Unit) (bs : Bytes) : Prop :=
  ∀ mem : Memory, mem.position + bs.length ≤ mem.current.length →
    ∃ mem', m mem = .ok () mem' ∧ Filled bs mem mem'

theorem fills_pure : Fills (pure ()) [] :=
  fun mem _ => ⟨mem, rfl, rfl, rfl, rfl, rfl, id⟩

theorem Filled.append {as bs : Bytes} {mem mem' mem'' : Memory} (h : Filled as mem mem')
    (h' : Filled bs mem' mem'') : Filled (as ++ bs) mem mem'' where
  current := by rw [h'.current, h.current, h.position, overwrite_append]
  position := by rw [h'.position, h.position, List.length_append, Nat.add_assoc]
  buffer := h'.buffer.trans h.buffer
  allocated := h'.allocated.trans h.allocated
  clean := h'.clean ∘ h.clean

theorem Filled.length {bs : Bytes} {mem mem' : Memory} (h : Filled bs mem mem') :
    mem'.current.length = mem.current.length := by
  rw [h.current, overwrite_length]

theorem Fills.bind {m m' : MemoryM Unit} {as bs : Bytes} (hm : Fills m as) (hm' : Fills m' bs) :
    Fills (m >>= fun _ => m') (as ++ bs) := by
  intro mem hroom
  rw [List.length_append] at hroom
  obtain ⟨mem₁, h₁, hf₁⟩ := hm mem (by omega)
  obtain ⟨mem₂, h₂, hf₂⟩ := hm' mem₁ (by rw [hf₁.position, hf₁.length]; omega)
  exact ⟨mem₂, by rw [bind_of_ok h₁, h₂], hf₁.append hf₂⟩

theorem fills_writeByte (b : Byte) : Fills (writeByte b) [b] := by
  intro mem hroom
  rw [List.length_singleton] at hroom
  refine ⟨_, store_eq (m := { mem with position := mem.position + 1 }) b
    (show mem.position < mem.current.length by omega), ?_, rfl, rfl, rfl, fun h => ?_⟩
  · exact stored_current { mem with position := mem.position + 1 } mem.position b
  · exact Clean.stored (m := { mem with position := mem.position + 1 }) ⟨h.stores, h.growths⟩ b
      (show mem.position < mem.current.length by omega)

/-- One of the bytes of a word: what is stored so far, and that it went well. -/
structure Storing (mem : Memory) (buffer : Bytes) (mem' : Memory) : Prop where
  current : mem'.current = buffer
  position : mem'.position = mem.position
  buffer_eq : mem'.buffer = mem.buffer
  allocated : mem'.allocated = mem.allocated
  clean : mem.Clean → mem'.Clean

theorem Storing.refl (mem : Memory) : Storing mem mem.current mem :=
  ⟨rfl, rfl, rfl, rfl, id⟩

/-- One more byte is stored. -/
theorem Storing.storeAt {mem mem' : Memory} {buffer : Bytes} (h : Storing mem buffer mem')
    (offset : Nat) (b : Byte) (hin : mem.position + offset < buffer.length) :
    ∃ mem'', Memory.storeAt offset b mem' = .ok () mem'' ∧
      Storing mem (buffer.set (mem.position + offset) b) mem'' := by
  have hin' : mem'.position + offset < mem'.current.length := by
    rw [h.current, h.position]
    exact hin
  refine ⟨_, store_eq b hin', ?_, h.position, h.buffer_eq, h.allocated, fun hc => (h.clean hc).stored b hin'⟩
  rw [stored_current, h.current, h.position]

theorem Storing.filled {mem mem' : Memory} {buffer : Bytes} (h : Storing mem buffer mem')
    (bs : Bytes) (hbs : buffer = overwrite mem.current mem.position bs) :
    Filled bs mem { mem' with position := mem'.position + bs.length } where
  current := h.current.trans hbs
  position := by rw [← h.position]
  buffer := h.buffer_eq
  allocated := h.allocated
  clean hc := ⟨(h.clean hc).stores, (h.clean hc).growths⟩

theorem fills_writeLong (val : BitVec 64) : Fills (writeLong val) (be64 val) := by
  intro mem hroom
  rw [be64_length] at hroom
  have h := Storing.refl mem
  obtain ⟨m₇, e₇, h⟩ := h.storeAt 7 (val.setWidth 8) (by omega)
  obtain ⟨m₆, e₆, h⟩ := h.storeAt 6 ((val >>> 8).setWidth 8) (by simp; omega)
  obtain ⟨m₅, e₅, h⟩ := h.storeAt 5 ((val >>> 16).setWidth 8) (by simp; omega)
  obtain ⟨m₄, e₄, h⟩ := h.storeAt 4 ((val >>> 24).setWidth 8) (by simp; omega)
  obtain ⟨m₃, e₃, h⟩ := h.storeAt 3 ((val >>> 32).setWidth 8) (by simp; omega)
  obtain ⟨m₂, e₂, h⟩ := h.storeAt 2 ((val >>> 40).setWidth 8) (by simp; omega)
  obtain ⟨m₁, e₁, h⟩ := h.storeAt 1 ((val >>> 48).setWidth 8) (by simp; omega)
  obtain ⟨m₀, e₀, h⟩ := h.storeAt 0 ((val >>> 56).setWidth 8) (by simp; omega)
  refine ⟨_, ?_, h.filled (be64 val) rfl⟩
  unfold writeLong
  rw [bind_of_ok e₇, bind_of_ok e₆, bind_of_ok e₅, bind_of_ok e₄, bind_of_ok e₃, bind_of_ok e₂,
    bind_of_ok e₁, bind_of_ok e₀]
  rfl

theorem fills_writeFloat (value : BitVec 32) :
    Fills (writeFloat value) (be32 (Output.floatToIntBits value)) := by
  intro mem hroom
  rw [be32_length] at hroom
  have h := Storing.refl mem
  obtain ⟨m₃, e₃, h⟩ :=
    h.storeAt 3 ((Output.floatToIntBits value).setWidth 8) (by omega)
  obtain ⟨m₂, e₂, h⟩ :=
    h.storeAt 2 ((Output.floatToIntBits value >>> 8).setWidth 8) (by simp; omega)
  obtain ⟨m₁, e₁, h⟩ :=
    h.storeAt 1 ((Output.floatToIntBits value >>> 16).setWidth 8) (by simp; omega)
  obtain ⟨m₀, e₀, h⟩ :=
    h.storeAt 0 ((Output.floatToIntBits value >>> 24).setWidth 8) (by simp; omega)
  refine ⟨_, ?_, h.filled (be32 (Output.floatToIntBits value)) rfl⟩
  unfold writeFloat
  rw [bind_of_ok e₃, bind_of_ok e₂, bind_of_ok e₁, bind_of_ok e₀]
  rfl

theorem fills_writeUIntLoop (k : Nat) (value : BitVec 32) (h : value.toNat < 128 ^ (k + 1)) :
    Fills (writeUIntLoop k value) (encodeGroups k value.toNat) := by
  induction k generalizing value with
  | zero =>
    rw [writeUIntLoop, encodeGroups, setWidth_and_low]
    exact fills_writeByte _
  | succ k ih =>
    rw [writeUIntLoop, encodeGroups]
    by_cases hlt : value.toNat < 128
    · rw [if_neg (not_not.mpr ((and_high_eq_zero value).mpr hlt)), if_pos hlt, setWidth_and_low,
        Nat.mod_eq_of_lt hlt]
      exact fills_writeByte _
    · have hs := toNat_ushiftRight_seven value
      have ih := ih (value >>> 7) (by rw [hs]; exact div_lt_of_groups h)
      rw [if_pos (fun h0 => hlt ((and_high_eq_zero value).mp h0)), if_neg hlt,
        setWidth_and_low_or, ← hs]
      exact (fills_writeByte _).bind ih

theorem fills_writeUInt (value : BitVec 32) : Fills (writeUInt value) (encode value.toNat) :=
  fills_writeUIntLoop 4 value (by have := value.isLt; omega)

/-- A store through a reference to the current array is a store at an offset. -/
theorem Storing.store {mem mem' : Memory} {buffer : Bytes} (h : Storing mem buffer mem')
    (offset : Nat) (b : Byte) (hin : mem.position + offset < buffer.length) :
    ∃ mem'', Memory.store mem.buffer (mem.position + offset) b mem' = .ok () mem'' ∧
      Storing mem (buffer.set (mem.position + offset) b) mem'' := by
  rw [← h.buffer_eq, ← h.position]
  have hstore := h.storeAt offset b hin
  rwa [← h.position] at hstore

theorem fills_storeChar (e : Endian) (ch : Char16) (mem : Memory)
    (hroom : mem.position + 2 ≤ mem.current.length) :
    ∃ mem', storeChar e mem.buffer mem.position ch mem = .ok () mem' ∧
      Filled (unit e ch) mem { mem' with position := mem'.position + 2 } := by
  have h := Storing.refl mem
  cases e with
  | little =>
    obtain ⟨m₀, e₀, h⟩ := h.store 0 (ch.setWidth 8) (by omega)
    obtain ⟨m₁, e₁, h⟩ := h.store 1 ((ch >>> 8).setWidth 8) (by simp; omega)
    refine ⟨m₁, (bind_of_ok e₀ _).trans e₁, h.filled (unit .little ch) ?_⟩
    rw [List.set_comm _ _ (by omega)]
    rfl
  | big =>
    obtain ⟨m₁, e₁, h⟩ := h.store 1 (ch.setWidth 8) (by omega)
    obtain ⟨m₀, e₀, h⟩ := h.store 0 ((ch >>> 8).setWidth 8) (by simp; omega)
    exact ⟨m₀, (bind_of_ok e₁ _).trans e₀, h.filled (unit .big ch) rfl⟩

theorem length_unit (e : Endian) (ch : Char16) : (unit e ch).length = 2 := by
  cases e <;> rfl

/-- The loop never leaves the array: its reference stays the current one. -/
theorem fills_writeChars (e : Endian) {s : Utf16} {array : Nat} {mem : Memory}
    (ha : array = mem.buffer) (hroom : mem.position + (units e s).length ≤ mem.current.length) :
    ∃ mem', writeChars e array s mem = .ok () mem' ∧ Filled (units e s) mem mem' := by
  induction s generalizing mem with
  | nil => exact fills_pure mem hroom
  | cons ch rest ih =>
    rw [units_cons, List.length_append, length_unit] at hroom
    obtain ⟨m₁, h₁, hf₁⟩ := fills_storeChar e ch mem (by omega)
    have hpos := hf₁.position
    have hlen := hf₁.length
    rw [length_unit] at hpos
    obtain ⟨m₂, h₂, hf₂⟩ := @ih { m₁ with position := m₁.position + 2 }
      (ha.trans hf₁.buffer.symm) (by rw [hlen, hpos]; omega)
    refine ⟨m₂, ?_, units_cons e ch rest ▸ hf₁.append hf₂⟩
    subst ha
    exact (bind_of_ok h₁ _).trans h₂

/-! ## Growing -/

/-- The memory after a request that was met: what had been written is still there. -/
structure Grown (request : Int) (mem mem' : Memory) : Prop where
  position : mem'.position = mem.position
  written : mem'.current.take mem.position = mem.current.take mem.position
  room : request + mem.position ≤ mem'.current.length
  small : mem'.current.length < 2 ^ 31
  fresh : mem'.buffer < mem'.allocated
  clean : mem.Clean → mem'.Clean

/-- A new array in the place of the old one. -/
theorem replaced_eq {mem : Memory} (hfresh : mem.buffer < mem.allocated) {newLength : Int}
    (h : 0 ≤ newLength) :
    ∃ mem', (copyOf newLength >>= setBuffer) mem = .ok () mem' ∧
      mem'.position = mem.position ∧ mem'.buffer < mem'.allocated ∧
      mem'.current = Output.resize mem.current newLength.toNat ∧
      mem'.stores = mem.stores ∧
      mem'.growths = mem.growths ++ [⟨mem.position, mem.current, mem'.current⟩] := by
  have hcopy : copyOf newLength mem = .ok mem.allocated { mem with
      arrays := Function.update mem.arrays mem.allocated
        (Output.resize mem.current newLength.toNat)
      allocated := mem.allocated + 1 } := by
    show (if newLength < 0 then throw .negativeArraySize else _ : MemoryM Nat) mem = _
    rw [if_neg (by omega)]
    rfl
  refine ⟨_, bind_of_ok hcopy _, rfl, Nat.lt_succ_self _, Function.update_self .., rfl, ?_⟩
  -- the reference is a new one, so the old array is as it was
  have hold : Function.update mem.arrays mem.allocated
      (Output.resize mem.current newLength.toNat) mem.buffer = mem.current :=
    Function.update_of_ne (Nat.ne_of_lt hfresh) ..
  simp only [current] at hold ⊢
  rw [hold]

theorem ensureCapacity_room {mem : Memory} {request : Int} (hfresh : mem.buffer < mem.allocated)
    (hin : mem.position ≤ mem.current.length) (hsmall : mem.current.length < 2 ^ 31)
    (h₀ : 0 ≤ request) (h : request + mem.position < 2 ^ 30) :
    ∃ mem', ensureCapacity request mem = .ok () mem' ∧ Grown request mem mem' := by
  have hint : int (request + mem.position) = request + mem.position :=
    int_of_fits (by omega) (by omega)
  have hrun : ensureCapacity request mem
      = (if int (request + mem.position) > mem.current.length then
          copyOf (Output.newCapacity mem.current.length (int (request + mem.position)))
            >>= setBuffer
        else pure () : MemoryM Unit) mem := rfl
  rw [hrun, hint]
  by_cases hm : request + mem.position > mem.current.length
  · have hle : request + mem.position ≤ Output.grown mem.current.length mem.position request :=
      Output.request_le_grown (by omega) h
    have hlt := Output.grown_lt mem.position request
      (show (mem.current.length : Int) < 2 ^ 31 by omega)
    unfold Output.grown at hle hlt
    simp only [hint, if_pos hm] at hle hlt
    rw [if_pos hm]
    obtain ⟨mem', heq, hpos, hfresh', hcurrent, hstores, hgrowths⟩ := replaced_eq hfresh
      (show 0 ≤ Output.newCapacity mem.current.length (request + mem.position) by omega)
    have htake : mem'.current.take mem.position = mem.current.take mem.position := by
      rw [hcurrent]
      exact Output.take_resize hin (by omega)
    have hlen : (mem'.current.length : Int)
        = Output.newCapacity mem.current.length (request + mem.position) := by
      rw [hcurrent, Output.resize_length]
      omega
    refine ⟨mem', heq, hpos, htake, by omega, by omega, hfresh', fun hc => ⟨?_, ?_⟩⟩
    · rw [hstores]
      exact hc.stores
    · intro g hg
      rw [hgrowths] at hg
      rcases List.mem_append.mp hg with hg | hg
      · exact hc.growths g hg
      · obtain rfl := List.mem_singleton.mp hg
        exact ⟨hin, htake.symm, show mem.position ≤ mem'.current.length by omega⟩
  · rw [if_neg hm]
    exact ⟨mem, rfl, rfl, rfl, by omega, hsmall, hfresh, id⟩

/-! ## Against an array that is never too short -/

/-- `mem` holds the bytes that `o` holds, whose array is too long ever to be replaced. -/
structure Mirrors (o : Output) (mem : Memory) : Prop where
  large : o.buffer.length = 2 ^ 31
  position : mem.position = o.position
  written : mem.current.take mem.position = o.written
  inside : mem.position ≤ mem.current.length
  small : mem.current.length < 2 ^ 31
  fresh : mem.buffer < mem.allocated
  clean : mem.Clean

/-- Less than `2^29` bytes have been written. -/
def Short (o : Output) : Prop :=
  o.position < 2 ^ 29

theorem short_of_advances {α : Type} {m : OutputM α} (h : Output.Advances m) :
    Preserves (fun o o' => Short o' → Short o) m :=
  Preserves.mono h fun _ _ h' => Nat.lt_of_le_of_lt h'.position

/-- **A request and the stores behind it** do the same in both, if the request is for what
is stored and a little more. -/
theorem follows_chunk {m : OutputM Unit} {m' : MemoryM Unit} {request : Int} {bs : Bytes}
    (hm : Appends m bs) (hne : bs ≠ []) (hadv : Output.Advances m) (hm' : Fills m' bs)
    (hfit : ∀ o : Output, o.buffer.length = 2 ^ 31 →
      Short (final (Output.ensureCapacity request >>= fun _ => m) o) →
      o.position + bs.length ≤ 2 ^ 31)
    (hrequest : bs.length < 2 ^ 29 → bs.length ≤ request ∧ request ≤ bs.length + 11) :
    Follows Mirrors Short (Output.ensureCapacity request >>= fun _ => m)
      (ensureCapacity request >>= fun _ => m') where
  kept := short_of_advances ((Output.advances_ensureCapacity _).bind fun _ => hadv)
  follows := by
    intro o mem hmirrors hshort
    have hroom := hfit o hmirrors.large hshort
    have hreturns : _ = (Output.accept o ⟨request, bs⟩).map _ := Output.returns_chunk hm hne o
    rw [Output.accept, Output.grow_large hmirrors.large, Option.bind_some, hmirrors.large,
      if_pos hroom, Option.map_some, returns_eq_some] at hreturns
    rw [final_of_ok hreturns] at hshort
    have hend : o.position + bs.length < 2 ^ 29 := hshort
    have hp := hmirrors.position
    obtain ⟨hle, hslack⟩ := hrequest (by omega)
    obtain ⟨mem₁, h₁, hg⟩ : ∃ mem', ensureCapacity request mem = .ok () mem' ∧ Grown request mem mem' :=
      ensureCapacity_room hmirrors.fresh hmirrors.inside hmirrors.small (by omega) (by omega)
    have hp₁ := hg.position
    have hroom₁ := hg.room
    obtain ⟨mem₂, h₂, hf⟩ := hm' mem₁ (by omega)
    rw [hreturns, bind_of_ok h₁, h₂]
    have hlen := hf.length
    have hp₂ := hf.position
    refine .ok rfl ⟨?_, ?_, ?_, ?_, ?_, ?_, ?_⟩
    · rw [Output.put_buffer_length, hmirrors.large]
    · rw [hp₂, hp₁, hp]
      rfl
    · rw [hf.current, hp₂, take_overwrite_end _ _ (by omega), hp₁, hg.written, hmirrors.written]
      exact (take_overwrite_end _ _ (by rw [hmirrors.large]; exact hroom)).symm
    · omega
    · rw [hlen]
      exact hg.small
    · rw [hf.buffer, hf.allocated]
      exact hg.fresh
    · exact hf.clean (hg.clean hmirrors.clean)

/-- At most twelve bytes at once. -/
theorem follows_small {m : OutputM Unit} {m' : MemoryM Unit} {request : Int} {bs : Bytes}
    (hm : Appends m bs) (hne : bs ≠ []) (hadv : Output.Advances m) (hm' : Fills m' bs)
    (hle : bs.length ≤ request) (hsmall : request ≤ 12) :
    Follows Mirrors Short (Output.ensureCapacity request >>= fun _ => m)
      (ensureCapacity request >>= fun _ => m') := by
  have hpos := List.length_pos_of_ne_nil hne
  refine follows_chunk hm hne hadv hm' ?_ fun _ => ⟨hle, by omega⟩
  intro o _ hshort
  have hp : o.position < 2 ^ 29 :=
    short_of_advances ((Output.advances_ensureCapacity request).bind fun _ => hadv) o hshort
  omega

/-- A scalar: a type byte and what stands behind it. -/
theorem follows_scalar {payload : OutputM Unit} {payload' : MemoryM Unit} {request : Int}
    {tag : Byte} {bs : Bytes} (hpayload : Appends payload bs) (hadv : Output.Advances payload)
    (hpayload' : Fills payload' bs) (hle : bs.length + 1 ≤ request) (hsmall : request ≤ 12) :
    Follows Mirrors Short
      (do Output.ensureCapacity request; Output.writeByte tag; payload)
      (do ensureCapacity request; writeByte tag; payload') :=
  follows_small (Output.Appends.bind (List.cons_ne_nil _ _) (Output.appends_writeByte tag) hpayload)
    (List.cons_ne_nil _ _) ((Output.advances_writeByte tag).bind fun _ => hadv)
    ((fills_writeByte tag).bind hpayload') hle hsmall

/-- Where the text is longer than the large array, the loop runs to its end. -/
theorem text_fits (e : Endian) (value : Utf16) {o : Output} (hlarge : o.buffer.length = 2 ^ 31)
    {request : Int} {header : BitVec 32}
    (hshort : Short (final (do
      Output.ensureCapacity request
      Output.writeUInt header
      Output.writeChars e value) o)) :
    o.position + (encode header.toNat ++ units e value).length ≤ 2 ^ 31 := by
  by_contra hover
  have hheader : (encode header.toNat).length ≤ 5 := encodeGroups_length_le 4 _
  have hp : o.position < 2 ^ 29 :=
    short_of_advances ((Output.advances_ensureCapacity request).bind fun _ =>
      (Output.advances_writeUInt header).bind fun _ => Output.advances_writeChars e value) o hshort
  have hgrow : Output.ensureCapacity request o = .ok () o := by
    rw [Output.ensureCapacity_eq, Output.grow_large hlarge]
  have hwrite := Output.appends_writeUInt header o fun _ => by omega
  rw [if_pos (by omega), returns_eq_some] at hwrite
  have hend := Output.le_position_writeChars e value (o.put (encode header.toNat))
  rw [Output.put_position, Output.put_buffer_length] at hend
  rw [List.length_append, units_length] at hover
  rw [final, bind_of_ok hgrow, bind_of_ok hwrite, ← final] at hshort
  have hfinal : (final (Output.writeChars e value) (o.put (encode header.toNat))).position
      < 2 ^ 29 := hshort
  omega

theorem fills_body (e : Endian) (header : BitVec 32) (value : Utf16) :
    Fills (do writeUInt header; let array ← getBuffer; writeChars e array value)
      (encode header.toNat ++ units e value) := by
  refine (fills_writeUInt header).bind fun mem hroom => ?_
  obtain ⟨mem', h, hf⟩ := fills_writeChars e rfl hroom
  exact ⟨mem', h, hf⟩

/-- A text: its length, and the characters through the reference that `getBuffer()` gave. -/
theorem follows_text (e : Endian) (value : Utf16) :
    Follows Mirrors Short
      (do
        Output.ensureCapacity (int (value.length * 2 + 8))
        Output.writeUInt (BitVec.ofInt 32 (value.length * 2))
        Output.writeChars e value)
      (writeUTF16String e value) := by
  refine follows_chunk (Output.Appends.bind (encodeGroups_ne_nil 4 _)
      (Output.appends_writeUInt _) (Output.appends_writeChars e value))
    (List.append_ne_nil_of_left_ne_nil (encodeGroups_ne_nil 4 _) _)
    ((Output.advances_writeUInt _).bind fun _ => Output.advances_writeChars e value)
    (fills_body e _ value) ?_ ?_
  · intro o hlarge hshort
    exact text_fits e value hlarge hshort
  · intro hlen
    have hheader := encodeGroups_length_le 4 (BitVec.ofInt 32 ((value.length : Int) * 2)).toNat
    rw [List.length_append, units_length] at hlen ⊢
    rw [int_of_fits (by omega) (by omega)]
    omega

end Memory

end Wson.Java
