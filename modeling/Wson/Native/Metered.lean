import Wson.Effect.Metered
import Wson.Native.Parser

/-!
# What the readers pay

The readers of the C library in a buffer that holds just its data, whatever the data is. They
stand at most one byte behind the end of it: a text of an odd length at the very end is
skipped as a whole, but only read up to its last unit.
-/

namespace Wson.Native

open Effect Wire

namespace Buffer

variable (data : Bytes)

/-- The buffer stands at offset `p` of its data, or at the end and up to `slack` bytes behind it. -/
def Near (slack : Nat) (buffer : Buffer) (p : Nat) : Prop :=
  ∃ position, buffer = ⟨data, position, data.length⟩ ∧ position ≤ data.length + slack ∧ p = min position data.length

/-- There are `k` more bytes. -/
def Has (k : Nat) (buffer : Buffer) (p : Nat) : Prop :=
  buffer = ⟨data, p, data.length⟩ ∧ p + k ≤ data.length

/-- A reader that ends at most `slack` bytes behind the end, and that does not run out of stack
before it has used up the way for `n` calls. -/
abbrev Pays {α : Type} (before after n credit : Nat) (size : α → Nat) (m : BufferM α) : Prop :=
  Metered (Near data before) (Near data after) Fault.stackOverflow data.length n credit size m

variable {data}

theorem Near.mono {a b : Nat} (h : a ≤ b) (buffer : Buffer) (p : Nat) (hp : Near data a buffer p) :
    Near data b buffer p :=
  have ⟨position, hbuffer, hposition, hplace⟩ := hp
  ⟨position, hbuffer, by omega, hplace⟩

theorem Near.le {slack : Nat} {buffer : Buffer} {p : Nat} (hp : Near data slack buffer p) : p ≤ data.length := by
  obtain ⟨position, -, -, rfl⟩ := hp
  exact Nat.min_le_right _ _

theorem Has.near {k : Nat} (buffer : Buffer) (p : Nat) (hp : Has data k buffer p) : Near data 1 buffer p :=
  have hle := hp.2
  ⟨p, hp.1, by omega, by omega⟩

section Readers

variable {n : Nat}

theorem metered_load (i : Nat) :
    Metered (Near data 1) (Has data (i + 1)) Fault.stackOverflow data.length n 0 (fun _ => 0) (load i) := by
  rintro _ _ ⟨position, rfl, hp, rfl⟩
  cases hload : data[position + i]? with
  | some b =>
    have hrun : load i ⟨data, position, data.length⟩ = .ok b ⟨data, position, data.length⟩ := by
      rw [load, hload]
    rw [hrun]
    obtain ⟨hlt, -⟩ := List.getElem?_eq_some_iff.mp hload
    exact ⟨position, ⟨rfl, by omega⟩, Nat.min_le_left _ _, Nat.min_le_left _ _⟩
  | none =>
    have hrun : load i ⟨data, position, data.length⟩ = .error .outOfBounds ⟨data, position, data.length⟩ := by
      rw [load, hload]
    rw [hrun]
    exact fun heq => Fault.noConfusion heq

/-- The bytes that are known to be there are paid for. -/
theorem metered_move (hdata : data.length < 2 ^ 31) (k : Nat) :
    Metered (Has data k) (Near data 0) Fault.stackOverflow data.length n 0 (fun _ => k) (move .c k) := by
  rintro _ p ⟨rfl, hp⟩
  have hposition : (p + k) % 2 ^ Library.bits .c = p + k := Nat.mod_eq_of_lt (show p + k < 2 ^ 32 by omega)
  refine ⟨p + k, ⟨p + k, ?_, by omega, by omega⟩, Nat.le_add_right p k, Nat.le_refl _⟩
  exact congrArg (fun position => (⟨data, position, data.length⟩ : Buffer)) hposition

theorem pays_load_bind {α : Type} {size : α → Nat} {k : Nat} {f : Byte → BufferM α} (i : Nat)
    (hf : ∀ b, Metered (Has data (i + 1)) (Near data k) Fault.stackOverflow data.length n 0 size (f b)) :
    Metered (Near data 1) (Near data k) Fault.stackOverflow data.length n 0 size (load i >>= f) :=
  (metered_load i).bind hf

/-- One of the loads of a reader, behind those before it. -/
theorem metered_load_bind {α : Type} {size : α → Nat} {j k : Nat} {f : Byte → BufferM α} (i : Nat)
    (hf : ∀ b, Metered (Has data (i + 1)) (Near data k) Fault.stackOverflow data.length n 0 size (f b)) :
    Metered (Has data j) (Near data k) Fault.stackOverflow data.length n 0 size (load i >>= f) :=
  (pays_load_bind i hf).mono Has.near (fun _ _ h => h) fun _ => Nat.le_refl _

/-- One of the loads of a reader that begins with the last byte. -/
theorem metered_load_before {α : Type} {size : α → Nat} {j k : Nat} {f : Byte → BufferM α} (i : Nat)
    (hf : ∀ b, Metered (Has data j) (Near data k) Fault.stackOverflow data.length n 0 size (f b)) :
    Metered (Has data j) (Near data k) Fault.stackOverflow data.length n 0 size (load i >>= f) := by
  rintro _ p ⟨rfl, hp⟩
  cases hload : data[p + i]? with
  | some b =>
    have hrun : load i ⟨data, p, data.length⟩ = .ok b ⟨data, p, data.length⟩ := by
      rw [load, hload]
    rw [bind_of_ok hrun]
    exact hf b _ p ⟨rfl, hp⟩
  | none =>
    have hrun : load i ⟨data, p, data.length⟩ = .error .outOfBounds ⟨data, p, data.length⟩ := by
      rw [load, hload]
    rw [bind_of_error hrun]
    exact fun heq => Fault.noConfusion heq

/-- The end of a reader. -/
theorem metered_move_pure {α : Type} (hdata : data.length < 2 ^ 31) {k : Nat} (hk : 0 < k) (a : α) :
    Metered (Has data k) (Near data 0) Fault.stackOverflow data.length n 0 (fun _ => 1)
      (do move .c k; pure a) :=
  (metered_move hdata k).bind fun _ => metered_pure (fun _ _ h => h) hk

theorem pays_readType (hdata : data.length < 2 ^ 31) : Pays data 1 0 n 0 (fun _ => 1) (readType .c) :=
  pays_load_bind 0 fun b => metered_move_pure hdata Nat.one_pos b

theorem pays_readVarUint (hdata : data.length < 2 ^ 31) : Pays data 1 0 n 0 (fun _ => 1) (readVarUint .c) := by
  refine pays_load_bind 0 fun _ => .ite (metered_move_pure hdata Nat.one_pos _) ?_
  refine metered_load_bind 1 fun _ => .ite (metered_move_pure hdata Nat.two_pos _) ?_
  refine metered_load_bind 2 fun _ => .ite (metered_move_pure hdata (Nat.succ_pos _) _) ?_
  refine metered_load_bind 3 fun _ => .ite (metered_move_pure hdata (Nat.succ_pos _) _) ?_
  exact metered_load_bind 4 fun _ => metered_move_pure hdata (Nat.succ_pos _) _

theorem pays_readVarInt (hdata : data.length < 2 ^ 31) : Pays data 1 0 n 0 (fun _ => 1) (readVarInt .c) :=
  (pays_readVarUint hdata).bind fun _ => metered_pure (fun _ _ h => h) (Nat.le_refl 1)

theorem pays_readFixedUint64 (hdata : data.length < 2 ^ 31) :
    Pays data 1 0 n 0 (fun _ => 1) (readFixedUint64 .c) := by
  refine pays_load_bind 7 fun _ => metered_load_before 6 fun _ => metered_load_before 5 fun _ =>
    metered_load_before 4 fun _ => metered_load_before 3 fun _ => metered_load_before 2 fun _ => ?_
  exact metered_load_before 1 fun _ => metered_load_before 0 fun _ =>
    metered_move_pure hdata (Nat.succ_pos _) _

theorem pays_readFloat (hdata : data.length < 2 ^ 31) : Pays data 1 0 n 0 (fun _ => 1) (readFloat .c) := by
  refine pays_load_bind 3 fun _ => metered_load_before 2 fun _ => ?_
  exact metered_load_before 1 fun _ => metered_load_before 0 fun _ =>
    metered_move_pure hdata (Nat.succ_pos _) _

end Readers

/-! ## Blocks -/

section Blocks

variable {σ α β : Type} {block : σ → Buffer} {ptr i j k n : Nat}

/-- What is done with a pointer moves nothing, and returns only if `k` bytes are there. -/
def Peeks (block : σ → Buffer) (data : Bytes) (ptr k : Nat) (m : EStateM Fault σ α) : Prop :=
  ∀ s, (block s).data = data → match m s with
    | .ok _ s' => block s' = block s ∧ (k = 0 ∨ ptr + k ≤ data.length)
    | .error e _ => e ≠ .stackOverflow

theorem peeks_pure (a : α) : Peeks block data ptr 0 (pure a) :=
  fun _ _ => ⟨rfl, .inl rfl⟩

theorem peeks_throw {e : Fault} (he : e ≠ .stackOverflow) :
    Peeks block data ptr k (throw e : EStateM Fault σ α) :=
  fun _ _ => he

theorem peeks_bytesAt : Peeks (fun buffer => buffer) data ptr k (bytesAt ptr k) := by
  rintro buffer rfl
  by_cases h : ptr + k ≤ buffer.data.length
  · have hrun : bytesAt ptr k buffer = .ok ((buffer.data.drop ptr).take k) buffer := if_pos h
    rw [hrun]
    exact ⟨rfl, .inr h⟩
  · have hrun : bytesAt ptr k buffer = .error .outOfBounds buffer := if_neg h
    rw [hrun]
    exact fun heq => Fault.noConfusion heq

theorem Peeks.ite {c : Prop} [Decidable c] {m m' : EStateM Fault σ α} (hm : Peeks block data ptr k m)
    (hm' : Peeks block data ptr k m') : Peeks block data ptr k (if c then m else m') := by
  split
  · exact hm
  · exact hm'

/-- The bytes are read in the first part or in the second one. -/
theorem Peeks.bind {m : EStateM Fault σ α} {f : α → EStateM Fault σ β} (hm : Peeks block data ptr i m)
    (hf : ∀ a, Peeks block data ptr j (f a)) (hk : k ≤ i ∨ k ≤ j) : Peeks block data ptr k (m >>= f) := by
  intro s hs
  have hfirst := hm s hs
  cases hrun : m s with
  | ok a s' =>
    rw [hrun] at hfirst
    obtain ⟨hblock, hread⟩ := hfirst
    rw [bind_of_ok hrun]
    have hsecond := hf a s' (by rw [hblock, hs])
    cases hrest : f a s' with
    | ok b s'' =>
      rw [hrest] at hsecond
      obtain ⟨hblock', hread'⟩ := hsecond
      exact ⟨hblock'.trans hblock, by omega⟩
    | error e s'' =>
      rw [hrest] at hsecond
      exact hsecond
  | error e s' =>
    rw [hrun] at hfirst
    rw [bind_of_error hrun]
    exact hfirst

/-- What comes before a read. -/
theorem Peeks.before {m : EStateM Fault σ α} {f : α → EStateM Fault σ β} (hm : Peeks block data ptr 0 m)
    (hf : ∀ a, Peeks block data ptr k (f a)) : Peeks block data ptr k (m >>= f) :=
  hm.bind hf (.inr (Nat.le_refl k))

/-- What is made of the bytes. -/
theorem Peeks.wrap {m : EStateM Fault σ α} (hm : Peeks block data ptr k m) (f : α → β) :
    Peeks block data ptr k (do return f (← m)) :=
  hm.bind (fun _ => peeks_pure _) (.inl (Nat.le_refl k))

/-- A block is skipped, of which all bytes but one are read. -/
theorem metered_block (hdata : data.length < 2 ^ 31) {length : BitVec 32} (hk : length.toNat ≤ k + 1)
    {bts : EStateM Fault σ Nat}
    (hbts : ∀ s, ∃ s', bts s = .ok (block s).position s' ∧
      block s' = { block s with position := ((block s).position + length.toNat) % 2 ^ 32 })
    {m : Nat → EStateM Fault σ α} (hm : ∀ ptr, Peeks block data ptr k (m ptr)) :
    Metered (fun s => Near data 0 (block s)) (fun s => Near data 1 (block s)) Fault.stackOverflow data.length n
      0 (fun _ => 0) (bts >>= m) := by
  rintro s _ ⟨position, hblock, hp, rfl⟩
  obtain ⟨s', hrun, hskipped⟩ := hbts s
  rw [hblock] at hrun hskipped
  rw [bind_of_ok hrun]
  have hpeeks := hm position s' (by rw [hskipped])
  cases hread : m position s' with
  | ok a s'' =>
    rw [hread] at hpeeks
    obtain ⟨hkept, hinside⟩ := hpeeks
    -- the position does not wrap around, as all bytes but one of the block are inside
    have hend : (position + length.toNat) % 2 ^ 32 = position + length.toNat := Nat.mod_eq_of_lt (by omega)
    rw [hskipped, hend] at hkept
    have hplace : min position data.length ≤ min (position + length.toNat) data.length := by omega
    exact ⟨_, ⟨_, hkept, by omega, rfl⟩, hplace, hplace⟩
  | error e s'' =>
    rw [hread] at hpeeks
    exact fun heq => absurd heq hpeeks

/-- A length, and the block that it is the length of. -/
theorem pays_block (hdata : data.length < 2 ^ 31) {m : BitVec 32 → Nat → BufferM α} {k : BitVec 32 → Nat}
    (hk : ∀ length : BitVec 32, length.toNat ≤ k length + 1)
    (hm : ∀ length ptr, Peeks (fun buffer => buffer) data ptr (k length) (m length ptr)) :
    Pays data 1 1 n 0 (fun _ => 1) (do
      let length ← readVarUint .c
      let ptr ← readBts .c length
      m length ptr) := by
  refine (pays_readVarUint hdata).bind fun length => ?_
  exact (metered_block hdata (hk length) (fun _ => ⟨_, rfl, rfl⟩) (hm length)).frame 1

end Blocks

end Buffer

end Wson.Native
