import Wson.Native.Calls

/-!
# When the buffer can grow

Every writer is a sequence of stores, each behind an `ENSURE_SIZE`. The length of the
block has 32 bits in `c/`, so a request can wrap it around, and the store behind it
then leaves the block.

- `fits`: whether all stores of a sequence are inside the block; it depends on their
  sizes only.
- `storeAll_of_fits`, `fits_of_storeAll`: a sequence returns iff it fits, and then
  its bytes stand behind what was written before.
- `Call.run_eq_storeAll`: the stores of a writer call.
-/

namespace Wson.Native

open Effect Wire

/-- The bytes of a store, and the sum that the `ENSURE_SIZE` before it computes. The count of
a `signed` store is an `int32_t`. -/
structure Store where
  width : Nat
  request : Nat
  bytes : Bytes
  signed : Bool := false

/-- What `memcpy` is asked to copy: a negative count is huge as a `size_t`. -/
def Store.count (s : Store) : Nat :=
  if s.signed ∧ 2 ^ 31 ≤ s.bytes.length then 2 ^ 64 - 2 ^ 32 + s.bytes.length else s.bytes.length

/-- Hardly more is asked for than is stored. -/
structure Store.Tight (s : Store) : Prop where
  width_le : 32 ≤ s.width
  le_request : s.bytes.length ≤ s.request
  request_le : s.request ≤ s.bytes.length + 8

theorem Store.le_count (s : Store) : s.bytes.length ≤ s.count := by
  unfold count
  split
  · exact Nat.le_add_left _ _
  · exact Nat.le_refl _

theorem Store.count_of_unsigned {s : Store} (h : s.signed = false) : s.count = s.bytes.length := by
  rw [count, h, if_neg (by simp)]

namespace Buffer

variable (lib : Library)

/-- `memcpy` to the position, and the move behind it. -/
def copy (s : Store) : BufferM Unit := fun buffer =>
  if buffer.position + s.count ≤ buffer.data.length then put lib s.bytes buffer
  else .error .outOfBounds buffer

/-- `ENSURE_SIZE` and the store. -/
def store (s : Store) : BufferM Unit := do
  ensureSize lib s.width s.request
  copy lib s

def storeAll : List Store → BufferM Unit
  | [] => pure ()
  | s :: ss => do
    store lib s
    storeAll ss

/-- The bytes of the stores, one behind the other. -/
def stored (ss : List Store) : Bytes :=
  ss.flatMap Store.bytes

/-- The length of the block when the store is made. -/
def ensured (s : Store) (length position : Nat) : Nat :=
  if length < (position + s.request) % 2 ^ s.width then resizedLength lib (s.request % 2 ^ 32) length
  else length

/-- All stores are inside the block, which has `length` bytes when the first is made. -/
def fits : List Store → Nat → Nat → Prop
  | [], _, _ => True
  | s :: ss, length, position =>
    position + s.count ≤ ensured lib s length position ∧
      fits ss (ensured lib s length position) (position + s.bytes.length)

instance : ∀ (ss : List Store) (length position : Nat), Decidable (fits lib ss length position)
  | [], _, _ => inferInstanceAs (Decidable True)
  | s :: ss, length, position =>
    have := instDecidableFits ss (ensured lib s length position) (position + s.bytes.length)
    inferInstanceAs (Decidable (_ ∧ _))

variable {lib}

theorem stored_append (ss ss' : List Store) : stored (ss ++ ss') = stored ss ++ stored ss' :=
  List.flatMap_append

theorem stored_cons (s : Store) (ss : List Store) : stored (s :: ss) = s.bytes ++ stored ss :=
  rfl

theorem storeAll_append : ∀ ss ss' : List Store,
    storeAll lib (ss ++ ss') = (do storeAll lib ss; storeAll lib ss')
  | [], ss' => rfl
  | s :: ss, ss' => by
    rw [List.cons_append, storeAll, storeAll_append ss ss', storeAll, bind_assoc]

theorem length_realloc (data : Bytes) (size : Nat) : (realloc data size).length = size := by
  rw [realloc, List.length_append, List.length_take, List.length_replicate]
  omega

variable (lib) in
theorem ensured_lt (s : Store) {length : Nat} (position : Nat) (hlength : length < 2 ^ lib.bits) :
    ensured lib s length position < 2 ^ lib.bits := by
  unfold ensured
  split
  · exact Nat.mod_lt _ (Nat.two_pow_pos _)
  · exact hlength

variable (lib) in
/-- What `ENSURE_SIZE` does to the block. -/
theorem ensureSize_eq (s : Store) {b : Buffer} (hv : b.Valid) :
    ∃ b', ensureSize lib s.width s.request b = .ok () b' ∧ b'.position = b.position ∧
      b'.length = ensured lib s b.length b.position ∧ b'.length = b'.data.length ∧
      (b.position ≤ b'.length → b'.data.take b.position = b.written) := by
  show ∃ b', (if b.length < (b.position + s.request) % 2 ^ s.width then
    resize lib (s.request % 2 ^ 32) else pure ()) b = .ok () b' ∧ _
  by_cases hgrow : b.length < (b.position + s.request) % 2 ^ s.width
  · rw [if_pos hgrow]
    refine ⟨_, rfl, rfl, ?_, (length_realloc _ _).symm, fun hp => ?_⟩
    · rw [ensured, if_pos hgrow]
    · have hinside := hv.inside
      have hlength := hv.length_eq
      show (realloc b.data _).take b.position = b.data.take b.position
      rw [realloc, List.take_append_of_le_length, List.take_take, Nat.min_eq_left hp]
      rw [List.length_take]
      exact Nat.le_min.mpr ⟨hp, by omega⟩
  · refine ⟨b, by rw [if_neg hgrow]; rfl, rfl, ?_, hv.length_eq, fun _ => rfl⟩
    rw [ensured, if_neg hgrow]

/-- **One store** that is inside the block. -/
theorem store_of_le (s : Store) {b : Buffer} (hv : b.Valid) (hb : b.length < 2 ^ lib.bits)
    (hfits : b.position + s.count ≤ ensured lib s b.length b.position) :
    ∃ b', store lib s b = .ok () b' ∧ b'.Valid ∧ b'.written = b.written ++ s.bytes ∧
      b'.length = ensured lib s b.length b.position ∧ b'.position = b.position + s.bytes.length := by
  obtain ⟨b₁, h₁, hp, hl, hd, hw⟩ := ensureSize_eq lib s hv
  have hlt := ensured_lt lib s b.position hb
  have hcount := s.le_count
  have hmod : (b.position + s.bytes.length) % 2 ^ lib.bits = b.position + s.bytes.length :=
    Nat.mod_eq_of_lt (by omega)
  have hw := hw (by omega)
  refine ⟨⟨overwrite b₁.data b.position s.bytes, b.position + s.bytes.length, b₁.length⟩, ?_,
    ⟨?_, ?_⟩, ?_, hl, rfl⟩
  · show EStateM.bind (ensureSize lib s.width s.request) _ b = _
    unfold EStateM.bind
    rw [h₁]
    show copy lib s b₁ = _
    rw [copy, if_pos (by omega), put, hp, if_pos (by omega), hmod]
  · show b.position + s.bytes.length ≤ b₁.length
    omega
  · rw [overwrite_length]
    exact hd
  · show (overwrite b₁.data b.position s.bytes).take (b.position + s.bytes.length) = _
    rw [take_overwrite_end _ _ (by omega), hw]

/-- One store that is not. -/
theorem store_of_lt (s : Store) {b : Buffer} (hv : b.Valid)
    (hfits : ¬ b.position + s.count ≤ ensured lib s b.length b.position) :
    returns (store lib s) b = none := by
  obtain ⟨b₁, h₁, hp, hl, hd, -⟩ := ensureSize_eq lib s hv
  rw [store, returns_bind, returns_eq_some.mpr h₁, Option.bind_some]
  show returns (copy lib s) b₁ = none
  unfold returns
  rw [copy, if_neg (by omega)]

/-- **A sequence of stores** that fits. -/
theorem storeAll_of_fits : ∀ {ss : List Store} {b : Buffer}, b.Valid → b.length < 2 ^ lib.bits →
    fits lib ss b.length b.position →
      ∃ b', storeAll lib ss b = .ok () b' ∧ (b'.Valid ∧ b'.length < 2 ^ lib.bits) ∧
        b'.written = b.written ++ stored ss
  | [], b, hv, hb, _ => ⟨b, rfl, ⟨hv, hb⟩, (List.append_nil _).symm⟩
  | s :: ss, b, hv, hb, hfits => by
    obtain ⟨b₁, h₁, hv₁, hw₁, hl₁, hp₁⟩ := store_of_le s hv hb hfits.1
    have hlt := ensured_lt lib s b.position hb
    obtain ⟨b₂, h₂, hv₂, hw₂⟩ := storeAll_of_fits (b := b₁) hv₁ (by omega)
      (by rw [hl₁, hp₁]; exact hfits.2)
    refine ⟨b₂, ?_, hv₂, by rw [hw₂, hw₁, stored_cons, List.append_assoc]⟩
    show EStateM.bind (store lib s) _ b = _
    unfold EStateM.bind
    rw [h₁]
    exact h₂

/-- A sequence of stores that returns. -/
theorem fits_of_storeAll : ∀ {ss : List Store} {b b' : Buffer}, b.Valid → b.length < 2 ^ lib.bits →
    storeAll lib ss b = .ok () b' → fits lib ss b.length b.position
  | [], _, _, _, _, _ => trivial
  | s :: ss, b, b', hv, hb, h => by
    have hreturns := returns_eq_some.mpr h
    rw [storeAll, returns_bind] at hreturns
    by_cases hfits : b.position + s.count ≤ ensured lib s b.length b.position
    · obtain ⟨b₁, h₁, hv₁, -, hl₁, hp₁⟩ := store_of_le s hv hb hfits
      have hlt := ensured_lt lib s b.position hb
      rw [returns_eq_some.mpr h₁, Option.bind_some] at hreturns
      have hrest := fits_of_storeAll hv₁ (by omega) (returns_eq_some.mp hreturns)
      rw [hl₁, hp₁] at hrest
      exact ⟨hfits, hrest⟩
    · rw [store_of_lt s hv hfits] at hreturns
      exact nomatch hreturns

/-! ### Below the limit -/

theorem le_ensured {s : Store} (hs : s.Tight) {length position : Nat} (hp : position ≤ length)
    (hsmall : position + s.bytes.length ≤ limit .c) :
    position + s.count ≤ ensured .c s length position := by
  have hlimit : limit .c = 2 ^ 30 := rfl
  have hpow : 2 ^ 32 ≤ 2 ^ s.width := Nat.pow_le_pow_right (by decide) hs.width_le
  have hrequest := hs.request_le
  have hbytes := hs.le_request
  have hcount : s.count ≤ s.request := by
    rw [Store.count]
    split
    · next h => exact absurd h.2 (by omega)
    · exact hbytes
  rw [ensured, Nat.mod_eq_of_lt (show position + s.request < 2 ^ s.width by omega)]
  split
  · next hgrow =>
    have hle : length + s.request ≤ resizedLength .c s.request length :=
      le_resizedLength hgrow (by omega)
    rw [Nat.mod_eq_of_lt (by omega)]
    omega
  · omega

/-- **Small outputs** fit. -/
theorem fits_of_tight : ∀ {ss : List Store} {length position : Nat}, (∀ s ∈ ss, s.Tight) →
    position ≤ length → position + (stored ss).length ≤ limit .c → fits .c ss length position
  | [], _, _, _, _, _ => trivial
  | s :: ss, length, position, hs, hp, hsmall => by
    rw [List.forall_mem_cons] at hs
    rw [stored_cons, List.length_append] at hsmall
    have hroom : position + s.count ≤ ensured .c s length position := le_ensured hs.1 hp (by omega)
    have hcount := s.le_count
    exact ⟨hroom, fits_of_tight hs.2 (by omega) (by omega)⟩

end Buffer

/-! ## The stores of the writers -/

namespace Call

open Buffer

variable (lib : Library)

/-- A store of bytes for which `request` many are asked for by a `sizeof` expression. -/
def fixedStore (request : Nat) (bytes : Bytes) : Store where
  width := 64
  request := request
  bytes := bytes

def typeStore (bt : Byte) : Store :=
  fixedStore 1 [bt]

def uintStore (num : BitVec 32) : Store :=
  fixedStore 5 (encode num.toNat)

def bytesStore (src : Bytes) : Store where
  width := lib.bits
  request := src.length
  bytes := src

/-- The stores of a call, in order. -/
def stores : Call → List Store
  | .byte bt | .type bt => [typeStore bt]
  | .varInt value => [uintStore (varUint32Zig value)]
  | .varUint num => [uintStore num]
  | .uint64 num | .double num => [fixedStore 8 (be64 num)]
  | .float num => [fixedStore 4 (be32 num)]
  | .bytes src => [bytesStore lib src]
  | .typeNull => [typeStore Tag.null]
  | .booleanWithTag value =>
    [fixedStore 2 [if value ≠ 0 then Tag.booleanTrue else Tag.booleanFalse]]
  | .varIntWithTag num => [typeStore Tag.int, uintStore (varUint32Zig num)]
  | .fixedInt64WithTag num => [typeStore Tag.long, fixedStore 8 (be64 num)]
  | .doubleWithTag num => [typeStore Tag.double, fixedStore 8 (be64 num)]
  | .floatWithTag num => [typeStore Tag.float, fixedStore 4 (be32 num)]
  | .stringWithTag src => [typeStore Tag.string, uintStore (BitVec.ofNat 32 src.length), bytesStore lib src]
  | .uint8StringWithTag src =>
    [typeStore Tag.uint8String, uintStore (BitVec.ofNat 32 src.length), bytesStore lib src]
  | .mapKey src => [uintStore (BitVec.ofNat 32 src.length), bytesStore lib src]
  | .typeStringLength length => [typeStore Tag.string, uintStore length]
  | .typeMap size => [typeStore Tag.map, uintStore size]
  | .typeArray size => [typeStore Tag.array, uintStore size]
  | .typeExtend src => [typeStore extendTag, uintStore (BitVec.ofNat 32 src.length), bytesStore lib src]

/-- A store whose count is its length. -/
theorem store_eq {s : Store} (h : s.signed = false) :
    store lib s = (do ensureSize lib s.width s.request; put lib s.bytes) := by
  have hcopy : copy lib s = put lib s.bytes := by
    funext b
    rw [copy, put, Store.count_of_unsigned h]
    by_cases hroom : b.position + s.bytes.length ≤ b.data.length
    · rw [if_pos hroom]
    · rw [if_neg hroom, if_neg hroom]
  rw [store, hcopy]

theorem writeVarUint_eq (num : BitVec 32) : writeVarUint lib num = store lib (uintStore num) := by
  rw [writeVarUint, clearLast_varUintBytes, store_eq lib rfl]
  rfl

theorem tight_fixedStore {request : Nat} {bytes : Bytes} (hle : bytes.length ≤ request)
    (hsmall : request ≤ bytes.length + 8) : (fixedStore request bytes).Tight :=
  ⟨by show 32 ≤ 64; decide, hle, hsmall⟩

theorem tight_uintStore (num : BitVec 32) : (uintStore num).Tight := by
  have hlength := encodeGroups_length_le 4 num.toNat
  exact tight_fixedStore hlength (by omega)

theorem tight_typeStore (bt : Byte) : (typeStore bt).Tight :=
  tight_fixedStore (Nat.le_refl 1) (Nat.le_add_left 1 8)

theorem tight_bytesStore (src : Bytes) : (bytesStore lib src).Tight := by
  have hbits : 32 ≤ lib.bits := by cases lib <;> decide
  exact ⟨hbits, Nat.le_refl _, Nat.le_add_right _ _⟩

theorem tight_of_mem_stores (call : Call) : ∀ s ∈ call.stores lib, s.Tight := by
  have htype := tight_typeStore
  have huint := tight_uintStore
  have hbytes := tight_bytesStore lib
  have hfixed (bs : Bytes) : (fixedStore bs.length bs).Tight :=
    tight_fixedStore (Nat.le_refl _) (Nat.le_add_right _ _)
  cases call with
  | booleanWithTag value =>
    exact List.forall_mem_singleton.mpr (tight_fixedStore (Nat.le_add_left 1 1) (Nat.le_add_left 2 7))
  | uint64 num => exact List.forall_mem_singleton.mpr (hfixed (be64 num))
  | double num => exact List.forall_mem_singleton.mpr (hfixed (be64 num))
  | float num => exact List.forall_mem_singleton.mpr (hfixed (be32 num))
  | fixedInt64WithTag num =>
    exact List.forall_mem_cons.mpr ⟨htype _, List.forall_mem_singleton.mpr (hfixed (be64 num))⟩
  | doubleWithTag num =>
    exact List.forall_mem_cons.mpr ⟨htype _, List.forall_mem_singleton.mpr (hfixed (be64 num))⟩
  | floatWithTag num =>
    exact List.forall_mem_cons.mpr ⟨htype _, List.forall_mem_singleton.mpr (hfixed (be32 num))⟩
  | _ => simp [stores, htype, huint, hbytes]

/-- **The stores of a call** are what its writer does. -/
theorem run_eq_storeAll (call : Call) : call.run lib = storeAll lib (call.stores lib) := by
  have htype (bt : Byte) : store lib (typeStore bt) = writeType lib bt := store_eq lib rfl
  have hbytes (src : Bytes) : store lib (bytesStore lib src) = writeBytes lib src := store_eq lib rfl
  have hfixed (request : Nat) (bs : Bytes) :
      store lib (fixedStore request bs) = (do ensureSize lib 64 request; put lib bs) :=
    store_eq lib rfl
  cases call <;>
    simp only [run, stores, storeAll, bind_pure_unit, ← writeVarUint_eq, htype, hbytes, hfixed] <;> rfl

end Call

end Wson.Native
