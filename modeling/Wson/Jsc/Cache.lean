import Wson.Jsc.Value
import Wson.Native.Reader

/-!
# The identifier cache

`makeIdentifer` looks short keys up in a table indexed by a hash of their units, which
earlier documents have filled. In `wson_jsc.cpp` a slot that is in use holds a copy of
the units that its identifier was made of (`Slot.Consistent`); every lookup keeps this
(`keeps_makeIdentifer`), and so the identifier for a key is made of the units of the
key, whatever the table holds (`returns_makeIdentifer`).
-/

namespace Wson.Jsc

open Effect Wire Native

/-- A pointer to units. -/
inductive UnitsPtr where
  | null
  | units (units : Utf16)
  /-- The memory it points to has been freed. -/
  | freed

/-- `IdentifierCache`. An identifier is the string it was made of, or null. -/
structure Slot where
  identifer : Option Utf16
  length : Nat
  key : BitVec 32
  utf16 : UnitsPtr

/-- `localIdentifiers`, with `localCount`, which is its size. -/
structure Cache where
  slots : List Slot
  localCount : BitVec 32
  size_eq : slots.length = localCount.toNat
  pos : 0 < localCount.toNat

/-- The buffer that is decoded and the table that is in use. -/
structure Decoder where
  buffer : Buffer
  cache : Cache

abbrev DecoderM := EStateM Fault Decoder

/-- A reader of the buffer. -/
def onBuffer {α : Type} (m : BufferM α) : DecoderM α :=
  zoom Decoder.buffer (fun buffer d => { d with buffer := buffer }) m

namespace Slot

/-- A slot of a new array: `Identifier::EmptyIdentifier`, and no units. -/
def fresh : Slot where
  identifer := some []
  length := 0
  key := 0
  utf16 := .null

/-- A slot after `init`. -/
def initial : Slot where
  identifer := none
  length := 0
  key := 0
  utf16 := .null

/-- A slot in use holds the units of its identifier. -/
def Consistent (slot : Slot) : Prop :=
  slot.length ≠ 0 → ∃ units, slot.utf16 = .units units ∧ slot.identifer = some units ∧
    units.length = slot.length

/-- The same of a slot whose units may have been freed. -/
def Sound (slot : Slot) : Prop :=
  slot.length ≠ 0 → ∃ units, (slot.utf16 = .units units ∨ slot.utf16 = .freed) ∧
    slot.identifer = some units ∧ units.length = slot.length

end Slot

namespace Cache

/-- All slots are consistent. -/
def Consistent (cache : Cache) : Prop :=
  ∀ slot ∈ cache.slots, slot.Consistent

/-- A table of `count` equal slots. -/
def replicate (count : BitVec 32) (pos : 0 < count.toNat) (slot : Slot) : Cache where
  slots := List.replicate count.toNat slot
  localCount := count
  size_eq := List.length_replicate
  pos := pos

theorem consistent_replicate (count : BitVec 32) (pos : 0 < count.toNat) {slot : Slot}
    (h : slot.Consistent) : (replicate count pos slot).Consistent :=
  fun _ hslot => (List.eq_of_mem_replicate hslot) ▸ h

/-- `localIdentifiers[index] = slot`. -/
def set (cache : Cache) (index : Nat) (slot : Slot) : Cache where
  slots := cache.slots.set index slot
  localCount := cache.localCount
  size_eq := by rw [List.length_set, cache.size_eq]
  pos := cache.pos

end Cache

/-- The djb2 hash of `hash`. -/
def hash (utf16 : Utf16) : BitVec 32 :=
  utf16.foldl (fun hash unit => hash <<< 5 + hash + unit.setWidth 32) 5381

variable (e : Endian)

/-- The `length` units from a pointer on. -/
def unitsAt (ptr length : Nat) : DecoderM Utf16 :=
  onBuffer do return ofUnits e (← Buffer.bytesAt ptr (2 * length))

/-- The unit that a pointer points to. -/
def unitAt (ptr : Nat) : DecoderM Char16 := do
  return (← unitsAt e ptr 1).headD 0

/-- `localIdentifiers[localIndex]`. -/
def getSlot (localIndex : BitVec 32) : DecoderM Slot := fun d =>
  match d.cache.slots[localIndex.toNat]? with
  | some slot => .ok slot d
  | none => .error .outOfBounds d

def setSlot (localIndex : BitVec 32) (slot : Slot) : DecoderM Unit :=
  modify fun d => { d with cache := d.cache.set localIndex.toNat slot }

/-- What a slot knows for a key; `memcmp` is a fault through a null pointer and on freed memory. -/
def Slot.find (slot : Slot) (utf16 : Utf16) : Except Fault (Option Utf16) :=
  if slot.length = utf16.length ∧ slot.key = hash utf16 then
    match slot.utf16 with
    | .units units => .ok (if units.take utf16.length = utf16 then slot.identifer else none)
    | .null => .error .outOfBounds
    | .freed => .error .freed
  else .ok none

/-- `makeIdentifer` of either file, of the units from a pointer on. They differ in what a new slot
points to, which depends on the units and here on the position that the buffer stands at. -/
def makeIdentiferTo (destination : Nat → Utf16 → UnitsPtr) (utf16 length : Nat) : DecoderM Utf16 := do
  if length ≤ 0 then return []
  let first ← unitAt e utf16
  -- only short keys that begin with an ASCII character
  if first.toNat ≤ 0 ∨ 127 ≤ first.toNat ∨ 32 < length then
    unitsAt e utf16 length
  else
    let units ← unitsAt e utf16 length
    let key := hash units
    let d ← get
    let localIndex := (d.cache.localCount - 1) &&& key
    let slot ← getSlot localIndex
    match slot.find units with
    | .error fault => throw fault
    | .ok (some identifer) => return identifer
    | .ok none =>
      setSlot localIndex
        { identifer := some units, length := length, key := key, utf16 := destination d.buffer.position units }
      return units

/-- `makeIdentifer` of `wson_jsc.cpp`: a new slot gets a copy of the units. -/
def makeIdentifer (utf16 length : Nat) : DecoderM Utf16 :=
  makeIdentiferTo e (fun _ units => .units units) utf16 length

/-! ## Invariants -/

/-- What holds of all slots still does. -/
def KeepsSlots (valid : Slot → Prop) (d d' : Decoder) : Prop :=
  (∀ slot ∈ d.cache.slots, valid slot) → ∀ slot ∈ d'.cache.slots, valid slot

/-- The table stays consistent. -/
abbrev KeepsCache : Decoder → Decoder → Prop :=
  KeepsSlots Slot.Consistent

variable {valid : Slot → Prop}

theorem KeepsSlots.refl (d : Decoder) : KeepsSlots valid d d :=
  id

theorem KeepsSlots.trans ⦃d d' d'' : Decoder⦄ (h : KeepsSlots valid d d') (h' : KeepsSlots valid d' d'') :
    KeepsSlots valid d d'' :=
  h' ∘ h

theorem keeps_onBuffer {α : Type} (m : BufferM α) : Preserves (KeepsSlots valid) (onBuffer m) :=
  preserves_zoom (Q := fun _ _ => True) (fun _ => trivial) fun _ _ _ h => h

theorem keeps_unitsAt (ptr length : Nat) : Preserves (KeepsSlots valid) (unitsAt e ptr length) :=
  keeps_onBuffer _

theorem keeps_unitAt (ptr : Nat) : Preserves (KeepsSlots valid) (unitAt e ptr) :=
  (keeps_unitsAt e ptr 1).bind KeepsSlots.trans fun _ => preserves_pure KeepsSlots.refl _

/-- Reading units changes nothing. -/
theorem unitsAt_eq (ptr length : Nat) (d : Decoder) :
    returns (unitsAt e ptr length) d
      = if ptr + 2 * length ≤ d.buffer.data.length then
          some (ofUnits e ((d.buffer.data.drop ptr).take (2 * length)), d)
        else none := by
  rw [unitsAt, onBuffer, returns_zoom, returns_bind]
  unfold returns
  rw [Buffer.bytesAt]
  by_cases hbound : ptr + 2 * length ≤ d.buffer.data.length
  · rw [if_pos hbound, if_pos hbound]
    rfl
  · rw [if_neg hbound, if_neg hbound]
    rfl

theorem length_of_unitsAt {ptr length : Nat} {d d' : Decoder} {units : Utf16}
    (h : unitsAt e ptr length d = .ok units d') : units.length = length := by
  have hreturns := returns_eq_some.mpr h
  rw [unitsAt_eq] at hreturns
  split at hreturns
  · next hbound =>
    have hlength : ((d.buffer.data.drop ptr).take (2 * length)).length = 2 * length := by
      rw [List.length_take, List.length_drop]
      omega
    obtain ⟨rfl, -⟩ := Prod.mk.inj (Option.some.inj hreturns)
    rw [ofUnits_length, hlength, Nat.mul_div_cancel_left _ (by decide)]
  · exact nomatch hreturns

theorem keeps_getSlot (localIndex : BitVec 32) : Preserves (KeepsSlots valid) (getSlot localIndex) := by
  intro d
  unfold final getSlot
  cases d.cache.slots[localIndex.toNat]? <;> exact KeepsSlots.refl d

theorem keeps_setSlot (localIndex : BitVec 32) {slot : Slot} (h : valid slot) :
    Preserves (KeepsSlots valid) (setSlot localIndex slot) := by
  refine preserves_modify ?_
  intro d hd s hs
  obtain hs | rfl := List.mem_or_eq_of_mem_set hs
  · exact hd s hs
  · exact h

/-- A lookup changes the slot only that it makes. -/
theorem keeps_makeIdentiferTo {destination : Nat → Utf16 → UnitsPtr} (utf16 length : Nat)
    (hslot : ∀ position units key, units.length = length →
      valid { identifer := some units, length := length, key := key, utf16 := destination position units }) :
    Preserves (KeepsSlots valid) (makeIdentiferTo e destination utf16 length) := by
  have hrefl := @KeepsSlots.refl valid
  have htrans := @KeepsSlots.trans valid
  unfold makeIdentiferTo
  refine Preserves.ite (preserves_pure hrefl _) ?_
  refine (keeps_unitAt e utf16).bind htrans fun first => Preserves.ite (keeps_unitsAt e utf16 length) ?_
  refine (keeps_unitsAt e utf16 length).bind_of_ok htrans fun units s t hread => ?_
  refine (preserves_get hrefl).bind htrans fun d => ?_
  refine (keeps_getSlot _).bind htrans fun slot => ?_
  cases slot.find units with
  | error fault => exact preserves_throw hrefl _
  | ok found =>
    cases found with
    | some identifer => exact preserves_pure hrefl _
    | none =>
      refine (keeps_setSlot _ ?_).bind htrans fun _ => preserves_pure hrefl _
      exact hslot _ _ _ (length_of_unitsAt e hread)

/-- **The cache invariant** is kept by every lookup. -/
theorem keeps_makeIdentifer (utf16 length : Nat) : Preserves KeepsCache (makeIdentifer e utf16 length) :=
  keeps_makeIdentiferTo e utf16 length fun _ units _ hlength _ => ⟨units, rfl, rfl, hlength⟩

/-! ## Lookups -/

/-- What the slot knows for a key is the key, or nothing, or the lookup stops. -/
def Slot.Answers (stop : Fault → Prop) (slot : Slot) : Prop :=
  ∀ units ≠ [], slot.find units = .ok (some units) ∨ slot.find units = .ok none ∨
    ∃ fault, slot.find units = .error fault ∧ stop fault

theorem Slot.Sound.find {slot : Slot} (h : slot.Sound) {units : Utf16} (hne : units ≠ []) :
    slot.find units = .ok (some units) ∨ slot.find units = .ok none ∨
      slot.length ≠ 0 ∧ slot.utf16 = .freed ∧ slot.find units = .error .freed := by
  unfold Slot.find
  split
  · next hkey =>
    have hused : slot.length ≠ 0 := by
      rw [hkey.1]
      exact List.length_pos_of_ne_nil hne |>.ne'
    obtain ⟨stored, hutf16 | hutf16, hidentifer, hlength⟩ := h hused
    · rw [hutf16, hidentifer, ← hkey.1, ← hlength]
      dsimp only
      rw [List.take_length]
      split
      · next heq =>
        rw [heq]
        exact .inl rfl
      · exact .inr (.inl rfl)
    · rw [hutf16]
      exact .inr (.inr ⟨hused, rfl, rfl⟩)
  · exact .inr (.inl rfl)

theorem Slot.Sound.answers {slot : Slot} (h : slot.Sound) : slot.Answers (· = .freed) := by
  intro units hne
  rcases h.find hne with hfind | hfind | ⟨-, -, hfind⟩
  · exact .inl hfind
  · exact .inr (.inl hfind)
  · exact .inr (.inr ⟨.freed, hfind, rfl⟩)

/-- What a consistent slot knows for a key is the key. -/
theorem Slot.Consistent.answers {slot : Slot} (h : slot.Consistent) : slot.Answers fun _ => False := by
  have hsound : slot.Sound := by
    intro hused
    obtain ⟨units, hutf16, hrest⟩ := h hused
    exact ⟨units, .inl hutf16, hrest⟩
  intro units hne
  rcases hsound.find hne with hfind | hfind | ⟨hused, hfreed, -⟩
  · exact .inl hfind
  · exact .inr (.inl hfind)
  -- its units have not been freed
  · obtain ⟨stored, hutf16, -⟩ := h hused
    rw [hutf16] at hfreed
    cases hfreed

section Lookup

variable {e} {data : Bytes} {length p : Nat} {units : Utf16} {rest : Bytes}

theorem returns_unitsAt {d : Decoder} (hd : d.buffer.data = data)
    (hdrop : data.drop p = Wire.units e units ++ rest) (hp : p ≤ data.length) :
    returns (unitsAt e p units.length) d = some (units, d) := by
  have hbytes := Buffer.returns_bytesAt d.buffer.length d.buffer.position hdrop hp
  rw [units_length] at hbytes
  rw [unitsAt, onBuffer, returns_zoom, returns_bind]
  obtain ⟨⟨_, q, l⟩, cache⟩ := d
  obtain rfl := hd
  rw [hbytes, Option.bind_some, returns_pure, ofUnits_units]
  rfl

/-- **Identifiers**: whatever a consistent table holds, the identifier for a key is made of its
units. -/
theorem returns_makeIdentifer {d : Decoder} (hd : d.buffer.data = data) (hcache : d.cache.Consistent)
    (hdrop : data.drop p = Wire.units e units ++ rest) (hp : p ≤ data.length) :
    ∃ cache, returns (makeIdentifer e p units.length) d = some (units, ⟨d.buffer, cache⟩) := by
  cases units with
  | nil => exact ⟨d.cache, rfl⟩
  | cons unit tl =>
    have hunits := returns_unitsAt (d := d) hd hdrop hp
    have hfirst : returns (unitAt e p) d = some (unit, d) := by
      have hone : returns (unitsAt e p [unit].length) d = some ([unit], d) := by
        have hunit : data.drop p = Wire.units e [unit] ++ (Wire.units e tl ++ rest) := by
          rw [hdrop, units_cons, units_cons, units_nil, List.append_nil, List.append_assoc]
        exact returns_unitsAt hd hunit hp
      rw [unitAt, returns_bind, show (1 : Nat) = [unit].length from rfl, hone]
      rfl
    rw [makeIdentifer, makeIdentiferTo, if_neg (by simp), returns_bind, hfirst, Option.bind_some]
    dsimp only
    split
    · exact ⟨d.cache, hunits⟩
    · rw [returns_bind, hunits, Option.bind_some, returns_bind, returns_get, Option.bind_some]
      dsimp only
      generalize hindex : (d.cache.localCount - 1) &&& hash (unit :: tl) = localIndex
      -- the mask keeps the index inside the table
      have hbound : localIndex.toNat < d.cache.slots.length := by
        have hpos := d.cache.pos
        rw [d.cache.size_eq, ← hindex, BitVec.toNat_and]
        refine Nat.lt_of_le_of_lt Nat.and_le_left ?_
        have hlt := d.cache.localCount.isLt
        rw [BitVec.toNat_sub]
        show (2 ^ 32 - 1 + _) % 2 ^ 32 < _
        omega
      have hslot : returns (getSlot localIndex) d = some (d.cache.slots[localIndex.toNat], d) := by
        rw [returns_eq_some, getSlot, List.getElem?_eq_getElem hbound]
      rw [returns_bind, hslot, Option.bind_some]
      dsimp only
      rcases (hcache _ (List.getElem_mem hbound)).answers _ (List.cons_ne_nil unit tl) with
        hfind | hfind | ⟨_, -, hstop⟩
      · rw [hfind]
        exact ⟨d.cache, rfl⟩
      · rw [hfind]
        exact ⟨_, rfl⟩
      · exact hstop.elim

end Lookup

end Wson.Jsc
