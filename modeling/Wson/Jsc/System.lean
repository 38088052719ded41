import Wson.Effect.Simulation
import Wson.Jsc.Decoder

/-!
# The table of the system

`init` gives one VM a table of identifiers that all its decodes share, and `destory` takes
it away again; every other decode has a table of its own on the stack, whose size depends
on the length of the buffer. None of this can be told from what a decode returns:

- `Alongside`: two decoders of the same buffer, each with a table of its own, keep in step
  on any bytes, whatever the tables hold, as long as the lookups of the one do not stop
  (`simulates_readValue`); those in consistent tables never do (`simulates_wsonToJsValue`).
- `Statics.Inv`: while a VM has the table, there is one, and it is consistent.
- `answersAsNew`: so after any calls of any VMs, a decode returns the value, or stops at the
  fault, that it does with a new table.
-/

namespace Wson.Jsc

open Effect Wire Native

/-! ## Two decoders in step -/

/-- Two decoders of the same buffer, the one with valid slots and the other one with a consistent
table. -/
structure Alongside (valid : Slot → Prop) (d d' : Decoder) : Prop where
  buffer : d.buffer = d'.buffer
  left : ∀ slot ∈ d.cache.slots, valid slot
  right : d'.cache.Consistent

section Lookup

variable {e : Endian}

/-- Units are read, or the block has none there. -/
theorem unitsAt_apply (ptr length : Nat) (d : Decoder) :
    unitsAt e ptr length d =
      if ptr + 2 * length ≤ d.buffer.data.length then
        .ok (ofUnits e ((d.buffer.data.drop ptr).take (2 * length))) d
      else .error .outOfBounds d := by
  rw [unitsAt, onBuffer, zoom]
  by_cases hbound : ptr + 2 * length ≤ d.buffer.data.length
  · have hbytes : Buffer.bytesAt ptr (2 * length) d.buffer =
        .ok ((d.buffer.data.drop ptr).take (2 * length)) d.buffer := if_pos hbound
    rw [if_pos hbound, bind_of_ok hbytes]
    rfl
  · have hbytes : Buffer.bytesAt ptr (2 * length) d.buffer = .error .outOfBounds d.buffer :=
      if_neg hbound
    rw [if_neg hbound, bind_of_error hbytes]

theorem unitAt_of_le {ptr : Nat} {d : Decoder} (h : ptr + 2 * 1 ≤ d.buffer.data.length) :
    ∃ unit, unitAt e ptr d = .ok unit d := by
  have hunits := unitsAt_apply (e := e) ptr 1 d
  rw [if_pos h] at hunits
  exact ⟨_, bind_of_ok hunits _⟩

theorem unitAt_of_lt {ptr : Nat} {d : Decoder} (h : ¬ ptr + 2 * 1 ≤ d.buffer.data.length) :
    unitAt e ptr d = .error .outOfBounds d := by
  have hunits := unitsAt_apply (e := e) ptr 1 d
  rw [if_neg h] at hunits
  exact bind_of_error hunits _

/-- The mask keeps the index inside the table. -/
theorem Cache.index_lt (cache : Cache) (key : BitVec 32) :
    ((cache.localCount - 1) &&& key).toNat < cache.slots.length := by
  have hpos := cache.pos
  have hlt := cache.localCount.isLt
  rw [cache.size_eq, BitVec.toNat_and]
  refine Nat.lt_of_le_of_lt Nat.and_le_left ?_
  rw [BitVec.toNat_sub]
  show (2 ^ 32 - 1 + _) % 2 ^ 32 < _
  omega

/-- What `makeIdentifer` would do without a table. -/
def plainIdentifer (e : Endian) (ptr length : Nat) (d : Decoder) : EStateM.Result Fault Decoder Utf16 :=
  if length ≤ 0 then .ok [] d else unitsAt e ptr length d

theorem getSlot_apply (d : Decoder) (key : BitVec 32) :
    ∃ slot ∈ d.cache.slots, getSlot ((d.cache.localCount - 1) &&& key) d = .ok slot d := by
  have hbound := d.cache.index_lt key
  refine ⟨_, List.getElem_mem hbound, ?_⟩
  rw [getSlot, List.getElem?_eq_getElem hbound]

/-- **A table changes nothing** but itself, as long as its slots give answers. -/
theorem makeIdentiferTo_of_answers {destination : Nat → Utf16 → UnitsPtr} {stop : Fault → Prop} {d : Decoder}
    (hd : ∀ slot ∈ d.cache.slots, slot.Answers stop) (ptr length : Nat) :
    (∃ units cache, plainIdentifer e ptr length d = .ok units d ∧
      makeIdentiferTo e destination ptr length d = .ok units ⟨d.buffer, cache⟩) ∨
    (∃ fault, plainIdentifer e ptr length d = .error fault d ∧
      makeIdentiferTo e destination ptr length d = .error fault d) ∨
    ∃ fault, makeIdentiferTo e destination ptr length d = .error fault d ∧ stop fault := by
  unfold plainIdentifer makeIdentiferTo
  by_cases hlength : length ≤ 0
  · rw [if_pos hlength, if_pos hlength]
    exact .inl ⟨[], d.cache, rfl, rfl⟩
  rw [if_neg hlength, if_neg hlength]
  by_cases hbound : ptr + 2 * length ≤ d.buffer.data.length
  · have hunits := unitsAt_apply (e := e) ptr length d
    rw [if_pos hbound] at hunits
    generalize hval : ofUnits e ((d.buffer.data.drop ptr).take (2 * length)) = units at hunits
    obtain ⟨first, hfirst⟩ := unitAt_of_le (e := e) (show ptr + 2 * 1 ≤ d.buffer.data.length by omega)
    rw [bind_of_ok hfirst]
    split
    · exact .inl ⟨units, d.cache, hunits, hunits⟩
    · obtain ⟨slot, hmem, hslot⟩ := getSlot_apply d (hash units)
      have hne : units ≠ [] := by
        intro hnil
        have hlen := length_of_unitsAt e hunits
        rw [hnil] at hlen
        exact hlength (Nat.le_of_eq hlen.symm)
      rw [bind_of_ok hunits]
      dsimp only
      rw [bind_of_ok (show (get : DecoderM Decoder) d = .ok d d from rfl), bind_of_ok hslot]
      -- what the slot knows is the key, or nothing
      rcases hd slot hmem units hne with hfind | hfind | ⟨fault, hfind, hstop⟩
      · rw [hfind]
        exact .inl ⟨units, d.cache, hunits, rfl⟩
      · rw [hfind]
        exact .inl ⟨units, _, hunits, rfl⟩
      · rw [hfind]
        exact .inr (.inr ⟨fault, rfl, hstop⟩)
  · have hunits := unitsAt_apply (e := e) ptr length d
    rw [if_neg hbound] at hunits
    refine .inr (.inl ⟨.outOfBounds, hunits, ?_⟩)
    by_cases hone : ptr + 2 * 1 ≤ d.buffer.data.length
    · obtain ⟨first, hfirst⟩ := unitAt_of_le (e := e) hone
      rw [bind_of_ok hfirst]
      split
      · exact hunits
      · exact bind_of_error hunits _
    · exact bind_of_error (unitAt_of_lt hone) _

theorem plainIdentifer_congr {d d' : Decoder} (h : d.buffer = d'.buffer) (ptr length : Nat) :
    (∃ units, plainIdentifer e ptr length d = .ok units d ∧
      plainIdentifer e ptr length d' = .ok units d') ∨
    ∃ fault, plainIdentifer e ptr length d = .error fault d ∧
      plainIdentifer e ptr length d' = .error fault d' := by
  unfold plainIdentifer
  by_cases hlength : length ≤ 0
  · rw [if_pos hlength, if_pos hlength]
    exact .inl ⟨[], rfl, rfl⟩
  · rw [if_neg hlength, if_neg hlength, unitsAt_apply, unitsAt_apply, h]
    split
    · exact .inl ⟨_, rfl, rfl⟩
    · exact .inr ⟨_, rfl, rfl⟩

theorem simulates_makeIdentiferTo {destination : Nat → Utf16 → UnitsPtr} {stop : Fault → Prop}
    {valid : Slot → Prop} (hanswers : ∀ slot, valid slot → slot.Answers stop) {ptr length : Nat}
    (hkeeps : Preserves (KeepsSlots valid) (makeIdentiferTo e destination ptr length)) :
    SimulatesUnless stop (Alongside valid) Eq (makeIdentiferTo e destination ptr length)
      (makeIdentifer e ptr length) := by
  intro d d' h
  have hkept := hkeeps d h.left
  have hkept' := keeps_makeIdentifer e ptr length d' h.right
  have hleft : (∃ units cache, plainIdentifer e ptr length d = .ok units d ∧
      makeIdentiferTo e destination ptr length d = .ok units ⟨d.buffer, cache⟩) ∨ _ :=
    makeIdentiferTo_of_answers (fun slot hslot => hanswers slot (h.left slot hslot)) ptr length
  have hright : (∃ units cache, plainIdentifer e ptr length d' = .ok units d' ∧
      makeIdentifer e ptr length d' = .ok units ⟨d'.buffer, cache⟩) ∨
      (∃ fault, plainIdentifer e ptr length d' = .error fault d' ∧
        makeIdentifer e ptr length d' = .error fault d') ∨ _ :=
    makeIdentiferTo_of_answers (fun slot hslot => (h.right slot hslot).answers) ptr length
  rcases hleft with ⟨units, cache, hp, hmake⟩ | ⟨fault, hp, hmake⟩ | ⟨fault, hmake, hstop⟩
  · -- both read the units from the buffer
    rcases plainIdentifer_congr (e := e) h.buffer ptr length with ⟨units', hp', hq⟩ | ⟨fault', hp', -⟩
    · obtain rfl := (EStateM.Result.ok.inj (hp.symm.trans hp')).1
      rcases hright with ⟨units', cache', hq', hmake'⟩ | ⟨fault, hq', -⟩ | ⟨_, -, hstop⟩
      · obtain rfl := (EStateM.Result.ok.inj (hq.symm.trans hq')).1
        rw [final_of_ok hmake] at hkept
        rw [final_of_ok hmake'] at hkept'
        rw [hmake, hmake']
        exact .inl (.ok rfl ⟨h.buffer, hkept, hkept'⟩)
      · cases hq.symm.trans hq'
      · exact hstop.elim
    · cases hp.symm.trans hp'
  · rcases plainIdentifer_congr (e := e) h.buffer ptr length with ⟨units', hp', -⟩ | ⟨fault', hp', hq⟩
    · cases hp.symm.trans hp'
    · obtain rfl := (EStateM.Result.error.inj (hp.symm.trans hp')).1
      rcases hright with ⟨units', cache', hq', -⟩ | ⟨fault', hq', hmake'⟩ | ⟨_, -, hstop⟩
      · cases hq.symm.trans hq'
      · obtain rfl := (EStateM.Result.error.inj (hq.symm.trans hq')).1
        rw [hmake, hmake']
        exact .inl (.error _ h)
      · exact hstop.elim
  · exact .inr ⟨fault, d, hmake, hstop⟩

theorem simulates_makeIdentifer (ptr length : Nat) :
    SimulatesUnless (fun _ => False) (Alongside Slot.Consistent) Eq (makeIdentifer e ptr length)
      (makeIdentifer e ptr length) :=
  simulates_makeIdentiferTo (fun _ h => h.answers) (keeps_makeIdentifer e ptr length)

end Lookup

section Decode

variable {N : Type} {V : Vm N} {e : Endian} {valid : Slot → Prop}

theorem simulates_onBuffer {α : Type} (m : BufferM α) :
    Simulates (Alongside valid) Eq (onBuffer m) (onBuffer m) := by
  intro d d' h
  unfold onBuffer zoom
  rw [h.buffer]
  cases m d'.buffer with
  | ok a buffer => exact .ok rfl ⟨rfl, h.left, h.right⟩
  | error fault buffer => exact .error fault ⟨rfl, h.left, h.right⟩

theorem simulates_hasNext : Simulates (Alongside valid) Eq hasNext hasNext := by
  intro d d' h
  refine .ok ?_ h
  rw [h.buffer]

theorem simulates_readString : Simulates (Alongside valid) Eq (readString e) (readString e) := by
  refine (simulates_onBuffer _).bind_eq fun length => ?_
  refine (simulates_onBuffer _).bind_eq fun src => ?_
  split
  · exact Simulates.bind_eq (simulates_throw _) fun _ => simulates_onBuffer _
  · exact simulates_onBuffer _

theorem simulates_readUint8String :
    Simulates (Alongside valid) Eq (readUint8String V) (readUint8String V) := by
  have hbytes : ∀ utf8 size, Simulates (Alongside valid) Eq
      (do return V.fromUTF8 (← onBuffer (Buffer.bytesAt utf8 size)) : DecoderM Utf16)
      (do return V.fromUTF8 (← onBuffer (Buffer.bytesAt utf8 size))) :=
    fun _ _ => (simulates_onBuffer _).bind_eq fun _ => simulates_pure rfl
  refine (simulates_onBuffer _).bind_eq fun size => ?_
  refine (simulates_onBuffer _).bind_eq fun utf8 => ?_
  split
  · exact Simulates.bind_eq (simulates_throw _) fun _ => hbytes _ _
  · exact hbytes _ _

section Switch

variable {stop : Fault → Prop} {identifers identifers' : Nat → Nat → DecoderM Utf16}
  {child child' : DecoderM (Decoded N)}

theorem simulates_readElements (hchild : SimulatesUnless stop (Alongside valid) Eq child child')
    (length : Nat) (items : List (Decoded N)) :
    SimulatesUnless stop (Alongside valid) Eq (readElements child length items)
      (readElements child' length items) := by
  induction length generalizing items with
  | zero => exact (simulates_pure rfl).unless
  | succ length ih =>
    refine simulates_hasNext.unless.bind_eq fun more => .ite ?_ (simulates_pure rfl).unless
    exact hchild.bind_eq fun value => ih _

variable (hmake : ∀ ptr length, SimulatesUnless stop (Alongside valid) Eq (identifers ptr length)
    (identifers' ptr length)) (hchild : SimulatesUnless stop (Alongside valid) Eq child child')

include hmake hchild

theorem simulates_readEntries (length : Nat) (properties : List (PropertyKey × Decoded N)) :
    SimulatesUnless stop (Alongside valid) Eq (readEntries V identifers child length properties)
      (readEntries V identifers' child' length properties) := by
  induction length generalizing properties with
  | zero => exact (simulates_pure rfl).unless
  | succ length ih =>
    refine simulates_hasNext.unless.bind_eq fun more => .ite ?_ (simulates_pure rfl).unless
    refine (simulates_onBuffer _).unless.bind_eq fun propertyLength => ?_
    refine (simulates_onBuffer _).unless.bind_eq fun data => ?_
    refine (hmake data _).bind_eq fun identifer => ?_
    exact hchild.bind_eq fun value => ih _

theorem simulates_readValue (type : Byte) :
    SimulatesUnless stop (Alongside valid) Eq (readValue V e identifers child type)
      (readValue V e identifers' child' type) := by
  unfold readValue
  split
  · exact simulates_readUint8String.unless.bind_eq fun _ => (simulates_pure rfl).unless
  · exact simulates_readString.unless.bind_eq fun _ => (simulates_pure rfl).unless
  · exact (simulates_onBuffer _).unless.bind_eq fun _ =>
      (simulates_readElements hchild _ _).bind_eq fun _ => (simulates_pure rfl).unless
  · exact (simulates_onBuffer _).unless.bind_eq fun _ =>
      (simulates_readEntries hmake hchild _ _).bind_eq fun _ => (simulates_pure rfl).unless
  · exact (simulates_onBuffer _).unless.bind_eq fun _ => (simulates_pure rfl).unless
  · exact (simulates_pure rfl).unless
  · exact (simulates_onBuffer _).unless.bind_eq fun _ => (simulates_pure rfl).unless
  · exact (simulates_onBuffer _).unless.bind_eq fun _ => (simulates_pure rfl).unless
  · exact (simulates_onBuffer _).unless.bind_eq fun _ => (simulates_pure rfl).unless
  · exact (simulates_pure rfl).unless
  · exact (simulates_pure rfl).unless

end Switch

/-- **Decoders in step**, on any bytes. -/
theorem simulates_wsonToJsValue (n : Nat) :
    Simulates (Alongside Slot.Consistent) Eq (wsonToJsValue V e n) (wsonToJsValue V e n) := by
  refine SimulatesUnless.simulates ?_
  induction n with
  | zero => exact (simulates_throw _).unless
  | succ n ih =>
    exact (simulates_onBuffer _).unless.bind_eq fun type => simulates_readValue simulates_makeIdentifer ih type

end Decode

/-! ## `init`, `destory` and `toJSValue` -/

theorem pos_systemCount : 0 < (4096 : BitVec 32).toNat := by decide

theorem pos_localCount : 0 < (32 : BitVec 32).toNat := by decide

theorem pos_localCount_two : 0 < (64 : BitVec 32).toNat := by decide

theorem pos_localCount_four : 0 < (128 : BitVec 32).toNat := by decide

/-- A table of `WSON_LOCAL_IDENTIFIER_CACHE_COUNT` new slots. -/
def Cache.new : Cache :=
  .replicate 32 pos_localCount .fresh

/-- `localIdentifiers` of `toJSValue`, for a buffer of this length. -/
def localIdentifiers (length : Nat) : Cache :=
  if length < 256 then .new
  else if length < 1024 * 2 then .replicate 64 pos_localCount_two .fresh
  else .replicate 128 pos_localCount_four .fresh

/-- The static variables; `M` are the addresses of VMs. -/
structure Statics (M : Type) where
  systemIdentifyCache : Option Cache
  systemIdentifyCacheVM : Option M

/-- What a decode returns, or the fault at which it stops, and the buffer as it leaves it. -/
def outcome {α : Type} : EStateM.Result Fault Decoder α → EStateM.Result Fault Buffer α
  | .ok value d => .ok value d.buffer
  | .error fault d => .error fault d.buffer

namespace Statics

variable {M : Type}

/-- `destory`: the slots are cleared and the array is deleted. -/
def destory (s : Statics M) : Statics M :=
  let s := if s.systemIdentifyCache.isSome then { s with systemIdentifyCache := none } else s
  if s.systemIdentifyCacheVM.isSome then { s with systemIdentifyCacheVM := none } else s

def init (vm : M) (s : Statics M) : Statics M :=
  let s := if s.systemIdentifyCache.isSome then s.destory else s
  let s := if s.systemIdentifyCacheVM.isSome then { s with systemIdentifyCacheVM := none } else s
  let s := { s with systemIdentifyCache := some (.replicate 4096 pos_systemCount .initial) }
  { s with systemIdentifyCacheVM := some vm }

variable {N : Type} [DecidableEq M] (V : M → Vm N) (e : Endian)

/-- `toJSValue` of a VM, with room for `n` calls. -/
def toJSValue (vm : M) (n : Nat) (buffer : Buffer) (s : Statics M) :
    EStateM.Result Fault Buffer (Decoded N) × Statics M :=
  if s.systemIdentifyCacheVM = some vm then
    match s.systemIdentifyCache with
    | some cache =>
      (outcome (wsonToJsValue (V vm) e n ⟨buffer, cache⟩),
        { s with systemIdentifyCache := some (decodeStep (V vm) e cache (n, buffer)) })
    -- a table at a null pointer
    | none => (.error .outOfBounds buffer, s)
  else (outcome (wsonToJsValue (V vm) e n ⟨buffer, localIdentifiers buffer.length⟩), s)

end Statics

/-- The calls of a program. -/
inductive SystemCall (M : Type) where
  | init (vm : M)
  | destory
  | toJSValue (vm : M) (n : Nat) (buffer : Buffer)

def Statics.step {M N : Type} [DecidableEq M] (V : M → Vm N) (e : Endian) (s : Statics M) :
    SystemCall M → Statics M
  | .init vm => s.init vm
  | .destory => s.destory
  | .toJSValue vm n buffer => (s.toJSValue V e vm n buffer).2

/-! ## Runs -/

section Runs

variable {M N : Type} [DecidableEq M] {V : M → Vm N} {e : Endian}

/-- A VM that has the table finds it, and all its slots consistent. -/
def Statics.Inv (s : Statics M) : Prop :=
  ∀ vm, s.systemIdentifyCacheVM = some vm → ∃ cache, s.systemIdentifyCache = some cache ∧ cache.Consistent

theorem consistent_localIdentifiers (length : Nat) : (localIdentifiers length).Consistent := by
  have hfresh : Slot.fresh.Consistent := fun h => absurd rfl h
  unfold localIdentifiers Cache.new
  split
  · exact Cache.consistent_replicate _ _ hfresh
  · split
    · exact Cache.consistent_replicate _ _ hfresh
    · exact Cache.consistent_replicate _ _ hfresh

omit [DecidableEq M] in
/-- Nothing is left, whichever of the two there was. -/
theorem destory_eq (s : Statics M) : s.destory = ⟨none, none⟩ := by
  obtain ⟨cache, vm⟩ := s
  cases cache with
  | none => cases vm <;> rfl
  | some cache => cases vm <;> rfl

omit [DecidableEq M] in
theorem inv_none : (⟨none, none⟩ : Statics M).Inv := by
  intro vm hvm
  cases hvm

omit [DecidableEq M] in
theorem inv_init (vm : M) (s : Statics M) : (s.init vm).Inv := by
  intro vm' _
  exact ⟨_, rfl, Cache.consistent_replicate _ _ fun h => absurd rfl h⟩

/-- Every call keeps the invariant, faults of a decode included. -/
theorem inv_step {s : Statics M} (hs : s.Inv) (call : SystemCall M) : (s.step V e call).Inv := by
  cases call with
  | init vm => exact inv_init vm s
  | destory =>
    show s.destory.Inv
    rw [destory_eq]
    exact inv_none
  | toJSValue vm n buffer =>
    show (s.toJSValue V e vm n buffer).2.Inv
    unfold Statics.toJSValue
    by_cases hvm : s.systemIdentifyCacheVM = some vm
    · obtain ⟨cache, hcache, hconsistent⟩ := hs vm hvm
      rw [if_pos hvm, hcache]
      intro vm' _
      exact ⟨_, rfl, keeps_wsonToJsValue n ⟨buffer, cache⟩ hconsistent⟩
    · rw [if_neg hvm]
      exact hs

theorem inv_statics_run {s : Statics M} (hs : s.Inv) (calls : List (SystemCall M)) :
    (run (Statics.step V e) s calls).Inv := by
  induction calls generalizing s with
  | nil => exact hs
  | cons call calls ih => exact ih (inv_step hs call)

/-- Decodes with consistent tables have the same outcome. -/
theorem outcome_eq {W : Vm N} {n : Nat} {buffer : Buffer} {cache cache' : Cache} (h : cache.Consistent)
    (h' : cache'.Consistent) :
    outcome (wsonToJsValue W e n ⟨buffer, cache⟩) = outcome (wsonToJsValue W e n ⟨buffer, cache'⟩) := by
  have hends := simulates_wsonToJsValue (V := W) (e := e) n (Alongside.mk rfl h h' :
    Alongside Slot.Consistent ⟨buffer, cache⟩ ⟨buffer, cache'⟩)
  cases hrun : wsonToJsValue W e n ⟨buffer, cache⟩ with
  | ok value d =>
    rw [hrun] at hends
    obtain ⟨value', d', hrun', rfl, halong⟩ := hends.eq_ok
    rw [hrun', outcome, outcome, halong.buffer]
  | error fault d =>
    rw [hrun] at hends
    obtain ⟨d', hrun', halong⟩ := hends.eq_error
    rw [hrun', outcome, outcome, halong.buffer]

/-- **The table of the system cannot be told from a new one**, whatever calls of whatever VMs came
before. -/
theorem answersAsNew (calls : List (SystemCall M)) (vm : M) (n : Nat) (buffer : Buffer) :
    ((run (Statics.step V e) ⟨none, none⟩ calls).toJSValue V e vm n buffer).1 =
      outcome (wsonToJsValue (V vm) e n ⟨buffer, .new⟩) := by
  have hnew : Cache.new.Consistent := Cache.consistent_replicate _ _ fun h => absurd rfl h
  have hinv : (run (Statics.step V e) ⟨none, none⟩ calls).Inv := inv_statics_run inv_none calls
  generalize run (Statics.step V e) ⟨none, none⟩ calls = s at hinv
  unfold Statics.toJSValue
  -- the shared table is consistent by the invariant, a local one is empty
  by_cases hvm : s.systemIdentifyCacheVM = some vm
  · obtain ⟨cache, hcache, hconsistent⟩ := hinv vm hvm
    rw [if_pos hvm, hcache]
    exact outcome_eq hconsistent hnew
  · rw [if_neg hvm]
    exact outcome_eq (consistent_localIdentifiers _) hnew

end Runs

end Wson.Jsc
