import Wson.Effect.Simulation
import Wson.Java.Accept

/-!
# How far the parser gets

`Parser` once more, with a meter: it counts the calls of `readObject`, and records
where each call and each turn of the loops of `readMap` and `readArray` that
completes has begun and ended.

- `erases_readObject`: the meter changes nothing.
- `Pays m`: what `m` yields and the calls it makes are paid for in bytes. `pays_readObject`:
  so the headers, whatever they say, do not make the parser run further than the array.
- `makesProgress`: the run of `Wson.parse` over any bytes, from any position.
-/

namespace Wson.Java

open Effect Wire

/-! ## Nodes -/

namespace JValue

mutual

def nodes : JValue → Nat
  | .list vs => nodesItems vs + 1
  | .map entries => nodesEntries entries + 1
  | _ => 1

def nodesItems : List JValue → Nat
  | [] => 0
  | v :: vs => nodes v + nodesItems vs

def nodesEntries : List (Utf16 × JValue) → Nat
  | [] => 0
  | (_, v) :: entries => nodes v + nodesEntries entries

end

theorem nodes_pos (v : JValue) : 1 ≤ v.nodes := by
  cases v <;> simp [nodes]

/-- A key that is there already loses its value. -/
theorem nodesEntries_mapPut (key : Utf16) (value : JValue) (entries : List (Utf16 × JValue)) :
    nodesEntries (mapPut key value entries) ≤ nodesEntries entries + value.nodes := by
  induction entries with
  | nil => simp [mapPut, nodesEntries]
  | cons entry entries ih =>
    obtain ⟨k, v⟩ := entry
    rw [mapPut]
    split
    · simp only [nodesEntries]
      omega
    · simp only [nodesEntries]
      omega

end JValue

/-! ## The meter -/

/-- Where a call, or a turn of a loop, has begun and ended. -/
structure Span where
  before : Int
  after : Int
  deriving DecidableEq, Repr

structure Meter where
  parser : Parser
  /-- The calls of `readObject` that have begun. -/
  calls : Nat
  /-- The calls and turns that have completed. -/
  spans : List Span

abbrev MeterM := EStateM Throwable Meter

namespace Meter

variable (e : Endian) (buffer : Bytes)

def onParser {α : Type} (m : ParserM α) : MeterM α :=
  zoom Meter.parser (fun p s => { s with parser := p }) m

def getPosition : MeterM Int := do
  let s ← get
  pure s.parser.position

/-- Record `m` if it completes. -/
def measured {α : Type} (m : MeterM α) : MeterM α := do
  let before ← getPosition
  let a ← m
  let after ← getPosition
  modify fun s => { s with spans := s.spans ++ [⟨before, after⟩] }
  pure a

/-- Count a call and record it. -/
def call {α : Type} (m : MeterM α) : MeterM α := do
  modify fun s => { s with calls := s.calls + 1 }
  measured m

def readEntries (readObject : MeterM JValue) :
    Nat → List (Utf16 × JValue) → MeterM (List (Utf16 × JValue))
  | 0, object => pure object
  | size + 1, object => do
    let object ← measured do
      let key ← onParser (Parser.readMapKeyUTF16 e buffer)
      let value ← readObject
      pure (mapPut key value object)
    readEntries readObject size object

def readMap (readObject : MeterM JValue) : MeterM JValue := do
  let size := (← onParser (Input.readUInt buffer)).toInt
  let object ← readEntries e buffer readObject size.toNat []
  pure (.map object)

def readElements (readObject : MeterM JValue) : Nat → MeterM (List JValue)
  | 0 => pure []
  | length + 1 => do
    let value ← measured readObject
    let array ← readElements readObject length
    pure (value :: array)

def readArray (readObject : MeterM JValue) : MeterM JValue := do
  let length := (← onParser (Input.readUInt buffer)).toInt
  if length < 0 then throw .illegalArgument
  let array ← readElements readObject length.toNat
  pure (.list array)

/-- The cases of the switch that call no other `readObject`. -/
def readScalar (type : Byte) : ParserM JValue :=
  if type = Tag.string then do return .string (← Parser.readUTF16String e buffer)
  else if type = Tag.int then do return .number (.integer (← Input.readVarInt buffer))
  else if type = Tag.float then do return .number (.float (← Input.readFloat buffer))
  else if type = Tag.double then do return .number (.double (← Input.readDouble buffer))
  else if type = Tag.long then do return .number (.long (← Input.readLong buffer))
  else if type = Tag.bigInteger then do
    return .number (.bigInteger (← Parser.parseNumber BigInteger.ofString (← Parser.readUTF16String e buffer)))
  else if type = Tag.bigDecimal then do
    return .number (.bigDecimal (← Parser.parseNumber BigDecimal.ofString (← Parser.readUTF16String e buffer)))
  else if type = Tag.booleanFalse then pure (.boolean false)
  else if type = Tag.booleanTrue then pure (.boolean true)
  else if type = Tag.null then pure .null
  else throw .runtime

def readObject : Nat → MeterM JValue
  | 0 => call (throw .stackOverflow)
  | n + 1 => call do
    let type ← onParser (Input.readType buffer)
    if type = Tag.map then readMap e buffer (readObject n)
    else if type = Tag.array then readArray buffer (readObject n)
    else onParser (readScalar e buffer type)

/-! ## The meter changes nothing -/

/-- The two programs do the same to the parser. -/
def Erases {α : Type} (m : MeterM α) (m' : ParserM α) : Prop :=
  Simulates (fun s p => s.parser = p) Eq m m'

variable {e buffer}

theorem erases_onParser {α : Type} (m : ParserM α) : Erases (onParser m) m := by
  rintro s _ rfl
  show SameEnd _ Eq (zoom _ _ m s) (m s.parser)
  unfold zoom
  cases m s.parser with
  | ok a p => exact .ok rfl rfl
  | error err p => exact .error err rfl

theorem Erases.measured {α : Type} {m : MeterM α} {m' : ParserM α} (h : Erases m m') :
    Erases (measured m) m' := by
  intro s p hs
  have hend := h hs
  show SameEnd _ Eq ((m >>= fun a => _) s) (m' p)
  cases hm : m s with
  | ok a t =>
    rw [hm] at hend
    obtain ⟨b, q, hp, hab, hst⟩ := hend.eq_ok
    rw [bind_of_ok hm, hp]
    exact .ok hab hst
  | error err t =>
    rw [hm] at hend
    obtain ⟨q, hp, hst⟩ := hend.eq_error
    rw [bind_of_error hm, hp]
    exact .error err hst

theorem Erases.call {α : Type} {m : MeterM α} {m' : ParserM α} (h : Erases m m') :
    Erases (call m) m' :=
  fun s _ hs => h.measured (s := { s with calls := s.calls + 1 }) hs

section Recursion

variable {child : MeterM JValue} {child' : ParserM JValue} (hchild : Erases child child')
include hchild

theorem erases_readEntries (size : Nat) (object : List (Utf16 × JValue)) :
    Erases (readEntries e buffer child size object)
      (Parser.readEntries e buffer child' size object) := by
  induction size generalizing object with
  | zero => exact simulates_pure rfl
  | succ size ih =>
    rw [readEntries, Parser.readEntries]
    have hturn : Erases (do
        let key ← onParser (Parser.readMapKeyUTF16 e buffer)
        let value ← child
        pure (mapPut key value object))
      (do
        let key ← Parser.readMapKeyUTF16 e buffer
        let value ← child'
        pure (mapPut key value object)) :=
      (erases_onParser _).bind_eq fun key => hchild.bind_eq fun value => simulates_pure rfl
    have hrun := hturn.measured.bind_eq fun object => ih object
    simp only [bind_assoc, pure_bind] at hrun
    exact hrun

theorem erases_readElements (length : Nat) :
    Erases (readElements child length) (Parser.readElements child' length) := by
  induction length with
  | zero => exact simulates_pure rfl
  | succ length ih =>
    exact hchild.measured.bind_eq fun value => ih.bind_eq fun array => simulates_pure rfl

theorem erases_readMap : Erases (readMap e buffer child) (Parser.readMap e buffer child') :=
  (erases_onParser _).bind_eq fun _ => (erases_readEntries hchild _ _).bind_eq fun _ =>
    simulates_pure rfl

theorem erases_readArray : Erases (readArray buffer child) (Parser.readArray buffer child') := by
  refine (erases_onParser _).bind_eq fun raw => ?_
  by_cases hneg : raw.toInt < 0
  · simp only [if_pos hneg]
    exact simulates_throw _
  · simp only [if_neg hneg]
    exact (erases_readElements hchild _).bind_eq fun _ => simulates_pure rfl

end Recursion

theorem readObject_succ_eq (n : Nat) : Parser.readObject e buffer (n + 1) = (do
    let type ← Input.readType buffer
    if type = Tag.map then Parser.readMap e buffer (Parser.readObject e buffer n)
    else if type = Tag.array then Parser.readArray buffer (Parser.readObject e buffer n)
    else readScalar e buffer type) := by
  rw [Parser.readObject]
  congr 1
  funext type
  by_cases hmap : type = Tag.map
  · subst hmap
    rfl
  by_cases harray : type = Tag.array
  · subst harray
    rfl
  · simp only [if_neg hmap, if_neg harray]
    rfl

/-- **The meter changes nothing**: the same result, and the parser in the same state. -/
theorem erases_readObject (n : Nat) :
    Erases (readObject e buffer n) (Parser.readObject e buffer n) := by
  induction n with
  | zero => exact Erases.call (simulates_throw _)
  | succ n ih =>
    rw [readObject_succ_eq]
    refine Erases.call ((erases_onParser _).bind_eq fun type => ?_)
    exact Simulates.ite (fun _ => erases_readMap ih) fun _ =>
      Simulates.ite (fun _ => erases_readArray ih) fun _ => erases_onParser _

/-! ## Readers that never run out of stack -/

section NoOverflow

open Input

/-- The readers of primitives and texts call no other method as often as they like. -/
abbrev Shallow {α : Type} (m : ParserM α) : Prop :=
  NeverThrows Throwable.stackOverflow m

theorem shallow_load (i : Int) : Shallow (load buffer i) := by
  unfold load
  split
  · exact neverThrows_pure _
  · exact neverThrows_throw (by decide)

theorem shallow_getPosition : Shallow Input.getPosition :=
  neverThrows_get.bind fun _ => neverThrows_pure _

theorem shallow_move (step : Int) : Shallow (move step) :=
  neverThrows_modify _

theorem shallow_readType : Shallow (readType buffer) :=
  shallow_getPosition.bind fun _ => (shallow_load _).bind fun _ => (shallow_move 1).bind fun _ =>
    neverThrows_pure _

theorem shallow_readUIntLoop (k : Nat) (value : BitVec 32) (i : Nat) :
    Shallow (readUIntLoop buffer k value i) := by
  induction k generalizing value i with
  | zero => exact neverThrows_throw (by decide)
  | succ k ih =>
    rw [readUIntLoop_succ]
    refine shallow_readType.bind fun b => NeverThrows.ite ?_ (neverThrows_pure _)
    exact (neverThrows_throw (by decide)).ite (ih _ _)

theorem shallow_readUInt : Shallow (readUInt buffer) :=
  shallow_readUIntLoop 7 0 0

theorem shallow_readVarInt : Shallow (readVarInt buffer) :=
  shallow_readUInt.bind fun _ => neverThrows_pure _

theorem shallow_readFloat : Shallow (readFloat buffer) :=
  shallow_getPosition.bind fun _ => (shallow_load _).bind fun _ => (shallow_load _).bind fun _ =>
    (shallow_load _).bind fun _ => (shallow_load _).bind fun _ => (shallow_move 4).bind fun _ =>
    neverThrows_pure _

theorem shallow_readLong : Shallow (readLong buffer) :=
  shallow_getPosition.bind fun _ => (shallow_load _).bind fun _ => (shallow_load _).bind fun _ =>
    (shallow_load _).bind fun _ => (shallow_load _).bind fun _ => (shallow_load _).bind fun _ =>
    (shallow_load _).bind fun _ => (shallow_load _).bind fun _ => (shallow_load _).bind fun _ =>
    (shallow_move 8).bind fun _ => neverThrows_pure _

theorem shallow_readDouble : Shallow (readDouble buffer) :=
  shallow_readLong.bind fun _ => neverThrows_pure _

theorem shallow_readChar : Shallow (Parser.readChar e buffer) :=
  shallow_getPosition.bind fun _ => (shallow_load _).bind fun _ => (shallow_load _).bind fun _ =>
    (shallow_move 2).bind fun _ => neverThrows_pure _

theorem shallow_readChars (length : Nat) : Shallow (Parser.readChars e buffer length) := by
  induction length with
  | zero => exact neverThrows_pure _
  | succ length ih => exact shallow_readChar.bind fun _ => ih.bind fun _ => neverThrows_pure _

theorem shallow_readUTF16String : Shallow (Parser.readUTF16String e buffer) := by
  refine shallow_readUInt.bind fun raw => (shallow_readChars _).bind fun chars => ?_
  exact (neverThrows_throw (by decide)).ite (neverThrows_pure _)

theorem shallow_newKey (length : Int) (chars : Utf16) (index : BitVec 11) :
    Shallow (Parser.readMapKeyUTF16.newKey length chars index) := by
  unfold Parser.readMapKeyUTF16.newKey
  refine NeverThrows.ite (neverThrows_throw (by decide)) ?_
  exact ((neverThrows_modify _).bind fun _ => neverThrows_pure _).ite (neverThrows_pure _)

theorem shallow_readMapKeyUTF16 : Shallow (Parser.readMapKeyUTF16 e buffer) := by
  refine shallow_readUInt.bind fun raw => (shallow_readChars _).bind fun chars =>
    neverThrows_get.bind fun p => ?_
  cases p.globalStringBytesCache ((Parser.hashOf chars).setWidth 11) with
  | none => exact shallow_newKey _ _ _
  | some cache => exact (neverThrows_pure _).ite (shallow_newKey _ _ _)

theorem shallow_parseNumber {α : Type} (ofString : Utf16 → Option α) (s : Utf16) :
    Shallow (Parser.parseNumber ofString s) := by
  unfold Parser.parseNumber
  cases ofString s with
  | some n => exact neverThrows_pure _
  | none => exact neverThrows_throw (by decide)

theorem shallow_readScalar (type : Byte) : Shallow (readScalar e buffer type) := by
  have htext {α : Type} (ofString : Utf16 → Option α) (f : α → JNumber) : Shallow (do
      return .number (f (← Parser.parseNumber ofString (← Parser.readUTF16String e buffer)))
        : ParserM JValue) :=
    shallow_readUTF16String.bind fun s => (shallow_parseNumber ofString s).bind fun _ =>
      neverThrows_pure _
  refine NeverThrows.ite (shallow_readUTF16String.bind fun _ => neverThrows_pure _) ?_
  refine NeverThrows.ite (shallow_readVarInt.bind fun _ => neverThrows_pure _) ?_
  refine NeverThrows.ite (shallow_readFloat.bind fun _ => neverThrows_pure _) ?_
  refine NeverThrows.ite (shallow_readDouble.bind fun _ => neverThrows_pure _) ?_
  refine NeverThrows.ite (shallow_readLong.bind fun _ => neverThrows_pure _) ?_
  refine NeverThrows.ite (htext BigInteger.ofString .bigInteger) ?_
  refine NeverThrows.ite (htext BigDecimal.ofString .bigDecimal) ?_
  refine NeverThrows.ite (neverThrows_pure _) (NeverThrows.ite (neverThrows_pure _) ?_)
  exact NeverThrows.ite (neverThrows_pure _) (neverThrows_throw (by decide))

end NoOverflow

/-! ## Paying for what is done -/

/-- From one byte on, and not behind the array. -/
def Forward (length : Nat) (span : Span) : Prop :=
  span.before + 1 ≤ span.after ∧ span.after ≤ length

/-- Everything that has completed went forward inside the array. -/
def Clean (buffer : Bytes) (s : Meter) : Prop :=
  ∀ span ∈ s.spans, Forward buffer.length span

structure Inside (buffer : Bytes) (s : Meter) : Prop where
  lower : 0 ≤ s.parser.position
  upper : s.parser.position ≤ buffer.length
  clean : s.Clean buffer

/-- A run that returned `a`: it went forward by the cost of `a`, and by one byte for each
call it made and the `spare` ones. -/
structure Completed {α : Type} (buffer : Bytes) (spare : Nat) (cost : α → Int) (s : Meter) (a : α)
    (s' : Meter) : Prop where
  inside : Inside buffer s'
  counted : s.calls ≤ s'.calls
  forward : s.parser.position ≤ s'.parser.position
  paid : s.parser.position + cost a ≤ s'.parser.position
  called : s'.calls + spare + s.parser.position ≤ s.calls + s'.parser.position

/-- A run that threw: one of its calls may not have been paid for, and to run out of
stack it must have gone as deep as bytes were left. -/
structure Failed (buffer : Bytes) (spare depth : Nat) (s : Meter) (err : Throwable) (s' : Meter) :
    Prop where
  clean : s'.Clean buffer
  called : s'.calls + spare + s.parser.position ≤ s.calls + buffer.length + 1
  deep : err = .stackOverflow → depth + s.parser.position ≤ buffer.length

structure Pays {α : Type} (buffer : Bytes) (spare depth : Nat) (cost : α → Int) (m : MeterM α) :
    Prop where
  completed : ∀ {s a s'}, Inside buffer s → m s = .ok a s' → Completed buffer spare cost s a s'
  failed : ∀ {s err s'}, Inside buffer s → m s = .error err s' →
    Failed buffer spare depth s err s'

theorem pays_pure {α : Type} {depth : Nat} (cost : α → Int) (a : α) (h : cost a ≤ 0) :
    Pays buffer 0 depth cost (pure a) where
  completed := by
    intro s b s' hs hm
    obtain ⟨rfl, rfl⟩ := EStateM.Result.ok.inj hm
    exact ⟨hs, le_refl _, le_refl _, by omega, by simp⟩
  failed := fun _ hm => nomatch hm

theorem pays_throw {α : Type} {depth : Nat} {cost : α → Int} {err : Throwable}
    (h : err ≠ .stackOverflow) : Pays buffer 0 depth cost (throw err : MeterM α) where
  completed := fun _ hm => nomatch hm
  failed := by
    intro s err' s' hs hm
    obtain ⟨rfl, rfl⟩ := EStateM.Result.error.inj hm
    have hupper := hs.upper
    exact ⟨hs.clean, by omega, fun heq => absurd heq h⟩

theorem pays_overflow {α : Type} {cost : α → Int} :
    Pays buffer 1 0 cost (throw .stackOverflow : MeterM α) where
  completed := fun _ hm => nomatch hm
  failed := by
    intro s err s' hs hm
    obtain ⟨rfl, rfl⟩ := EStateM.Result.error.inj hm
    have hupper := hs.upper
    exact ⟨hs.clean, by omega, fun _ => by omega⟩

/-- **Sequencing**: what the first part has gone forward by deepens the second one. -/
theorem Pays.bind {α β : Type} {spare depth depth₁ depth₂ : Nat} {cost₁ : α → Int}
    {cost₂ : α → β → Int} {cost : β → Int} {m : MeterM α} {f : α → MeterM β}
    (hm : Pays buffer spare depth₁ cost₁ m) (hf : ∀ a, Pays buffer 0 depth₂ (cost₂ a) (f a))
    (hdepth₁ : depth ≤ depth₁) (hdepth₂ : ∀ a, (depth : Int) ≤ depth₂ + max 0 (cost₁ a))
    (hcost : ∀ a b, cost b ≤ cost₁ a + cost₂ a b) : Pays buffer spare depth cost (m >>= f) where
  completed := by
    intro s b u hs h
    cases hms : m s with
    | ok a t =>
      rw [bind_of_ok hms] at h
      have h₁ := hm.completed hs hms
      have h₂ := (hf a).completed h₁.inside h
      have hpaid := hcost a b
      have p₁ := h₁.paid
      have p₂ := h₂.paid
      have c₁ := h₁.called
      have c₂ := h₂.called
      exact ⟨h₂.inside, le_trans h₁.counted h₂.counted, le_trans h₁.forward h₂.forward, by omega,
        by omega⟩
    | error err t =>
      rw [bind_of_error hms] at h
      exact nomatch h
  failed := by
    intro s err u hs h
    cases hms : m s with
    | ok a t =>
      rw [bind_of_ok hms] at h
      have h₁ := hm.completed hs hms
      have h₂ := (hf a).failed h₁.inside h
      have c₁ := h₁.called
      have c₂ := h₂.called
      refine ⟨h₂.clean, by omega, fun heq => ?_⟩
      -- what the first part has consumed makes up for the smaller depth of the second one
      have hdeep := h₂.deep heq
      have hforward := h₁.forward
      have hpaid := h₁.paid
      have hd := hdepth₂ a
      omega
    | error err' t =>
      rw [bind_of_error hms] at h
      obtain ⟨rfl, rfl⟩ := EStateM.Result.error.inj h
      have h₁ := hm.failed hs hms
      exact ⟨h₁.clean, h₁.called, fun heq => by have := h₁.deep heq; omega⟩

/-- Two parts with the same room on the stack. -/
theorem Pays.seq {α β : Type} {spare depth : Nat} {cost₁ : α → Int} {cost₂ : α → β → Int}
    {cost : β → Int} {m : MeterM α} {f : α → MeterM β} (hm : Pays buffer spare depth cost₁ m)
    (hf : ∀ a, Pays buffer 0 depth (cost₂ a) (f a)) (hcost : ∀ a b, cost b ≤ cost₁ a + cost₂ a b) :
    Pays buffer spare depth cost (m >>= f) :=
  hm.bind hf (le_refl _) (fun a => by omega) hcost

/-- One byte, and behind it a part with less room on the stack. -/
theorem Pays.deeper {α β : Type} {spare depth : Nat} {cost₂ : α → β → Int} {cost : β → Int}
    {m : MeterM α} {f : α → MeterM β} (hm : Pays buffer spare (depth + 1) (fun _ => (1 : Nat)) m)
    (hf : ∀ a, Pays buffer 0 depth (cost₂ a) (f a)) (hcost : ∀ a b, cost b ≤ 1 + cost₂ a b) :
    Pays buffer spare (depth + 1) cost (m >>= f) :=
  hm.bind hf (le_refl _) (fun a => by omega) hcost

theorem Pays.ite {α : Type} {spare depth : Nat} {cost : α → Int} {c : Prop} [Decidable c]
    {m m' : MeterM α} (hm : Pays buffer spare depth cost m) (hm' : Pays buffer spare depth cost m') :
    Pays buffer spare depth cost (if c then m else m') := by
  split
  · exact hm
  · exact hm'

theorem onParser_eq_ok {α : Type} {m : ParserM α} {s s' : Meter} {a : α} :
    onParser m s = .ok a s' ↔ ∃ p, m s.parser = .ok a p ∧ s' = { s with parser := p } := by
  unfold onParser zoom
  cases m s.parser with
  | ok b p => simp [eq_comm]
  | error err p => simp

theorem onParser_eq_error {α : Type} {m : ParserM α} {s s' : Meter} {err : Throwable} :
    onParser m s = .error err s' ↔ ∃ p, m s.parser = .error err p ∧ s' = { s with parser := p } := by
  unfold onParser zoom
  cases m s.parser with
  | ok b p => simp
  | error err' p => simp [eq_comm]

/-- A reader makes no calls; it pays with the bytes it consumes. -/
theorem pays_onParser {α : Type} {depth k : Nat} {cost : α → Int} {m : ParserM α}
    {spec : Bytes → α → Prop} (hm : Produces buffer Input.At (returns m) spec)
    (hspec : ∀ xs a, spec xs a → k ≤ xs.length ∧ cost a ≤ xs.length) (hshallow : Shallow m)
    (hk : k ≤ 1) : Pays buffer k depth cost (onParser m) where
  completed := by
    intro s a s' hs h
    obtain ⟨p, hms, rfl⟩ := onParser_eq_ok.mp h
    obtain ⟨q, hq⟩ := Int.eq_ofNat_of_zero_le hs.lower
    obtain ⟨xs, rest, hd, hx, hp⟩ := hm s.parser q a p hq (returns_eq_some.mpr hms)
    have hlen := congrArg List.length hd
    rw [List.length_drop, List.length_append] at hlen
    obtain ⟨hk', hcost⟩ := hspec xs a hx
    have hp : p.position = ((q + xs.length : Nat) : Int) := hp
    have hupper := hs.upper
    refine ⟨⟨?_, ?_, hs.clean⟩, le_refl _, ?_, ?_, ?_⟩ <;> simp only [hp] <;> omega
  failed := by
    intro s err s' hs h
    obtain ⟨p, hms, rfl⟩ := onParser_eq_error.mp h
    have hupper := hs.upper
    refine ⟨hs.clean, ?_, fun heq => ?_⟩
    · show (s.calls : Int) + k + s.parser.position ≤ s.calls + buffer.length + 1
      omega
    · subst heq
      exact absurd hms (hshallow _ _)

theorem measured_eq_ok {α : Type} {m : MeterM α} {s u : Meter} {a : α} :
    measured m s = .ok a u ↔ ∃ t, m s = .ok a t ∧
      u = { t with spans := t.spans ++ [⟨s.parser.position, t.parser.position⟩] } := by
  show (m >>= fun a => _) s = _ ↔ _
  cases hms : m s with
  | ok b t =>
    rw [bind_of_ok hms]
    constructor
    · intro h
      obtain ⟨rfl, rfl⟩ := EStateM.Result.ok.inj h
      exact ⟨t, rfl, rfl⟩
    · rintro ⟨t', h, rfl⟩
      obtain ⟨rfl, rfl⟩ := EStateM.Result.ok.inj h
      rfl
  | error err t =>
    rw [bind_of_error hms]
    constructor
    · intro h
      exact nomatch h
    · rintro ⟨_, h, -⟩
      exact nomatch h

theorem measured_eq_error {α : Type} {m : MeterM α} {s u : Meter} {err : Throwable} :
    measured m s = .error err u ↔ m s = .error err u := by
  show (m >>= fun a => _) s = _ ↔ _
  cases hms : m s with
  | ok b t =>
    rw [bind_of_ok hms]
    constructor
    · intro h
      exact nomatch h
    · intro h
      exact nomatch h
  | error err' t => rw [bind_of_error hms]

/-- What completes is recorded; it must have gone forward by a byte. -/
theorem Pays.measured {α : Type} {spare depth : Nat} {cost : α → Int} {m : MeterM α}
    (hm : Pays buffer spare depth cost m) (hone : ∀ a, 1 ≤ (spare : Int) ∨ 1 ≤ cost a) :
    Pays buffer spare depth cost (measured m) where
  completed := by
    intro s a u hs h
    obtain ⟨t, hms, rfl⟩ := measured_eq_ok.mp h
    have hc := hm.completed hs hms
    have hforward : s.parser.position + 1 ≤ t.parser.position := by
      have hcounted := hc.counted
      have hcalled := hc.called
      have hpaid := hc.paid
      rcases hone a with hspare | hcost <;> omega
    refine ⟨⟨hc.inside.lower, hc.inside.upper, ?_⟩, hc.counted, hc.forward, hc.paid, hc.called⟩
    intro span hspan
    rcases List.mem_append.mp hspan with hspan | hspan
    · exact hc.inside.clean span hspan
    · obtain rfl := List.mem_singleton.mp hspan
      exact ⟨hforward, hc.inside.upper⟩
  failed := fun hs h => hm.failed hs (measured_eq_error.mp h)

/-- A call takes up the byte that its body has to spare. -/
theorem Pays.call {α : Type} {depth : Nat} {cost : α → Int} {m : MeterM α}
    (hm : Pays buffer 1 depth cost m) : Pays buffer 0 depth cost (call m) where
  completed := by
    intro s a u hs h
    have hmeasured := hm.measured fun _ => .inl (le_refl 1)
    have hc := hmeasured.completed (s := { s with calls := s.calls + 1 })
      ⟨hs.lower, hs.upper, hs.clean⟩ h
    have hcounted : s.calls + 1 ≤ u.calls := hc.counted
    have hcalled : (u.calls : Int) + (1 : Nat) + s.parser.position
        ≤ (s.calls + 1 : Nat) + u.parser.position := hc.called
    exact ⟨hc.inside, by omega, hc.forward, hc.paid, by omega⟩
  failed := by
    intro s err u hs h
    have hmeasured := hm.measured fun _ => .inl (le_refl 1)
    have hf := hmeasured.failed (s := { s with calls := s.calls + 1 })
      ⟨hs.lower, hs.upper, hs.clean⟩ h
    have hcalled : (u.calls : Int) + (1 : Nat) + s.parser.position
        ≤ (s.calls + 1 : Nat) + buffer.length + 1 := hf.called
    exact ⟨hf.clean, by omega, hf.deep⟩

/-- A reader that gives no more than its bytes. -/
theorem Pays.weaken {α : Type} {spare depth : Nat} {cost cost' : α → Int} {m : MeterM α}
    (hm : Pays buffer spare depth cost m) (hcost : ∀ a, cost' a ≤ cost a) :
    Pays buffer 0 depth cost' m where
  completed := by
    intro s a s' hs h
    have hc := hm.completed hs h
    have hpaid := hc.paid
    have hcalled := hc.called
    have hle := hcost a
    exact ⟨hc.inside, hc.counted, hc.forward, by omega, by omega⟩
  failed := by
    intro s err s' hs h
    have hf := hm.failed hs h
    have hcalled := hf.called
    exact ⟨hf.clean, by omega, hf.deep⟩

/-! ## The parser pays -/

theorem length_pos_of_textAt {bs : Bytes} {s : Utf16} (h : Parser.TextAt e bs s) :
    1 ≤ bs.length := by
  obtain ⟨header, hd, -, rfl⟩ := h
  have hpos := hd.length_pos
  rw [List.length_append]
  omega

theorem pays_readType (depth : Nat) :
    Pays buffer 1 depth (fun _ => ((1 : Nat) : Int)) (onParser (Input.readType buffer)) :=
  pays_onParser Input.produces_readType (fun _ _ h => by rw [h, List.length_singleton]; omega)
    shallow_readType (le_refl 1)

theorem pays_readUInt (depth : Nat) :
    Pays buffer 0 depth (fun _ => ((0 : Nat) : Int)) (onParser (Input.readUInt buffer)) :=
  pays_onParser Input.produces_readUInt (fun _ _ _ => by omega) shallow_readUInt (Nat.zero_le 1)

theorem produces_readScalar (type : Byte) :
    Produces buffer Input.At (returns (readScalar e buffer type)) fun _ v => v.nodes = 1 := by
  have htext {α : Type} (ofString : Utf16 → Option α) (f : α → JNumber) :
      Produces buffer Input.At (returns (do
        return .number (f (← Parser.parseNumber ofString (← Parser.readUTF16String e buffer)))
          : ParserM JValue)) fun _ v => v.nodes = 1 := by
    rw [returns_bind_eq]
    refine Parser.produces_readUTF16String.seq fun _ s _ => ?_
    exact Parser.produces_wrap (Parser.produces_parseNumber ofString s) fun _ _ _ => rfl
  unfold readScalar
  split
  · exact Parser.produces_wrap Parser.produces_readUTF16String fun _ _ _ => rfl
  split
  · exact Parser.produces_wrap Input.produces_readVarInt fun _ _ _ => rfl
  split
  · exact Parser.produces_wrap Input.produces_readFloat fun _ _ _ => rfl
  split
  · exact Parser.produces_wrap Input.produces_readDouble fun _ _ _ => rfl
  split
  · exact Parser.produces_wrap Input.produces_readLong fun _ _ _ => rfl
  split
  · exact htext BigInteger.ofString .bigInteger
  split
  · exact htext BigDecimal.ofString .bigDecimal
  split
  · exact produces_return rfl
  split
  · exact produces_return rfl
  split
  · exact produces_return rfl
  · exact Parser.produces_throw

section Recursion

variable {n : Nat} {child : MeterM JValue}
  (hchild : Pays buffer 0 n (fun v : JValue => (v.nodes : Int)) child)
include hchild

theorem pays_readElements (length : Nat) :
    Pays buffer 0 n (fun vs => (JValue.nodesItems vs : Int)) (readElements child length) := by
  induction length with
  | zero => exact pays_pure _ [] (le_refl _)
  | succ length ih =>
    have hturn := hchild.measured fun v => .inr (by have := v.nodes_pos; omega)
    have hrest (value : JValue) : Pays buffer 0 n
        (fun vs => (JValue.nodesItems vs : Int) - value.nodes)
        (readElements child length >>= fun array => pure (value :: array)) :=
      ih.seq (fun array => pays_pure (fun vs =>
        (JValue.nodesItems vs : Int) - value.nodes - JValue.nodesItems array) _
          (by simp only [JValue.nodesItems]; omega)) fun _ _ => by omega
    exact hturn.seq hrest fun _ _ => by omega

/-- The nodes of the object grow by no more than the bytes of an entry. -/
theorem pays_entry (object : List (Utf16 × JValue)) :
    Pays buffer 1 n (fun object' => (JValue.nodesEntries object' : Int) - JValue.nodesEntries object)
      (do
        let key ← onParser (Parser.readMapKeyUTF16 e buffer)
        let value ← child
        pure (mapPut key value object)) := by
  have hkey : Pays buffer 1 n (fun _ => ((1 : Nat) : Int))
      (onParser (Parser.readMapKeyUTF16 e buffer)) :=
    pays_onParser Parser.produces_readMapKeyUTF16 (fun _ _ h => by
      have hpos := length_pos_of_textAt h
      omega) shallow_readMapKeyUTF16 (le_refl 1)
  have hvalue (key : Utf16) : Pays buffer 0 n (fun object' =>
      (JValue.nodesEntries object' : Int) - JValue.nodesEntries object)
      (child >>= fun value => pure (mapPut key value object)) :=
    hchild.seq (fun value => pays_pure (fun object' => (JValue.nodesEntries object' : Int)
      - JValue.nodesEntries object - value.nodes) _
        (by have := JValue.nodesEntries_mapPut key value object; omega)) fun _ _ => by omega
  exact hkey.seq hvalue fun _ _ => by omega

theorem pays_readEntries (size : Nat) (object : List (Utf16 × JValue)) :
    Pays buffer 0 n (fun object' => (JValue.nodesEntries object' : Int) - JValue.nodesEntries object)
      (readEntries e buffer child size object) := by
  induction size generalizing object with
  | zero => exact pays_pure _ object (by omega)
  | succ size ih =>
    have hturn := (pays_entry (e := e) hchild object).measured fun _ => .inl (le_refl 1)
    exact (hturn.weaken fun _ => le_refl _).seq (fun object' => ih object') fun _ _ => by omega

theorem pays_readMap :
    Pays buffer 0 n (fun v : JValue => (v.nodes : Int) - 1) (readMap e buffer child) := by
  have hentries (size : Nat) : Pays buffer 0 n (fun v : JValue => (v.nodes : Int) - 1)
      (readEntries e buffer child size [] >>= fun object => pure (JValue.map object)) := by
    refine (pays_readEntries hchild size []).seq (fun object => pays_pure
      (fun v : JValue => (v.nodes : Int) - 1 - JValue.nodesEntries object) _ ?_) fun object v => ?_
    · simp only [JValue.nodes]
      omega
    · simp only [JValue.nodesEntries]
      omega
  exact (pays_readUInt n).seq (fun raw => hentries raw.toInt.toNat) fun _ _ => by omega

theorem pays_readArray :
    Pays buffer 0 n (fun v : JValue => (v.nodes : Int) - 1) (readArray buffer child) := by
  have helements (length : Nat) : Pays buffer 0 n (fun v : JValue => (v.nodes : Int) - 1)
      (readElements child length >>= fun array => pure (JValue.list array)) := by
    refine (pays_readElements hchild length).seq (fun array => pays_pure
      (fun v : JValue => (v.nodes : Int) - 1 - JValue.nodesItems array) _ ?_) fun array v => by omega
    simp only [JValue.nodes]
    omega
  have hbody (raw : BitVec 32) : Pays buffer 0 n (fun v : JValue => (v.nodes : Int) - 1) (do
      if raw.toInt < 0 then throw .illegalArgument
      let array ← readElements child raw.toInt.toNat
      pure (JValue.list array)) := by
    by_cases hneg : raw.toInt < 0
    · simp only [if_pos hneg]
      exact pays_throw (by decide)
    · simp only [if_neg hneg]
      exact helements _
  exact (pays_readUInt n).seq hbody fun _ _ => by omega

end Recursion

/-- **The parser pays for its nodes and calls**, by induction on the room on the stack. -/
theorem pays_readObject (n : Nat) :
    Pays buffer 0 n (fun v : JValue => (v.nodes : Int)) (readObject e buffer n) := by
  induction n with
  | zero => exact pays_overflow.call
  | succ n ih =>
    have hscalar (type : Byte) : Pays buffer 0 n (fun v : JValue => (v.nodes : Int) - 1)
        (onParser (readScalar e buffer type)) :=
      pays_onParser (produces_readScalar type) (fun xs v h => by omega) (shallow_readScalar type)
        (Nat.zero_le 1)
    have hswitch (type : Byte) : Pays buffer 0 n (fun v : JValue => (v.nodes : Int) - 1)
        (if type = Tag.map then readMap e buffer (readObject e buffer n)
        else if type = Tag.array then readArray buffer (readObject e buffer n)
        else onParser (readScalar e buffer type)) :=
      (pays_readMap ih).ite ((pays_readArray ih).ite (hscalar type))
    exact Pays.call ((pays_readType (n + 1)).deeper hswitch fun _ v => by omega)

/-! ## Any position -/

/-- The meter of the run of `Wson.parse`. -/
def ofParse (e : Endian) (n : Nat) (data : Bytes) (position : Int)
    (cache : BitVec 11 → Option Utf16) : Meter :=
  final (readObject e data n) ⟨⟨position, cache⟩, 0, []⟩

/-- From outside the array the first call reads nothing. -/
theorem readObject_outside (n : Nat) {s : Meter}
    (h : ¬ (0 ≤ s.parser.position ∧ s.parser.position < buffer.length)) :
    readObject e buffer (n + 1) s = .error .arrayIndexOutOfBounds { s with calls := s.calls + 1 } := by
  have hload : Input.readType buffer s.parser = .error .arrayIndexOutOfBounds s.parser := by
    refine bind_of_error (m := Input.load buffer s.parser.position) ?_ _
    unfold Input.load
    rw [dif_neg h]
    rfl
  have htype : onParser (Input.readType buffer) { s with calls := s.calls + 1 }
      = .error .arrayIndexOutOfBounds { s with calls := s.calls + 1 } :=
    onParser_eq_error.mpr ⟨_, hload, rfl⟩
  exact measured_eq_error.mpr (bind_of_error htype _)

/-- The meter at the end, wherever reading has started. -/
theorem ofParse_spec {data : Bytes} {n : Nat} (position : Int) (cache : BitVec 11 → Option Utf16)
    (hn : data.length < n) : (ofParse e n data position cache).Clean data ∧
      (ofParse e n data position cache).calls ≤ data.length + 1 := by
  have hstart : (⟨⟨position, cache⟩, 0, []⟩ : Meter).Clean data := fun _ hspan => nomatch hspan
  by_cases hin : 0 ≤ position ∧ position < data.length
  · have hs : Inside data ⟨⟨position, cache⟩, 0, []⟩ := ⟨hin.1, le_of_lt hin.2, hstart⟩
    have hpays : Pays data 0 n _ (readObject e data n) := pays_readObject n
    cases hrun : readObject e data n ⟨⟨position, cache⟩, 0, []⟩ with
    | ok v t =>
      rw [ofParse, final_of_ok hrun]
      have hc := hpays.completed hs hrun
      have hcalled := hc.called
      have hupper := hc.inside.upper
      have hlower := hin.1
      refine ⟨hc.inside.clean, ?_⟩
      simp only at hcalled
      omega
    | error err t =>
      rw [ofParse, final_of_error hrun]
      have hf := hpays.failed hs hrun
      have hcalled := hf.called
      have hlower := hin.1
      refine ⟨hf.clean, ?_⟩
      simp only at hcalled
      omega
  · obtain ⟨k, rfl⟩ : ∃ k, n = k + 1 := ⟨n - 1, by omega⟩
    rw [ofParse, final_of_error (readObject_outside k hin)]
    exact ⟨hstart, by simp⟩

/-- The parser without the meter: how it can end. -/
theorem ends_readObject {data : Bytes} {n : Nat} (position : Int)
    (cache : BitVec 11 → Option Utf16) (hn : data.length < n) :
    (∃ v p, Parser.readObject e data n ⟨position, cache⟩ = .ok v p ∧ v.nodes ≤ data.length) ∨
      ∃ err p, Parser.readObject e data n ⟨position, cache⟩ = .error err p ∧
        err ≠ .stackOverflow := by
  have hsame : Erases (readObject e data n) (Parser.readObject e data n) := erases_readObject n
  have herases := hsame (show (⟨⟨position, cache⟩, 0, []⟩ : Meter).parser = _ from rfl)
  obtain ⟨k, rfl⟩ : ∃ k, n = k + 1 := ⟨n - 1, by omega⟩
  by_cases hin : 0 ≤ position ∧ position < data.length
  · have hs : Inside data ⟨⟨position, cache⟩, 0, []⟩ :=
      ⟨hin.1, le_of_lt hin.2, fun _ hspan => nomatch hspan⟩
    have hpays : Pays data 0 (k + 1) _ (readObject e data (k + 1)) := pays_readObject (k + 1)
    cases hrun : readObject e data (k + 1) ⟨⟨position, cache⟩, 0, []⟩ with
    | ok v t =>
      rw [hrun] at herases
      have hc := hpays.completed hs hrun
      have hpaid := hc.paid
      have hupper := hc.inside.upper
      have hlower := hin.1
      simp only at hpaid
      obtain ⟨w, p, hp, rfl, -⟩ := herases.eq_ok
      exact .inl ⟨v, p, hp, by omega⟩
    | error err t =>
      rw [hrun] at herases
      have hf := hpays.failed hs hrun
      have hlower := hin.1
      obtain ⟨p, hp, -⟩ := herases.eq_error
      refine .inr ⟨err, p, hp, fun heq => ?_⟩
      have hdeep := hf.deep heq
      simp only at hdeep
      omega
  · rw [readObject_outside k hin] at herases
    obtain ⟨p, hp, -⟩ := herases.eq_error
    exact .inr ⟨_, p, hp, by decide⟩

/-! ## More room on the stack -/

section Extends

variable {child child' : ParserM JValue} (hchild : Extends Throwable.stackOverflow child child')
include hchild

theorem extends_readEntries (size : Nat) (object : List (Utf16 × JValue)) :
    Extends Throwable.stackOverflow (Parser.readEntries e buffer child size object)
      (Parser.readEntries e buffer child' size object) := by
  induction size generalizing object with
  | zero => exact Extends.refl _
  | succ size ih =>
    exact (Extends.refl _).bind fun key => hchild.bind fun value => ih _

theorem extends_readElements (length : Nat) :
    Extends Throwable.stackOverflow (Parser.readElements child length)
      (Parser.readElements child' length) := by
  induction length with
  | zero => exact Extends.refl _
  | succ length ih => exact hchild.bind fun value => ih.bind fun array => Extends.refl _

theorem extends_readMap :
    Extends Throwable.stackOverflow (Parser.readMap e buffer child)
      (Parser.readMap e buffer child') :=
  (Extends.refl _).bind fun _ => (extends_readEntries hchild _ _).bind fun _ => Extends.refl _

theorem extends_readArray :
    Extends Throwable.stackOverflow (Parser.readArray buffer child)
      (Parser.readArray buffer child') := by
  refine (Extends.refl _).bind fun raw => ?_
  by_cases hneg : raw.toInt < 0
  · simp only [if_pos hneg]
    exact Extends.refl _
  · simp only [if_neg hneg]
    exact (extends_readElements hchild _).bind fun _ => Extends.refl _

end Extends

/-- A run that has not run out of stack is the same with more of it. -/
theorem extends_readObject (n : Nat) :
    Extends Throwable.stackOverflow (Parser.readObject e buffer n)
      (Parser.readObject e buffer (n + 1)) := by
  induction n with
  | zero => exact extends_throw _
  | succ n ih =>
    rw [readObject_succ_eq n, readObject_succ_eq (n + 1)]
    refine (Extends.refl _).bind fun type => ?_
    exact (extends_readMap ih).ite ((extends_readArray ih).ite (Extends.refl _))

end Meter

/-! ## `Wson.parse` -/

/-- The run of `Wson.parse(data, position)` with room for `n` nested calls. -/
structure MakesProgress (e : Endian) (n : Nat) (data : Bytes) (position : Int)
    (cache : BitVec 11 → Option Utf16) : Prop where
  /-- Every call of `readObject` and every turn of a loop that completes goes forward. -/
  forward : ∀ span ∈ (Meter.ofParse e n data position cache).spans,
    span.before + 1 ≤ span.after ∧ span.after ≤ data.length
  calls : (Meter.ofParse e n data position cache).calls ≤ data.length + 1
  /-- It returns, and does what it would do with any other sufficient stack. -/
  returned : ∃ object cache', parse e n data position cache = .ok object cache' ∧
    parse e (data.length + 1) data position cache = .ok object cache'
  /-- What was read has no more nodes than there are bytes; null may stand for an exception. -/
  nodes : ∀ object cache', parse e n data position cache = .ok object cache' →
    object = .null ∨ object.nodes ≤ data.length

theorem parse_succ {e : Endian} {n : Nat} {data : Bytes} (position : Int)
    (cache : BitVec 11 → Option Utf16) (hn : data.length < n) :
    parse e (n + 1) data position cache = parse e n data position cache := by
  unfold parse
  have hextends : Extends _ (Parser.readObject e data n) _ := Meter.extends_readObject n
  rcases hextends ⟨position, cache⟩ with heq | ⟨s, hs⟩
  · rw [heq]
  · rcases Meter.ends_readObject (e := e) position cache hn with
      ⟨v, p, hok, -⟩ | ⟨err, p, herror, hne⟩
    · exact nomatch hok.symm.trans hs
    · exact absurd (EStateM.Result.error.inj (herror.symm.trans hs)).1 hne

/-- **The parser makes progress** over any bytes, from any position, whatever the headers
say; a stack for as many calls as there are bytes and one more is enough. -/
theorem makesProgress {n : Nat} {data : Bytes} (hn : data.length < n) (e : Endian)
    (position : Int) (cache : BitVec 11 → Option Utf16) :
    MakesProgress e n data position cache := by
  have hsame : parse e n data position cache = parse e (data.length + 1) data position cache := by
    induction n, hn using Nat.le_induction with
    | base => rfl
    | succ k hk ih => exact (parse_succ position cache hk).trans ih
  -- the meter runs beside the parser and counts its calls
  obtain ⟨hclean, hcalls⟩ := Meter.ofParse_spec (e := e) position cache hn
  obtain ⟨object, cache', hparse, hnodes⟩ : ∃ object cache',
      parse e n data position cache = .ok object cache' ∧
        (object = .null ∨ object.nodes ≤ data.length) := by
    unfold parse
    rcases Meter.ends_readObject (e := e) position cache hn with
      ⟨v, p, hok, hnodes⟩ | ⟨err, p, herror, hne⟩
    · rw [hok]
      exact ⟨v, _, rfl, .inr hnodes⟩
    · have hexception : err.isException = true := by
        cases err <;> first | rfl | exact absurd rfl hne
      rw [herror]
      simp only [hexception, if_true]
      exact ⟨.null, _, rfl, .inl rfl⟩
  refine ⟨hclean, hcalls, ⟨object, cache', hparse, hsame ▸ hparse⟩, ?_⟩
  intro object' cache'' hparse'
  obtain ⟨rfl, rfl⟩ := EStateM.Result.ok.inj (hparse.symm.trans hparse')
  exact hnodes

/-- An array that claims `2^31 - 1` elements and has one. -/
theorem makesProgress_sample :
    MakesProgress .little 8 [Tag.array, 0xFF, 0xFF, 0xFF, 0xFF, 0x07, Tag.null] 0 fun _ => none :=
  makesProgress (by decide) _ _ _

end Wson.Java
