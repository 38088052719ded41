import Wson.Effect.Shared
import Wson.Java.InStep
import Wson.Java.Progress

/-!
# Parsers on several threads

All threads read and write `globalStringBytesCache` without a lock. Here `Wson.parse` is
the program of a thread that shares the entries of this array with other threads; loads and
stores of references are atomic, and strings do not change. Everything else that a parser
uses is its own.

- `Served m m'`: the shared program `m` ends as the plain `m'` does, whatever it finds in the
  cache, with two accesses for each byte at most (`served_readObject`).
- `parsesAlone`: so every parse returns what it returns alone, in any interleaving, and
  waits for no other thread.
-/

namespace Wson.Java

open Effect Wire

/-- What a method returns or throws, and the position behind it. -/
abbrev Ended (α : Type) := Except Throwable α × Int

def ended {α : Type} : EStateM.Result Throwable Parser α → Ended α
  | .ok a p => (.ok a, p.position)
  | .error err p => (.error err, p.position)

/-- A method of the parser, started at a position. -/
def SharedM (α : Type) : Type :=
  Int → Access (BitVec 11) (Option Utf16) (Ended α)

namespace SharedM

/-- An exception ends the method that calls, too. -/
def bind {α β : Type} (m : SharedM α) (f : α → SharedM β) : SharedM β := fun position =>
  (m position).bind fun ended =>
    match ended with
    | (.ok a, position) => f a position
    | (.error err, position) => .done (.error err, position)

instance : Monad SharedM where
  pure a position := .done (.ok a, position)
  bind := bind

def throw {α : Type} (err : Throwable) : SharedM α := fun position =>
  .done (.error err, position)

/-- A reader that does not use the cache. -/
def onInput {α : Type} (m : ParserM α) : SharedM α := fun position =>
  .done (ended (m ⟨position, fun _ => none⟩))

/-- `globalStringBytesCache[globalIndex]`. -/
def loadCache (globalIndex : BitVec 11) : SharedM (Option Utf16) := fun position =>
  .load globalIndex fun cache => .done (.ok cache, position)

/-- `globalStringBytesCache[globalIndex] = cache`. -/
def storeCache (globalIndex : BitVec 11) (cache : Utf16) : SharedM Unit := fun position =>
  .store globalIndex (some cache) (.done (.ok (), position))

variable (e : Endian) (buffer : Bytes)

def readMapKeyUTF16 : SharedM Utf16 := do
  let length := (← onInput (Input.readUInt buffer)).toInt.tdiv 2
  let chars ← onInput (Parser.readChars e buffer length.toNat)
  let globalIndex := (Parser.hashOf chars).setWidth 11
  match ← loadCache globalIndex with
  | some cache =>
    if (cache.length : Int) = length ∧ chars = cache then pure cache
    else newKey length chars globalIndex
  | none => newKey length chars globalIndex
where
  newKey (length : Int) (chars : Utf16) (globalIndex : BitVec 11) : SharedM Utf16 := do
    if length < 0 then throw .stringIndexOutOfBounds
    else
      if length < 64 then storeCache globalIndex chars
      pure chars

def readEntries (readObject : SharedM JValue) :
    Nat → List (Utf16 × JValue) → SharedM (List (Utf16 × JValue))
  | 0, object => pure object
  | size + 1, object => do
    let key ← readMapKeyUTF16 e buffer
    let value ← readObject
    readEntries readObject size (mapPut key value object)

def readMap (readObject : SharedM JValue) : SharedM JValue := do
  let size := (← onInput (Input.readUInt buffer)).toInt
  let object ← readEntries e buffer readObject size.toNat []
  pure (.map object)

def readElements (readObject : SharedM JValue) : Nat → SharedM (List JValue)
  | 0 => pure []
  | length + 1 => do
    let value ← readObject
    let array ← readElements readObject length
    pure (value :: array)

def readArray (readObject : SharedM JValue) : SharedM JValue := do
  let length := (← onInput (Input.readUInt buffer)).toInt
  if length < 0 then throw .illegalArgument
  else
    let array ← readElements readObject length.toNat
    pure (.list array)

def readObject : Nat → SharedM JValue
  | 0 => throw .stackOverflow
  | n + 1 => do
    let type ← onInput (Input.readType buffer)
    if type = Tag.map then readMap e buffer (readObject n)
    else if type = Tag.array then readArray buffer (readObject n)
    else onInput (Meter.readScalar e buffer type)

end SharedM

/-! ## Alone and with others -/

theorem ended_eq {α : Type} {r r' : EStateM.Result Throwable Parser α}
    (h : SameEnd Parser.SamePosition Eq r r') : ended r = ended r' := by
  cases h with
  | ok hab hst => exact Prod.ext (congrArg Except.ok hab) hst
  | error err hst => exact Prod.ext rfl hst

/-- A method that goes on behind another one, by how that one has ended. -/
theorem ended_bind {α β : Type} {m : ParserM α} {f : α → ParserM β} (s : Parser) :
    (∃ a t, m s = .ok a t ∧ (m >>= f) s = f a t) ∨
      ∃ err t, m s = .error err t ∧ (m >>= f) s = .error err t := by
  cases h : m s with
  | ok a t => exact .inl ⟨a, t, rfl, bind_of_ok h f⟩
  | error err t => exact .inr ⟨err, t, rfl, bind_of_error h f⟩

namespace SharedM

open Access

variable {e : Endian} {buffer : Bytes}

/-- The shared program ends as the plain one does. It makes at most two accesses for each byte it
moves over; where it throws, for each byte that was ahead, and two more. -/
structure Served {α : Type} (buffer : Bytes) (m : SharedM α) (m' : ParserM α) : Prop where
  returned : ∀ {p : Nat} {cache : BitVec 11 → Option Utf16} {a : α} {s : Parser}, p ≤ buffer.length →
    m' ⟨p, cache⟩ = .ok a s → ∃ k : Nat, s.position = (p + k : Nat) ∧ p + k ≤ buffer.length ∧
      Ends (m p) (.ok a, s.position) (2 * k)
  threw : ∀ {p : Nat} {cache : BitVec 11 → Option Utf16} {err : Throwable} {s : Parser},
    p ≤ buffer.length → m' ⟨p, cache⟩ = .error err s →
      Ends (m p) (.error err, s.position) (2 * (buffer.length - p) + 2)

theorem served_pure {α : Type} (a : α) : Served buffer (pure a) (pure a) where
  returned := by
    intro p cache b s hp h
    obtain ⟨rfl, rfl⟩ := EStateM.Result.ok.inj h
    exact ⟨0, rfl, hp, .done _ _⟩
  threw := by
    intro p cache err s hp h
    cases h

theorem served_throw {α : Type} (err : Throwable) :
    Served buffer (throw err : SharedM α) (MonadExcept.throw err) where
  returned := by
    intro p cache b s hp h
    cases h
  threw := by
    intro p cache err' s hp h
    obtain ⟨rfl, rfl⟩ := EStateM.Result.error.inj h
    exact .done _ _

/-- **Sequencing**: the bytes add up, and the accesses with them. -/
theorem Served.bind {α β : Type} {m : SharedM α} {m' : ParserM α} {f : α → SharedM β}
    {f' : α → ParserM β} (hm : Served buffer m m') (hf : ∀ a, Served buffer (f a) (f' a)) :
    Served buffer (m >>= f) (m' >>= f') where
  returned := by
    intro p cache b u hp h
    rcases @ended_bind _ _ m' f' ⟨p, cache⟩ with ⟨a, t, hms, hrest⟩ | ⟨err, t, hms, hrest⟩
    · obtain ⟨k, hk, hle, hends⟩ := hm.returned hp hms
      obtain ⟨position, cache'⟩ := t
      obtain rfl := hk
      obtain ⟨j, hj, hle', hends'⟩ := (hf a).returned hle (hrest.symm.trans h)
      refine ⟨k + j, by rw [hj, Nat.add_assoc], by omega, ?_⟩
      rw [Nat.mul_add]
      exact hends.bind hends'
    · cases hrest.symm.trans h
  threw := by
    intro p cache err u hp h
    rcases @ended_bind _ _ m' f' ⟨p, cache⟩ with ⟨a, t, hms, hrest⟩ | ⟨err', t, hms, hrest⟩
    · obtain ⟨k, hk, hle, hends⟩ := hm.returned hp hms
      obtain ⟨position, cache'⟩ := t
      obtain rfl := hk
      have hends' := (hf a).threw hle (hrest.symm.trans h)
      exact (hends.bind hends').mono (by omega)
    · obtain ⟨rfl, rfl⟩ := EStateM.Result.error.inj (hrest.symm.trans h)
      have hends := hm.threw hp hms
      exact (show Ends ((m >>= f) (p : Int)) _ (_ + 0) from Ends.bind hends (.done _ 0))

theorem Served.ite {α : Type} {c : Prop} [Decidable c] {m₁ m₂ : SharedM α} {m₁' m₂' : ParserM α}
    (h₁ : c → Served buffer m₁ m₁') (h₂ : ¬ c → Served buffer m₂ m₂') :
    Served buffer (if c then m₁ else m₂) (if c then m₁' else m₂') := by
  split
  · next h => exact h₁ h
  · next h => exact h₂ h

/-- Readers make no access. -/
theorem served_onInput {α : Type} {m : ParserM α} {spec : Bytes → α → Prop}
    (hm : Produces buffer Input.At (returns m) spec)
    (hsame : Simulates Parser.SamePosition Eq m m) : Served buffer (onInput m) m where
  returned := by
    intro p cache a s hp h
    obtain ⟨xs, rest, hd, -, hs⟩ := hm ⟨p, cache⟩ p a s rfl (returns_eq_some.mpr h)
    have hlen := congrArg List.length hd
    rw [List.length_drop, List.length_append] at hlen
    refine ⟨xs.length, hs, by omega, ?_⟩
    have hends : ended (m ⟨p, fun _ => none⟩) = (.ok a, s.position) := by
      rw [ended_eq (hsame (show Parser.SamePosition ⟨p, fun _ => none⟩ ⟨p, cache⟩ from rfl)), h]
      rfl
    show Ends (.done (ended (m ⟨p, fun _ => none⟩))) _ _
    rw [hends]
    exact .done _ _
  threw := by
    intro p cache err s hp h
    have hends : ended (m ⟨p, fun _ => none⟩) = (.error err, s.position) := by
      rw [ended_eq (hsame (show Parser.SamePosition ⟨p, fun _ => none⟩ ⟨p, cache⟩ from rfl)), h]
      rfl
    show Ends (.done (ended (m ⟨p, fun _ => none⟩))) _ _
    rw [hends]
    exact .done _ _

/-! ### Keys -/

/-- From any position, the shared program ends as the plain one does, after `n` accesses at most. -/
def Within {α : Type} (n : Nat) (m : SharedM α) (m' : ParserM α) : Prop :=
  ∀ (position : Int) (cache : BitVec 11 → Option Utf16),
    Ends (m position) (ended (m' ⟨position, cache⟩)) n

theorem Within.bind {α β : Type} {n k : Nat} {m : SharedM α} {m' : ParserM α} {f : α → SharedM β}
    {f' : α → ParserM β} (hm : Within n m m') (hf : ∀ a, Within k (f a) (f' a)) :
    Within (n + k) (m >>= f) (m' >>= f') := by
  intro position cache
  have hends := hm position cache
  rcases @ended_bind _ _ m' f' ⟨position, cache⟩ with ⟨a, t, hms, hrest⟩ | ⟨err, t, hms, hrest⟩
  · rw [hms] at hends
    rw [hrest]
    exact Ends.bind hends (hf a t.position t.globalStringBytesCache)
  · rw [hms] at hends
    rw [hrest]
    exact Ends.bind hends (.done _ k)

theorem within_onInput {α : Type} {m : ParserM α} (hsame : Simulates Parser.SamePosition Eq m m) :
    Within 0 (onInput m) m := by
  intro position cache
  rw [ended_eq (hsame (show Parser.SamePosition ⟨position, cache⟩ ⟨position, fun _ => none⟩ from rfl))]
  exact .done _ 0

/-- What another thread has stored is either the key or no use. -/
theorem ends_newKey (length : Int) (chars : Utf16) (globalIndex : BitVec 11) (position : Int) :
    Ends (readMapKeyUTF16.newKey length chars globalIndex position)
      (if length < 0 then (.error .stringIndexOutOfBounds, position) else (.ok chars, position)) 1 := by
  unfold readMapKeyUTF16.newKey
  by_cases hneg : length < 0
  · rw [if_pos hneg, if_pos hneg]
    exact .done _ 1
  · rw [if_neg hneg, if_neg hneg]
    by_cases hshort : length < 64
    · simp only [if_pos hshort]
      exact .store (.done _ 0)
    · simp only [if_neg hshort]
      exact .done _ 1

theorem within_readMapKeyUTF16 :
    Within 2 (readMapKeyUTF16 e buffer) (Parser.readMapKeyUTF16 e buffer) := by
  show Within (0 + (0 + 2)) _ _
  refine (within_onInput Parser.simulates_readUInt).bind fun raw => ?_
  refine (within_onInput (Parser.simulates_readChars _)).bind fun chars => ?_
  intro position cache
  -- the plain lookup ends in the same way whatever is in the cache
  obtain ⟨cache', hplain⟩ := Parser.lookup_eq (raw.toInt.tdiv 2) chars
    ((Parser.hashOf chars).setWidth 11) ⟨position, cache⟩
  have hended : ∀ (r : EStateM.Result Throwable Parser Utf16),
      r = (if raw.toInt.tdiv 2 < 0 then .error .stringIndexOutOfBounds ⟨position, cache⟩
        else .ok chars ⟨position, cache'⟩) →
      ended r = if raw.toInt.tdiv 2 < 0 then (.error .stringIndexOutOfBounds, position)
        else (.ok chars, position) := by
    rintro _ rfl
    split
    · rfl
    · rfl
  refine Eq.mp (congrArg (Ends _ · 2) (hended _ hplain).symm) ?_
  refine .load fun word => ?_
  have hnew := ends_newKey (raw.toInt.tdiv 2) chars ((Parser.hashOf chars).setWidth 11) position
  cases word with
  | none => exact hnew
  | some word =>
    show Ends ((if (word.length : Int) = raw.toInt.tdiv 2 ∧ chars = word then pure word
      else readMapKeyUTF16.newKey _ chars _ : SharedM Utf16) position) _ 1
    split
    · next hkey =>
      rw [if_neg (by omega), hkey.2]
      exact .done _ 1
    · exact hnew

/-- A key has at least the byte of its length, which pays for both accesses. -/
theorem served_readMapKeyUTF16 :
    Served buffer (readMapKeyUTF16 e buffer) (Parser.readMapKeyUTF16 e buffer) where
  returned := by
    intro p cache key s hp h
    obtain ⟨xs, rest, hd, htext, hs⟩ :=
      Parser.produces_readMapKeyUTF16 ⟨p, cache⟩ p key s rfl (returns_eq_some.mpr h)
    have hlen := congrArg List.length hd
    rw [List.length_drop, List.length_append] at hlen
    have hpos := Meter.length_pos_of_textAt htext
    refine ⟨xs.length, hs, by omega, ?_⟩
    have hends := (within_readMapKeyUTF16 : Within 2 (readMapKeyUTF16 e buffer) _) p cache
    rw [h] at hends
    exact hends.mono (by omega)
  threw := by
    intro p cache err s hp h
    have hends := (within_readMapKeyUTF16 : Within 2 (readMapKeyUTF16 e buffer) _) p cache
    rw [h] at hends
    exact hends.mono (by omega)

/-! ### Objects -/

section Recursion

variable {child : SharedM JValue} {child' : ParserM JValue} (hchild : Served buffer child child')
include hchild

theorem served_readEntries (size : Nat) (object : List (Utf16 × JValue)) :
    Served buffer (readEntries e buffer child size object)
      (Parser.readEntries e buffer child' size object) := by
  induction size generalizing object with
  | zero => exact served_pure object
  | succ size ih =>
    exact served_readMapKeyUTF16.bind fun key => hchild.bind fun value => ih _

theorem served_readElements (length : Nat) :
    Served buffer (readElements child length) (Parser.readElements child' length) := by
  induction length with
  | zero => exact served_pure []
  | succ length ih => exact hchild.bind fun value => ih.bind fun array => served_pure _

theorem served_readMap : Served buffer (readMap e buffer child) (Parser.readMap e buffer child') := by
  refine (served_onInput Input.produces_readUInt Parser.simulates_readUInt).bind fun raw => ?_
  exact (served_readEntries hchild _ _).bind fun object => served_pure _

theorem served_readArray :
    Served buffer (readArray buffer child) (Parser.readArray buffer child') := by
  refine (served_onInput Input.produces_readUInt Parser.simulates_readUInt).bind fun raw => ?_
  by_cases hneg : raw.toInt < 0
  · simp only [if_pos hneg]
    exact served_throw _
  · simp only [if_neg hneg]
    exact (served_readElements hchild _).bind fun array => served_pure _

end Recursion

theorem simulates_readScalar (type : Byte) :
    Simulates Parser.SamePosition Eq (Meter.readScalar e buffer type) (Meter.readScalar e buffer type) := by
  have htext {α : Type} (ofString : Utf16 → Option α) (f : α → JNumber) :
      Simulates Parser.SamePosition Eq
        (do return .number (f (← Parser.parseNumber ofString (← Parser.readUTF16String e buffer)))
          : ParserM JValue)
        (do return .number (f (← Parser.parseNumber ofString (← Parser.readUTF16String e buffer)))) :=
    Parser.simulates_readUTF16String.bind_eq fun s =>
      (Parser.simulates_parseNumber ofString s).bind_eq fun _ => simulates_pure rfl
  unfold Meter.readScalar
  split
  · exact Parser.simulates_readUTF16String.bind_eq fun _ => simulates_pure rfl
  split
  · exact Parser.simulates_readVarInt.bind_eq fun _ => simulates_pure rfl
  split
  · exact Parser.simulates_readFloat.bind_eq fun _ => simulates_pure rfl
  split
  · exact (Parser.simulates_readLong.bind_eq fun _ => simulates_pure rfl).bind_eq fun _ =>
      simulates_pure rfl
  split
  · exact Parser.simulates_readLong.bind_eq fun _ => simulates_pure rfl
  split
  · exact htext BigInteger.ofString .bigInteger
  split
  · exact htext BigDecimal.ofString .bigDecimal
  split
  · exact simulates_pure rfl
  split
  · exact simulates_pure rfl
  split
  · exact simulates_pure rfl
  · exact simulates_throw _

/-- **Served**: whatever the other threads store, an object is read as without them. -/
theorem served_readObject (n : Nat) :
    Served buffer (readObject e buffer n) (Parser.readObject e buffer n) := by
  induction n with
  | zero => exact served_throw _
  | succ n ih =>
    rw [Meter.readObject_succ_eq]
    refine (served_onInput Input.produces_readType Parser.simulates_readType).bind fun type => ?_
    refine Served.ite (fun _ => served_readMap ih) fun _ => Served.ite (fun _ => served_readArray ih) fun _ => ?_
    exact served_onInput (Meter.produces_readScalar type) (simulates_readScalar type)

/-- From outside the array nothing is read, and no key is looked up. -/
theorem ends_outside {position : Int} (h : ¬ (0 ≤ position ∧ position < buffer.length)) (n : Nat)
    (cache : BitVec 11 → Option Utf16) :
    Ends (readObject e buffer n position) (ended (Parser.readObject e buffer n ⟨position, cache⟩)) 0 := by
  cases n with
  | zero => exact .done _ 0
  | succ n =>
    have htype : Input.readType buffer ⟨position, cache⟩ =
        .error .arrayIndexOutOfBounds ⟨position, cache⟩ := by
      refine bind_of_error (m := Input.load buffer position) ?_ _
      unfold Input.load
      rw [dif_neg h]
      rfl
    have hends :=
      (within_onInput Parser.simulates_readType : Within 0 (onInput (Input.readType buffer)) _) position cache
    rw [htype] at hends
    rw [Meter.readObject_succ_eq, bind_of_error htype]
    exact (show Ends ((onInput (Input.readType buffer) >>= _ : SharedM JValue) position) _ (0 + 0) from
      Ends.bind hends (.done _ 0))

/-- Any position: the accesses are bounded by the length of the array. -/
theorem ends_readObject (n : Nat) (position : Int) (cache : BitVec 11 → Option Utf16) :
    Ends (readObject e buffer n position) (ended (Parser.readObject e buffer n ⟨position, cache⟩))
      (2 * buffer.length + 2) := by
  by_cases h : 0 ≤ position ∧ position < buffer.length
  · obtain ⟨p, rfl⟩ := Int.eq_ofNat_of_zero_le h.1
    have hp : p ≤ buffer.length := by omega
    have hserved : Served buffer (readObject e buffer n) (Parser.readObject e buffer n) := served_readObject n
    cases hrun : Parser.readObject e buffer n ⟨p, cache⟩ with
    | ok object s =>
      obtain ⟨k, -, hk, hends⟩ := hserved.returned hp hrun
      exact hends.mono (by omega)
    | error err s =>
      have hends := hserved.threw hp hrun
      exact hends.mono (by omega)
  · exact (ends_outside h n cache).mono (Nat.zero_le _)

end SharedM

/-! ## Threads -/

open Access

/-- What `Wson.parse` makes of the way in which `readObject` has ended: an exception becomes null. -/
def Ended.caught : Ended JValue → Except Throwable JValue
  | (.ok object, _) => .ok object
  | (.error err, _) => if err.isException then .ok .null else .error err

/-- `Wson.parse` on a thread. -/
def SharedM.parse (e : Endian) (n : Nat) (data : Bytes) (position : Int) :
    Access (BitVec 11) (Option Utf16) (Except Throwable JValue) :=
  (SharedM.readObject e data n position).bind fun ended => .done ended.caught

/-- A call of `Wson.parse`, with room for `n` nested calls on the stack. -/
structure ParseCall where
  n : Nat
  data : Bytes
  position : Int

/-- What the call returns or throws when no other thread runs and the cache is empty. -/
def ParseCall.alone (e : Endian) (call : ParseCall) : Except Throwable JValue :=
  match Java.parse e call.n call.data call.position fun _ => none with
  | .ok object _ => .ok object
  | .error err _ => .error err

/-- As many accesses of the cache as a call may make. -/
def ParseCall.accesses (call : ParseCall) : Nat :=
  2 * call.data.length + 2

/-- The calls of a thread, one after the other, with what each returns or throws. -/
def parseAll (e : Endian) :
    List ParseCall → Access (BitVec 11) (Option Utf16) (List (Except Throwable JValue))
  | [] => .done []
  | call :: calls =>
    (SharedM.parse e call.n call.data call.position).bind fun result =>
      (parseAll e calls).bind fun results => .done (result :: results)

theorem ends_parse (e : Endian) (call : ParseCall) :
    Ends (SharedM.parse e call.n call.data call.position) (call.alone e) call.accesses := by
  have hends : Ends (SharedM.readObject e call.data call.n call.position) _ _ :=
    SharedM.ends_readObject call.n call.position fun _ => none
  have hcaught : call.alone e =
      (ended (Parser.readObject e call.data call.n ⟨call.position, fun _ => none⟩)).caught := by
    unfold ParseCall.alone Java.parse
    cases Parser.readObject e call.data call.n ⟨call.position, fun _ => none⟩ with
    | ok object s => rfl
    | error err s =>
      dsimp only [ended, Ended.caught]
      cases err.isException with
      | true => rfl
      | false => rfl
  rw [hcaught]
  exact hends.bind (f := fun ended => .done ended.caught) (.done _ 0)

theorem ends_parseAll (e : Endian) (calls : List ParseCall) :
    Ends (parseAll e calls) (calls.map fun call => call.alone e) (calls.map ParseCall.accesses).sum := by
  induction calls with
  | nil => exact .done _ _
  | cons call calls ih =>
    rw [List.map_cons, List.map_cons, List.sum_cons]
    have hrest := ih.bind (f := fun results => .done (call.alone e :: results)) (.done _ 0)
    exact (ends_parse e call).bind
      (f := fun result => (parseAll e calls).bind fun results => .done (result :: results)) hrest

/-- **Each thread parses as if it were alone**: in any interleaving, starting with anything in the
cache, all that a thread has got from its calls is what they return alone, and it has got it once it
has had two turns for each byte and two for each call. -/
theorem parsesAlone {ι : Type} [DecidableEq ι] (e : Endian) (calls : ι → List ParseCall)
    (cache : BitVec 11 → Option Utf16) (turns : List ι) (i : ι) :
    (∀ results, (run Machine.step ⟨cache, fun i => parseAll e (calls i)⟩ turns).threads i =
        .done results → results = (calls i).map fun call => call.alone e) ∧
      (((calls i).map ParseCall.accesses).sum ≤ turns.count i →
        (run Machine.step ⟨cache, fun i => parseAll e (calls i)⟩ turns).threads i =
          .done ((calls i).map fun call => call.alone e)) := by
  have hstart : Ends ((Machine.mk cache fun i => parseAll e (calls i)).threads i)
      ((calls i).map fun call => call.alone e) ((calls i).map ParseCall.accesses).sum :=
    ends_parseAll e (calls i)
  -- the other threads can only change the cache, on which no result depends
  have hends := Machine.ends_run hstart turns
  constructor
  · intro results hdone
    rw [hdone] at hends
    exact hends.result_eq
  · intro hturns
    rw [Nat.sub_eq_zero_of_le hturns] at hends
    exact hends.eq_done

end Wson.Java
