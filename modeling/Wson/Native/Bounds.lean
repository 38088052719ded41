import Wson.Effect.Confined
import Wson.Native.Session

/-!
# Reading what another process has sent

`wson_parser(data, length)` over any `length` bytes, in the copy of the library in `io/`.
Only `nextType` asks for the length; everything behind a type is read as the headers and
counts say.

- `Value`: the bytes that a traversal reads for a value, where they are all there.
- `keeps_toJSONtring`, `keeps_skipValue`: where a whole value stands, nothing else is read.
- `reveals_toJSONtring`, `reveals_skipValue`: a run that stays inside has had a whole value
  to read.
- `readsInside_iff`: so a sequence of calls stays inside iff the bytes are whole values, one
  for each call.
-/

namespace Wson.Native

open Effect Wire

namespace Bounds

open Buffer Native.Parser

/-! ## Whole values -/

/-- What a traversal makes of a value: how many bytes of a float it reads, and from which length
on it stops at a text. -/
structure Reading where
  floats : Nat
  limit : Nat

/-- `toJSONtring`, where `size * 2` is an `int`. -/
def Reading.json : Reading := ⟨4, 2 ^ 30⟩

/-- `skipValue` moves over texts, and does nothing for a float. -/
def Reading.skip : Reading := ⟨0, 2 ^ 32⟩

/-- A length, and as many bytes. -/
structure Block (h xs : Bytes) : Prop where
  header : Header 5 h
  length_eq : xs.length = (uintOf 0 h).toNat

theorem Block.length_lt {h xs : Bytes} (hblock : Block h xs) : xs.length < 2 ^ 32 :=
  hblock.length_eq ▸ (uintOf 0 h).isLt

/-- How often a loop runs; a count is an `int`. -/
def count (h : Bytes) : Nat :=
  (uintOf 0 h).toInt.toNat

mutual

/-- The bytes of a value, with its type in front. The traversal halts where it comes to a text
that is too long. -/
inductive Value (r : Reading) : Bytes → Bool → Prop
  | mk {t xs halts} : Payload r (Doc.Kind.ofTag t) xs halts → Value r (t :: xs) halts

/-- What stands behind a type; behind one that does not exist, nothing is read. -/
inductive Payload (r : Reading) : Option Doc.Kind → Bytes → Bool → Prop
  | unknown : Payload r none [] false
  | null : Payload r (some .null) [] false
  | boolean {b} : Payload r (some (.boolean b)) [] false
  | int {h} : Header 5 h → Payload r (some .int) h false
  | float {xs} : xs.length = r.floats → Payload r (some .float) xs false
  | double {xs} : xs.length = 8 → Payload r (some .double) xs false
  | long {xs} : xs.length = 8 → Payload r (some .long) xs false
  | uint8String {h xs} : Block h xs → Payload r (some .uint8String) (h ++ xs) false
  | text {kind h xs} : Block h xs →
      Payload r (some (.text kind)) (h ++ xs) (decide (r.limit ≤ xs.length))
  | array {h body halts} : Header 5 h → Items r (count h) body halts →
      Payload r (some .array) (h ++ body) halts
  | map {h body halts} : Header 5 h → Entries r (count h) body halts →
      Payload r (some .map) (h ++ body) halts

inductive Items (r : Reading) : Nat → Bytes → Bool → Prop
  | nil : Items r 0 [] false
  | cons {k xs rest halts} : Value r xs false → Items r k rest halts →
      Items r (k + 1) (xs ++ rest) halts
  | value {k xs} : Value r xs true → Items r (k + 1) xs true

inductive Entries (r : Reading) : Nat → Bytes → Bool → Prop
  | nil : Entries r 0 [] false
  | cons {k h key xs rest halts} : Block h key → key.length < r.limit → Value r xs false →
      Entries r k rest halts → Entries r (k + 1) ((h ++ key) ++ (xs ++ rest)) halts
  | key {k h key} : Block h key → r.limit ≤ key.length → Entries r (k + 1) (h ++ key) true
  | value {k h key xs} : Block h key → key.length < r.limit → Value r xs true →
      Entries r (k + 1) ((h ++ key) ++ xs) true

end

/-! ## Runs in the block -/

section Runs

variable (data : Bytes)

/-- No byte outside of the block is read, and the position is in the block or at its end. It only
moves forward in these runs, so that nothing is lost by looking at it where they end. -/
abbrev InBlock {α : Type} (m : BufferM α) (p : Nat) : Prop :=
  Confined (· ≠ Fault.outOfBounds) (fun buffer => buffer.position ≤ data.length) m
    ⟨data, p, data.length⟩

abbrev Kept {α : Type} (m : BufferM α) (xs : Bytes) (Q : α → Prop) : Prop :=
  Keeps data (At data data.length) (· ≠ Fault.outOfBounds)
    (fun buffer => buffer.position ≤ data.length) m xs Q

abbrev Revealed {α : Type} (lo : Nat) (m : BufferM α) (spec : Bytes → Option α → Prop) : Prop :=
  Reveals data (At data data.length) (· ≠ Fault.outOfBounds)
    (fun buffer => buffer.position ≤ data.length) lo m spec

end Runs

section Keeps

variable {data : Bytes} {e : Endian} {libc : Libc}

theorem kept_throw {α : Type} {fault : Fault} (hf : fault ≠ .outOfBounds) {xs : Bytes} {Q : α → Prop} :
    Kept data (throw fault : BufferM α) xs Q := by
  rintro _ p rest ⟨rfl, hp⟩ -
  exact ⟨hf, hp⟩

theorem kept_discard {α : Type} {m : BufferM α} {xs : Bytes} {Q : α → Prop} (h : Kept data m xs Q) :
    Kept data (discard m) xs fun _ => True :=
  (h.bind fun _ _ => keeps_pure (Q := fun _ => True) trivial).of_eq (List.append_nil xs)

theorem kept_wrap {α β : Type} {m : BufferM α} {xs : Bytes} {Q : α → Prop} (h : Kept data m xs Q)
    (f : α → β) : Kept data (do return f (← m)) xs fun _ => ∃ a, Q a :=
  (h.bind fun a ha => keeps_pure (Q := fun _ => ∃ a, Q a) ⟨a, ha⟩).of_eq (List.append_nil xs)

variable (hdata : data.length < 2 ^ 31)

include hdata

theorem length_lt_io : data.length < 2 ^ Library.io.bits :=
  hdata.trans (by decide)

theorem kept_readType (t : Byte) : Kept data (readType .io) [t] (· = t) :=
  keeps_of_consumes (consumes_readType (length_lt_io hdata) t)

theorem kept_readVarUint {h : Bytes} (hh : Header 5 h) :
    Kept data (readVarUint .io) h (· = uintOf 0 h) :=
  keeps_of_consumes (consumes_readVarUint_header (length_lt_io hdata) hh)

theorem kept_readVarInt {h : Bytes} (hh : Header 5 h) : Kept data (readVarInt .io) h fun _ => True :=
  ((kept_readVarUint hdata hh).bind fun _ _ => keeps_pure (Q := fun _ => True) trivial).of_eq
    (List.append_nil h)

theorem kept_readFixedUint64 {xs : Bytes} (hxs : xs.length = 8) :
    Kept data (readFixedUint64 .io) xs fun _ => True := by
  rw [eq_be64_of_length hxs]
  exact (keeps_of_consumes (consumes_readFixedUint64 (length_lt_io hdata) _)).mono fun _ _ => trivial

theorem kept_readFloat {xs : Bytes} (hxs : xs.length = 4) :
    Kept data (readFloat .io) xs fun _ => True := by
  rw [eq_be32_of_length hxs]
  exact (keeps_of_consumes (consumes_readFloat (length_lt_io hdata) _)).mono fun _ _ => trivial

omit hdata in
/-- A pointer to where the position has been, which has moved by that many bytes. -/
theorem readBts_eq (data : Bytes) {p : Nat} (hp : p < 2 ^ 63) (size : BitVec 32) :
    readBts .io size ⟨data, p, data.length⟩ = .ok p ⟨data, p + size.toNat, data.length⟩ := by
  have hsize := size.isLt
  show EStateM.Result.ok p (⟨data, (p + size.toNat) % 2 ^ 64, data.length⟩ : Buffer) = _
  rw [Nat.mod_eq_of_lt (by omega)]

/-- The bytes of a block are passed over, and what follows may look at them. -/
theorem kept_block {α : Type} {h xs : Bytes} (hblock : Block h xs) {f : Nat → BufferM α} {Q : α → Prop}
    (hf : ∀ p, p + xs.length ≤ data.length →
      match f p ⟨data, p + xs.length, data.length⟩ with
      | .ok a buffer => buffer = ⟨data, p + xs.length, data.length⟩ ∧ Q a
      | .error fault buffer => fault ≠ .outOfBounds ∧ buffer.position ≤ data.length) :
    Kept data (readBts .io (uintOf 0 h) >>= f) xs Q := by
  rintro _ p rest ⟨rfl, hp⟩ hdrop
  have hend := end_le_length hdrop hp
  rw [bind_of_ok (readBts_eq data (by omega) _), ← hblock.length_eq]
  have hrun := hf p hend
  cases hrest : f p ⟨data, p + xs.length, data.length⟩ with
  | ok a buffer =>
    rw [hrest] at hrun
    exact ⟨⟨hrun.1, hend⟩, hrun.2⟩
  | error fault buffer =>
    rw [hrest] at hrun
    exact hrun

theorem kept_skipBlock {h xs : Bytes} (hblock : Block h xs) :
    Kept data (skipBlock .io) (h ++ xs) fun _ => True := by
  refine (kept_readVarUint hdata hblock.header).bind ?_
  rintro _ rfl
  exact kept_block hdata hblock fun p _ => ⟨rfl, trivial⟩

omit hdata in
theorem bytesAt_ok {p q k : Nat} (h : p + k ≤ data.length) :
    bytesAt p k ⟨data, q, data.length⟩ = .ok ((data.drop p).take k) ⟨data, q, data.length⟩ := by
  rw [bytesAt, if_pos h]

omit hdata in
theorem requireDecodingBuffer_ok {size : BitVec 32} (h : size.toNat < 2 ^ 30) (buffer : Buffer) :
    requireDecodingBuffer size buffer = .ok () buffer := by
  have hint : size.toInt = size.toNat := BitVec.toInt_eq_toNat_of_lt (by omega)
  rw [requireDecodingBuffer, if_neg (by rw [hint]; omega)]
  rfl

omit hdata in
theorem requireDecodingBuffer_overflow {size : BitVec 32} (h : 2 ^ 30 ≤ size.toNat) (buffer : Buffer) :
    requireDecodingBuffer size buffer = .error .overflow buffer := by
  have hint : size.toInt < 0 ∨ 2 ^ 31 ≤ size.toInt * 2 := by
    rw [BitVec.toInt_eq_toNat_cond]
    split <;> omega
  rw [requireDecodingBuffer, if_pos hint]
  rfl

/-- A text is decoded unless `size * 2` overflows. -/
theorem kept_readUtf16 {h xs : Bytes} (hblock : Block h xs) :
    Kept data (readUtf16 .io e) (h ++ xs) fun _ => xs.length < 2 ^ 30 := by
  refine (kept_readVarUint hdata hblock.header).bind ?_
  rintro _ rfl
  refine kept_block hdata hblock fun p hp => ?_
  have hsize := hblock.length_eq
  by_cases hlong : xs.length < 2 ^ 30
  · rw [bind_of_ok (requireDecodingBuffer_ok (by omega) _), bind_of_ok (bytesAt_ok (by omega))]
    exact ⟨rfl, hlong⟩
  · rw [bind_of_error (requireDecodingBuffer_overflow (by omega) _)]
    exact ⟨by decide, hp⟩

theorem appendBytes_ok {xs : Bytes} {size : BitVec 32} {p q : Nat} (hsize : xs.length = size.toNat)
    (hp : p + xs.length ≤ data.length) :
    ∃ bs, appendBytes p size ⟨data, q, data.length⟩ = .ok bs ⟨data, q, data.length⟩ := by
  have hint : size.toInt = xs.length := by
    rw [BitVec.toInt_eq_toNat_of_lt (by omega), hsize]
  refine ⟨(data.drop p).take size.toNat, ?_⟩
  rw [appendBytes, if_neg (by rw [hint]; omega)]
  exact bytesAt_ok (by omega)

theorem kept_readUtf8 {h xs : Bytes} (hblock : Block h xs) :
    Kept data (readUtf8 .io) (h ++ xs) fun _ => True := by
  refine (kept_readVarUint hdata hblock.header).bind ?_
  rintro _ rfl
  refine kept_block hdata hblock fun p hp => ?_
  obtain ⟨bs, hbs⟩ := appendBytes_ok (q := p + xs.length) hdata hblock.length_eq hp
  rw [hbs]
  exact ⟨rfl, trivial⟩

/-! ### Loops -/

omit hdata in
theorem kept_skipItems {skip : Byte → BufferM Unit}
    (hvalue : ∀ {xs halts}, Value .skip xs halts →
      Kept data (do skip (← readType .io)) xs fun _ => halts = false) {k : Nat} {xs : Bytes} {halts : Bool}
    (h : Items .skip k xs halts) : Kept data (skipItems .io skip k) xs fun _ => halts = false := by
  induction k generalizing xs halts with
  | zero =>
    cases h with
    | nil => exact keeps_pure rfl
  | succ k ih =>
    rw [skipItems, ← bind_assoc]
    cases h with
    | cons hxs hrest => exact (hvalue hxs).bind fun _ _ => ih hrest
    | value hxs => exact ((hvalue hxs).mono fun _ h => nomatch h).halt _ _

theorem kept_skipEntries {skip : Byte → BufferM Unit}
    (hvalue : ∀ {xs halts}, Value .skip xs halts →
      Kept data (do skip (← readType .io)) xs fun _ => halts = false) {k : Nat} {xs : Bytes} {halts : Bool}
    (h : Entries .skip k xs halts) : Kept data (skipEntries .io skip k) xs fun _ => halts = false := by
  induction k generalizing xs halts with
  | zero =>
    cases h with
    | nil => exact keeps_pure rfl
  | succ k ih =>
    rw [skipEntries]
    cases h with
    | cons hkey _ hxs hrest =>
      refine (kept_skipBlock hdata hkey).bind fun _ _ => ?_
      rw [← bind_assoc]
      exact (hvalue hxs).bind fun _ _ => ih hrest
    | key hkey hlong =>
      exact absurd hkey.length_lt (Nat.not_lt.mpr hlong)
    | value hkey _ hxs =>
      refine (kept_skipBlock hdata hkey).bind fun _ _ => ?_
      rw [← bind_assoc]
      exact ((hvalue hxs).mono fun _ h => nomatch h).halt _ _

/-- **Skipping**: where the payload of a value stands, nothing else is read. -/
theorem kept_skipValue {n : Nat} {t : Byte} {xs : Bytes} {halts : Bool}
    (h : Payload .skip (Doc.Kind.ofTag t) xs halts) :
    Kept data (skipValue .io n t) xs fun _ => halts = false := by
  induction n generalizing t xs halts with
  | zero => exact kept_throw (by decide)
  | succ n ih =>
    have hvalue : ∀ {xs halts}, Value .skip xs halts →
        Kept data (do skipValue .io n (← readType .io)) xs fun _ => halts = false := by
      rintro _ _ ⟨hxs⟩
      refine (kept_readType hdata _).bind ?_
      rintro _ rfl
      exact ih hxs
    rw [skipValue]
    generalize Doc.Kind.ofTag t = k at h ⊢
    cases h with
    | unknown | null | boolean => exact keeps_pure rfl
    | int hh => exact (kept_discard (kept_readVarInt hdata hh)).mono fun _ _ => rfl
    | float hxs =>
      obtain rfl := List.length_eq_zero_iff.mp hxs
      exact keeps_pure rfl
    | double hxs | long hxs =>
      exact (kept_discard (kept_readFixedUint64 hdata hxs)).mono fun _ _ => rfl
    | uint8String hblock => exact (kept_skipBlock hdata hblock).mono fun _ _ => rfl
    | text hblock =>
      exact (kept_skipBlock hdata hblock).mono fun _ _ => decide_eq_false (Nat.not_le.mpr hblock.length_lt)
    | array hh hitems =>
      refine (kept_readVarUint hdata hh).bind ?_
      rintro _ rfl
      exact kept_skipItems hvalue hitems
    | map hh hentries =>
      refine (kept_readVarUint hdata hh).bind ?_
      rintro _ rfl
      exact kept_skipEntries hdata hvalue hentries

omit hdata in
theorem kept_jsonItems {m : BufferM Bytes}
    (hvalue : ∀ {xs halts}, Value .json xs halts → Kept data m xs fun _ => halts = false) {k : Nat}
    {xs : Bytes} {halts : Bool} (h : Items .json k xs halts) :
    Kept data (jsonItems m k) xs fun _ => halts = false := by
  induction k generalizing xs halts with
  | zero =>
    cases h with
    | nil => exact keeps_pure rfl
  | succ k ih =>
    rw [jsonItems]
    cases h with
    | cons hxs hrest =>
      refine (hvalue hxs).bind fun _ _ => ?_
      exact (kept_wrap (ih hrest) _).mono fun _ ⟨_, h⟩ => h
    | value hxs => exact ((hvalue hxs).mono fun _ h => nomatch h).halt _ _

theorem kept_jsonEntries {m : BufferM Bytes}
    (hvalue : ∀ {xs halts}, Value .json xs halts → Kept data m xs fun _ => halts = false) {k : Nat}
    {xs : Bytes} {halts : Bool} (h : Entries .json k xs halts) :
    Kept data (jsonEntries .io e m k) xs fun _ => halts = false := by
  induction k generalizing xs halts with
  | zero =>
    cases h with
    | nil => exact keeps_pure rfl
  | succ k ih =>
    rw [jsonEntries]
    cases h with
    | cons hkey _ hxs hrest =>
      refine (kept_readUtf16 hdata hkey).bind fun _ _ => (hvalue hxs).bind fun _ _ => ?_
      exact (kept_wrap (ih hrest) _).mono fun _ ⟨_, h⟩ => h
    | key hkey hlong =>
      exact ((kept_readUtf16 hdata hkey).mono fun _ h => absurd h (Nat.not_lt.mpr hlong)).halt _ _
    | value hkey _ hxs =>
      refine (kept_readUtf16 hdata hkey).bind fun _ _ => ?_
      exact ((hvalue hxs).mono fun _ h => nomatch h).halt _ _

/-- A value that is not skipped. A container takes the traversal of its values. -/
theorem kept_jsonValue {m : BufferM Bytes}
    (hvalue : ∀ {xs halts}, Value .json xs halts → Kept data m xs fun _ => halts = false)
    {t : Byte} {xs : Bytes} {halts : Bool} (h : Payload .json (Doc.Kind.ofTag t) xs halts) :
    Kept data (jsonValue .io e libc m t) xs fun _ => halts = false := by
  rw [jsonValue]
  generalize Doc.Kind.ofTag t = k at h ⊢
  cases h with
  | unknown | null => exact keeps_pure rfl
  | @boolean b =>
    cases b with
    | true => exact keeps_pure rfl
    | false => exact keeps_pure rfl
  | int hh => exact (kept_wrap (kept_readVarInt hdata hh) _).mono fun _ _ => rfl
  | float hxs => exact (kept_wrap (kept_readFloat hdata hxs) _).mono fun _ _ => rfl
  | double hxs | long hxs => exact (kept_wrap (kept_readFixedUint64 hdata hxs) _).mono fun _ _ => rfl
  | uint8String hblock => exact (kept_readUtf8 hdata hblock).mono fun _ _ => rfl
  | text hblock =>
    refine (kept_wrap (kept_readUtf16 hdata hblock) _).mono ?_
    rintro _ ⟨_, hshort⟩
    exact decide_eq_false (Nat.not_le.mpr hshort)
  | array hh hitems =>
    refine (kept_readVarUint hdata hh).bind ?_
    rintro _ rfl
    exact (kept_wrap (kept_jsonItems hvalue hitems) _).mono fun _ ⟨_, h⟩ => h
  | map hh hentries =>
    refine (kept_readVarUint hdata hh).bind ?_
    rintro _ rfl
    exact (kept_wrap (kept_jsonEntries hdata hvalue hentries) _).mono fun _ ⟨_, h⟩ => h

/-- **Texts**: where a value stands, nothing else is read. -/
theorem kept_toJSONtring {n : Nat} {xs : Bytes} {halts : Bool} (h : Value .json xs halts) :
    Kept data (toJSONtring .io e libc n) xs fun _ => halts = false := by
  induction n generalizing xs halts with
  | zero => exact kept_throw (by decide)
  | succ n ih =>
    obtain ⟨hxs⟩ := h
    refine (kept_readType hdata _).bind ?_
    rintro _ rfl
    exact kept_jsonValue hdata ih hxs

end Keeps

/-! ## From the run to the values -/

section Reveals

variable {data : Bytes} {e : Endian} {libc : Libc} {α β : Type}

/-- Behind the end of the block, the program does not come back into it. -/
def Stuck (data : Bytes) (m : BufferM α) : Prop :=
  ∀ q, data.length < q → ¬ InBlock data m q

/-- Behind the end of the block, the program stops. -/
def Faults (data : Bytes) (m : BufferM α) : Prop :=
  ∀ q, data.length < q → ∃ fault buffer, m ⟨data, q, data.length⟩ = .error fault buffer ∧
    (fault = .outOfBounds ∨ data.length < buffer.position)

theorem Faults.stuck {m : BufferM α} (h : Faults data m) : Stuck data m := by
  intro q hq hin
  obtain ⟨fault, buffer, hrun, hfault⟩ := h q hq
  obtain ⟨hharmless, hposition⟩ := (confined_of_error hrun).mp hin
  rcases hfault with rfl | hout
  · exact hharmless rfl
  · exact absurd hposition (Nat.not_le.mpr hout)

theorem Faults.bind {m : BufferM α} (h : Faults data m) (f : α → BufferM β) : Faults data (m >>= f) := by
  intro q hq
  obtain ⟨fault, buffer, hrun, hfault⟩ := h q hq
  exact ⟨fault, buffer, bind_of_error hrun f, hfault⟩

theorem faults_load (i : Nat) : Faults data (load i) := by
  intro q hq
  refine ⟨.outOfBounds, ⟨data, q, data.length⟩, ?_, .inl rfl⟩
  have hload : data[q + i]? = none := List.getElem?_eq_none (by omega)
  simp only [load, hload]

theorem faults_throw (fault : Fault) : Faults data (throw fault : BufferM α) :=
  fun q hq => ⟨fault, ⟨data, q, data.length⟩, rfl, .inr hq⟩

/-- What leaves the position alone does not come back. -/
theorem stuck_of_preserves {m : BufferM α} (h : Preserves (fun s t => t.position = s.position) m) :
    Stuck data m := by
  intro q hq hin
  cases hrun : m ⟨data, q, data.length⟩ with
  | ok a t =>
    have hposition := h.of_ok hrun
    have := (confined_of_ok hrun).mp hin
    simp only at hposition
    omega
  | error fault t =>
    have hposition := h.of_error hrun
    have := ((confined_of_error hrun).mp hin).2
    simp only at hposition
    omega

theorem stuck_pure (a : α) : Stuck data (pure a : BufferM α) :=
  stuck_of_preserves fun _ => rfl

/-- A program that does not look at the length leaves the block as it is, so that what is stuck
behind its end stays there. -/
theorem inside_of_stuck {m : BufferM α} {g : BufferM β} (hu : Uniform m) (hg : Stuck data g) {p : Nat}
    {a : α} {t : Buffer} (hrun : m ⟨data, p, data.length⟩ = .ok a t)
    (hin : Confined (· ≠ Fault.outOfBounds) (fun buffer => buffer.position ≤ data.length) g t) :
    t.position ≤ data.length := by
  obtain ⟨hnone, -⟩ | ⟨a', q, hsome, -⟩ := hu.returns data p data.length data.length
  · rw [returns_eq_some.mpr hrun] at hnone
    exact nomatch hnone
  · rw [returns_eq_some.mpr hrun] at hsome
    obtain ⟨rfl, rfl⟩ := Prod.mk.inj (Option.some.inj hsome)
    by_contra hq
    exact hg q (Nat.not_le.mp hq) hin

theorem Stuck.bind {m : BufferM α} {f : α → BufferM β} (hu : Uniform m) (hm : Stuck data m)
    (hf : ∀ a, Stuck data (f a)) : Stuck data (m >>= f) :=
  fun q hq hin => hm q hq (hin.of_bind fun a _ hrun hrest => inside_of_stuck hu (hf a) hrun hrest)

/-- **Sequencing** of programs that do not look at the length. -/
theorem revealed_bind {lo : Nat} {m : BufferM α} {f : α → BufferM β} {spec : Bytes → Option α → Prop}
    {spec' : Bytes → Option β → Prop} (hu : Uniform m) (hm : Revealed data lo m spec)
    (hout : ∀ a, Stuck data (f a))
    (hf : ∀ xs a, spec xs (some a) → Revealed data (lo + xs.length) (f a) fun ys o => spec' (xs ++ ys) o)
    (hstop : ∀ xs, spec xs none → spec' xs none) : Revealed data lo (m >>= f) spec' := by
  refine hm.bind ?_ hf hstop
  rintro _ p a t ⟨rfl, -⟩ hrun hin
  exact inside_of_stuck hu (hout a) hrun hin

/-- The result is wrapped. -/
theorem revealed_wrap {lo : Nat} {m : BufferM α} {spec : Bytes → Option α → Prop}
    {spec' : Bytes → Option β → Prop} {f : α → β} (hm : Revealed data lo m spec)
    (hf : ∀ xs a, spec xs (some a) → spec' xs (some (f a))) (hstop : ∀ xs, spec xs none → spec' xs none) :
    Revealed data lo (do return f (← m)) spec' := by
  refine hm.bind (fun _ _ _ _ _ _ hin => hin) (fun xs a h => reveals_pure ?_) hstop
  rw [List.append_nil]
  exact hf xs a h

/-- A reader that consumes what it reads, or loads outside of the block. -/
def Reads (data : Bytes) (m : BufferM α) (spec : Bytes → α → Prop) : Prop :=
  ∀ p, p ≤ data.length → (∃ xs rest a, data.drop p = xs ++ rest ∧ spec xs a ∧
      Consumes data (At data data.length) (returns m) xs a) ∨
    ∃ buffer, m ⟨data, p, data.length⟩ = .error .outOfBounds buffer

/-- Behind such a reader, the position is in the block. -/
theorem Reads.bind {lo : Nat} {m : BufferM α} {f : α → BufferM β} {spec : Bytes → α → Prop}
    {spec' : Bytes → Option β → Prop} (hm : Reads data m spec)
    (hf : ∀ xs a, spec xs a → Revealed data (lo + xs.length) (f a) fun ys o => spec' (xs ++ ys) o) :
    Revealed data lo (m >>= f) spec' := by
  rintro _ p hlo ⟨rfl, hp⟩ hin
  rcases hm p hp with ⟨xs, rest, a, hdrop, hspec, hconsumes⟩ | ⟨buffer, hrun⟩
  · obtain ⟨t, ht, hat⟩ := hconsumes _ p rest ⟨rfl, hp⟩ hdrop
    have hrun := returns_eq_some.mp ht
    obtain ⟨ys, rest', hdrop', hrest⟩ :=
      hf xs a hspec t _ (Nat.add_le_add_right hlo _) hat ((confined_bind_of_ok hrun).mp hin)
    rw [drop_append_of_drop hdrop] at hdrop'
    refine ⟨xs ++ ys, rest', by rw [hdrop, hdrop', List.append_assoc], ?_⟩
    rw [bind_of_ok hrun, List.length_append, ← Nat.add_assoc]
    exact hrest
  · exact absurd rfl ((confined_of_error (bind_of_error hrun f)).mp hin).1

theorem Reads.wrap {lo : Nat} {m : BufferM α} {spec : Bytes → α → Prop} {spec' : Bytes → Option β → Prop}
    {f : α → β} (hm : Reads data m spec) (hf : ∀ xs a, spec xs a → spec' xs (some (f a))) :
    Revealed data lo (do return f (← m)) spec' := by
  refine hm.bind fun xs a h => reveals_pure ?_
  rw [List.append_nil]
  exact hf xs a h

theorem load_error {p i : Nat} (h : data.length ≤ p + i) :
    load i ⟨data, p, data.length⟩ = .error .outOfBounds ⟨data, p, data.length⟩ := by
  have hload : data[p + i]? = none := List.getElem?_eq_none h
  simp only [load, hload]

theorem load_ok {p i : Nat} {xs : Bytes} {b : Byte} (hdrop : data.drop p = xs) (hb : xs[i]? = some b) :
    load i ⟨data, p, data.length⟩ = .ok b ⟨data, p, data.length⟩ :=
  returns_eq_some.mp (returns_load (hdrop.trans (List.append_nil xs).symm) hb)

variable (hdata : data.length < 2 ^ 31)

include hdata

theorem reads_readType : Reads data (readType .io) fun xs t => xs = [t] := by
  intro p hp
  cases hdrop : data.drop p with
  | nil =>
    have hend : data.length ≤ p + 0 := List.drop_eq_nil_iff.mp hdrop
    exact .inr ⟨_, bind_of_error (load_error hend) _⟩
  | cons t rest =>
    exact .inl ⟨[t], rest, t, rfl, rfl, consumes_readType (length_lt_io hdata) t⟩

omit hdata in
/-- Where all bytes continue and there are less than five, the last load is outside. -/
theorem readVarUint_error {p : Nat} {xs : Bytes} (hdrop : data.drop p = xs) (hp : p ≤ data.length)
    (hshort : xs.length ≤ 4) (hmore : ∀ b ∈ xs, 128 ≤ b.toNat) :
    ∃ buffer, readVarUint .io ⟨data, p, data.length⟩ = .error .outOfBounds buffer := by
  have hlen := congrArg List.length hdrop
  rw [List.length_drop] at hlen
  have hend : load xs.length ⟨data, p, data.length⟩ = .error .outOfBounds ⟨data, p, data.length⟩ :=
    load_error (by omega)
  have hload (i : Nat) {b : Byte} (hb : xs[i]? = some b) := load_ok hdrop hb
  have hnext {b : Byte} (hb : b ∈ xs) : ¬ b &&& 0x80 = 0 := (and_continuation b).mpr (hmore b hb)
  refine ⟨⟨data, p, data.length⟩, ?_⟩
  match xs, hshort with
  | [], _ => exact bind_of_error hend _
  | [b₀], _ =>
    have h₀ := (setWidth_and_continuation b₀).not.mpr (hnext (by simp))
    rw [readVarUint, bind_of_ok (hload 0 rfl), if_neg h₀]
    exact bind_of_error hend _
  | [b₀, b₁], _ =>
    have h₀ := (setWidth_and_continuation b₀).not.mpr (hnext (by simp))
    rw [readVarUint, bind_of_ok (hload 0 rfl), if_neg h₀, bind_of_ok (hload 1 rfl),
      if_neg (hnext (by simp))]
    exact bind_of_error hend _
  | [b₀, b₁, b₂], _ =>
    have h₀ := (setWidth_and_continuation b₀).not.mpr (hnext (by simp))
    rw [readVarUint, bind_of_ok (hload 0 rfl), if_neg h₀, bind_of_ok (hload 1 rfl),
      if_neg (hnext (by simp)), bind_of_ok (hload 2 rfl), if_neg (hnext (by simp))]
    exact bind_of_error hend _
  | [b₀, b₁, b₂, b₃], _ =>
    have h₀ := (setWidth_and_continuation b₀).not.mpr (hnext (by simp))
    rw [readVarUint, bind_of_ok (hload 0 rfl), if_neg h₀, bind_of_ok (hload 1 rfl),
      if_neg (hnext (by simp)), bind_of_ok (hload 2 rfl), if_neg (hnext (by simp)),
      bind_of_ok (hload 3 rfl), if_neg (hnext (by simp))]
    exact bind_of_error hend _

theorem reads_readVarUint :
    Reads data (readVarUint .io) fun xs a => Header 5 xs ∧ a = uintOf 0 xs := by
  intro p hp
  rcases exists_header 4 (data.drop p) with ⟨h, rest, hdrop, hh⟩ | ⟨hshort, hmore⟩
  · exact .inl ⟨h, rest, _, hdrop, ⟨hh, rfl⟩, consumes_readVarUint_header (length_lt_io hdata) hh⟩
  · exact .inr (readVarUint_error rfl hp hshort hmore)

theorem reads_readVarInt : Reads data (readVarInt .io) fun xs _ => Header 5 xs := by
  intro p hp
  rcases reads_readVarUint hdata p hp with ⟨h, rest, a, hdrop, ⟨hh, -⟩, hconsumes⟩ | ⟨buffer, hrun⟩
  · exact .inl ⟨h, rest, varInt32Zag a, hdrop, hh, consumes_wrap hconsumes⟩
  · exact .inr ⟨buffer, bind_of_error hrun _⟩

omit hdata in
theorem drop_split {p k : Nat} (h : p + k ≤ data.length) :
    ∃ xs rest, data.drop p = xs ++ rest ∧ xs.length = k := by
  refine ⟨(data.drop p).take k, data.drop (p + k), ?_, ?_⟩
  · rw [← List.drop_drop, List.take_append_drop]
  · rw [List.length_take, List.length_drop]
    omega

theorem reads_readFixedUint64 : Reads data (readFixedUint64 .io) fun xs _ => xs.length = 8 := by
  intro p hp
  by_cases hend : p + 8 ≤ data.length
  · obtain ⟨xs, rest, hdrop, hxs⟩ := drop_split hend
    exact .inl ⟨xs, rest, BitVec.ofNat 64 (beNat xs), hdrop, hxs,
      (consumes_readFixedUint64 (length_lt_io hdata) _).of_eq (eq_be64_of_length hxs).symm rfl⟩
  · exact .inr ⟨_, bind_of_error (load_error (by omega)) _⟩

theorem reads_readFloat : Reads data (readFloat .io) fun xs _ => xs.length = 4 := by
  intro p hp
  by_cases hend : p + 4 ≤ data.length
  · obtain ⟨xs, rest, hdrop, hxs⟩ := drop_split hend
    exact .inl ⟨xs, rest, BitVec.ofNat 32 (beNat xs), hdrop, hxs,
      (consumes_readFloat (length_lt_io hdata) _).of_eq (eq_be32_of_length hxs).symm rfl⟩
  · exact .inr ⟨_, bind_of_error (load_error (by omega)) _⟩

/-- The position moves over the bytes of a block only where they are all there. -/
theorem revealed_block {lo : Nat} {size : BitVec 32} {f : Nat → BufferM α}
    {spec : Bytes → Option α → Prop} (hout : ∀ p, Stuck data (f p))
    (hf : ∀ p xs, xs.length = size.toNat → p + xs.length ≤ data.length →
      match f p ⟨data, p + xs.length, data.length⟩ with
      | .ok a buffer => buffer = ⟨data, p + xs.length, data.length⟩ ∧ spec xs (some a)
      | .error _ _ => spec xs none) :
    Revealed data lo (readBts .io size >>= f) spec := by
  rintro _ p - ⟨rfl, hp⟩ hin
  have hbts := readBts_eq data (by omega : p < 2 ^ 63) size
  rw [confined_bind_of_ok hbts] at hin
  have hend : p + size.toNat ≤ data.length := by
    by_contra hq
    exact hout p _ (Nat.not_le.mp hq) hin
  obtain ⟨xs, rest, hdrop, hxs⟩ := drop_split hend
  refine ⟨xs, rest, hdrop, ?_⟩
  have hrun := hf p xs hxs (by omega)
  rw [bind_of_ok hbts, ← hxs]
  cases hrest : f p ⟨data, p + xs.length, data.length⟩ with
  | ok a buffer =>
    rw [hrest] at hrun
    exact ⟨⟨hrun.1, by omega⟩, hrun.2⟩
  | error fault buffer =>
    rw [hrest] at hrun
    exact hrun

theorem revealed_skipBlock {lo : Nat} :
    Revealed data lo (skipBlock .io) fun xs o => ∃ h key, xs = h ++ key ∧ Block h key ∧ o.isSome := by
  refine (reads_readVarUint hdata).bind ?_
  rintro h _ ⟨hh, rfl⟩
  refine revealed_block hdata (fun _ => stuck_pure _) fun p xs hxs _ => ?_
  exact ⟨rfl, h, xs, rfl, ⟨hh, hxs⟩, rfl⟩

omit hdata in
theorem still_bytesAt (p k : Nat) : Preserves (fun s t : Buffer => t.position = s.position) (bytesAt p k) := by
  intro buffer
  rw [final, bytesAt]
  by_cases h : p + k ≤ buffer.data.length
  · rw [if_pos h]
  · rw [if_neg h]

omit hdata in
theorem still_bind {m : BufferM α} {f : α → BufferM β}
    (hm : Preserves (fun s t : Buffer => t.position = s.position) m)
    (hf : ∀ a, Preserves (fun s t : Buffer => t.position = s.position) (f a)) :
    Preserves (fun s t : Buffer => t.position = s.position) (m >>= f) :=
  hm.bind (fun _ _ _ h h' => h'.trans h) hf

omit hdata in
theorem still_throw_if {c : Prop} [Decidable c] (fault : Fault) :
    Preserves (fun s t : Buffer => t.position = s.position) (if c then throw fault else pure () : BufferM Unit) :=
  .ite (fun _ => rfl) (fun _ => rfl)

omit hdata in
theorem still_appendBytes (utf8 : Nat) (size : BitVec 32) :
    Preserves (fun s t : Buffer => t.position = s.position) (appendBytes utf8 size) :=
  .ite (still_bind (fun _ => rfl) fun _ => still_bytesAt _ _) (still_bytesAt _ _)

theorem revealed_readUtf16 {lo : Nat} : Revealed data lo (readUtf16 .io e) fun xs o =>
    ∃ h text, xs = h ++ text ∧ Block h text ∧ o.isNone = decide (2 ^ 30 ≤ text.length) := by
  refine (reads_readVarUint hdata).bind ?_
  rintro h _ ⟨hh, rfl⟩
  refine revealed_block hdata (fun p => stuck_of_preserves ?_) fun p xs hxs hend => ?_
  · exact still_bind (still_throw_if _) fun _ => still_bind (still_bytesAt _ _) fun _ _ => rfl
  · by_cases hlong : xs.length < 2 ^ 30
    · rw [bind_of_ok (requireDecodingBuffer_ok (by omega) _), bind_of_ok (bytesAt_ok (by omega))]
      exact ⟨rfl, h, xs, rfl, ⟨hh, hxs⟩, (decide_eq_false (Nat.not_le.mpr hlong)).symm⟩
    · rw [bind_of_error (requireDecodingBuffer_overflow (by omega) _)]
      exact ⟨h, xs, rfl, ⟨hh, hxs⟩, (decide_eq_true (Nat.not_lt.mp hlong)).symm⟩

omit hdata in
theorem payload_uint8String {r : Reading} {xs : Bytes} {o : Option α}
    (h : ∃ h text, xs = h ++ text ∧ Block h text ∧ o.isSome) :
    Payload r (some .uint8String) xs o.isNone := by
  obtain ⟨h, text, rfl, hblock, ho⟩ := h
  rw [Option.isNone_eq_false_iff.mpr ho]
  exact .uint8String hblock

omit hdata in
theorem payload_text {kind : TextKind} {xs : Bytes} {o : Option α}
    (h : ∃ h text, xs = h ++ text ∧ Block h text ∧ o.isNone = decide (2 ^ 30 ≤ text.length)) :
    Payload .json (some (.text kind)) xs o.isNone := by
  obtain ⟨h, text, rfl, hblock, ho⟩ := h
  rw [ho]
  exact .text hblock

theorem revealed_readUtf8 {lo : Nat} : Revealed data lo (readUtf8 .io) fun xs o =>
    ∃ h text, xs = h ++ text ∧ Block h text ∧ o.isSome := by
  refine (reads_readVarUint hdata).bind ?_
  rintro h _ ⟨hh, rfl⟩
  refine revealed_block hdata (fun p => stuck_of_preserves ?_) fun p xs hxs hend => ?_
  · exact still_appendBytes _ _
  · obtain ⟨bs, hbs⟩ := appendBytes_ok (q := p + xs.length) hdata hxs hend
    rw [hbs]
    exact ⟨rfl, h, xs, rfl, ⟨hh, hxs⟩, rfl⟩

/-! ### Loops -/

omit hdata in
theorem stuck_skipItems (skip : Byte → BufferM Unit) (k : Nat) : Stuck data (skipItems .io skip k) := by
  cases k with
  | zero => exact stuck_pure _
  | succ k => exact (((faults_load 0).bind _).bind _).stuck

omit hdata in
theorem stuck_skipEntries (skip : Byte → BufferM Unit) (k : Nat) :
    Stuck data (skipEntries .io skip k) := by
  cases k with
  | zero => exact stuck_pure _
  | succ k => exact ((((faults_load 0).bind _).bind _).bind _).stuck

omit hdata in
theorem revealed_skipItems {lo : Nat} {skip : Byte → BufferM Unit} (hu : ∀ t, Uniform (skip t))
    (hvalue : Revealed data lo (do skip (← readType .io)) fun xs o => Value .skip xs o.isNone) (k : Nat) :
    Revealed data lo (skipItems .io skip k) fun xs o => Items .skip k xs o.isNone := by
  induction k with
  | zero => exact reveals_pure .nil
  | succ k ih =>
    rw [skipItems, ← bind_assoc]
    refine revealed_bind (uniform_readType.bind hu) hvalue (fun _ => stuck_skipItems skip k) ?_ ?_
    · exact fun xs _ hxs => (ih.of_le (Nat.le_add_right _ _)).mono fun ys o hys => .cons hxs hys
    · exact fun xs hxs => .value hxs

theorem revealed_skipEntries {lo : Nat} {skip : Byte → BufferM Unit} (hu : ∀ t, Uniform (skip t))
    (hvalue : Revealed data lo (do skip (← readType .io)) fun xs o => Value .skip xs o.isNone) (k : Nat) :
    Revealed data lo (skipEntries .io skip k) fun xs o => Entries .skip k xs o.isNone := by
  induction k with
  | zero => exact reveals_pure .nil
  | succ k ih =>
    rw [skipEntries]
    refine revealed_bind uniform_skipBlock (revealed_skipBlock hdata) ?_ ?_ ?_
    · exact fun _ => (((faults_load 0).bind _).bind _).stuck
    · rintro _ _ ⟨h, key, rfl, hkey, -⟩
      rw [← bind_assoc]
      refine revealed_bind (uniform_readType.bind hu) (hvalue.of_le (Nat.le_add_right lo _))
        (fun _ => stuck_skipEntries skip k) ?_ ?_
      · intro xs _ hxs
        exact (ih.of_le (by omega)).mono fun ys o hys => .cons hkey hkey.length_lt hxs hys
      · exact fun xs hxs => .value hkey hkey.length_lt hxs
    · rintro _ ⟨_, _, _, _, h⟩
      exact nomatch h

/-- **Skipping**: a run that stays inside has had the payload of a value to pass over. -/
theorem revealed_skipValue {n : Nat} {lo : Nat} (hlo : data.length < lo + n) (t : Byte) :
    Revealed data lo (skipValue .io n t) fun xs o => Payload .skip (Doc.Kind.ofTag t) xs o.isNone := by
  induction n generalizing lo t with
  | zero =>
    rintro _ p hp ⟨rfl, hend⟩ -
    omega
  | succ n ih =>
    have hvalue {lo' : Nat} (hle : lo ≤ lo') : Revealed data lo' (do skipValue .io n (← readType .io))
        fun xs o => Value .skip xs o.isNone := by
      refine (reads_readType hdata).bind ?_
      rintro _ t rfl
      exact (ih (by rw [List.length_singleton]; omega) t).mono fun xs o h => .mk h
    rw [skipValue]
    generalize Doc.Kind.ofTag t = k
    match k with
    | none => exact reveals_pure .unknown
    | some .null => exact reveals_pure .null
    | some (.boolean _) => exact reveals_pure .boolean
    | some .int => exact (reads_readVarInt hdata).wrap fun xs _ h => .int h
    | some .float => exact reveals_pure (.float rfl)
    | some .double => exact (reads_readFixedUint64 hdata).wrap fun xs _ h => .double h
    | some .long => exact (reads_readFixedUint64 hdata).wrap fun xs _ h => .long h
    | some .uint8String => exact (revealed_skipBlock hdata).mono fun _ _ => payload_uint8String
    | some (.text _) =>
      refine (revealed_skipBlock hdata).mono ?_
      rintro _ o ⟨h, xs, rfl, hblock, ho⟩
      have hshort : decide (Reading.skip.limit ≤ xs.length) = false :=
        decide_eq_false (Nat.not_le.mpr hblock.length_lt)
      rw [Option.isNone_eq_false_iff.mpr ho, ← hshort]
      exact .text hblock
    | some .array =>
      refine (reads_readVarUint hdata).bind ?_
      rintro h _ ⟨hh, rfl⟩
      exact (revealed_skipItems (uniform_skipValue n) (hvalue (Nat.le_add_right _ _)) _).mono
        fun xs o hxs => .array hh hxs
    | some .map =>
      refine (reads_readVarUint hdata).bind ?_
      rintro h _ ⟨hh, rfl⟩
      exact (revealed_skipEntries hdata (uniform_skipValue n) (hvalue (Nat.le_add_right _ _)) _).mono
        fun xs o hxs => .map hh hxs

section Texts

variable {m : BufferM Bytes}

omit hdata in
theorem stuck_jsonItems (hfaults : Faults data m) (k : Nat) : Stuck data (jsonItems m k) := by
  cases k with
  | zero => exact stuck_pure _
  | succ k => exact (hfaults.bind _).stuck

omit hdata in
theorem stuck_jsonEntries (k : Nat) : Stuck data (jsonEntries .io e m k) := by
  cases k with
  | zero => exact stuck_pure _
  | succ k => exact ((((faults_load 0).bind _).bind _).bind _).stuck

omit hdata in
theorem revealed_jsonItems {lo : Nat} (hu : Uniform m) (hfaults : Faults data m)
    (hvalue : Revealed data lo m fun xs o => Value .json xs o.isNone) (k : Nat) :
    Revealed data lo (jsonItems m k) fun xs o => Items .json k xs o.isNone := by
  induction k with
  | zero => exact reveals_pure .nil
  | succ k ih =>
    rw [jsonItems]
    refine revealed_bind hu hvalue (fun _ => ?_) ?_ ?_
    · exact .bind (uniform_jsonItems hu k) (stuck_jsonItems hfaults k) fun _ => stuck_pure _
    · intro xs _ hxs
      refine revealed_wrap (ih.of_le (Nat.le_add_right lo _)) ?_ ?_
      · exact fun ys _ hys => .cons hxs hys
      · exact fun ys hys => .cons hxs hys
    · exact fun xs hxs => .value hxs

theorem revealed_jsonEntries {lo : Nat} (hu : Uniform m) (hfaults : Faults data m)
    (hvalue : Revealed data lo m fun xs o => Value .json xs o.isNone) (k : Nat) :
    Revealed data lo (jsonEntries .io e m k) fun xs o => Entries .json k xs o.isNone := by
  induction k with
  | zero => exact reveals_pure .nil
  | succ k ih =>
    rw [jsonEntries]
    have hloop : Uniform (jsonEntries .io e m k) := uniform_jsonEntries hu k
    refine revealed_bind uniform_readUtf16 (revealed_readUtf16 hdata) (fun _ => (hfaults.bind _).stuck) ?_ ?_
    · rintro _ _ ⟨h, key, rfl, hkey, hlong⟩
      have hshort := Nat.lt_of_not_le (of_decide_eq_false hlong.symm)
      refine revealed_bind hu (hvalue.of_le (Nat.le_add_right lo _)) (fun _ => ?_) ?_ ?_
      · exact .bind hloop (stuck_jsonEntries k) fun _ => stuck_pure _
      · intro xs _ hxs
        refine revealed_wrap (ih.of_le (by omega)) ?_ ?_
        · exact fun ys _ hys => .cons hkey hshort hxs hys
        · exact fun ys hys => .cons hkey hshort hxs hys
      · exact fun xs hxs => .value hkey hshort hxs
    · rintro _ ⟨h, key, rfl, hkey, hlong⟩
      exact .key hkey (of_decide_eq_true hlong.symm)

/-- A value that is not skipped, where the traversal of its values is given. -/
theorem revealed_jsonValue {lo : Nat} (hu : Uniform m) (hfaults : Faults data m)
    (hvalue : Revealed data lo m fun xs o => Value .json xs o.isNone) (t : Byte) :
    Revealed data lo (jsonValue .io e libc m t) fun xs o =>
      Payload .json (Doc.Kind.ofTag t) xs o.isNone := by
  rw [jsonValue]
  generalize Doc.Kind.ofTag t = k
  match k with
  | none => exact reveals_pure .unknown
  | some .null => exact reveals_pure .null
  | some (.boolean true) => exact reveals_pure .boolean
  | some (.boolean false) => exact reveals_pure .boolean
  | some .int => exact (reads_readVarInt hdata).wrap fun xs _ h => .int h
  | some .float => exact (reads_readFloat hdata).wrap fun xs _ h => .float h
  | some .double => exact (reads_readFixedUint64 hdata).wrap fun xs _ h => .double h
  | some .long => exact (reads_readFixedUint64 hdata).wrap fun xs _ h => .long h
  | some .uint8String => exact (revealed_readUtf8 hdata).mono fun _ _ => payload_uint8String
  | some (.text _) =>
    exact revealed_wrap (revealed_readUtf16 hdata) (fun _ _ h => payload_text h)
      fun _ h => payload_text h
  | some .array =>
    refine (reads_readVarUint hdata).bind ?_
    rintro h _ ⟨hh, rfl⟩
    have hitems := revealed_jsonItems hu hfaults (hvalue.of_le (Nat.le_add_right lo h.length)) (count h)
    exact revealed_wrap hitems (fun xs _ hxs => .array hh hxs)
      fun xs hxs => .array hh hxs
  | some .map =>
    refine (reads_readVarUint hdata).bind ?_
    rintro h _ ⟨hh, rfl⟩
    have hentries := revealed_jsonEntries (e := e) hdata hu hfaults
      (hvalue.of_le (Nat.le_add_right lo h.length)) (count h)
    exact revealed_wrap hentries (fun xs _ hxs => .map hh hxs)
      fun xs hxs => .map hh hxs

end Texts

omit hdata in
theorem faults_toJSONtring (n : Nat) : Faults data (toJSONtring .io e libc n) := by
  cases n with
  | zero => exact faults_throw _
  | succ n => exact ((faults_load 0).bind _).bind _

/-- **Texts**: a run that stays inside has had a value to read. -/
theorem revealed_toJSONtring {n lo : Nat} (hlo : data.length < lo + n) :
    Revealed data lo (toJSONtring .io e libc n) fun xs o => Value .json xs o.isNone := by
  induction n generalizing lo with
  | zero =>
    rintro _ p hp ⟨rfl, hend⟩ -
    omega
  | succ n ih =>
    refine (reads_readType hdata).bind ?_
    rintro _ t rfl
    refine (revealed_jsonValue hdata (uniform_toJSONtring n) (faults_toJSONtring n) ?_ t).mono
      fun xs o h => .mk h
    exact ih (by rw [List.length_singleton]; omega)

end Reveals

/-! ## Calls -/

/-- `toStringUTF8`, or `nextType` and what is called with the type it has returned. -/
inductive Call where
  | toStringUTF8
  | nextStringUTF8
  | nextNumber
  | nextBool
  | skipValue

section Calls

variable (e : Endian) (libc : Libc) (n : Nat)

/-- What a call does with a type. -/
def Call.body : Call → Byte → BufferM Unit
  | .toStringUTF8, type | .nextStringUTF8, type => discard (Parser.nextStringUTF8 .io e libc n type)
  | .nextNumber, type => discard (Parser.nextNumber .io e libc n type)
  | .nextBool, type => discard (Parser.nextBool .io n type)
  | .skipValue, type => Parser.skipValue .io n type

/-- The call, where `toStringUTF8` only goes to the point at which it puts the position back. -/
def Call.reads : Call → BufferM Unit
  | .toStringUTF8 => do
    restoreToState 0
    Call.body e libc n .toStringUTF8 (← nextType .io)
  | call => do call.body e libc n (← nextType .io)

def Call.run : Call → BufferM Unit
  | .toStringUTF8 => discard (Parser.toStringUTF8 .io e libc n)
  | call => call.reads e libc n

/-- Where a call starts to read. -/
def Call.start : Call → Nat → Nat
  | .toStringUTF8, _ => 0
  | _, p => p

/-- The position behind a call that was started at `p` and has read up to `q`. -/
def Call.next : Call → Nat → Nat → Nat
  | .toStringUTF8, p, _ => p
  | _, _, q => q

/-- Each of the calls reads only bytes of the block, and the position does not leave it; a call
that does not return is the last one. -/
def StaysInside (data : Bytes) : Buffer → List Call → Prop
  | _, [] => True
  | buffer, call :: calls =>
    Confined (· ≠ Fault.outOfBounds) (fun b => b.position ≤ data.length) (call.reads e libc n) buffer ∧
      Confined (· ≠ Fault.outOfBounds) (fun b => b.position ≤ data.length) (call.run e libc n) buffer ∧
      ∀ b, call.run e libc n buffer = .ok () b → StaysInside data b calls

end Calls

/-- What stands behind the type for `nextNumber`: it moves over a text once before it reads it. -/
inductive NumberPayload : Option Doc.Kind → Bytes → Bool → Prop
  | uint8String {h xs ys} : Block h xs → Block h ys →
      NumberPayload (some .uint8String) (h ++ (xs ++ ys)) false
  | text {kind h xs ys} : Block h xs → Block h ys →
      NumberPayload (some (.text kind)) (h ++ (xs ++ ys)) (decide (2 ^ 30 ≤ ys.length))
  | float {xs} : xs.length = 4 → NumberPayload (some .float) xs false
  | other {k xs halts} : k ≠ some .uint8String → (∀ kind, k ≠ some (.text kind)) → k ≠ some .float →
      Payload .skip k xs halts → NumberPayload k xs halts

/-- What stands behind the type for a call. -/
def Call.Payload : Call → Option Doc.Kind → Bytes → Bool → Prop
  | .toStringUTF8 | .nextStringUTF8 => Bounds.Payload .json
  | .nextNumber => NumberPayload
  | .nextBool | .skipValue => Bounds.Payload .skip

/-- For each call there is a whole value where it starts, or nothing at all. -/
def Spells (data : Bytes) : Nat → List Call → Prop
  | _, [] => True
  | p, call :: calls =>
    call.start p = data.length ∧ Spells data p calls ∨
      ∃ t xs rest halts, data.drop (call.start p) = t :: xs ++ rest ∧
        call.Payload (Doc.Kind.ofTag t) xs halts ∧
          (halts = false → Spells data (call.next p (call.start p + (t :: xs).length)) calls)

section Calls

variable {data : Bytes} {e : Endian} {libc : Libc} {n : Nat} (hdata : data.length < 2 ^ 31)

/-- For a container, `nextStringUTF8` goes back to its type. -/
theorem nextStringUTF8_container {t : Byte}
    (ht : Doc.Kind.ofTag t = some .map ∨ Doc.Kind.ofTag t = some .array) {p : Nat} (hp : p < 2 ^ 31)
    (length : Nat) : Parser.nextStringUTF8 .io e libc n t ⟨data, p + 1, length⟩
      = toJSONtring .io e libc n ⟨data, p, length⟩ := by
  have hback : (p + 1 + 2 ^ 64 - 1) % 2 ^ 64 = p := by omega
  have hrun : (do
      modify fun buffer : Buffer =>
        { buffer with position := (buffer.position + 2 ^ 64 - 1) % 2 ^ 64 }
      toJSONtring .io e libc n : BufferM Bytes) ⟨data, p + 1, length⟩
        = toJSONtring .io e libc n ⟨data, (p + 1 + 2 ^ 64 - 1) % 2 ^ 64, length⟩ := rfl
  rw [hback] at hrun
  rw [Parser.nextStringUTF8]
  rcases ht with ht | ht
  · rw [ht]
    exact hrun
  · rw [ht]
    exact hrun

include hdata

theorem readType_ok {p : Nat} {t : Byte} {rest : Bytes} (hp : p ≤ data.length)
    (hdrop : data.drop p = t :: rest) :
    readType .io ⟨data, p, data.length⟩ = .ok t ⟨data, p + 1, data.length⟩ := by
  obtain ⟨b, hb, rfl, -⟩ := consumes_readType (length_lt_io hdata) t ⟨data, p, data.length⟩ p rest
    ⟨rfl, hp⟩ hdrop
  exact returns_eq_some.mp hb

/-- For a container, it is the text of the value. -/
theorem nextStringUTF8_value {p : Nat} {t : Byte} {rest : Bytes} (hp : p ≤ data.length)
    (hdrop : data.drop p = t :: rest)
    (ht : Doc.Kind.ofTag t = some .map ∨ Doc.Kind.ofTag t = some .array) :
    (do Parser.nextStringUTF8 .io e libc n (← readType .io)) ⟨data, p, data.length⟩
      = toJSONtring .io e libc n ⟨data, p, data.length⟩ := by
  rw [bind_of_ok (readType_ok hdata hp hdrop)]
  exact nextStringUTF8_container ht (by omega) data.length

/-- Where a value stands, `nextStringUTF8` reads nothing else. -/
theorem kept_nextStringUTF8 {xs : Bytes} {halts : Bool} (h : Value .json xs halts) :
    Kept data (do Parser.nextStringUTF8 .io e libc n (← readType .io)) xs fun _ => halts = false := by
  obtain @⟨t, xs, _, h⟩ := h
  by_cases ht : Doc.Kind.ofTag t = some .map ∨ Doc.Kind.ofTag t = some .array
  · rintro _ p rest ⟨rfl, hp⟩ hdrop
    rw [nextStringUTF8_value hdata hp hdrop ht]
    exact kept_toJSONtring hdata (.mk h) _ p rest ⟨rfl, hp⟩ hdrop
  · suffices hscalar : Kept data (Parser.nextStringUTF8 .io e libc n t) xs fun _ => halts = false by
      refine (kept_readType hdata t).bind ?_
      rintro _ rfl
      exact hscalar
    rw [Parser.nextStringUTF8]
    generalize Doc.Kind.ofTag t = k at h ht ⊢
    cases h with
    | unknown | null => exact keeps_pure rfl
    | @boolean b =>
      cases b with
      | true => exact keeps_pure rfl
      | false => exact keeps_pure rfl
    | int hh => exact (kept_wrap (kept_readVarInt hdata hh) _).mono fun _ _ => rfl
    | float hxs => exact (kept_wrap (kept_readFloat hdata hxs) _).mono fun _ _ => rfl
    | double hxs | long hxs => exact (kept_wrap (kept_readFixedUint64 hdata hxs) _).mono fun _ _ => rfl
    | uint8String hblock => exact (kept_readUtf8 hdata hblock).mono fun _ _ => rfl
    | text hblock =>
      refine (kept_wrap (kept_readUtf16 hdata hblock) _).mono ?_
      rintro _ ⟨_, hshort⟩
      exact decide_eq_false (Nat.not_le.mpr hshort)
    | array => exact absurd (.inr rfl) ht
    | map => exact absurd (.inl rfl) ht

theorem revealed_nextStringUTF8_scalar {lo : Nat} {t : Byte}
    (ht : ¬ (Doc.Kind.ofTag t = some .map ∨ Doc.Kind.ofTag t = some .array)) :
    Revealed data lo (Parser.nextStringUTF8 .io e libc n t) fun xs o =>
      Payload .json (Doc.Kind.ofTag t) xs o.isNone := by
  rw [Parser.nextStringUTF8]
  generalize Doc.Kind.ofTag t = k at ht ⊢
  match k with
  | none => exact reveals_pure .unknown
  | some .null => exact reveals_pure .null
  | some (.boolean true) => exact reveals_pure .boolean
  | some (.boolean false) => exact reveals_pure .boolean
  | some .int => exact (reads_readVarInt hdata).wrap fun xs _ h => .int h
  | some .float => exact (reads_readFloat hdata).wrap fun xs _ h => .float h
  | some .double => exact (reads_readFixedUint64 hdata).wrap fun xs _ h => .double h
  | some .long => exact (reads_readFixedUint64 hdata).wrap fun xs _ h => .long h
  | some .uint8String => exact (revealed_readUtf8 hdata).mono fun _ _ => payload_uint8String
  | some (.text _) =>
    exact revealed_wrap (revealed_readUtf16 hdata) (fun _ _ h => payload_text h)
      fun _ h => payload_text h
  | some .array => exact absurd (.inr rfl) ht
  | some .map => exact absurd (.inl rfl) ht

/-- A run of `nextStringUTF8` that stays inside has had a value to read. -/
theorem revealed_nextStringUTF8 {lo : Nat} (hlo : data.length < lo + n) :
    Revealed data lo (do Parser.nextStringUTF8 .io e libc n (← readType .io)) fun xs o =>
      Value .json xs o.isNone := by
  rintro _ p hp ⟨rfl, hend⟩ hin
  rcases reads_readType hdata p hend with ⟨_, rest, t, hdrop, rfl, -⟩ | ⟨buffer, hrun⟩
  · by_cases ht : Doc.Kind.ofTag t = some .map ∨ Doc.Kind.ofTag t = some .array
    · have hrun : (do Parser.nextStringUTF8 .io e libc n (← readType .io)) ⟨data, p, data.length⟩ = _ :=
        nextStringUTF8_value hdata hend hdrop ht
      rw [Confined, hrun] at hin
      rw [hrun]
      exact revealed_toJSONtring hdata hlo _ p hp ⟨rfl, hend⟩ hin
    · have hrun := readType_ok hdata hend hdrop
      have hscalar : Revealed data lo (Parser.nextStringUTF8 .io e libc n t) fun xs o =>
          Value .json (t :: xs) o.isNone :=
        (revealed_nextStringUTF8_scalar hdata ht).mono fun xs o h => .mk h
      have hlen := congrArg List.length hdrop
      rw [List.length_drop, List.length_append, List.length_singleton] at hlen
      obtain ⟨xs, rest', hdrop', hxs⟩ := hscalar ⟨data, p + 1, data.length⟩ (p + 1) (Nat.le_add_right_of_le hp)
        ⟨rfl, by omega⟩ ((confined_bind_of_ok hrun).mp hin)
      refine ⟨t :: xs, rest', ?_, ?_⟩
      · rw [hdrop, ← drop_append_of_drop hdrop, List.length_singleton, hdrop']
        rfl
      · rw [bind_of_ok hrun, List.length_cons, Nat.add_comm xs.length, ← Nat.add_assoc]
        exact hxs
  · exact absurd rfl ((confined_of_error (bind_of_error hrun _)).mp hin).1

theorem kept_readBts {h xs : Bytes} (hblock : Block h xs) :
    Kept data (readBts .io (uintOf 0 h)) xs fun _ => True := by
  rw [← bind_pure (readBts .io (uintOf 0 h))]
  exact kept_block hdata hblock fun p _ => ⟨rfl, trivial⟩

/-- Where the payload stands, and that of a text a second time, `nextNumber` reads nothing else. -/
theorem kept_nextNumber {t : Byte} {xs : Bytes} {halts : Bool}
    (h : NumberPayload (Doc.Kind.ofTag t) xs halts) :
    Kept data (Parser.nextNumber .io e libc n t) xs fun _ => halts = false := by
  have hskip {xs : Bytes} {halts : Bool} (hxs : Payload .skip (Doc.Kind.ofTag t) xs halts) :
      Kept data (do
        Parser.skipValue .io n t
        return 0 : BufferM (BitVec 64)) xs fun _ => halts = false :=
    ((kept_skipValue hdata hxs).bind (R := fun _ => halts = false) fun _ h => keeps_pure h).of_eq
      (List.append_nil xs)
  rw [Parser.nextNumber]
  generalize Doc.Kind.ofTag t = k at h hskip ⊢
  cases h with
  | uint8String hxs hys =>
    refine (kept_readVarUint hdata hxs.header).bind ?_
    rintro _ rfl
    refine (kept_readBts hdata hxs).bind fun _ _ => kept_block hdata hys fun p hp => ?_
    obtain ⟨bs, hbs⟩ := appendBytes_ok (q := p + _) hdata hys.length_eq hp
    rw [bind_of_ok hbs]
    exact ⟨rfl, rfl⟩
  | @text kind h xs ys hxs hys =>
    refine (kept_readVarUint hdata hxs.header).bind ?_
    rintro _ rfl
    refine (kept_readBts hdata hxs).bind fun _ _ => kept_block hdata hys fun p hp => ?_
    have hsize := hys.length_eq
    by_cases hlong : 2 ^ 30 ≤ (uintOf 0 h).toNat
    · rw [bind_of_error (requireDecodingBuffer_overflow hlong _)]
      exact ⟨by decide, hp⟩
    · rw [bind_of_ok (requireDecodingBuffer_ok (Nat.not_le.mp hlong) _), bind_of_ok (bytesAt_ok (by omega))]
      exact ⟨rfl, decide_eq_false (by omega)⟩
  | float hxs => exact (kept_wrap (kept_readFloat hdata hxs) _).mono fun _ _ => rfl
  | other huint8 htext hfloat hxs =>
    cases hxs with
    | unknown => exact hskip .unknown
    | array hh hitems => exact hskip (.array hh hitems)
    | map hh hentries => exact hskip (.map hh hentries)
    | null | boolean => exact keeps_pure rfl
    | int hh => exact (kept_wrap (kept_readVarInt hdata hh) _).mono fun _ _ => rfl
    | float => exact absurd rfl hfloat
    | double hxs => exact (kept_readFixedUint64 hdata hxs).mono fun _ _ => rfl
    | long hxs => exact (kept_wrap (kept_readFixedUint64 hdata hxs) _).mono fun _ _ => rfl
    | uint8String => exact absurd rfl huint8
    | text => exact absurd rfl (htext _)

/-- A block that is passed over, and another one behind it. Where the first one is not there, the
position leaves the block of the buffer and does not come back. -/
theorem revealed_twoBlocks {α : Type} {lo : Nat} {size : BitVec 32} {f : Nat → BufferM α}
    (spec : Bytes → Option α → Prop) (hout : ∀ p, Stuck data (f p))
    (hf : ∀ p xs, xs.length = size.toNat → p + xs.length ≤ data.length →
      match f p ⟨data, p + xs.length, data.length⟩ with
      | .ok a buffer => buffer = ⟨data, p + xs.length, data.length⟩ ∧ spec xs (some a)
      | .error _ _ => spec xs none) :
    Revealed data lo (readBts .io size >>= fun _ => readBts .io size >>= f) fun zs o =>
      ∃ xs ys, zs = xs ++ ys ∧ xs.length = size.toNat ∧ spec ys o := by
  rintro _ p hlo ⟨rfl, hp⟩ hin
  have hsize := size.isLt
  have hbts := readBts_eq data (by omega : p < 2 ^ 63) size
  rw [confined_bind_of_ok hbts] at hin
  by_cases hend : p + size.toNat ≤ data.length
  · obtain ⟨xs, rest, hdrop, hxs⟩ := drop_split hend
    obtain ⟨ys, rest', hdrop', hrun⟩ := revealed_block hdata hout hf _ (p + size.toNat)
      (Nat.le_add_right_of_le hlo) ⟨rfl, hend⟩ hin
    rw [← hxs, drop_append_of_drop hdrop] at hdrop'
    refine ⟨xs ++ ys, rest', by rw [hdrop, hdrop', List.append_assoc], ?_⟩
    rw [bind_of_ok hbts, List.length_append, hxs, ← Nat.add_assoc]
    cases hrest : (readBts .io size >>= f) ⟨data, p + size.toNat, data.length⟩ with
    | ok a buffer =>
      rw [hrest] at hrun
      exact ⟨hrun.1, xs, ys, rfl, hxs, hrun.2⟩
    | error fault buffer =>
      rw [hrest] at hrun
      exact ⟨xs, ys, rfl, hxs, hrun⟩
  · have hbts' := readBts_eq data (by omega : p + size.toNat < 2 ^ 63) size
    rw [confined_bind_of_ok hbts'] at hin
    exact absurd hin (hout _ _ (by omega))

/-- A run of `nextNumber` that stays inside has had its payload to read. -/
theorem revealed_nextNumber {lo : Nat} (hlo : data.length < lo + n) (t : Byte) :
    Revealed data lo (Parser.nextNumber .io e libc n t) fun xs o =>
      NumberPayload (Doc.Kind.ofTag t) xs o.isNone := by
  have hskip : Revealed data lo (do
      Parser.skipValue .io n t
      return 0 : BufferM (BitVec 64)) fun xs o => Payload .skip (Doc.Kind.ofTag t) xs o.isNone :=
    revealed_wrap (revealed_skipValue hdata hlo t) (fun _ _ h => h) fun _ h => h
  rw [Parser.nextNumber]
  generalize Doc.Kind.ofTag t = k at hskip ⊢
  have hother {k : Option Doc.Kind} {xs : Bytes} {halts : Bool}
      (hk : k ≠ some .uint8String ∧ (∀ kind, k ≠ some (.text kind)) ∧ k ≠ some .float)
      (hxs : Payload .skip k xs halts) : NumberPayload k xs halts := .other hk.1 hk.2.1 hk.2.2 hxs
  cases k with
  | none => exact hskip.mono fun _ _ => hother (by simp)
  | some k =>
    cases k with
    -- a container is skipped
    | map | array => exact hskip.mono fun _ _ => hother (by simp)
    | null => exact reveals_pure (hother (by simp) .null)
    | boolean => exact reveals_pure (hother (by simp) .boolean)
    | int => exact (reads_readVarInt hdata).wrap fun xs _ h => hother (by simp) (.int h)
    | float => exact (reads_readFloat hdata).wrap fun xs _ h => .float h
    | double =>
      rw [← bind_pure (readDouble .io)]
      exact (reads_readFixedUint64 hdata).wrap fun xs _ h => hother (by simp) (.double h)
    | long => exact (reads_readFixedUint64 hdata).wrap fun xs _ h => hother (by simp) (.long h)
    | uint8String =>
      refine (reads_readVarUint hdata).bind ?_
      rintro h _ ⟨hh, rfl⟩
      refine (revealed_twoBlocks hdata (fun ys o => Block h ys ∧ o.isSome)
        (fun p => stuck_of_preserves ?_) fun p ys hys hend => ?_).mono ?_
      · exact still_bind (still_appendBytes _ _) fun _ _ => rfl
      · obtain ⟨bs, hbs⟩ := appendBytes_ok (q := p + ys.length) hdata hys hend
        rw [bind_of_ok hbs]
        exact ⟨rfl, ⟨hh, hys⟩, rfl⟩
      · rintro _ o ⟨xs, ys, rfl, hxs, hys, ho⟩
        rw [Option.isNone_eq_false_iff.mpr ho]
        exact .uint8String ⟨hh, hxs⟩ hys
    | text kind =>
      refine (reads_readVarUint hdata).bind ?_
      rintro h _ ⟨hh, rfl⟩
      refine (revealed_twoBlocks hdata
        (fun ys o => Block h ys ∧ o.isNone = decide (2 ^ 30 ≤ ys.length))
        (fun p => stuck_of_preserves ?_) fun p ys hys hend => ?_).mono ?_
      · exact still_bind (still_throw_if _) fun _ => still_bind (still_bytesAt _ _) fun _ _ => rfl
      -- twice the size is an `int`, which overflows from `2 ^ 30` on
      · by_cases hlong : 2 ^ 30 ≤ ys.length
        · rw [bind_of_error (requireDecodingBuffer_overflow (by omega) _)]
          exact ⟨⟨hh, hys⟩, (decide_eq_true hlong).symm⟩
        · rw [bind_of_ok (requireDecodingBuffer_ok (by omega) _), bind_of_ok (bytesAt_ok (by omega))]
          exact ⟨rfl, ⟨hh, hys⟩, (decide_eq_false hlong).symm⟩
      · rintro _ o ⟨xs, ys, rfl, hxs, hys, ho⟩
        rw [ho]
        exact .text ⟨hh, hxs⟩ hys

/-! ### A call -/

omit hdata in
theorem bind_discard {α β : Type} (m : BufferM α) (f : α → BufferM β) :
    (do discard (f (← m))) = discard (m >>= f) := by
  show (m >>= fun a => (fun _ => ()) <$> f a) = (fun _ => ()) <$> (m >>= f)
  rw [map_bind]

/-- Where a call has its value, it reads nothing else. -/
theorem kept_call (e : Endian) (libc : Libc) (n : Nat) {call : Call} {t : Byte} {xs : Bytes} {halts : Bool}
    (h : call.Payload (Doc.Kind.ofTag t) xs halts) :
    Kept data (do call.body e libc n (← readType .io)) (t :: xs) fun _ => halts = false := by
  have hdiscard {α : Type} {f : Byte → BufferM α}
      (hf : Kept data (do f (← readType .io)) (t :: xs) fun _ => halts = false) :
      Kept data (do discard (f (← readType .io))) (t :: xs) fun _ => halts = false := by
    rw [bind_discard]
    exact (kept_wrap hf fun _ => ()).mono fun _ ⟨_, h⟩ => h
  have htyped {α : Type} {f : Byte → BufferM α} (hf : Kept data (f t) xs fun _ => halts = false) :
      Kept data (do f (← readType .io)) (t :: xs) fun _ => halts = false := by
    refine (kept_readType hdata t).bind ?_
    rintro _ rfl
    exact hf
  cases call with
  | toStringUTF8 | nextStringUTF8 => exact hdiscard (kept_nextStringUTF8 hdata (.mk h))
  | nextNumber => exact hdiscard (htyped (kept_nextNumber hdata h))
  | nextBool =>
    refine hdiscard (htyped ?_)
    unfold Parser.nextBool
    by_cases hfalse : t = Tag.booleanFalse ∨ t = Tag.null
    · rw [if_pos hfalse]
      rcases hfalse with rfl | rfl
      · rw [show Doc.Kind.ofTag Tag.booleanFalse = some (.boolean false) from rfl] at h
        cases h with
        | boolean => exact keeps_pure rfl
      · rw [show Doc.Kind.ofTag Tag.null = some .null from rfl] at h
        cases h with
        | null => exact keeps_pure rfl
    · rw [if_neg hfalse]
      exact (kept_wrap (kept_skipValue hdata h) fun _ => true).mono fun _ ⟨_, h⟩ => h
  | skipValue => exact htyped (kept_skipValue hdata h)

/-- A call that stays inside has had its value to read. -/
theorem revealed_call (hn : data.length < n) (call : Call) :
    Revealed data 0 (do call.body e libc n (← readType .io)) fun xs o =>
      ∃ t ys, xs = t :: ys ∧ call.Payload (Doc.Kind.ofTag t) ys o.isNone := by
  have hlo : data.length < 0 + n := by omega
  have hdiscard {α : Type} {f : Byte → BufferM α} (c : Call)
      (hf : Revealed data 0 (do f (← readType .io)) fun xs o =>
        ∃ t ys, xs = t :: ys ∧ c.Payload (Doc.Kind.ofTag t) ys o.isNone) :
      Revealed data 0 (do discard (f (← readType .io))) fun xs o =>
        ∃ t ys, xs = t :: ys ∧ c.Payload (Doc.Kind.ofTag t) ys o.isNone := by
    rw [bind_discard]
    exact revealed_wrap hf (fun _ _ h => h) fun _ h => h
  have htyped {α : Type} {f : Byte → BufferM α} (c : Call)
      (hf : ∀ t, Revealed data 1 (f t) fun xs o => c.Payload (Doc.Kind.ofTag t) xs o.isNone) :
      Revealed data 0 (do f (← readType .io)) fun xs o =>
        ∃ t ys, xs = t :: ys ∧ c.Payload (Doc.Kind.ofTag t) ys o.isNone := by
    refine (reads_readType hdata).bind ?_
    rintro _ t rfl
    exact (hf t).mono fun ys o h => ⟨t, ys, rfl, h⟩
  cases call with
  | toStringUTF8 | nextStringUTF8 =>
    refine hdiscard .nextStringUTF8 ((revealed_nextStringUTF8 hdata hlo).mono ?_)
    rintro _ _ ⟨h⟩
    exact ⟨_, _, rfl, h⟩
  | nextNumber =>
    exact hdiscard .nextNumber (htyped .nextNumber fun t => revealed_nextNumber hdata (by omega) t)
  | nextBool =>
    refine hdiscard .nextBool (htyped .nextBool fun t => ?_)
    unfold Parser.nextBool
    by_cases hfalse : t = Tag.booleanFalse ∨ t = Tag.null
    · rw [if_pos hfalse]
      rcases hfalse with rfl | rfl
      · exact reveals_pure .boolean
      · exact reveals_pure .null
    · rw [if_neg hfalse]
      exact revealed_wrap (revealed_skipValue hdata (by omega) t) (fun _ _ h => h) fun _ h => h
  | skipValue => exact htyped .skipValue fun t => revealed_skipValue hdata (by omega) t

/-! ### Sequences of calls -/

omit hdata in
theorem start_le (call : Call) {p : Nat} (hp : p ≤ data.length) : call.start p ≤ data.length := by
  cases call with
  | toStringUTF8 => exact Nat.zero_le _
  | nextStringUTF8 | nextNumber | nextBool | skipValue => exact hp

omit hdata in
theorem next_le {call : Call} {p q : Nat} (hp : p ≤ data.length) (hq : q ≤ data.length) :
    call.next p q ≤ data.length := by
  cases call with
  | toStringUTF8 => exact hp
  | nextStringUTF8 | nextNumber | nextBool | skipValue => exact hq

omit hdata in
/-- Where there is something to read, the type is read. -/
theorem reads_of_lt {call : Call} {p : Nat} (h : call.start p < data.length) :
    call.reads e libc n ⟨data, p, data.length⟩
      = (do call.body e libc n (← readType .io)) ⟨data, call.start p, data.length⟩ := by
  have htype : nextType .io ⟨data, call.start p, data.length⟩
      = readType .io ⟨data, call.start p, data.length⟩ := by
    show (if call.start p < data.length then readType .io else pure Tag.null) _ = _
    rw [if_pos h]
  have hreads : call.reads e libc n ⟨data, p, data.length⟩
      = (do call.body e libc n (← nextType .io)) ⟨data, call.start p, data.length⟩ := by
    cases call <;> rfl
  rw [hreads]
  show EStateM.bind _ _ _ = EStateM.bind _ _ _
  unfold EStateM.bind
  rw [htype]

omit hdata in
/-- At the end, nothing is read; without room on the stack, `skipValue` cannot be called. -/
theorem reads_of_end (e : Endian) (libc : Libc) (n : Nat) {call : Call} {p : Nat} (h : call.start p = data.length) :
    call.reads e libc n ⟨data, p, data.length⟩ = .ok () ⟨data, call.start p, data.length⟩ ∨
      n = 0 ∧ call.reads e libc n ⟨data, p, data.length⟩
        = .error .stackOverflow ⟨data, call.start p, data.length⟩ := by
  have htype : nextType .io ⟨data, call.start p, data.length⟩
      = .ok Tag.null ⟨data, call.start p, data.length⟩ := by
    show (if call.start p < data.length then readType .io else pure Tag.null) _ = _
    rw [if_neg (by omega)]
    rfl
  have hreads : call.reads e libc n ⟨data, p, data.length⟩
      = (do call.body e libc n (← nextType .io)) ⟨data, call.start p, data.length⟩ := by
    cases call <;> rfl
  rw [hreads, bind_of_ok htype]
  cases call with
  | toStringUTF8 | nextStringUTF8 | nextNumber | nextBool => exact .inl rfl
  | skipValue =>
    cases n with
    | zero => exact .inr ⟨rfl, rfl⟩
    | succ n => exact .inl rfl

omit hdata in
/-- `toStringUTF8` puts the position back behind the text of the document. -/
theorem toStringUTF8_eq (p : Nat) : Parser.toStringUTF8 .io e libc n ⟨data, p, data.length⟩ =
    match (do Parser.nextStringUTF8 .io e libc n (← nextType .io)) ⟨data, 0, data.length⟩ with
    | .ok json buffer => .ok json { buffer with position := p }
    | .error fault buffer => .error fault buffer := by
  have hstate : getState ⟨data, p, data.length⟩ = .ok p ⟨data, p, data.length⟩ := rfl
  have hrestore : restoreToState 0 ⟨data, p, data.length⟩ = .ok () ⟨data, 0, data.length⟩ := rfl
  rw [Parser.toStringUTF8, bind_of_ok hstate, bind_of_ok hrestore, ← bind_assoc]
  cases hjson : (do Parser.nextStringUTF8 .io e libc n (← nextType .io)) ⟨data, 0, data.length⟩ with
  | ok json buffer =>
    rw [bind_of_ok hjson]
    rfl
  | error fault buffer => rw [bind_of_error hjson]

omit hdata in
theorem discard_eq {α : Type} (m : BufferM α) (buffer : Buffer) : discard m buffer =
    match m buffer with
    | .ok _ b => .ok () b
    | .error fault b => .error fault b := by
  show EStateM.map _ m buffer = _
  unfold EStateM.map
  cases m buffer <;> rfl

omit hdata in
/-- The whole call differs in the position that it leaves. -/
theorem run_eq (call : Call) (p : Nat) : call.run e libc n ⟨data, p, data.length⟩ =
    match call.reads e libc n ⟨data, p, data.length⟩ with
    | .ok _ buffer => .ok () { buffer with position := call.next p buffer.position }
    | .error fault buffer => .error fault buffer := by
  have hreads (call : Call) : call.reads e libc n ⟨data, p, data.length⟩ =
      match call.reads e libc n ⟨data, p, data.length⟩ with
      | .ok _ buffer => .ok () { buffer with position := buffer.position }
      | .error fault buffer => .error fault buffer := by
    cases call.reads e libc n ⟨data, p, data.length⟩ <;> rfl
  cases call with
  | nextStringUTF8 => exact hreads .nextStringUTF8
  | nextNumber => exact hreads .nextNumber
  | nextBool => exact hreads .nextBool
  | skipValue => exact hreads .skipValue
  | toStringUTF8 =>
    have htext : Call.toStringUTF8.reads e libc n ⟨data, p, data.length⟩
        = (do discard (Parser.nextStringUTF8 .io e libc n (← nextType .io))) ⟨data, 0, data.length⟩ := rfl
    rw [htext, bind_discard, discard_eq]
    show discard (Parser.toStringUTF8 .io e libc n) _ = _
    rw [discard_eq, toStringUTF8_eq]
    cases (do Parser.nextStringUTF8 .io e libc n (← nextType .io)) ⟨data, 0, data.length⟩ <;> rfl

omit hdata in
/-- Where the part that reads returns, the call does, and the next one starts in the block. -/
theorem staysInside_of_ok {call : Call} {calls : List Call} {p q : Nat} (hp : p ≤ data.length)
    (hq : q ≤ data.length)
    (h : call.reads e libc n ⟨data, p, data.length⟩ = .ok () ⟨data, q, data.length⟩) :
    StaysInside e libc n data ⟨data, p, data.length⟩ (call :: calls) ↔
      StaysInside e libc n data ⟨data, call.next p q, data.length⟩ calls := by
  have hrun : call.run e libc n ⟨data, p, data.length⟩ = _ := run_eq call p
  rw [h] at hrun
  constructor
  · rintro ⟨-, -, hrest⟩
    exact hrest _ hrun
  · intro hrest
    refine ⟨(confined_of_ok h).mpr hq, (confined_of_ok hrun).mpr (next_le hp hq), fun b hb => ?_⟩
    obtain ⟨-, rfl⟩ := EStateM.Result.ok.inj (hrun.symm.trans hb)
    exact hrest

omit hdata in
/-- Where it does not return, nothing is called any more. -/
theorem staysInside_of_error {call : Call} {calls : List Call} {p : Nat} {fault : Fault} {buffer : Buffer}
    (h : call.reads e libc n ⟨data, p, data.length⟩ = .error fault buffer)
    (hfault : fault ≠ .outOfBounds ∧ buffer.position ≤ data.length) :
    StaysInside e libc n data ⟨data, p, data.length⟩ (call :: calls) := by
  have hrun : call.run e libc n ⟨data, p, data.length⟩ = _ := run_eq call p
  rw [h] at hrun
  exact ⟨(confined_of_error h).mpr hfault, (confined_of_error hrun).mpr hfault, fun b hb =>
    nomatch hrun.symm.trans hb⟩

theorem staysInside_of_spells {calls : List Call} {p : Nat} (hp : p ≤ data.length)
    (h : Spells data p calls) : StaysInside e libc n data ⟨data, p, data.length⟩ calls := by
  induction calls generalizing p with
  | nil => trivial
  | cons call calls ih =>
    rcases h with ⟨hend, hrest⟩ | ⟨t, xs, rest, halts, hdrop, hpayload, hrest⟩
    · rcases reads_of_end e libc n hend with hreads | ⟨-, hreads⟩
      · have hnext : call.next p (call.start p) = p := by
          cases call <;> rfl
        refine (staysInside_of_ok hp (start_le call hp) hreads).mpr ?_
        rw [hnext]
        exact ih hp hrest
      · exact staysInside_of_error hreads ⟨by decide, start_le call hp⟩
    · have hlt : call.start p < data.length := by
        have hlen := congrArg List.length hdrop
        rw [List.length_drop, List.length_append, List.length_cons] at hlen
        omega
      have hkept := kept_call hdata e libc n hpayload _ _ rest
        ⟨rfl, start_le call hp⟩ hdrop
      rw [← reads_of_lt hlt] at hkept
      cases hreads : call.reads e libc n ⟨data, p, data.length⟩ with
      | ok _ buffer =>
        rw [hreads] at hkept
        obtain ⟨⟨rfl, hq⟩, hhalts⟩ := hkept
        exact (staysInside_of_ok hp hq hreads).mpr (ih (next_le hp hq) (hrest hhalts))
      | error fault buffer =>
        rw [hreads] at hkept
        exact staysInside_of_error hreads hkept

theorem spells_of_staysInside (hn : data.length < n) {calls : List Call} {p : Nat} (hp : p ≤ data.length)
    (h : StaysInside e libc n data ⟨data, p, data.length⟩ calls) : Spells data p calls := by
  induction calls generalizing p with
  | nil => trivial
  | cons call calls ih =>
    rcases Nat.lt_or_eq_of_le (start_le call hp) with hlt | hend
    · refine .inr ?_
      have hin := h.1
      rw [Confined, reads_of_lt hlt] at hin
      obtain ⟨_, rest, hdrop, hrun⟩ := revealed_call hdata hn call ⟨data, call.start p, data.length⟩ _
        (Nat.zero_le _) ⟨rfl, start_le call hp⟩ hin
      rw [← reads_of_lt hlt] at hrun
      cases hreads : call.reads e libc n ⟨data, p, data.length⟩ with
      | ok _ buffer =>
        rw [hreads] at hrun
        obtain ⟨⟨rfl, hq⟩, t, xs, rfl, hpayload⟩ := hrun
        exact ⟨t, xs, rest, false, hdrop, hpayload, fun _ =>
          ih (next_le hp hq) ((staysInside_of_ok hp hq hreads).mp h)⟩
      | error fault buffer =>
        rw [hreads] at hrun
        obtain ⟨t, xs, rfl, hpayload⟩ := hrun
        refine ⟨t, xs, rest, true, hdrop, hpayload, ?_⟩
        rintro ⟨⟩
    · refine .inl ⟨hend, ?_⟩
      rcases reads_of_end e libc n hend with hreads | ⟨hzero, -⟩
      · have hnext : call.next p (call.start p) = p := by
          cases call <;> rfl
        have hrest := (staysInside_of_ok hp (start_le call hp) hreads).mp h
        rw [hnext] at hrest
        exact ih hp hrest
      · omega

/-- **The declared length**: whatever room the stack has, the calls stay inside iff there is a
whole value for each of them, or nothing at all, up to a text that is too long to be decoded. -/
theorem readsInside_iff (calls : List Call) :
    (∀ n, StaysInside e libc n data (wsonParserOfLength data data.length) calls) ↔ Spells data 0 calls :=
  ⟨fun h => spells_of_staysInside hdata (Nat.lt_succ_self _) (Nat.zero_le _) (h _),
    fun h _ => staysInside_of_spells hdata (Nat.zero_le _) h⟩

end Calls

theorem readsInside_sample_iff :
    (∀ n, StaysInside .little Libc.ofIntegers n [Tag.array, 0x01, Tag.int, 0x02]
        (wsonParserOfLength [Tag.array, 0x01, Tag.int, 0x02] 4) [.toStringUTF8, .skipValue, .nextBool]) ↔
      Spells [Tag.array, 0x01, Tag.int, 0x02] 0 [.toStringUTF8, .skipValue, .nextBool] :=
  readsInside_iff (by decide) _

/-- **A double that has been cut off**: `skipValue` reads its last byte behind the end. -/
theorem not_readsInside_truncated : ¬ ∀ n, StaysInside .little Libc.ofIntegers n [Tag.double, 0x00]
    (wsonParserOfLength [Tag.double, 0x00] 2) [.skipValue] := by
  intro h
  have hrun : (Call.reads .little Libc.ofIntegers 1 .skipValue) (wsonParserOfLength [Tag.double, 0x00] 2)
      = .error .outOfBounds ⟨[Tag.double, 0x00], 1, 2⟩ := rfl
  exact ((confined_of_error hrun).mp (h 1).1).1 rfl

end Bounds

end Wson.Native
