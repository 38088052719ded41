import Wson.Native.Quote

/-!
# The decoding buffer

A `wson_parser` converts every 16-bit text in one buffer of its own, which
`requireDecodingBuffer` replaces by a larger one where a text asks for more. It is asked
for twice the bytes of the text, four for each unit, and no spare ones; what the
conversions store is at most three bytes for each unit, the quotes and a NUL. So only
texts of at most two units can be too long (`converts_iff`), unless an earlier text has
left a larger buffer. `wson16ToString` allocates the same size for each text.
-/

namespace Wson.Native

open Effect Text Wire

/-- The buffer, and the size that the parser keeps for it. -/
structure Decoding where
  decodingBuffer : Bytes
  decodingBufferSize : Nat

abbrev DecodingM := EStateM Fault Decoding

/-- `utf16_convert_to_utf8_string` or `utf16_convert_to_utf8_quote_string`. -/
inductive Conversion where
  | plain
  | quote
  deriving DecidableEq

/-- What the parser meets: the length of a text, which it converts to an `int`, and the units
behind it. -/
structure DecodingCall where
  conversion : Conversion
  size : BitVec 32
  utf16 : Utf16
  length_eq : utf16.length = size.toNat / 2

namespace Decoding

def init : Decoding where
  decodingBuffer := []
  decodingBufferSize := 0

/-- `size * 2` for an `int`. Neither is there an array of a negative length, nor a text. -/
def doubled {σ : Type} (size : BitVec 32) : EStateM Fault σ Nat :=
  if size.toInt < 0 ∨ 2 ^ 31 ≤ size.toInt * 2 then throw .overflow else pure (2 * size.toNat)

/-- `new char[length]`; what the bytes are is of no importance. -/
def newChars (length : Nat) : Bytes :=
  List.replicate length 0

def requireDecodingBuffer (length : Nat) : DecodingM Unit := do
  let parser ← get
  if parser.decodingBufferSize = 0 ∨ parser.decodingBufferSize < length then
    set (Decoding.mk (newChars length) length)

def Conversion.run : Conversion → Utf16 → CstrM Nat
  | .plain, utf16 => Cstr.utf16ConvertToUtf8Cstr utf16
  | .quote, utf16 => Cstr.utf16ConvertToUtf8QuoteCstr utf16

/-- `utf8.append(decodingBuffer, count)`. -/
def appendChars (count : Nat) : CstrM Bytes := do
  let memory ← get
  if count ≤ memory.length then pure (memory.take count) else throw .outOfBounds

/-- The text that a call appends. -/
def convert (call : DecodingCall) : DecodingM Bytes := do
  let length ← doubled call.size
  requireDecodingBuffer length
  zoom decodingBuffer (fun memory parser => { parser with decodingBuffer := memory })
    (Conversion.run call.conversion call.utf16 >>= appendChars)

/-- The texts of a sequence of calls. -/
def convertAll : List DecodingCall → DecodingM (List Bytes)
  | [] => pure []
  | call :: calls => do
    let text ← convert call
    let texts ← convertAll calls
    pure (text :: texts)

/-- `wson16ToString`, with a buffer of its own. -/
def wson16ToString (size : BitVec 32) (utf16 : Utf16) : EStateM Fault Unit Bytes := do
  let length ← doubled size
  zoom (fun _ => newChars length) (fun _ s => s) (Conversion.run .plain utf16 >>= appendChars)

/-! ## When a text fits -/

/-- The text fits into a buffer of `room` bytes, no less than twice its bytes. -/
def FitsIn (room : Nat) (conversion : Conversion) (utf16 : Utf16) : Prop :=
  match conversion with
  | .plain => utf16 ≠ [] ∨ 0 < room
  | .quote => 3 ≤ utf16.length ∨ quotedLength utf16 < room

/-- The size of the buffer in a call, from its size before. -/
def roomFor (room : Nat) (call : DecodingCall) : Nat :=
  max room (2 * call.size.toNat)

/-- Twice the length is an `int`, and the text fits into the buffer, which was `room` bytes long
before. -/
def Fits (room : Nat) (call : DecodingCall) : Prop :=
  2 * call.size.toNat < 2 ^ 31 ∧ FitsIn (roomFor room call) call.conversion call.utf16

instance (room : Nat) : ∀ conversion utf16, Decidable (FitsIn room conversion utf16)
  | .plain, _ => inferInstanceAs (Decidable (_ ∨ _))
  | .quote, _ => inferInstanceAs (Decidable (_ ∨ _))

instance (room : Nat) (call : DecodingCall) : Decidable (Fits room call) :=
  inferInstanceAs (Decidable (_ ∧ _))

/-- What a conversion stores in front of the NUL. -/
def stored : Conversion → Utf16 → Bytes
  | .plain, utf16 => utf8 utf16
  | .quote, utf16 => utf16ConvertToUtf8QuoteCstr utf16

theorem length_quoteUnits_le (utf16 : Utf16) : (quoteUnits utf16).length ≤ 3 * utf16.length := by
  have hunit (c : Char16) : (quoteUnit c).length ≤ 3 := by
    rw [quoteUnit_eq, length_quotePoint]
    have hc := (length_utf8Char_unit c).2
    split
    · next hescaped =>
      have hsmall : c.toNat < 0x80 := by
        unfold IsEscaped at hescaped
        omega
      rw [utf8Char, if_pos hsmall, List.length_singleton]
      omega
    · exact hc
  induction utf16 using quoteUnits.induct with
  | case1 => exact Nat.zero_le 0
  | case2 c₁ => exact hunit c₁
  | case3 c₁ c₂ utf16 hpair ih =>
    rw [quoteUnits, if_pos hpair, List.length_append, Cstr.length_putCodePoint_pair hpair.1 hpair.2]
    simp only [List.length_cons]
    omega
  | case4 c₁ c₂ utf16 hpair ih =>
    have hc₁ := hunit c₁
    rw [quoteUnits, if_neg hpair, List.length_append]
    simp only [List.length_cons] at ih ⊢
    omega

/-- Three bytes for each unit, and two for the quotes. -/
theorem length_stored_le (conversion : Conversion) (utf16 : Utf16) :
    (stored conversion utf16).length ≤ 3 * utf16.length + 2 := by
  cases conversion with
  | plain =>
    have hlength := (length_utf8 utf16).2
    show (utf8 utf16).length ≤ _
    omega
  | quote =>
    have hlength := length_quoteUnits_le utf16
    show (0x22 :: (quoteUnits utf16 ++ [0x22])).length ≤ _
    rw [List.length_cons, List.length_append, List.length_singleton]
    omega

/-- **The margin** is the units that are there beyond two. -/
theorem length_stored_lt_iff {conversion : Conversion} {utf16 : Utf16} {room : Nat}
    (hroom : 4 * utf16.length ≤ room) :
    (stored conversion utf16).length < room ↔ FitsIn room conversion utf16 := by
  have hquote : (stored .quote utf16).length = quotedLength utf16 :=
    length_utf16ConvertToUtf8QuoteCstr utf16
  have hmax := length_stored_le .quote utf16
  cases conversion with
  | plain =>
    show (utf8 utf16).length < room ↔ utf16 ≠ [] ∨ 0 < room
    have hlength := (length_utf8 utf16).2
    cases utf16 with
    | nil => simp [utf8, codePoints]
    | cons c utf16 =>
      simp only [ne_eq, reduceCtorEq, not_false_eq_true, true_or, iff_true]
      simp only [List.length_cons] at hroom hlength
      omega
  | quote =>
    show (stored .quote utf16).length < room ↔ 3 ≤ utf16.length ∨ quotedLength utf16 < room
    omega

/-! ## One call -/

theorem returns_doubled {σ : Type} (size : BitVec 32) (s : σ) : returns (doubled size) s
    = if 2 * size.toNat < 2 ^ 31 then some (2 * size.toNat, s) else none := by
  have hlt := size.isLt
  unfold doubled
  by_cases h : 2 * size.toNat < 2 ^ 31
  · have hsize : size.toInt = size.toNat := BitVec.toInt_eq_toNat_of_lt (by omega)
    rw [if_pos h, if_neg (by omega)]
    rfl
  · have hsize : size.toInt < 0 ∨ 2 ^ 31 ≤ size.toInt * 2 := by
      by_cases hsmall : 2 * size.toNat < 2 ^ 32
      · rw [BitVec.toInt_eq_toNat_of_lt hsmall]
        omega
      · rw [BitVec.toInt_eq_toNat_cond, if_neg hsmall]
        omega
    rw [if_neg h, if_pos hsize]
    rfl

/-- A conversion and the copy of its text, in a buffer of any size. -/
theorem returns_convertChars (conversion : Conversion) (utf16 : Utf16) (memory : Bytes) :
    returns (Conversion.run conversion utf16 >>= appendChars) memory =
      if (stored conversion utf16).length < memory.length ∧ (stored conversion utf16).length < 2 ^ 31 then
        some (stored conversion utf16,
          stored conversion utf16 ++ 0 :: memory.drop ((stored conversion utf16).length + 1))
      else none := by
  have hrun : returns (Conversion.run conversion utf16) memory =
      if (stored conversion utf16).length < memory.length ∧ (stored conversion utf16).length < 2 ^ 31 then
        some ((stored conversion utf16).length,
          stored conversion utf16 ++ 0 :: memory.drop ((stored conversion utf16).length + 1))
      else none := by
    cases conversion with
    | plain => exact Cstr.returns_utf16ConvertToUtf8Cstr utf16 memory
    | quote => exact Cstr.returns_utf16ConvertToUtf8QuoteCstr utf16 memory
  rw [returns_bind, hrun]
  split
  · rw [Option.bind_some, appendChars, returns_bind, returns_get, Option.bind_some]
    simp only [List.length_append, Nat.le_add_right, ↓reduceIte, List.take_left, returns_pure]
  · rfl

/-- The buffer is as long as the parser believes. -/
def Valid (parser : Decoding) (room : Nat) : Prop :=
  parser.decodingBuffer.length = room ∧ parser.decodingBufferSize = room

theorem valid_init : Valid init 0 :=
  ⟨rfl, rfl⟩

theorem returns_requireDecodingBuffer {parser : Decoding} {room : Nat} (h : Valid parser room)
    (length : Nat) : ∃ parser', returns (requireDecodingBuffer length) parser = some ((), parser') ∧
      Valid parser' (max room length) := by
  obtain ⟨hbuffer, hsize⟩ := h
  unfold requireDecodingBuffer
  rw [returns_bind, returns_get, Option.bind_some, hsize]
  by_cases hsmall : room = 0 ∨ room < length
  · simp only [if_pos hsmall]
    refine ⟨_, rfl, ?_, ?_⟩
    · show (List.replicate length (0 : Byte)).length = _
      rw [List.length_replicate]
      omega
    · show length = _
      omega
  · simp only [if_neg hsmall]
    refine ⟨_, rfl, ?_, ?_⟩
    · rw [hbuffer]
      omega
    · rw [hsize]
      omega

/-- Fitting is what the stores need. -/
theorem fits_iff (room : Nat) (call : DecodingCall) : Fits room call ↔
    2 * call.size.toNat < 2 ^ 31 ∧ (stored call.conversion call.utf16).length < roomFor room call ∧
      (stored call.conversion call.utf16).length < 2 ^ 31 := by
  have hunits := call.length_eq
  have hlength := length_stored_le call.conversion call.utf16
  have hroom : 4 * call.utf16.length ≤ roomFor room call := by
    unfold roomFor
    omega
  unfold Fits
  rw [← length_stored_lt_iff hroom]
  omega

/-- **One call**: a text that fits is appended, and then the buffer has grown to what was asked
for. -/
theorem returns_convert {parser : Decoding} {room : Nat} (h : Valid parser room) {call : DecodingCall}
    (hfits : Fits room call) :
    ∃ parser', returns (convert call) parser = some (stored call.conversion call.utf16, parser') ∧
      Valid parser' (roomFor room call) := by
  obtain ⟨hsize, hroom, hint⟩ := (fits_iff room call).mp hfits
  obtain ⟨parser', hrequire, hbuffer, hkept⟩ := returns_requireDecodingBuffer h (2 * call.size.toNat)
  change parser'.decodingBuffer.length = roomFor room call at hbuffer
  have hstores := returns_convertChars call.conversion call.utf16 parser'.decodingBuffer
  rw [if_pos ⟨by omega, hint⟩] at hstores
  refine ⟨{ parser' with decodingBuffer := stored call.conversion call.utf16 ++
    0 :: parser'.decodingBuffer.drop ((stored call.conversion call.utf16).length + 1) }, ?_, ?_, hkept⟩
  · rw [convert, returns_bind, returns_doubled, if_pos hsize, Option.bind_some, returns_bind, hrequire,
      Option.bind_some, returns_zoom, hstores, Option.map_some]
  · simp only [List.length_append, List.length_cons, List.length_drop]
    omega

/-- A text that does not fit is stored outside of the buffer, or there is none. -/
theorem returns_convert_none {parser : Decoding} {room : Nat} (h : Valid parser room)
    {call : DecodingCall} (hfits : ¬ Fits room call) : returns (convert call) parser = none := by
  rw [fits_iff] at hfits
  obtain ⟨parser', hrequire, hbuffer, -⟩ := returns_requireDecodingBuffer h (2 * call.size.toNat)
  change parser'.decodingBuffer.length = roomFor room call at hbuffer
  have hstores := returns_convertChars call.conversion call.utf16 parser'.decodingBuffer
  rw [convert, returns_bind, returns_doubled]
  by_cases hsize : 2 * call.size.toNat < 2 ^ 31
  · rw [if_neg (by omega)] at hstores
    rw [if_pos hsize, Option.bind_some, returns_bind, hrequire, Option.bind_some, returns_zoom, hstores]
    rfl
  · rw [if_neg hsize]
    rfl

/-! ## Runs -/

/-- Every text of the sequence fits; `room` is the size of the buffer before. -/
def AllFit : Nat → List DecodingCall → Prop
  | _, [] => True
  | room, call :: calls => Fits room call ∧ AllFit (roomFor room call) calls

/-- The texts of the calls. -/
def texts (calls : List DecodingCall) : List Bytes :=
  calls.map fun call => stored call.conversion call.utf16

/-- **Any sequence of calls**, from any state of the parser. -/
theorem returns_convertAll {calls : List DecodingCall} {parser : Decoding} {room : Nat}
    (h : Valid parser room) :
    (∃ parser', returns (convertAll calls) parser = some (texts calls, parser')) ↔ AllFit room calls := by
  induction calls generalizing parser room with
  | nil => exact iff_of_true ⟨parser, rfl⟩ trivial
  | cons call calls ih =>
    rw [convertAll, AllFit, returns_bind]
    by_cases hfits : Fits room call
    · obtain ⟨parser₁, hconvert, hvalid⟩ := returns_convert h hfits
      rw [hconvert, Option.bind_some, returns_bind, ← ih hvalid]
      constructor
      · rintro ⟨parser', hrun⟩
        obtain ⟨⟨rest, parser₂⟩, hrest, hpure⟩ := Option.bind_eq_some_iff.mp hrun
        obtain ⟨htexts, rfl⟩ := Prod.mk.inj (Option.some.inj hpure)
        refine ⟨hfits, parser₂, ?_⟩
        rw [hrest, show rest = texts calls from (List.cons.inj htexts).2]
      · rintro ⟨-, parser', hrun⟩
        refine ⟨parser', ?_⟩
        rw [hrun]
        rfl
    · rw [returns_convert_none h hfits]
      refine iff_of_false ?_ fun hall => hfits hall.1
      rintro ⟨parser', hrun⟩
      cases hrun

/-- No store of the calls on a new parser is out of range, and each appends its text. -/
def StaysInside (calls : List DecodingCall) : Prop :=
  ∃ parser', returns (convertAll calls) init = some (texts calls, parser')

/-- The same for the buffer of `wson16ToString`. -/
def StringStaysInside (size : BitVec 32) (utf16 : Utf16) : Prop :=
  returns (wson16ToString size utf16) () = some (utf8 utf16, ())

theorem stringStaysInside_iff_of_length {size : BitVec 32} {utf16 : Utf16}
    (hlength : utf16.length = size.toNat / 2) :
    StringStaysInside size utf16 ↔ 2 * size.toNat < 2 ^ 31 ∧ (utf16 ≠ [] ∨ 0 < size.toNat) := by
  have hbytes := length_stored_le .plain utf16
  have hlt : (stored .plain utf16).length < 2 * size.toNat ↔ utf16 ≠ [] ∨ 0 < 2 * size.toNat :=
    length_stored_lt_iff (by omega)
  have hpositive : 0 < size.toNat ↔ 0 < 2 * size.toNat := by omega
  rw [hpositive, ← hlt, StringStaysInside, wson16ToString, returns_bind, returns_doubled]
  have hstores := returns_convertChars .plain utf16 (newChars (2 * size.toNat))
  have hnew : (newChars (2 * size.toNat)).length = 2 * size.toNat := List.length_replicate
  rw [hnew] at hstores
  by_cases hsize : 2 * size.toNat < 2 ^ 31
  · rw [if_pos hsize, Option.bind_some, returns_zoom]
    by_cases hroom : (stored .plain utf16).length < 2 * size.toNat
    · rw [if_pos ⟨hroom, by omega⟩] at hstores
      rw [hstores]
      exact iff_of_true rfl ⟨hsize, hroom⟩
    · rw [if_neg fun h => hroom h.1] at hstores
      rw [hstores]
      exact iff_of_false nofun fun h => hroom h.2
  · rw [if_neg hsize]
    exact iff_of_false nofun fun h => hsize h.1

/-- **The buffers**: every sequence of calls on a parser stays inside iff every text of it fits;
`wson16ToString` stays inside iff there is a text at all. -/
theorem staysInside_iff (calls : List DecodingCall) (call : DecodingCall) :
    (StaysInside calls ↔ AllFit 0 calls) ∧
    (StringStaysInside call.size call.utf16 ↔
      2 * call.size.toNat < 2 ^ 31 ∧ (call.utf16 ≠ [] ∨ 0 < call.size.toNat)) :=
  ⟨returns_convertAll valid_init, stringStaysInside_iff_of_length call.length_eq⟩

/-- The empty text: its quotes and its NUL are stored into a buffer of no bytes. -/
theorem not_staysInside_empty : ¬ StaysInside [⟨.quote, 0, [], rfl⟩] := by
  intro h
  have hfits := ((returns_convertAll valid_init).mp h).1
  exact absurd hfits (by decide)

end Decoding

end Wson.Native
