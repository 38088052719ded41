import Wson.Java.InStep

/-!
# `charsBuffer`

The two readers of 16-bit text store the characters in an array that the parser keeps,
borrows from the thread or replaces by a larger one; the reader of map keys compares
them there with a string from the cache that all parsers share. `Parser.readUTF16String`
and `Parser.readMapKeyUTF16` say what comes of it without the array, and each method
here ends as its counterpart does (`outcome_readUTF16String`,
`outcome_readMapKeyUTF16`). The two readers agree with each other, whatever the cache
holds (`readMapKeyUTF16_agrees`).
-/

namespace Wson.Java

open Effect Wire

/-- A parser with its array of characters, and the array that the weak reference of the thread
still holds. -/
structure CharsParser where
  parser : Parser
  charsBuffer : Option Utf16
  localCharsBufferCache : Option Utf16

abbrev CharsM := EStateM Throwable CharsParser

namespace CharsParser

/-- A program of the input, or of the cache. -/
def input {α : Type} (m : ParserM α) : CharsM α :=
  zoom parser (fun p s => { s with parser := p }) m

/-- `charsBuffer = new char[length]`. -/
def newChars (length : Int) : CharsM Unit :=
  if length < 0 then throw .negativeArraySize
  else modify fun s => { s with charsBuffer := some (List.replicate length.toNat 0) }

/-- Take the array of the thread, if there is none yet. -/
def borrowChars : CharsM Unit := do
  let s ← get
  match s.charsBuffer, s.localCharsBufferCache with
  | none, some chars => set { s with charsBuffer := some chars, localCharsBufferCache := none }
  | _, _ => pure ()

/-- Make an array, if there is still none. -/
def createChars (length : Int) : CharsM Unit := do
  match (← get).charsBuffer with
  | none => if length > 2048 then newChars (int (length + 1024)) else newChars 2048
  | some _ => pure ()

/-- Replace an array that is too short. -/
def enlargeChars (length : Int) : CharsM Unit := do
  match (← get).charsBuffer with
  | none => throw .nullPointer
  | some chars => if chars.length < length then newChars length

def ensureCharBuffer (length : Int) : CharsM Unit := do
  borrowChars
  createChars length
  enlargeChars length

/-- `charsBuffer[i] = ch`. -/
def storeChar (i : Nat) (ch : Char16) : CharsM Unit := do
  let s ← get
  match s.charsBuffer with
  | none => throw .nullPointer
  | some chars =>
    if i < chars.length then set { s with charsBuffer := some (chars.set i ch) }
    else throw .arrayIndexOutOfBounds

/-- `charsBuffer[i]`. -/
def loadChar (i : Nat) : CharsM Char16 := do
  match (← get).charsBuffer with
  | none => throw .nullPointer
  | some chars =>
    match chars[i]? with
    | none => throw .arrayIndexOutOfBounds
    | some ch => pure ch

/-- `new String(charsBuffer, 0, length)`. -/
def newString (length : Int) : CharsM Utf16 := do
  match (← get).charsBuffer with
  | none => throw .nullPointer
  | some chars =>
    if length < 0 ∨ chars.length < length then throw .stringIndexOutOfBounds
    else pure (chars.take length.toNat)

section Readers

variable (e : Endian) (buffer : Bytes)

/-- The loop of both readers from index `i` on; only the one of keys makes a hash. -/
def fillChars (hashing : BitVec 32 → Char16 → BitVec 32) : Nat → Nat → BitVec 32 → CharsM (BitVec 32)
  | 0, _, hash => pure hash
  | length + 1, i, hash => do
    let position ← input Input.getPosition
    let b₀ ← input (Input.load buffer position)
    let b₁ ← input (Input.load buffer (position + 1))
    let ch := Parser.charOf e b₀ b₁
    storeChar i ch
    input (Input.move 2)
    fillChars hashing length (i + 1) (hashing hash ch)

/-- What both readers begin with: the length, the array and the loop. -/
def readIntoBuffer (hashing : BitVec 32 → Char16 → BitVec 32) (hash : BitVec 32) :
    CharsM (Int × BitVec 32) := do
  let length := (← input (Input.readUInt buffer)).toInt.tdiv 2
  ensureCharBuffer length
  let hash ← fillChars e buffer hashing length.toNat 0 hash
  pure (length, hash)

def readUTF16String : CharsM Utf16 := do
  let (length, _) ← readIntoBuffer e buffer (fun hash _ => hash) 0
  newString length

/-- The comparison of the characters from `i` on with those of a cached string. -/
def isStringEqual (cache : Utf16) : Nat → Nat → CharsM Bool
  | 0, _ => pure true
  | length + 1, i => do
    let ch ← loadChar i
    match cache[i]? with
    | none => throw .stringIndexOutOfBounds
    | some c => if ch ≠ c then pure false else isStringEqual cache length (i + 1)

/-- A key that is not in the cache, put there when it is short. -/
def newKey (length : Int) (globalIndex : BitVec 11) : CharsM Utf16 := do
  let cache ← newString length
  if length < 64 then
    input (modify fun p => { p with
      globalStringBytesCache := Function.update p.globalStringBytesCache globalIndex (some cache) })
  pure cache

/-- The cached string at the index if it is the one in the array, a new string otherwise. -/
def findKey (length : Int) (globalIndex : BitVec 11) : CharsM Utf16 := do
  match (← get).parser.globalStringBytesCache globalIndex with
  | some cache =>
    if (cache.length : Int) = length then
      if ← isStringEqual cache length.toNat 0 then pure cache else newKey length globalIndex
    else newKey length globalIndex
  | none => newKey length globalIndex

def readMapKeyUTF16 : CharsM Utf16 := do
  let (length, hash) ← readIntoBuffer e buffer (fun hash ch => hash <<< 5 + hash + ch.setWidth 32) 5381
  findKey length (hash.setWidth 11)

end Readers

/-! ## The same without the array -/

/-- How a program ends: what it returns or throws, and the parser behind it. -/
def outcome {α : Type} (m : CharsM α) (s : CharsParser) : Except Throwable α × Parser :=
  match m s with
  | .ok a t => (.ok a, t.parser)
  | .error err t => (.error err, t.parser)

/-- The same for the programs without the array. -/
def outcomeOf {α : Type} (m : ParserM α) (p : Parser) : Except Throwable α × Parser :=
  match m p with
  | .ok a q => (.ok a, q)
  | .error err q => (.error err, q)

theorem input_of_ok {α : Type} {m : ParserM α} {s : CharsParser} {a : α} {p : Parser}
    (h : m s.parser = .ok a p) : input m s = .ok a { s with parser := p } := by
  unfold input zoom
  rw [h]

theorem input_of_error {α : Type} {m : ParserM α} {s : CharsParser} {err : Throwable} {p : Parser}
    (h : m s.parser = .error err p) : input m s = .error err { s with parser := p } := by
  unfold input zoom
  rw [h]

theorem newChars_of_nonneg {length : Int} (h : 0 ≤ length) (s : CharsParser) : newChars length s
    = .ok () { s with charsBuffer := some (List.replicate length.toNat 0) } := by
  rw [newChars, if_neg (by omega)]
  rfl

/-- There is an array afterwards, and it is long enough. -/
theorem ensureCharBuffer_eq {length : Int} (h : length ≤ 2 ^ 30) (s : CharsParser) :
    ∃ chars rest, ensureCharBuffer length s = .ok () ⟨s.parser, some chars, rest⟩ ∧
      length ≤ chars.length := by
  have hborrow : ∃ chars rest, borrowChars s = .ok () ⟨s.parser, chars, rest⟩ := by
    obtain ⟨p, chars, rest⟩ := s
    cases chars with
    | some chars => exact ⟨_, _, rfl⟩
    | none =>
      cases rest with
      | some chars => exact ⟨_, _, rfl⟩
      | none => exact ⟨_, _, rfl⟩
  obtain ⟨chars, rest, hborrow⟩ := hborrow
  have hcreate : ∃ chars', createChars length ⟨s.parser, chars, rest⟩
      = .ok () ⟨s.parser, some chars', rest⟩ := by
    cases chars with
    | some chars => exact ⟨_, rfl⟩
    | none =>
      show ∃ chars', (if length > 2048 then newChars (int (length + 1024)) else newChars 2048)
        ⟨s.parser, none, rest⟩ = _
      split
      · rw [int_of_fits (by omega) (by omega)]
        exact ⟨_, newChars_of_nonneg (by omega) _⟩
      · exact ⟨_, newChars_of_nonneg (by omega) _⟩
  obtain ⟨chars', hcreate⟩ := hcreate
  have henlarge : ∃ chars'', enlargeChars length ⟨s.parser, some chars', rest⟩
      = .ok () ⟨s.parser, some chars'', rest⟩ ∧ length ≤ chars''.length := by
    show ∃ chars'', (if chars'.length < length then newChars length else pure ())
      ⟨s.parser, some chars', rest⟩ = _ ∧ _
    by_cases hshort : chars'.length < length
    · rw [if_pos hshort]
      exact ⟨_, newChars_of_nonneg (by omega) _, by rw [List.length_replicate]; omega⟩
    · rw [if_neg hshort]
      exact ⟨chars', rfl, by omega⟩
  obtain ⟨chars'', henlarge, hlength⟩ := henlarge
  refine ⟨chars'', rest, ?_, hlength⟩
  rw [ensureCharBuffer, bind_of_ok hborrow, bind_of_ok hcreate, henlarge]

/-- Loading leaves the parser alone. -/
theorem load_cases (buffer : Bytes) (i : Int) (p : Parser) :
    (∃ b, Input.load buffer i p = .ok b p) ∨
      Input.load buffer i p = .error .arrayIndexOutOfBounds p := by
  unfold Input.load
  split
  · exact .inl ⟨_, rfl⟩
  · exact .inr rfl

theorem storeChar_eq {i : Nat} {chars : Utf16} (h : i < chars.length) (ch : Char16) (p : Parser)
    (rest : Option Utf16) :
    storeChar i ch ⟨p, some chars, rest⟩ = .ok () ⟨p, some (chars.set i ch), rest⟩ := by
  show (if i < chars.length then _ else _ : CharsM Unit) ⟨p, some chars, rest⟩ = _
  rw [if_pos h]
  rfl

/-- The loop: it ends as the loop without the array does, and what it has read stands in the
array. -/
theorem fillChars_eq {e : Endian} {buffer : Bytes} (hashing : BitVec 32 → Char16 → BitVec 32)
    (length : Nat) : ∀ {i : Nat} {hash : BitVec 32} {p : Parser} {chars : Utf16} {rest : Option Utf16},
      i + length ≤ chars.length →
        match Parser.readChars e buffer length p with
        | .ok read q => read.length = length ∧ fillChars e buffer hashing length i hash ⟨p, some chars, rest⟩
            = .ok (read.foldl hashing hash) ⟨q, some (overwrite chars i read), rest⟩
        | .error err q => ∃ chars', fillChars e buffer hashing length i hash ⟨p, some chars, rest⟩
            = .error err ⟨q, some chars', rest⟩ := by
  induction length with
  | zero =>
    intro i hash p chars rest h
    exact ⟨rfl, rfl⟩
  | succ length ih =>
    intro i hash p chars rest h
    rw [Parser.readChars, fillChars]
    have hposition : input Input.getPosition ⟨p, some chars, rest⟩
        = .ok p.position ⟨p, some chars, rest⟩ := rfl
    have hread : Parser.readChar e buffer p = (do
        let b₀ ← Input.load buffer p.position
        let b₁ ← Input.load buffer (p.position + 1)
        Input.move 2
        pure (Parser.charOf e b₀ b₁)) p := rfl
    rw [bind_of_ok hposition]
    -- both readers load the same two bytes, and fail at the same one
    obtain ⟨b₀, h₀⟩ | h₀ := load_cases buffer p.position p
    · obtain ⟨b₁, h₁⟩ | h₁ := load_cases buffer (p.position + 1) p
      · have hlt : i < chars.length := by omega
        have hmove : input (Input.move 2) ⟨p, some (chars.set i (Parser.charOf e b₀ b₁)), rest⟩
            = .ok () ⟨{ p with position := p.position + 2 },
              some (chars.set i (Parser.charOf e b₀ b₁)), rest⟩ := rfl
        rw [bind_of_ok h₀, bind_of_ok h₁] at hread
        have hchar : Parser.readChar e buffer p
            = .ok (Parser.charOf e b₀ b₁) { p with position := p.position + 2 } := hread
        rw [bind_of_ok hchar, bind_of_ok (input_of_ok h₀), bind_of_ok (input_of_ok h₁),
          bind_of_ok (storeChar_eq hlt _ p rest), bind_of_ok hmove]
        have htail := @ih (i + 1) (hashing hash (Parser.charOf e b₀ b₁))
          { p with position := p.position + 2 } (chars.set i (Parser.charOf e b₀ b₁)) rest
          (by rw [List.length_set]; omega)
        cases hchars : Parser.readChars e buffer length { p with position := p.position + 2 } with
        | ok read q =>
          rw [hchars] at htail
          obtain ⟨hlength, hfill⟩ := htail
          rw [bind_of_ok hchars]
          refine ⟨congrArg (· + 1) hlength, ?_⟩
          rw [hfill, overwrite_set _ _ _ (Nat.lt_succ_self i)]
          rfl
        | error err q =>
          rw [hchars] at htail
          rw [bind_of_error hchars]
          exact htail
      · rw [bind_of_ok h₀, bind_of_error h₁] at hread
        rw [bind_of_error hread, bind_of_ok (input_of_ok h₀), bind_of_error (input_of_error h₁)]
        exact ⟨chars, rfl⟩
    · rw [bind_of_error h₀] at hread
      rw [bind_of_error hread, bind_of_error (input_of_error h₀)]
      exact ⟨chars, rfl⟩

section

variable {e : Endian} {buffer : Bytes}

/-- What the readers without the array begin with. -/
def readLengthAndChars (e : Endian) (buffer : Bytes) : ParserM (Int × Utf16) := do
  let length := (← Input.readUInt buffer).toInt.tdiv 2
  let chars ← Parser.readChars e buffer length.toNat
  pure (length, chars)

theorem tdiv_le (x : BitVec 32) : x.toInt.tdiv 2 ≤ 2 ^ 30 := by
  have hx := BitVec.toInt_lt (x := x)
  by_cases h : 0 ≤ x.toInt
  · rw [Int.tdiv_eq_ediv_of_nonneg h]
    omega
  · have hneg : x.toInt.tdiv 2 ≤ 0 := by
      rw [← neg_neg x.toInt, Int.neg_tdiv, Int.tdiv_eq_ediv_of_nonneg (by omega)]
      omega
    omega

/-- Both begin in the same way; the array then starts with the characters. -/
theorem readIntoBuffer_eq (e : Endian) (buffer : Bytes) (hashing : BitVec 32 → Char16 → BitVec 32)
    (hash : BitVec 32) (s : CharsParser) :
    match readLengthAndChars e buffer s.parser with
    | .ok (length, read) p => ∃ chars rest, readIntoBuffer e buffer hashing hash s
        = .ok (length, read.foldl hashing hash) ⟨p, some chars, rest⟩ ∧
          read.length = length.toNat ∧ length ≤ chars.length ∧ chars.take length.toNat = read
    | .error err p => ∃ chars rest, readIntoBuffer e buffer hashing hash s = .error err ⟨p, chars, rest⟩ := by
  rw [readLengthAndChars, readIntoBuffer]
  cases hraw : Input.readUInt buffer s.parser with
  | error err p =>
    rw [bind_of_error hraw, bind_of_error (input_of_error hraw)]
    exact ⟨s.charsBuffer, s.localCharsBufferCache, rfl⟩
  | ok raw p =>
    rw [bind_of_ok hraw, bind_of_ok (input_of_ok hraw)]
    obtain ⟨chars, rest, hensure, hlength⟩ :=
      ensureCharBuffer_eq (tdiv_le raw) { s with parser := p }
    have hfill := @fillChars_eq e buffer hashing (raw.toInt.tdiv 2).toNat 0 hash p chars rest (by omega)
    rw [bind_of_ok hensure]
    cases hread : Parser.readChars e buffer (raw.toInt.tdiv 2).toNat p with
    | error err q =>
      rw [hread] at hfill
      obtain ⟨chars', hfill⟩ := hfill
      rw [bind_of_error hread, bind_of_error hfill]
      exact ⟨some chars', rest, rfl⟩
    | ok read q =>
      rw [hread] at hfill
      obtain ⟨hcount, hfill⟩ := hfill
      rw [bind_of_ok hread, bind_of_ok hfill]
      refine ⟨overwrite chars 0 read, rest, rfl, hcount, ?_, ?_⟩
      · rw [overwrite_length]
        exact hlength
      · have htake := take_overwrite_end chars (p := 0) read (by omega)
        rwa [Nat.zero_add, hcount, List.take_zero, List.nil_append] at htake

theorem newString_eq {length : Int} {chars : Utf16} (h : length ≤ chars.length) (p : Parser)
    (rest : Option Utf16) : newString length ⟨p, some chars, rest⟩
      = if length < 0 then .error .stringIndexOutOfBounds ⟨p, some chars, rest⟩
        else .ok (chars.take length.toNat) ⟨p, some chars, rest⟩ := by
  show (if length < 0 ∨ chars.length < length then _ else _ : CharsM Utf16) _ = _
  by_cases hneg : length < 0
  · rw [if_pos (.inl hneg), if_pos hneg]
    rfl
  · rw [if_neg (by omega), if_neg hneg]
    rfl

/-- **The reader of strings** ends as if there were no array. -/
theorem outcome_readUTF16String (s : CharsParser) :
    outcome (readUTF16String e buffer) s = outcomeOf (Parser.readUTF16String e buffer) s.parser := by
  have hread : Parser.readUTF16String e buffer = (do
      let (length, chars) ← readLengthAndChars e buffer
      if length < 0 then throw Throwable.stringIndexOutOfBounds
      pure chars) := by
    simp only [Parser.readUTF16String, readLengthAndChars, bind_assoc, pure_bind]
  have hbegin := readIntoBuffer_eq e buffer (fun hash _ => hash) 0 s
  unfold outcome outcomeOf
  rw [hread, readUTF16String]
  cases hshared : readLengthAndChars e buffer s.parser with
  | error err p =>
    rw [hshared] at hbegin
    obtain ⟨chars, rest, hbegin⟩ := hbegin
    rw [bind_of_error hshared, bind_of_error hbegin]
  | ok r p =>
    obtain ⟨length, read⟩ := r
    rw [hshared] at hbegin
    obtain ⟨chars, rest, hbegin, hcount, hlength, htake⟩ := hbegin
    rw [bind_of_ok hshared, bind_of_ok hbegin]
    simp only [newString_eq hlength]
    by_cases hneg : length < 0
    · rw [if_pos hneg, if_pos hneg]
      rfl
    · rw [if_neg hneg, if_neg hneg, htake]
      rfl

/-- The comparison finds out whether the strings are equal. -/
theorem isStringEqual_eq {cache chars : Utf16} (hlength : cache.length ≤ chars.length) (p : Parser)
    (rest : Option Utf16) : ∀ {k i : Nat}, i + k = cache.length →
      isStringEqual cache k i ⟨p, some chars, rest⟩
        = .ok (decide ((chars.take cache.length).drop i = cache.drop i)) ⟨p, some chars, rest⟩ := by
  intro k
  induction k with
  | zero =>
    intro i hi
    rw [List.drop_of_length_le (by rw [List.length_take]; omega), List.drop_of_length_le (by omega)]
    rfl
  | succ k ih =>
    intro i hi
    have hi₁ : i < cache.length := by omega
    have hi₂ : i < (chars.take cache.length).length := by
      rw [List.length_take]
      omega
    have hload : loadChar i ⟨p, some chars, rest⟩ = .ok chars[i] ⟨p, some chars, rest⟩ := by
      show (match chars[i]? with
        | none => throw .arrayIndexOutOfBounds
        | some ch => pure ch : CharsM Char16) _ = _
      rw [List.getElem?_eq_getElem (by omega)]
      rfl
    rw [isStringEqual, bind_of_ok hload, List.getElem?_eq_getElem hi₁, List.drop_eq_getElem_cons hi₁,
      List.drop_eq_getElem_cons hi₂, List.getElem_take]
    simp only [List.cons.injEq]
    by_cases hne : chars[i] = cache[i]
    · rw [if_neg (not_not.mpr hne), ih (by omega)]
      simp only [hne, true_and]
    · rw [if_pos hne]
      simp only [hne, false_and, decide_false]
      rfl

theorem newKey_eq {length : Int} {chars : Utf16} (hlength : length ≤ chars.length) (p : Parser)
    (rest : Option Utf16) (globalIndex : BitVec 11) :
    outcome (newKey length globalIndex) ⟨p, some chars, rest⟩
      = outcomeOf (Parser.readMapKeyUTF16.newKey length (chars.take length.toNat) globalIndex) p := by
  have hstring := newString_eq hlength p rest
  unfold outcome outcomeOf
  rw [newKey, Parser.readMapKeyUTF16.newKey]
  by_cases hneg : length < 0
  · rw [if_pos hneg] at hstring
    rw [bind_of_error hstring, if_pos hneg]
    rfl
  · rw [if_neg hneg] at hstring
    rw [bind_of_ok hstring, if_neg hneg]
    by_cases hshort : length < 64
    · simp only [if_pos hshort]
      rfl
    · simp only [if_neg hshort]
      rfl

/-- What the reader of keys does with the characters, without the array. -/
def findKeyOf (length : Int) (chars : Utf16) (globalIndex : BitVec 11) : ParserM Utf16 := do
  match (← get).globalStringBytesCache globalIndex with
  | some cache =>
    if (cache.length : Int) = length ∧ chars = cache then pure cache
    else Parser.readMapKeyUTF16.newKey length chars globalIndex
  | none => Parser.readMapKeyUTF16.newKey length chars globalIndex

theorem findKey_eq {length : Int} {chars : Utf16} (hlength : length ≤ chars.length) (p : Parser)
    (rest : Option Utf16) (globalIndex : BitVec 11) :
    outcome (findKey length globalIndex) ⟨p, some chars, rest⟩
      = outcomeOf (findKeyOf length (chars.take length.toNat) globalIndex) p := by
  have hnew := newKey_eq hlength p rest globalIndex
  have hget : (get : CharsM CharsParser) ⟨p, some chars, rest⟩
      = .ok ⟨p, some chars, rest⟩ ⟨p, some chars, rest⟩ := rfl
  have hget' : (get : ParserM Parser) p = .ok p p := rfl
  unfold outcome outcomeOf at hnew ⊢
  rw [findKey, findKeyOf, bind_of_ok hget, bind_of_ok hget']
  cases hcache : p.globalStringBytesCache globalIndex with
  | none => exact hnew
  | some cache =>
    simp only
    by_cases hlen : (cache.length : Int) = length
    · have hcount : length.toNat = cache.length := by omega
      have hequal := isStringEqual_eq (show cache.length ≤ chars.length by omega) p rest
        (Nat.zero_add cache.length)
      rw [List.drop_zero, List.drop_zero] at hequal
      rw [if_pos hlen, hcount, bind_of_ok hequal]
      by_cases hsame : chars.take cache.length = cache
      · rw [if_pos (decide_eq_true hsame), if_pos ⟨hlen, hsame⟩]
        rfl
      · rw [if_neg (by simpa using hsame), if_neg fun h => hsame h.2, ← hcount]
        exact hnew
    · rw [if_neg hlen, if_neg fun h => hlen h.1]
      exact hnew

/-- **The reader of keys** ends as if there were no array. -/
theorem outcome_readMapKeyUTF16 (s : CharsParser) :
    outcome (readMapKeyUTF16 e buffer) s = outcomeOf (Parser.readMapKeyUTF16 e buffer) s.parser := by
  have hread : Parser.readMapKeyUTF16 e buffer = (do
      let (length, chars) ← readLengthAndChars e buffer
      findKeyOf length chars ((Parser.hashOf chars).setWidth 11)) := by
    simp only [readLengthAndChars, bind_assoc, pure_bind]
    rfl
  have hbegin := readIntoBuffer_eq e buffer
    (fun hash ch => hash <<< 5 + hash + ch.setWidth 32) 5381 s
  rw [hread, readMapKeyUTF16]
  cases hshared : readLengthAndChars e buffer s.parser with
  | error err p =>
    rw [hshared] at hbegin
    obtain ⟨chars, rest, hbegin⟩ := hbegin
    unfold outcome outcomeOf
    rw [bind_of_error hshared, bind_of_error hbegin]
  | ok r p =>
    obtain ⟨length, read⟩ := r
    rw [hshared] at hbegin
    obtain ⟨chars, rest, hbegin, hcount, hlength, htake⟩ := hbegin
    have hfind := findKey_eq hlength p rest ((Parser.hashOf read).setWidth 11)
    rw [htake] at hfind
    unfold outcome outcomeOf at hfind ⊢
    rw [bind_of_ok hshared, bind_of_ok hbegin]
    exact hfind

/-! ## The two readers -/

/-- The string that is returned or what is thrown, and the position behind it. -/
def ending (m : CharsM Utf16) (s : CharsParser) : Except Throwable Utf16 × Int :=
  ((outcome m s).1, (outcome m s).2.position)

/-- **Keys and strings** are read alike: at every position of every array, whatever the cache
holds, the two readers return the same string or throw the same, and stop at the same place. -/
theorem readMapKeyUTF16_agrees (e : Endian) (buffer : Bytes) (position : Int)
    (cache cache' : BitVec 11 → Option Utf16) (chars chars' rest rest' : Option Utf16) :
    ending (readMapKeyUTF16 e buffer) ⟨⟨position, cache⟩, chars, rest⟩
      = ending (readUTF16String e buffer) ⟨⟨position, cache'⟩, chars', rest'⟩ := by
  have hsame : Parser.SamePosition ⟨position, cache⟩ ⟨position, cache'⟩ := rfl
  -- the cache only saves making a string: both read the same characters and end at one place
  have hend := @Parser.simulates_readMapKeyUTF16_readUTF16String e buffer _ _ hsame
  unfold ending
  rw [outcome_readMapKeyUTF16, outcome_readUTF16String]
  unfold outcomeOf
  cases hkey : Parser.readMapKeyUTF16 e buffer ⟨position, cache⟩ with
  | ok key p =>
    rw [hkey] at hend
    cases hstring : Parser.readUTF16String e buffer ⟨position, cache'⟩ with
    | ok s q =>
      rw [hstring] at hend
      cases hend with
      | ok heq hposition => rw [heq, hposition]
    | error err q =>
      rw [hstring] at hend
      exact nomatch hend
  | error err p =>
    rw [hkey] at hend
    cases hstring : Parser.readUTF16String e buffer ⟨position, cache'⟩ with
    | ok s q =>
      rw [hstring] at hend
      exact nomatch hend
    | error err' q =>
      rw [hstring] at hend
      cases hend with
      | error _ hposition => rw [hposition]

end

end CharsParser

end Wson.Java
