import Wson.Java.Builder

/-!
# What the builder writes

The purpose of `Builder.writeObject`, as a function from objects to documents,
and the proof that the code computes it.

- `Written`: a document together with the chunks in which the builder writes it;
  the fields say that the chunks spell the document.
- `unfold cut n path o`: the document written for `o` when the containers `path`
  are being written; `cut` decides which containers become null.
- `emits_writeObject`: **the builder writes the unfolding**. A run of
  `writeObject` that abandons no bean returns exactly when the unfolding with
  `cut := refs.contains` exists and its chunks fit in the buffer; it then has
  appended these chunks and restored `refs`.
-/

namespace Wson.Java

open Effect Wire Output

/-! ## Documents in chunks -/

/-- The chunk asks for the bytes it stores and a few more. -/
def Tight (c : Chunk) : Prop :=
  (c.bytes.length : Int) ≤ c.request ∧ c.request ≤ c.bytes.length + 11

/-- A document and the chunks in which it is written. -/
structure Written (e : Endian) where
  doc : Doc
  chunks : List Chunk
  /-- The chunks spell the document. -/
  bytes_eq : doc.Sized → chunkBytes chunks = doc.encode e
  sized : (chunkBytes chunks).length < 2 ^ 32 → doc.Sized
  tight : (chunkBytes chunks).length < 2 ^ 30 → ∀ c ∈ chunks, Tight c

/-- The chunk of a text with its length. -/
def textChunk (e : Endian) (s : Utf16) : Chunk where
  request := int (s.length * 2 + 8)
  bytes := Wire.encode (2 * s.length % 2 ^ 32) ++ units e s

/-- The chunk of a header: type byte and count. -/
def countChunk (tag : Byte) (n : Nat) : Chunk where
  request := 8
  bytes := tag :: Wire.encode (n % 2 ^ 32)

theorem encode_length_le (n : Nat) : (Wire.encode n).length ≤ 5 :=
  encodeGroups_length_le 4 n

theorem textChunk_bytes {e : Endian} {s : Utf16} (h : 2 * s.length < 2 ^ 32) :
    (textChunk e s).bytes = Wire.encode (2 * s.length) ++ units e s := by
  rw [textChunk, Nat.mod_eq_of_lt h]

theorem length_le_textChunk (e : Endian) (s : Utf16) :
    2 * s.length ≤ (textChunk e s).bytes.length := by
  simp only [textChunk, List.length_append, units_length]
  omega

theorem textChunk_tight {e : Endian} {s : Utf16} (h : (textChunk e s).bytes.length < 2 ^ 30) :
    Tight (textChunk e s) := by
  have hle := length_le_textChunk e s
  have h5 := encode_length_le (2 * s.length % 2 ^ 32)
  have hint : int (s.length * 2 + 8) = s.length * 2 + 8 := int_of_fits (by omega) (by omega)
  simp only [Tight, textChunk, List.length_append, units_length, hint]
  omega

theorem countChunk_tight (tag : Byte) (n : Nat) : Tight (countChunk tag n) := by
  have h5 := encode_length_le (n % 2 ^ 32)
  simp only [Tight, countChunk, List.length_cons]
  omega

namespace Written

variable {e : Endian}

theorem bytes_eq_of_lt (w : Written e) (h : (chunkBytes w.chunks).length < 2 ^ 32) :
    chunkBytes w.chunks = w.doc.encode e :=
  w.bytes_eq (w.sized h)

/-- A scalar written as one chunk. -/
def scalar (doc : Doc) (request : Int) (bytes : Bytes) (h : bytes = doc.encode e)
    (hs : doc.Sized) (hr : Tight ⟨request, bytes⟩) : Written e where
  doc := doc
  chunks := [⟨request, bytes⟩]
  bytes_eq _ := by simpa using h
  sized _ := hs
  tight _ := by simpa using hr

/-- A text: the type byte in a chunk of its own, then length and characters. -/
def text (kind : TextKind) (request : Int) (s : Utf16) (hr : 1 ≤ request ∧ request ≤ 12) :
    Written e where
  doc := .text kind s
  chunks := [⟨request, [kind.tag]⟩, textChunk e s]
  bytes_eq h := by
    rw [chunkBytes_cons, chunkBytes_cons, textChunk_bytes h, chunkBytes_nil, List.append_nil]
    rfl
  sized h := by
    have hle := length_le_textChunk e s
    simp only [chunkBytes_cons, chunkBytes_nil, List.append_nil, List.length_append] at h
    show 2 * s.length < 2 ^ 32
    omega
  tight h := by
    simp only [chunkBytes_cons, chunkBytes_nil, List.append_nil, List.length_append] at h
    intro c hc
    rcases List.mem_cons.mp hc with rfl | hc
    · simp only [Tight, List.length_singleton]
      omega
    · obtain rfl : c = textChunk e s := by simpa using hc
      exact textChunk_tight (by omega)

theorem chunkBytes_ne_nil (w : Written e) : 0 < (chunkBytes w.chunks).length := by
  by_contra h
  have hzero : (chunkBytes w.chunks).length = 0 := by omega
  have := Doc.encode_length_pos e w.doc
  rw [← w.bytes_eq_of_lt (by omega)] at this
  omega

/-- The chunks of several values one after the other. -/
def itemChunks (ws : List (Written e)) : List Chunk :=
  ws.flatMap chunks

def entryChunks (es : List (Utf16 × Written e)) : List Chunk :=
  es.flatMap fun entry => textChunk e entry.1 :: entry.2.chunks

theorem length_le_itemChunks (ws : List (Written e)) :
    ws.length ≤ (chunkBytes (itemChunks ws)).length := by
  induction ws with
  | nil => exact Nat.le_refl 0
  | cons w ws ih =>
    have := chunkBytes_ne_nil w
    simp only [itemChunks, List.flatMap_cons, chunkBytes_append, List.length_append,
      List.length_cons] at ih ⊢
    omega

theorem length_le_entryChunks (es : List (Utf16 × Written e)) :
    es.length ≤ (chunkBytes (entryChunks es)).length := by
  induction es with
  | nil => exact Nat.le_refl 0
  | cons entry es ih =>
    have := chunkBytes_ne_nil entry.2
    simp only [entryChunks, List.flatMap_cons, chunkBytes_append, chunkBytes_cons,
      List.length_append, List.length_cons] at ih ⊢
    omega

theorem itemChunks_bytes : ∀ {ws : List (Written e)}, Doc.SizedItems (ws.map doc) →
    chunkBytes (itemChunks ws) = Doc.encodeItems e (ws.map doc)
  | [], _ => rfl
  | w :: ws, h => by
    rw [itemChunks, List.flatMap_cons, chunkBytes_append, w.bytes_eq h.1, ← itemChunks,
      itemChunks_bytes h.2]
    rfl

theorem itemChunks_sized : ∀ {ws : List (Written e)},
    (chunkBytes (itemChunks ws)).length < 2 ^ 32 → Doc.SizedItems (ws.map doc)
  | [], _ => trivial
  | w :: ws, h => by
    rw [itemChunks, List.flatMap_cons, chunkBytes_append, List.length_append, ← itemChunks] at h
    exact ⟨w.sized (by omega), itemChunks_sized (by omega)⟩

theorem entryChunks_bytes : ∀ {es : List (Utf16 × Written e)},
    Doc.SizedEntries (es.map fun entry => (entry.1, entry.2.doc)) →
      chunkBytes (entryChunks es)
        = Doc.encodeEntries e (es.map fun entry => (entry.1, entry.2.doc))
  | [], _ => rfl
  | (k, w) :: es, h => by
    rw [entryChunks, List.flatMap_cons, chunkBytes_append, chunkBytes_cons, w.bytes_eq h.2.1,
      textChunk_bytes h.1, ← entryChunks, entryChunks_bytes h.2.2]
    rfl

theorem entryChunks_sized : ∀ {es : List (Utf16 × Written e)},
    (chunkBytes (entryChunks es)).length < 2 ^ 32 →
      Doc.SizedEntries (es.map fun entry => (entry.1, entry.2.doc))
  | [], _ => trivial
  | (k, w) :: es, h => by
    have hle := length_le_textChunk e k
    rw [entryChunks, List.flatMap_cons, chunkBytes_append, chunkBytes_cons, List.length_append,
      List.length_append, ← entryChunks] at h
    dsimp only at h
    exact ⟨show 2 * k.length < 2 ^ 32 by omega, w.sized (by omega), entryChunks_sized (by omega)⟩

theorem itemChunks_tight {ws : List (Written e)}
    (h : (chunkBytes (itemChunks ws)).length < 2 ^ 30) : ∀ c ∈ itemChunks ws, Tight c := by
  induction ws with
  | nil => exact fun _ hc => absurd hc (by simp [itemChunks])
  | cons w ws ih =>
    simp only [itemChunks, List.flatMap_cons, chunkBytes_append, List.length_append,
      List.mem_append] at h ih ⊢
    rintro c (hc | hc)
    · exact w.tight (by omega) c hc
    · exact ih (by omega) c hc

theorem entryChunks_tight {es : List (Utf16 × Written e)}
    (h : (chunkBytes (entryChunks es)).length < 2 ^ 30) : ∀ c ∈ entryChunks es, Tight c := by
  induction es with
  | nil => exact fun _ hc => absurd hc (by simp [entryChunks])
  | cons entry es ih =>
    simp only [entryChunks, List.flatMap_cons, chunkBytes_append, chunkBytes_cons,
      List.length_append, List.mem_append, List.mem_cons] at h ih ⊢
    rintro c ((rfl | hc) | hc)
    · exact textChunk_tight (by omega)
    · exact entry.2.tight (by omega) c hc
    · exact ih (by omega) c hc

/-- A list: count, then the elements. -/
def array (ws : List (Written e)) : Written e where
  doc := .array (ws.map doc)
  chunks := countChunk Tag.array ws.length :: itemChunks ws
  bytes_eq h := by
    have hlen : ws.length < 2 ^ 32 := by simpa using h.1
    rw [chunkBytes_cons, itemChunks_bytes h.2, countChunk, Nat.mod_eq_of_lt hlen]
    simp [Doc.encode]
  sized h := by
    have hle := length_le_itemChunks ws
    rw [chunkBytes_cons, List.length_append] at h
    exact ⟨by rw [List.length_map]; omega, itemChunks_sized (by omega)⟩
  tight h := by
    rw [chunkBytes_cons, List.length_append] at h
    intro c hc
    rcases List.mem_cons.mp hc with rfl | hc
    · exact countChunk_tight _ _
    · exact itemChunks_tight (by omega) c hc

/-- A map: count, then keys and values in turn. -/
def map (es : List (Utf16 × Written e)) : Written e where
  doc := .map (es.map fun entry => (entry.1, entry.2.doc))
  chunks := countChunk Tag.map es.length :: entryChunks es
  bytes_eq h := by
    have hlen : es.length < 2 ^ 32 := by simpa using h.1
    rw [chunkBytes_cons, entryChunks_bytes h.2, countChunk, Nat.mod_eq_of_lt hlen]
    simp [Doc.encode]
  sized h := by
    have hle := length_le_entryChunks es
    rw [chunkBytes_cons, List.length_append] at h
    exact ⟨by rw [List.length_map]; omega, entryChunks_sized (by omega)⟩
  tight h := by
    rw [chunkBytes_cons, List.length_append] at h
    intro c hc
    rcases List.mem_cons.mp hc with rfl | hc
    · exact countChunk_tight _ _
    · exact entryChunks_tight (by omega) c hc

def null : Written e :=
  scalar .null 2 [Tag.null] rfl trivial (by simp [Tight])

def boolean (b : Bool) : Written e :=
  scalar (.boolean b) 2 [booleanTag b] rfl trivial (by simp [Tight])

def int (x : BitVec 32) : Written e :=
  scalar (.int x) 12 (Tag.int :: Wire.encode (zigzag x).toNat) rfl trivial (by
    have := encode_length_le (zigzag x).toNat
    simp only [Tight, List.length_cons]
    omega)

def long (x : BitVec 64) : Written e :=
  scalar (.long x) 12 (Tag.long :: be64 x) rfl trivial (by simp [Tight])

def float (x : BitVec 32) : Written e :=
  scalar (.float x) 12 (Tag.float :: be32 x) rfl trivial (by simp [Tight])

def double (request : Int) (x : BitVec 64) (hr : 10 ≤ request ∧ request ≤ 12) : Written e :=
  scalar (.double x) request (Tag.double :: be64 x) rfl trivial (by
    simp only [Tight, List.length_cons, be64_length]
    omega)

/-- What `writeNumber` writes for a number. -/
def number (doubleValue : BigDecimal → BitVec 64) (doubleToString : BitVec 64 → Utf16) :
    JNumber → Written e
  | .byte x => int (x.signExtend 32)
  | .short x => int (x.signExtend 32)
  | .integer x => int x
  | .long x => long x
  | .float x => float (floatToIntBits x)
  | .double x => double 12 (doubleToLongBits x) (by decide)
  | .bigInteger n => text .bigInteger 12 (BigInteger.toString n) (by decide)
  | .bigDecimal b =>
    if b.toString = doubleToString (doubleValue b) then
      double 12 (doubleToLongBits (doubleValue b)) (by decide)
    else text .bigDecimal 12 b.toString (by decide)
  | .other s => text .string 12 s (by decide)

end Written

/-! ## The unfolding of an object -/

section Unfold

variable {O : Type} (P : Platform) (H : Heap O) (special : Utf16 → Bool)
  (cut : Nat → List O → O → Option Bool)

def unfoldElements {e : Endian} (one : O → Option (Written e)) :
    List O → Option (List (Written e))
  | [] => some []
  | o :: os => do
    let w ← one o
    let ws ← unfoldElements one os
    some (w :: ws)

/-- The entries of a map whose value is not null. -/
def unfoldEntries {e : Endian} (one : O → Option (Written e)) :
    List (Key × O) → Option (List (Utf16 × Written e))
  | [] => some []
  | (key, value) :: entries =>
    if H.isNull value then unfoldEntries one entries
    else do
      let k ← key.toString.toOption
      let w ← one value
      let ws ← unfoldEntries one entries
      some ((k, w) :: ws)

/-- A container: null when it is cut, otherwise unfolded as part of the path. -/
def unfoldContainer {e : Endian} (n : Nat) (path : List O) (o : O)
    (body : List O → Option (Written e)) : Option (Written e) :=
  match cut n path o with
  | none => none
  | some true => some .null
  | some false => body (path ++ [o])

/-- The document written for `o`, a class being one of `special` when its objects are to
be converted first. There is none when the stack or a key's text is missing. -/
def unfold : Nat → List O → O → Option (Written P.endian)
  | 0, _, _ => none
  | n + 1, path, o =>
    match H.view o with
    | .string s => some (.text .string 2 s (by decide))
    | .map entries =>
      unfoldContainer cut n path o fun path =>
        (unfoldEntries H (unfold n path) entries).map .map
    | .list elements =>
      unfoldContainer cut n path o fun path => (unfoldElements (unfold n path) elements).map .array
    | .number m => some (.number P.doubleValue P.doubleToString m)
    | .boolean b => some (.boolean b)
    | .null => some .null
    | .array elements =>
      unfoldContainer cut n path o fun path => (unfoldElements (unfold n path) elements).map .array
    | .date time => some (.double 10 (doubleToLongBits (Binary64.ofInt time.toInt)) (by decide))
    | .collection elements =>
      unfoldContainer cut n path o fun path => (unfoldElements (unfold n path) elements).map .array
    | .enum json => unfoldContainer cut n path o fun path => unfold n path json
    | .bean key getters =>
      unfoldContainer cut n path o fun path =>
        if special key then unfold n path (H.toJSON o)
        else do
          let entries ← (Builder.toMap H getters).toOption
          (unfoldEntries H (unfold n path) entries).map .map

end Unfold

/-! ## Runs that abandon no bean -/

namespace Builder

variable {O : Type}

/-- The classes in the cache. -/
def SpecialIs (special : Utf16 → Bool) (b : Builder O) : Prop :=
  ∀ key, (b.specialClass.find? key).isSome = special key

theorem isSome_get (b : Builder O) (key : Utf16) :
    (b.specialClass.get key).1.isSome = (b.specialClass.find? key).isSome := by
  unfold LruCache.get
  cases b.specialClass.find? key <;> rfl

theorem specialIs_get {special : Utf16 → Bool} {b : Builder O}
    (hb : SpecialIs special b) (key : Utf16) :
    SpecialIs special { b with specialClass := (b.specialClass.get key).2 } :=
  fun k => (LruCache.isSome_find?_get b.specialClass key k).trans (hb k)

/-- The classes whose objects are converted before they are written. -/
def marked (b : Builder O) (key : Utf16) : Bool :=
  (b.specialClass.find? key).isSome

theorem isSpecial_of_unmarked {b : Builder O} {key : Utf16} (h : b.marked key = false) :
    isSpecial key b = .ok false b := by
  have hnone : b.specialClass.find? key = none := by
    simpa [marked] using h
  unfold isSpecial LruCache.get
  rw [hnone]
  rfl

theorem specialIs_marked (b : Builder O) : SpecialIs b.marked b :=
  fun _ => rfl

/-- `m` returns, and no class was put into the cache meanwhile. -/
def Quiet (m : BuilderM O Unit) (b b' : Builder O) : Prop :=
  m b = .ok () b' ∧ b'.specialClass.putCount = b.specialClass.putCount

/-- From `b` to `b'` the chunks were written and the stack was restored. -/
structure Emitted (special : Utf16 → Bool) (cs : List Chunk) (b b' : Builder O) : Prop where
  output : play b.output cs = some b'.output
  refs : b'.refs = b.refs
  special : SpecialIs special b'

/-- A run that writes the chunks of a document appends its encoding. -/
theorem written_of_emitted {special : Utf16 → Bool} {e : Endian} {w : Written e}
    {b b' : Builder O} (hv : b.output.Valid) (he : Emitted special w.chunks b b') :
    b'.output.Valid ∧ (chunkBytes w.chunks).length < 2 ^ 31 ∧
      b'.output.written = b.output.written ++ w.doc.encode e := by
  obtain ⟨hv', hw, hp⟩ := play_spec hv he.output
  have hin := hv'.inside
  have hsmall := hv'.small
  refine ⟨hv', by omega, ?_⟩
  rw [hw, w.bytes_eq_of_lt (by omega)]

/-- The quiet runs of `m` are those that write the chunks `chunks` gives for the stack. -/
structure Emits (special : Utf16 → Bool) (m : BuilderM O Unit)
    (chunks : List O → Option (List Chunk)) : Prop where
  grows : Preserves Grows m
  sound : ∀ {b b'}, SpecialIs special b → Quiet m b b' →
    ∃ cs, chunks b.refs = some cs ∧ Emitted special cs b b'
  complete : ∀ {b cs o}, SpecialIs special b → chunks b.refs = some cs →
    play b.output cs = some o → ∃ b', Quiet m b b' ∧ b'.output = o ∧ Emitted special cs b b'

/-- Runs of a sequence: the second part starts where the first one ended. -/
theorem bind_eq_ok {α β : Type} {m : BuilderM O α} {f : α → BuilderM O β} {b b' : Builder O}
    {c : β} : (m >>= f) b = .ok c b' ↔ ∃ a b₁, m b = .ok a b₁ ∧ f a b₁ = .ok c b' := by
  show EStateM.bind m f b = .ok c b' ↔ _
  unfold EStateM.bind
  cases m b with
  | ok a b₁ => simp
  | error e b₁ => simp

section Rules

variable {special : Utf16 → Bool}

theorem emits_onOutput {m : OutputM Unit} {c : Chunk} (hm : Advances m)
    (h : ∀ o, returns m o = (accept o c).map fun o' => ((), o')) :
    Emits special (onOutput m : BuilderM O Unit) fun _ => some [c] where
  grows := grows_onOutput hm
  sound := by
    intro b b' hb hq
    have hr : returns (onOutput m) b = some ((), b') := returns_eq_some.mpr hq.1
    rw [onOutput, returns_zoom, h, Option.map_map] at hr
    obtain ⟨o, ho, hb'⟩ := Option.map_eq_some_iff.mp hr
    obtain rfl : _ = b' := (Prod.mk.inj hb').2
    exact ⟨[c], rfl, by rw [play_cons, ho]; rfl, rfl, hb⟩
  complete := by
    intro b cs o hb hcs hplay
    obtain rfl := Option.some.inj hcs
    rw [play_cons] at hplay
    obtain ⟨o', ho, hplay'⟩ := Option.bind_eq_some_iff.mp hplay
    obtain rfl : o' = o := by simpa using hplay'
    have hr : returns (onOutput m) b = some ((), { b with output := o' }) := by
      rw [onOutput, returns_zoom, h, ho]
      rfl
    exact ⟨_, ⟨returns_eq_some.mp hr, rfl⟩, rfl, hplay, rfl, hb⟩

theorem emits_pure : Emits special (pure () : BuilderM O Unit) fun _ => some [] where
  grows := preserves_pure Grows.refl ()
  sound := by
    rintro b b' hb ⟨h, -⟩
    obtain rfl : b = b' := (EStateM.Result.ok.inj h).2
    exact ⟨[], rfl, rfl, rfl, hb⟩
  complete := by
    intro b cs o hb hcs hplay
    obtain rfl := Option.some.inj hcs
    obtain rfl := Option.some.inj hplay
    exact ⟨b, ⟨rfl, rfl⟩, rfl, rfl, rfl, hb⟩

theorem emits_throw (e : Throwable) :
    Emits special (throw e : BuilderM O Unit) fun _ => none where
  grows := preserves_throw Grows.refl e
  sound := fun _ hq => nomatch hq.1
  complete := fun _ h _ => nomatch h

theorem Emits.bind {m m' : BuilderM O Unit} {f g : List O → Option (List Chunk)}
    (hm : Emits special m f) (hm' : Emits special m' g) :
    Emits special (m >>= fun _ => m') fun path =>
      (f path).bind fun cs => (g path).map fun ds => cs ++ ds where
  grows := grows_bind hm.grows fun _ => hm'.grows
  sound := by
    rintro b b'' hb ⟨h, hput⟩
    obtain ⟨_, b', h₁, h₂⟩ := bind_eq_ok.mp h
    have hle₁ := (hm.grows.of_ok h₁).putCount
    have hle₂ := (hm'.grows.of_ok h₂).putCount
    obtain ⟨cs, hcs, he₁⟩ := hm.sound hb ⟨h₁, by omega⟩
    obtain ⟨ds, hds, he₂⟩ := hm'.sound he₁.special ⟨h₂, by omega⟩
    rw [he₁.refs] at hds
    refine ⟨cs ++ ds, by rw [hcs, Option.bind_some, hds]; rfl, ?_, ?_, he₂.special⟩
    · rw [play_append, he₁.output, Option.bind_some, he₂.output]
    · rw [he₂.refs, he₁.refs]
  complete := by
    intro b cds o hb hcds hplay
    obtain ⟨cs, hcs, hds⟩ := Option.bind_eq_some_iff.mp hcds
    obtain ⟨ds, hds, rfl⟩ := Option.map_eq_some_iff.mp hds
    rw [play_append] at hplay
    obtain ⟨o', hplay₁, hplay₂⟩ := Option.bind_eq_some_iff.mp hplay
    obtain ⟨b', hq₁, rfl, he₁⟩ := hm.complete hb hcs hplay₁
    obtain ⟨b'', hq₂, rfl, he₂⟩ := hm'.complete he₁.special (by rwa [he₁.refs]) hplay₂
    refine ⟨b'', ⟨bind_eq_ok.mpr ⟨(), b', hq₁.1, hq₂.1⟩, hq₂.2.trans hq₁.2⟩, rfl, ?_, ?_,
      he₂.special⟩
    · rw [play_append, he₁.output, Option.bind_some, he₂.output]
    · rw [he₂.refs, he₁.refs]

theorem Emits.congr {m : BuilderM O Unit} {f g : List O → Option (List Chunk)}
    (hm : Emits special m f) (h : ∀ path, f path = g path) : Emits special m g := by
  rwa [← funext h]

/-- A loop writes the unfoldings of its items one after the other. -/
theorem emits_forM {e : Endian} {write : O → BuilderM O Unit}
    {one : List O → O → Option (Written e)}
    (h : ∀ o, Emits special (write o) fun path => (one path o).map Written.chunks) :
    ∀ os : List O, Emits special (os.forM write) fun path =>
      (unfoldElements (one path) os).map Written.itemChunks
  | [] => emits_pure
  | o :: os => by
    refine ((h o).bind (emits_forM h os)).congr fun path => ?_
    rw [unfoldElements]
    cases one path o with
    | none => rfl
    | some w => cases unfoldElements (one path) os <;> rfl

/-- A handler that always marks a class does not take part in quiet runs. -/
theorem Emits.tryCatch {m : BuilderM O Unit} {handler : Throwable → BuilderM O Unit}
    {f : List O → Option (List Chunk)} (hm : Emits special m f)
    (hgrows : ∀ e, Preserves Grows (handler e))
    (hmark : ∀ e b b', handler e b = .ok () b' →
      b.specialClass.putCount < b'.specialClass.putCount) :
    Emits special (tryCatch m handler) f where
  grows := Preserves.tryCatch Grows.trans hm.grows hgrows
  sound := by
    rintro b b' hb ⟨h, hput⟩
    have h : EStateM.tryCatch m handler b = .ok () b' := h
    unfold EStateM.tryCatch at h
    cases hmb : m b with
    | ok u b₁ =>
      rw [hmb] at h
      obtain rfl : b₁ = b' := (EStateM.Result.ok.inj h).2
      exact hm.sound hb ⟨hmb, hput⟩
    | error e b₁ =>
      rw [hmb] at h
      have hle := (hm.grows.of_error hmb).putCount
      have hlt := hmark e b₁ b' h
      omega
  complete := by
    intro b cs o hb hcs hplay
    obtain ⟨b', hq, ho, he⟩ := hm.complete hb hcs hplay
    have hr := returns_tryCatch (h := handler) (returns_eq_some.mpr hq.1)
    exact ⟨b', ⟨returns_eq_some.mp hr, hq.2⟩, ho, he⟩

theorem emits_isSpecial {key : Utf16} {next : Bool → BuilderM O Unit}
    {f : Bool → List O → Option (List Chunk)} (h : ∀ s, Emits special (next s) (f s)) :
    Emits special (isSpecial key >>= next) (f (special key)) where
  grows := grows_bind (grows_isSpecial key) fun s => (h s).grows
  sound := by
    rintro b b' hb ⟨hm, hput⟩
    obtain ⟨s, b₁, h₁, h₂⟩ := bind_eq_ok.mp hm
    obtain ⟨rfl, rfl⟩ := EStateM.Result.ok.inj h₁
    rw [isSome_get, hb key] at h₂
    have hb₁ := specialIs_get hb key
    obtain ⟨cs, hcs, he⟩ := (h (special key)).sound hb₁
      ⟨h₂, hput.trans (LruCache.get_putCount b.specialClass key).symm⟩
    exact ⟨cs, hcs, he.output, he.refs, he.special⟩
  complete := by
    intro b cs o hb hcs hplay
    have hb₁ := specialIs_get hb key
    obtain ⟨b', hq, ho, he⟩ := (h (special key)).complete hb₁ hcs hplay
    refine ⟨b', ⟨bind_eq_ok.mpr ⟨special key, _, ?_, hq.1⟩, ?_⟩, ho, he.output, he.refs,
      he.special⟩
    · rw [← hb key, ← isSome_get]
      rfl
    · exact hq.2.trans (LruCache.get_putCount b.specialClass key)

end Rules

/-! ## The builder's methods -/

section Methods

variable {special : Utf16 → Bool}

theorem emits_scalar {request : Int} {tag : Byte} {payload : OutputM Unit} {bytes : Bytes}
    (hgrows : Advances payload) (h : Appends payload bytes) :
    Emits special (writeScalar request tag payload : BuilderM O Unit) fun _ =>
      some [⟨request, tag :: bytes⟩] :=
  emits_onOutput
    ((advances_ensureCapacity _).bind fun _ => (advances_writeByte _).bind fun _ => hgrows)
    (returns_chunk (Appends.bind (List.cons_ne_nil _ _) (appends_writeByte tag) h)
      (List.cons_ne_nil _ _))

theorem emits_writeNull :
    Emits special (writeNull : BuilderM O Unit) fun _ => some [⟨2, [Tag.null]⟩] :=
  emits_onOutput ((advances_ensureCapacity _).bind fun _ => advances_writeByte _)
    (returns_chunk (appends_writeByte _) (List.cons_ne_nil _ _))

theorem toNat_ofInt_natCast (n : Nat) : (BitVec.ofInt 32 (n : Int)).toNat = n % 2 ^ 32 := by
  rw [BitVec.ofInt_natCast, BitVec.toNat_ofNat]

theorem emits_writeUTF16String (e : Endian) (s : Utf16) :
    Emits special (writeUTF16String e s : BuilderM O Unit) fun _ => some [textChunk e s] := by
  have hlen : (BitVec.ofInt 32 ((s.length : Int) * 2)).toNat = 2 * s.length % 2 ^ 32 := by
    rw [show ((s.length : Int) * 2) = ((2 * s.length : Nat) : Int) by push_cast; ring,
      toNat_ofInt_natCast]
  have happ := Appends.bind (encodeGroups_ne_nil 4 _)
    (appends_writeUInt (BitVec.ofInt 32 ((s.length : Int) * 2))) (appends_writeChars e s)
  rw [hlen] at happ
  refine emits_onOutput ((advances_ensureCapacity _).bind fun _ =>
    (advances_writeUInt _).bind fun _ => advances_writeChars e s) (returns_chunk happ ?_)
  simp [Wire.encode, encodeGroups_ne_nil]

/-- A type byte in a chunk of its own, followed by a text. -/
theorem emits_text (e : Endian) (kind : TextKind) (request : Int) (s : Utf16)
    (hr : 1 ≤ request ∧ request ≤ 12) :
    Emits special (do writeScalar request kind.tag (pure ()); writeUTF16String e s : BuilderM O Unit)
      fun _ => some (Written.text (e := e) kind request s hr).chunks :=
  ((emits_scalar advances_pure appends_pure).bind
    (emits_writeUTF16String e s)).congr fun _ => rfl

variable (P : Platform)

theorem emits_writeNumber (m : JNumber) :
    Emits special (writeNumber P.endian P.doubleValue P.doubleToString m : BuilderM O Unit) fun _ =>
      some (Written.number (e := P.endian) P.doubleValue P.doubleToString m).chunks := by
  cases m with
  | byte x | short x | integer x =>
    exact emits_scalar (advances_writeUInt _) (appends_writeVarInt _)
  | long x => exact emits_scalar (advances_writeLong _) (appends_writeLong _)
  | double x => exact emits_scalar (advances_writeLong _) (appends_writeDouble _)
  | float x => exact emits_scalar (advances_writeFloat _) (appends_writeFloat _)
  | bigInteger n => exact emits_text P.endian .bigInteger 12 _ (by decide)
  | bigDecimal b =>
    by_cases h : b.toString = P.doubleToString (P.doubleValue b)
    · simp only [writeNumber, Written.number, if_pos h]
      exact emits_scalar (advances_writeLong _) (appends_writeDouble _)
    · simp only [writeNumber, Written.number, if_neg h]
      exact emits_text P.endian .bigDecimal 12 _ (by decide)
  | other text => exact emits_text P.endian .string 12 _ (by decide)

variable {P} (H : Heap O) {write : O → BuilderM O Unit}
  {one : List O → O → Option (Written P.endian)}
  (hwrite : ∀ o, Emits special (write o) fun path => (one path o).map Written.chunks)

theorem length_unfoldElements {e : Endian} {one : O → Option (Written e)} :
    ∀ {os : List O} {ws : List (Written e)}, unfoldElements one os = some ws →
      ws.length = os.length
  | [], _, h => by
    obtain rfl := Option.some.inj h
    rfl
  | o :: os, ws, h => by
    rw [unfoldElements] at h
    obtain ⟨w, -, h⟩ := Option.bind_eq_some_iff.mp h
    obtain ⟨ws', hws, h⟩ := Option.bind_eq_some_iff.mp h
    obtain rfl := Option.some.inj h
    rw [List.length_cons, length_unfoldElements hws, List.length_cons]

include hwrite in
theorem emits_writeElements (elements : List O) :
    Emits special (writeElements write elements) fun path =>
      ((unfoldElements (one path) elements).map Written.array).map Written.chunks := by
  refine ((emits_scalar (advances_writeUInt _) (appends_writeUInt _)).bind
    (emits_forM hwrite elements)).congr fun path => ?_
  cases hws : unfoldElements (one path) elements with
  | none => rfl
  | some ws =>
    simp only [Option.bind_some, Option.map_some, Written.array, BitVec.toNat_ofNat, countChunk,
      length_unfoldElements hws]
    rfl

theorem liftExcept_ok_bind {α β : Type} (a : α) (f : α → BuilderM O β) :
    (liftExcept (.ok a) >>= f) = f a := rfl

theorem liftExcept_error_bind {α β : Type} (err : Throwable) (f : α → BuilderM O β) :
    (liftExcept (.error err) >>= f) = throw err := rfl

include hwrite in
/-- A skipped entry writes nothing; another one its key and its value. -/
theorem emits_writeEntries :
    ∀ entries : List (Key × O), Emits special (entries.forM (writeEntry P H write)) fun path =>
      (unfoldEntries H (one path) entries).map Written.entryChunks
  | [] => emits_pure
  | (key, value) :: entries => by
    have ih := emits_writeEntries entries
    show Emits special (writeEntry P H write (key, value) >>= fun _ =>
      entries.forM (writeEntry P H write)) _
    unfold writeEntry
    by_cases hnull : H.isNull value
    · simp only [if_pos hnull]
      refine (emits_pure.bind ih).congr fun path => ?_
      rw [unfoldEntries, if_pos hnull]
      cases unfoldEntries H (one path) entries <;> rfl
    · simp only [if_neg hnull]
      cases hkey : key.toString with
      | error err =>
        rw [liftExcept_error_bind]
        refine ((emits_throw err).bind ih).congr fun path => ?_
        rw [unfoldEntries, if_neg hnull, hkey]
        rfl
      | ok k =>
        rw [liftExcept_ok_bind]
        refine (((emits_writeUTF16String P.endian k).bind (hwrite value)).bind ih).congr
          fun path => ?_
        rw [unfoldEntries, if_neg hnull, hkey]
        cases one path value with
        | none => rfl
        | some w =>
          cases unfoldEntries H (one path) entries with
          | none => simp
          | some ws => simp [Written.entryChunks, Except.toOption]

/-- The count in the header of a map is the number of entries that are written. -/
theorem length_unfoldEntries {e : Endian} {one : O → Option (Written e)} :
    ∀ {entries : List (Key × O)} {ws : List (Utf16 × Written e)},
      unfoldEntries H one entries = some ws →
        ws.length + (entries.filter fun entry => H.isNull entry.2).length = entries.length
  | [], _, h => by
    obtain rfl := Option.some.inj h
    rfl
  | (key, value) :: entries, ws, h => by
    rw [unfoldEntries] at h
    by_cases hnull : H.isNull value
    · rw [if_pos hnull] at h
      have ih := length_unfoldEntries h
      rw [List.filter_cons, if_pos hnull, List.length_cons, List.length_cons]
      omega
    · rw [if_neg hnull] at h
      obtain ⟨k, -, h⟩ := Option.bind_eq_some_iff.mp h
      obtain ⟨w, -, h⟩ := Option.bind_eq_some_iff.mp h
      obtain ⟨ws', hws, h⟩ := Option.bind_eq_some_iff.mp h
      obtain rfl := Option.some.inj h
      have ih := length_unfoldEntries hws
      rw [List.filter_cons, if_neg hnull, List.length_cons, List.length_cons]
      omega

include hwrite in
theorem emits_writeMap (entries : List (Key × O)) :
    Emits special (writeMap P H write entries) fun path =>
      ((unfoldEntries H (one path) entries).map Written.map).map Written.chunks := by
  refine ((emits_scalar (advances_writeUInt _) (appends_writeUInt _)).bind
    (emits_writeEntries H hwrite entries)).congr fun path => ?_
  cases hws : unfoldEntries H (one path) entries with
  | none => rfl
  | some ws =>
    have hlen := length_unfoldEntries H hws
    have hcount : (BitVec.ofNat 32 entries.length - BitVec.ofNat 32
        (entries.filter fun entry => H.isNull entry.2).length).toNat = ws.length % 2 ^ 32 := by
      rw [← hlen, BitVec.ofNat_add, BitVec.add_sub_cancel, BitVec.toNat_ofNat]
    rw [hcount]
    rfl

/-- Around the body of a container the stack holds one object more. -/
theorem emits_bracket (object : O) {body : BuilderM O Unit} {f : List O → Option (List Chunk)}
    (hbody : Emits special body f) :
    Emits special (do pushRef object; body; popRef) fun path => f (path ++ [object]) where
  grows := grows_bracket object hbody.grows
  sound := by
    rintro b b' hb ⟨hm, hput⟩
    obtain ⟨_, b₁, h₁, hm⟩ := bind_eq_ok.mp hm
    obtain ⟨_, b₂, h₂, h₃⟩ := bind_eq_ok.mp hm
    obtain rfl : _ = b₁ := (EStateM.Result.ok.inj h₁).2
    obtain rfl := eq_of_popRef h₃
    obtain ⟨cs, hcs, he⟩ := hbody.sound (b := { b with refs := b.refs ++ [object] }) hb ⟨h₂, hput⟩
    exact ⟨cs, hcs, he.output, by simp [he.refs], he.special⟩
  complete := by
    intro b cs o hb hcs hplay
    obtain ⟨b₂, hq, ho, he⟩ := hbody.complete (b := { b with refs := b.refs ++ [object] }) hb hcs
      hplay
    have hpop : popRef b₂ = .ok () { b₂ with refs := b₂.refs.dropLast } :=
      if_neg (by simp [he.refs])
    refine ⟨{ b₂ with refs := b₂.refs.dropLast },
      ⟨bind_eq_ok.mpr ⟨(), _, rfl, bind_eq_ok.mpr ⟨(), b₂, hq.1, hpop⟩⟩, hq.2⟩, ho, he.output,
      by simp [he.refs], he.special⟩

theorem emits_writeContainer [DecidableEq O] (n : Nat) (object : O) {body : BuilderM O Unit}
    {f : List O → Option (Written P.endian)}
    (hbody : Emits special body fun path => (f path).map Written.chunks) :
    Emits special (writeContainer H n object body) fun path =>
      (unfoldContainer H.contains n path object f).map Written.chunks := by
  have hgrows := grows_writeContainer H n object hbody.grows
  -- the branch taken depends on the stack at the start of the run
  have hcases : ∀ b : Builder O, ∃ m : BuilderM O Unit, ∃ g,
      (writeContainer H n object body) b = m b ∧ Emits special m g ∧
        g b.refs = (unfoldContainer H.contains n b.refs object f).map Written.chunks := by
    intro b
    have hrun : writeContainer H n object body b = (match H.contains n b.refs object with
        | none => throw .stackOverflow
        | some true => writeNull
        | some false => do pushRef object; body; popRef : BuilderM O Unit) b := rfl
    rw [hrun, unfoldContainer]
    cases H.contains n b.refs object with
    | none => exact ⟨_, _, rfl, emits_throw _, rfl⟩
    | some r =>
      cases r with
      | true => exact ⟨_, _, rfl, emits_writeNull, rfl⟩
      | false => exact ⟨_, _, rfl, emits_bracket object hbody, rfl⟩
  refine ⟨hgrows, ?_, ?_⟩
  · rintro b b' hb ⟨hm, hput⟩
    obtain ⟨m, g, hmb, he, hg⟩ := hcases b
    rw [← hg]
    exact he.sound hb ⟨hmb ▸ hm, hput⟩
  · intro b cs o hb hcs hplay
    obtain ⟨m, g, hmb, he, hg⟩ := hcases b
    obtain ⟨b', hq, ho, he'⟩ := he.complete hb (by rw [hg]; exact hcs) hplay
    exact ⟨b', ⟨hmb ▸ hq.1, hq.2⟩, ho, he'⟩

include hwrite in
/-- A bean is written as its map or, when its class is marked, as what it converts to. An
attempt that throws marks the class, so it is in no quiet run. -/
theorem emits_writeAdapterObject (object : O) (key : Utf16)
    (getters : Except Throwable (List (Utf16 × Except Throwable O))) :
    Emits special (writeAdapterObject P H write object key getters) fun path =>
      (if special key then one path (H.toJSON object)
      else do
        let entries ← (toMap H getters).toOption
        (unfoldEntries H (one path) entries).map Written.map).map Written.chunks := by
  have hgrows : ∀ o, Preserves Grows (write o) := fun o => (hwrite o).grows
  have hattempt : Emits special (do writeMap P H write (← liftExcept (toMap H getters))) fun path =>
      (do
        let entries ← (toMap H getters).toOption
        (unfoldEntries H (one path) entries).map Written.map).map Written.chunks := by
    cases toMap H getters with
    | error err =>
      rw [liftExcept_error_bind]
      exact emits_throw err
    | ok entries =>
      rw [liftExcept_ok_bind]
      exact emits_writeMap H hwrite entries
  have hmark : ∀ err b b', (if err.isException then do markSpecial key; write (H.toJSON object)
      else throw err : BuilderM O Unit) b = .ok () b' →
        b.specialClass.putCount < b'.specialClass.putCount := by
    intro err b b' h
    split at h
    · obtain ⟨_, b₁, h₁, h₂⟩ := bind_eq_ok.mp h
      obtain rfl : _ = b₁ := (EStateM.Result.ok.inj h₁).2
      exact ((hgrows _).of_ok h₂).putCount
    · exact absurd h (by rintro ⟨⟩)
  have hhandler : ∀ err : Throwable, Preserves Grows (if err.isException then do
      markSpecial key; write (H.toJSON object) else throw err : BuilderM O Unit) := fun err =>
    Preserves.ite (grows_bind (grows_markSpecial key) fun _ => hgrows _)
      (preserves_throw Grows.refl err)
  refine emits_isSpecial (f := fun s path => (if s then one path (H.toJSON object)
    else do
      let entries ← (toMap H getters).toOption
      (unfoldEntries H (one path) entries).map Written.map).map Written.chunks) fun s => ?_
  cases s with
  | true => exact hwrite _
  | false => exact hattempt.tryCatch hhandler hmark

/-- **The builder writes the unfolding** with `refs.contains` as the cut. -/
theorem emits_writeObject [DecidableEq O] :
    ∀ (n : Nat) (object : O), Emits special (writeObject P H n object) fun path =>
      (unfold P H special H.contains n path object).map Written.chunks
  | 0, _ => emits_throw _
  | n + 1, object => by
    have ih := emits_writeObject n
    rw [writeObject]
    simp only [unfold]
    cases H.view object with
    | string s => exact emits_text P.endian .string 2 s (by decide)
    | map entries => exact emits_writeContainer H n object (emits_writeMap H ih entries)
    | list elements | array elements | collection elements =>
      exact emits_writeContainer H n object (emits_writeElements ih elements)
    | number m => exact emits_writeNumber P m
    | boolean b => exact emits_scalar advances_pure appends_pure
    | null => exact emits_writeNull
    | date time => exact emits_scalar (advances_writeLong _) (appends_writeDouble _)
    | enum json => exact emits_writeContainer H n object (ih json)
    | bean key getters =>
      exact emits_writeContainer H n object (emits_writeAdapterObject H ih object key getters)

end Methods

end Builder

end Wson.Java
