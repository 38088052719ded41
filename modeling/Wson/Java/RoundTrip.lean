import Wson.Java.Accept
import Wson.Java.Trees

/-!
# The round trip

`Wson.parse` applied to what `Wson.toWson` returns, for trees of lists, maps and
scalars. There are two obstacles. One is the growth of the buffer: `ensureCapacity`
doubles what it needs, and from `2^30` bytes on the doubled length is negative, which
does not happen for encodings up to a few bytes below `2^30` (`fits_written`). The
other is a decimal whose text has an exponent beyond an `int`, so that its
constructor throws and `parse` returns null. The round trip succeeds iff neither
happens (`roundTrips_iff`).
-/

namespace Wson.Java

open Effect Wire

variable {O : Type} {H : Heap O} {P : Platform}

/-! ## Runs on trees mark no class -/

namespace Builder

/-- The cache of classes is the same afterwards. -/
def SameSpecial (b b' : Builder O) : Prop :=
  b'.specialClass = b.specialClass

theorem SameSpecial.refl (b : Builder O) : SameSpecial b b :=
  Eq.refl b.specialClass

theorem SameSpecial.trans ⦃b c d : Builder O⦄ (h : SameSpecial b c) (h' : SameSpecial c d) :
    SameSpecial b d :=
  Eq.trans h' h

theorem sameSpecial_bind {α β : Type} {m : BuilderM O α} {f : α → BuilderM O β}
    (hm : Preserves SameSpecial m) (hf : ∀ a, Preserves SameSpecial (f a)) :
    Preserves SameSpecial (m >>= f) :=
  Preserves.bind SameSpecial.trans hm hf

theorem sameSpecial_onOutput {α : Type} (m : OutputM α) :
    Preserves SameSpecial (onOutput m : BuilderM O α) :=
  preserves_zoom (Q := fun _ _ => True) (fun _ => trivial) fun b _ _ => SameSpecial.refl b

theorem sameSpecial_writeScalar (request : Int) (tag : Byte) (payload : OutputM Unit) :
    Preserves SameSpecial (writeScalar request tag payload : BuilderM O Unit) :=
  sameSpecial_onOutput _

theorem sameSpecial_writeNull : Preserves SameSpecial (writeNull : BuilderM O Unit) :=
  sameSpecial_onOutput _

theorem sameSpecial_writeUTF16String (e : Endian) (s : Utf16) :
    Preserves SameSpecial (writeUTF16String e s : BuilderM O Unit) :=
  sameSpecial_onOutput _

theorem sameSpecial_liftExcept {α : Type} (x : Except Throwable α) :
    Preserves SameSpecial (liftExcept x : BuilderM O α) := by
  cases x with
  | ok a => exact preserves_pure SameSpecial.refl a
  | error e => exact preserves_throw SameSpecial.refl e

theorem sameSpecial_writeNumber (n : JNumber) :
    Preserves SameSpecial (writeNumber P.endian P.doubleValue P.doubleToString n : BuilderM O Unit) := by
  have htext : ∀ tag s, Preserves SameSpecial
      (do writeScalar 12 tag (pure ()); writeUTF16String P.endian s : BuilderM O Unit) :=
    fun _ _ => sameSpecial_bind (sameSpecial_writeScalar _ _ _) fun _ =>
      sameSpecial_writeUTF16String _ _
  cases n with
  | bigDecimal b => exact Preserves.ite (sameSpecial_onOutput _) (htext _ _)
  | bigInteger n | other s => exact htext _ _
  | byte x | short x | integer x | long x | float x | double x =>
    exact sameSpecial_writeScalar _ _ _

theorem sameSpecial_popRef : Preserves SameSpecial (popRef : BuilderM O Unit) := by
  intro b
  by_cases h : b.refs = []
  · have hpop : popRef b = .error .arrayIndexOutOfBounds b := if_pos h
    rw [final, hpop]
    exact SameSpecial.refl b
  · have hpop : popRef b = .ok () { b with refs := b.refs.dropLast } := if_neg h
    rw [final, hpop]
    exact SameSpecial.refl b

theorem sameSpecial_writeContainer [DecidableEq O] (n : Nat) (object : O) {body : BuilderM O Unit}
    (hbody : Preserves SameSpecial body) :
    Preserves SameSpecial (writeContainer H n object body) := by
  refine sameSpecial_bind (fun b => SameSpecial.refl b) ?_
  intro refs
  split
  · exact preserves_throw SameSpecial.refl _
  · exact sameSpecial_onOutput _
  · exact sameSpecial_bind (preserves_modify fun b => SameSpecial.refl b) fun _ =>
      sameSpecial_bind hbody fun _ => sameSpecial_popRef

theorem sameSpecial_forM {α : Type} {f : α → BuilderM O Unit} {xs : List α}
    (h : ∀ x ∈ xs, Preserves SameSpecial (f x)) : Preserves SameSpecial (xs.forM f) :=
  Preserves.forM SameSpecial.refl SameSpecial.trans h

end Builder

open Builder

variable [DecidableEq O]

theorem sameSpecial_writeObject : ∀ {n : Nat} {v : JValue} {o : O}, Represents H v o →
    Preserves SameSpecial (writeObject P H n o)
  | 0, _, _, _ => preserves_throw SameSpecial.refl _
  | n + 1, v, o, ho => by
    rw [writeObject]
    cases v with
    | list vs =>
      obtain ⟨os, hos, hvs⟩ := ho
      rw [hos]
      refine sameSpecial_writeContainer n o (sameSpecial_bind (sameSpecial_onOutput _) fun _ => ?_)
      refine sameSpecial_forM ?_
      intro x hx
      obtain ⟨w, -, hw⟩ := exists_of_mem_items hvs x hx
      exact sameSpecial_writeObject hw
    | map entries =>
      obtain ⟨os, hos, hes⟩ := ho
      rw [hos]
      refine sameSpecial_writeContainer n o (sameSpecial_bind (sameSpecial_onOutput _) fun _ => ?_)
      refine sameSpecial_forM fun x hx => Preserves.ite (preserves_pure SameSpecial.refl ()) ?_
      obtain ⟨w, -, hw⟩ := exists_of_mem_entries hes x hx
      exact sameSpecial_bind (sameSpecial_liftExcept _) fun _ =>
        sameSpecial_bind (sameSpecial_writeUTF16String _ _) fun _ => sameSpecial_writeObject hw
    | number m =>
      rw [show H.view o = _ from ho]
      exact sameSpecial_writeNumber m
    | string s =>
      rw [show H.view o = .string s from ho]
      exact sameSpecial_bind (sameSpecial_writeScalar _ _ _) fun _ =>
        sameSpecial_writeUTF16String _ _
    | null =>
      rw [show H.view o = .null from ho]
      exact sameSpecial_writeNull
    | boolean b =>
      rw [show H.view o = _ from ho]
      exact sameSpecial_writeScalar _ _ _

/-! ## The run of `toWson` -/

/-- Where no object of the stack equals a tree, the unfolding of a tree is its document. -/
theorem chunks_represents {special : Utf16 → Bool} {refs : List O} {v : JValue} {o : O} {n : Nat}
    (ho : Represents H v o) (hr : v.Regular) (hn : v.height + 1 < n)
    (hp : Unmatched H v.height refs) :
    (unfold P H special H.contains n refs o).map Written.chunks = some (v.written P).chunks := by
  rw [unfold_represents P ho hr hn hp]
  rfl

theorem emitted_represents {b b' : Builder O} {v : JValue} {o : O} {n : Nat}
    (ho : Represents H v o) (hr : v.Regular) (hn : v.height + 1 < n)
    (hp : Unmatched H v.height b.refs) (h : writeObject P H n o b = .ok () b') :
    b'.specialClass = b.specialClass ∧ Emitted b.marked (v.written P).chunks b b' := by
  have hsame : b'.specialClass = b.specialClass := (sameSpecial_writeObject ho).of_ok h
  obtain ⟨cs, hcs, he⟩ := (emits_writeObject H n o).sound b.specialIs_marked ⟨h, by rw [hsame]⟩
  obtain rfl := Option.some.inj ((chunks_represents ho hr hn hp).symm.trans hcs)
  exact ⟨hsame, he⟩

/-- **The writer on trees**: it returns iff the chunks of the value fit, and then the stack
is restored and the encoding of the value has been appended. -/
theorem writeObject_represents {b : Builder O} {v : JValue} {o : O} {n : Nat}
    (ho : Represents H v o) (hr : v.Regular) (hn : v.height + 1 < n) (hv : b.output.Valid)
    (hp : Unmatched H v.height b.refs) :
    ((∃ b', writeObject P H n o b = .ok () b') ↔
      Output.fits (v.written P).chunks b.output.buffer.length b.output.position) ∧
    ∀ b', writeObject P H n o b = .ok () b' → b'.refs = b.refs ∧ b'.output.Valid ∧
      b'.specialClass = b.specialClass ∧ (Output.chunkBytes (v.written P).chunks).length < 2 ^ 31 ∧
      b'.output.written = b.output.written ++ (v.written P).doc.encode P.endian := by
  refine ⟨⟨?_, ?_⟩, ?_⟩
  · rintro ⟨b', hb'⟩
    rw [← Output.play_isSome, (emitted_represents ho hr hn hp hb').2.output]
    rfl
  · intro hfits
    rw [← Output.play_isSome] at hfits
    obtain ⟨out, hout⟩ := Option.isSome_iff_exists.mp hfits
    obtain ⟨b', hq, -, -⟩ := (emits_writeObject H n o).complete b.specialIs_marked
      (chunks_represents ho hr hn hp) hout
    exact ⟨b', hq.1⟩
  · intro b' hb'
    obtain ⟨hsame, he⟩ := emitted_represents ho hr hn hp hb'
    obtain ⟨hv', hlen, hwritten⟩ := written_of_emitted hv he
    exact ⟨he.refs, hv', hsame, hlen, hwritten⟩

omit [DecidableEq O] in
theorem toBytes_eq {b : Builder O} (hv : b.output.Valid) :
    onOutput Output.toBytes b = .ok b.output.written b := by
  have h : Output.toBytes b.output = .ok b.output.written b.output := by
    show (if b.output.position ≤ b.output.buffer.length then _ else _ : OutputM Bytes) b.output = _
    rw [if_pos hv.inside]
    rfl
  rw [onOutput, zoom, h]

/-- `toWson` returns the encoding of the value, or throws while the buffer grows. -/
theorem toWson_represents {b : Builder O} {v : JValue} {o : O} {n : Nat}
    (ho : Represents H v o) (hr : v.Regular) (hn : v.height + 1 < n) (hv : b.output.Valid)
    (hp : b.output.position = 0) (hrefs : b.refs = []) :
    ((∃ bytes b', toWson P H n o b = .ok bytes b') ↔
      Output.fits (v.written P).chunks b.output.buffer.length 0) ∧
    ∀ bytes b', toWson P H n o b = .ok bytes b' →
      bytes = (v.written P).doc.encode P.endian ∧ bytes.length < 2 ^ 31 ∧ b'.refs = [] ∧
        b'.output.Valid ∧ b'.specialClass = b.specialClass := by
  obtain ⟨hiff, hspec⟩ := writeObject_represents (P := P) ho hr hn hv
    (by rw [hrefs]; exact unmatched_nil _)
  rw [hp] at hiff
  have hempty : b.output.written = [] := by rw [Output.written, hp, List.take_zero]
  rw [hempty] at hspec
  refine ⟨⟨?_, ?_⟩, ?_⟩
  · rintro ⟨bytes, b', h⟩
    obtain ⟨_, b₁, h₁, -⟩ := bind_eq_ok.mp h
    exact hiff.mp ⟨b₁, h₁⟩
  · intro hfits
    obtain ⟨b₁, h₁⟩ := hiff.mpr hfits
    exact ⟨_, b₁, bind_eq_ok.mpr ⟨(), b₁, h₁, toBytes_eq (hspec b₁ h₁).2.1⟩⟩
  · intro bytes b' h
    obtain ⟨_, b₁, h₁, h₂⟩ := bind_eq_ok.mp h
    obtain ⟨hrefs', hv', hsame, hlen, hwritten⟩ := hspec b₁ h₁
    rw [toBytes_eq hv'] at h₂
    obtain ⟨rfl, rfl⟩ := EStateM.Result.ok.inj h₂
    rw [List.nil_append] at hwritten
    refine ⟨hwritten, ?_, hrefs'.trans hrefs, hv', hsame⟩
    rw [(v.written P).bytes_eq_of_lt (by omega)] at hlen
    rwa [hwritten]

/-! ## The round trip -/

/-- `Wson.toWson` returns, and wherever its bytes stand, `Wson.parse` makes of them a value
that equals the normal form. -/
def RoundTrips (P : Platform) (H : Heap O) (b : Builder O) (n : Nat) (v : JValue) (o : O) : Prop :=
  ∃ bytes b', toWson P H n o b = .ok bytes b' ∧
    ∀ (before after : Bytes) (cache : BitVec 11 → Option Utf16), ∃ w cache',
      parse P.endian n (before ++ bytes ++ after) before.length cache = .ok w cache' ∧
        w.Equals (v.norm P)

/-- The bytes are an encoding of the document of the value. -/
theorem encodes_written {v : JValue} {bytes : Bytes} (h : bytes = (v.written P).doc.encode P.endian)
    (hlen : bytes.length < 2 ^ 31) : (v.written P).doc.Encodes P.endian bytes := by
  rw [h]
  exact Doc.encodes_encode P.endian (Doc.sized_of_encode_lt P.endian (by rw [← h]; omega))

/-- What comes back as the normal form has been read number by number. -/
theorem readable_of_parse {v w : JValue} {n : Nat} {bytes : Bytes}
    {cache cache' : BitVec 11 → Option Utf16} (hd : (v.written P).doc.Encodes P.endian bytes)
    (hlen : bytes.length < 2 ^ 31) (h : parse P.endian n bytes 0 cache = .ok w cache')
    (hw : w.Equals (v.norm P)) : v.Readable P := by
  by_cases hnull : w = .null
  · -- an exception gives null, too, but null is the normal form of null only
    subst hnull
    cases v with
    | null => trivial
    | boolean b | number m | string s | list vs | map es => exact nomatch hw
  · exact JValue.readable_of_meaning P (reads_of_parse_encode hd hlen h hnull).2

/-- **The round trip**: it succeeds iff no `ensureCapacity` call asks for a negative length
while the value is written, and every number of the value can be read. -/
theorem roundTrips_iff {b : Builder O} {v : JValue} {o : O} {n : Nat} (ho : Represents H v o)
    (hr : v.Regular) (hn : v.height + 1 < n) (hv : b.output.Valid) (hp : b.output.position = 0)
    (hrefs : b.refs = []) :
    RoundTrips P H b n v o ↔
      Output.fits (v.written P).chunks b.output.buffer.length 0 ∧ v.Readable P := by
  obtain ⟨hiff, hspec⟩ := toWson_represents (P := P) ho hr hn hv hp hrefs
  constructor
  · rintro ⟨bytes, b', h, hparse⟩
    refine ⟨hiff.mp ⟨bytes, b', h⟩, ?_⟩
    obtain ⟨hbytes, hlen, -⟩ := hspec bytes b' h
    obtain ⟨w, cache', hback, hequals⟩ := hparse [] [] fun _ => none
    rw [List.nil_append, List.append_nil] at hback
    exact readable_of_parse (encodes_written hbytes hlen) hlen hback hequals
  · rintro ⟨hfits, hreadable⟩
    obtain ⟨bytes, b', h⟩ := hiff.mpr hfits
    obtain ⟨hbytes, hlen, -⟩ := hspec bytes b' h
    -- the bytes are an encoding, which the parser reads wherever it stands
    refine ⟨bytes, b', h, fun before after cache => ?_⟩
    have hheight := JValue.height_written P v
    obtain ⟨cache', hparse⟩ := parse_encodes (encodes_written hbytes hlen)
      (JValue.meaning_written P hr hreadable) (show _ < n by omega) hlen before after cache
    exact ⟨_, cache', hparse, JValue.equals_canonical _⟩

/-- Encodings up to a few bytes below `2^30` fit. -/
theorem fits_written {v : JValue} {capacity : Nat} (hcap : capacity < 2 ^ 31)
    (h : ((v.written P).doc.encode P.endian).length + 11 < 2 ^ 30) :
    Output.fits (v.written P).chunks capacity 0 := by
  have hbytes := (v.written P).bytes_eq (Doc.sized_of_encode_lt P.endian (by omega))
  rw [← hbytes] at h
  exact Output.fits_of_small (Int.le_refl 0) (by omega) (by omega)
    ((v.written P).tight (by omega)) (by push_cast; omega)

/-! ## Two values -/

/-- `{"k": ["a", null]}`. -/
def sampleHeap : Heap (Fin 4) where
  null := 0
  view o := match o with
    | 0 => .null
    | 1 => .string [0x61]
    | 2 => .list [1, 0]
    | 3 => .map [(.string [0x6B], 2)]
  view_null := rfl
  view_map o es h := by
    match o, h with
    | 3, h => exact View.map.inj h ▸ List.nodup_singleton _
  ownEquals a b := a = b
  toJSON := id

theorem roundTrips_sample_iff :
    RoundTrips Platform.plain sampleHeap (Builder.fresh (Fin 4)) 4
        (.map [([0x6B], .list [.string [0x61], .null])]) 3 ↔
      Output.fits
          ((JValue.map [([0x6B], .list [.string [0x61], .null])]).written Platform.plain).chunks
          (Builder.fresh (Fin 4)).output.buffer.length 0 ∧
        (JValue.map [([0x6B], .list [.string [0x61], .null])]).Readable Platform.plain :=
  roundTrips_iff
    ⟨_, rfl, _, _, rfl, ⟨_, rfl, _, _, rfl, rfl, _, _, rfl, rfl, rfl⟩, rfl⟩
    ⟨List.nodup_singleton _, ⟨trivial, trivial, trivial⟩, trivial⟩ (by decide)
    (Builder.fresh_valid _) rfl rfl

/-- A text whose encoding has `2^30 - 2` bytes. -/
def longText : Utf16 :=
  List.replicate (2 ^ 29 - 4) 0x61

theorem longText_length : longText.length = 2 ^ 29 - 4 :=
  List.length_replicate

def longTextHeap : Heap Bool where
  null := false
  view o := if o then .string longText else .null
  view_null := rfl
  view_map o es h := by cases o <;> exact nomatch h
  ownEquals a b := a = b
  toJSON := id

theorem longText_encode_length :
    (((JValue.string longText).written Platform.plain).doc.encode .little).length = 2 ^ 30 - 2 := by
  show (Tag.string :: (Wire.encode (2 * longText.length) ++ units .little longText)).length = _
  rw [List.length_cons, List.length_append, units_length, longText_length]
  decide

/-- The chunk of the text asks for `2^30` bytes, and the doubled sum is negative. -/
theorem not_fits_longText :
    ¬ Output.fits ((JValue.string longText).written Platform.plain).chunks 4096 0 := by
  have hrequest : (textChunk .little longText).request = 2 ^ 30 := by
    rw [textChunk, longText_length]
    decide
  have hgrown : Output.grown 4096 (0 + ([Tag.string] : Bytes).length) (2 ^ 30) = -2 ^ 31 + 2 := by
    decide
  show ¬ Output.fits [⟨2, [Tag.string]⟩, textChunk .little longText] 4096 0
  rw [Output.fits, Output.fits, hrequest, show Output.grown 4096 0 2 = 4096 by decide, hgrown]
  simp only [show ¬ (0 : Int) ≤ -2 ^ 31 + 2 by decide, decide_false, Bool.false_and, Bool.and_false,
    Bool.false_eq_true, not_false_eq_true]

theorem not_roundTrips_longText :
    Represents longTextHeap (.string longText) true ∧ (JValue.string longText).Regular ∧
      (((JValue.string longText).written Platform.plain).doc.encode .little).length < 2 ^ 30 ∧
      ∀ n > 1, ¬ RoundTrips Platform.plain longTextHeap (Builder.fresh Bool) n
        (.string longText) true := by
  refine ⟨rfl, trivial, ?_, ?_⟩
  · rw [longText_encode_length]
    decide
  · rintro n hn ⟨bytes, b', h, -⟩
    have hrep : Represents longTextHeap (.string longText) true := rfl
    have hfits := (toWson_represents (P := Platform.plain) hrep trivial hn
      (Builder.fresh_valid _) rfl rfl).1.mp ⟨bytes, b', h⟩
    rw [Builder.fresh_capacity] at hfits
    exact not_fits_longText hfits

end Wson.Java
