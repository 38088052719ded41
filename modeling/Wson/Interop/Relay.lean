import Wson.Interop.NativeSense

/-!
# Messages that are passed on

A message can go through any number of ends: one of them encodes a value, and each that gets
the bytes decodes them and encodes what it has read, or anything that says the same, for the
next one. Whichever way it goes, it says to the end what it said at the beginning
(`keepsSense`). The invariant is that the bytes are those of a document (`Message`).
-/

namespace Wson.Interop

open Effect Wire Native Java Jsc Wson.Runtime

section Relay

variable (P : Platform) {N : Type} (V : Vm N) (toDouble : N → BitVec 64) (toUtf16 : Bytes → Utf16)

/-! ## The ends -/

/-- `Wson.parse` makes a value of this sense, with enough stack. -/
def JavaReads (bytes : Bytes) (s : Sense) : Prop :=
  ∃ depth, ∀ n > depth, ∀ cache : BitVec 11 → Option Utf16,
    ∃ v cache', Java.parse P.endian n bytes 0 cache = .ok v cache' ∧ v.sense P = s

/-- `wson_to_js_value` does, with any table that earlier decodes have left. -/
def ScriptReads (bytes : Bytes) (s : Sense) : Prop :=
  ∃ depth, ∀ n > depth, ∀ cache : Cache, Reachable V P.endian cache →
    ∃ value d, returns (wsonToJsValue V P.endian n) ⟨⟨bytes, 0, bytes.length⟩, cache⟩ = some (value, d) ∧
      value.sense V toDouble = s

/-- `convertWsonToRuntimeValue` does. -/
def RuntimeReads (bytes : Bytes) (s : Sense) : Prop :=
  ∃ depth, ∀ n > depth, ∃ v buffer,
    returns (convertWsonToRuntimeValue P.endian n) ⟨bytes, 0, bytes.length⟩ = some (v, buffer) ∧
      v.sense toUtf16 = s

/-- `toObj:` does. -/
def IosReads (bytes : Bytes) (s : Sense) : Prop :=
  ∃ depth, ∀ n > depth, ∃ object buffer,
    returns (Ios.toObj P.endian n) ⟨bytes, 0, bytes.length⟩ = some (some object, buffer) ∧ object.sense = s

/-- One of the ends has written the bytes for a value of this sense. -/
inductive Writes : Bytes → Sense → Prop
  /-- `Wson.toWson`. -/
  | java {O : Type} [DecidableEq O] {H : Heap O} {b b' : Builder O} {v : JValue} {o : O} {n : Nat}
      {bytes : Bytes} (represents : Represents H v o) (regular : v.Regular)
      (readable : v.Readable P) (deep : v.height + 1 < n) (valid : b.output.Valid)
      (start : b.output.position = 0) (refs : b.refs = [])
      (texts : (v.written P).doc.Texts (WellFormed toUtf16))
      (run : Builder.toWson P H n o b = .ok bytes b') : Writes bytes (v.sense P)
  /-- `wson_push_js_value`. -/
  | script {O W : Type} [DecidableEq O] {E : Engine O W} {t : JsTree} {val : JSValue O} {w : W}
      {block : Bytes} {b : Buffer} (holds : t.Holds E [] val) (deep : t.height ≤ maxDeep)
      (exact : ∀ bits num, E.asAnyInt bits = some num → Sense.ofDouble bits = .ofInt num.toInt)
      (distinct : DistinctKeys (t.doc E.asAnyInt)) (texts : (t.doc E.asAnyInt).Texts (WellFormed toUtf16))
      (size : block.length < 2 ^ 32)
      (run : Buffer.storeAll .c (pushJsValue E P.endian [] val w).1.1 (Buffer.new block) = .ok () b) :
      Writes b.written t.sense
  /-- `putValuesToWson`. -/
  | runtime {v : RuntimeValue} {block : Bytes} {b : Buffer} (texts : v.Texts (RuntimeValue.Inverse toUtf16))
      (distinct : v.Distinct) (encodable : v.Encodable toUtf16) (size : block.length < 2 ^ 32)
      (run : putValuesToWson toUtf16 P.endian v (Buffer.new block) = .ok () b) :
      Writes b.written (v.sense toUtf16)
  /-- `toWson:`. -/
  | ios {F : Type} {T : Ios.Target F} {val : Ios.Object F} {block : Bytes} {b : Buffer}
      (vectors : Ios.vectors val = 0) (distinct : DistinctKeys (Ios.doc T val))
      (texts : (Ios.doc T val).Texts (WellFormed toUtf16)) (size : block.length < 2 ^ 32)
      (run : Ios.toWson T P.endian (some val) (Buffer.new block) = .ok () b) :
      Writes b.written (val.sense T)

/-- What one end has written and any number of ends have passed on: each has read the bytes and
written a value that says the same. -/
inductive Carried (s : Sense) : Bytes → Prop
  | sent {bytes : Bytes} (writes : Writes P toUtf16 bytes s) (size : bytes.length < 2 ^ 30) : Carried s bytes
  | passed {bytes bytes' : Bytes} {s' : Sense} (carried : Carried s bytes)
      (reads : JavaReads P bytes s' ∨ ScriptReads P V toDouble bytes s' ∨ RuntimeReads P toUtf16 bytes s' ∨
        IosReads P bytes s')
      (writes : Writes P toUtf16 bytes' s') (size : bytes'.length < 2 ^ 30) : Carried s bytes'

/-! ## The bytes are those of a document -/

/-- The bytes of a document that every end understands. -/
structure Message (d : Doc) (bytes : Bytes) (s : Sense) : Prop where
  encodes : d.Encodes P.endian bytes
  plain : d.Plain P
  distinct : DistinctKeys d
  texts : d.Texts (WellFormed toUtf16)
  sense : d.sense = s

variable {P V toDouble toUtf16}


/-- What a run of stores leaves in a new buffer. -/
theorem written_of_storeAll {ss : List Native.Store} {block : Bytes} {b : Buffer} (size : block.length < 2 ^ 32)
    (run : Buffer.storeAll .c ss (Buffer.new block) = .ok () b) : b.written = Buffer.stored ss := by
  have hsize : (Buffer.new block).length < 2 ^ Library.bits .c := size
  have hfits := Buffer.fits_of_storeAll (Buffer.valid_new block) hsize run
  obtain ⟨b', hrun, -, hwritten⟩ := Buffer.storeAll_of_fits (Buffer.valid_new block) hsize hfits
  obtain rfl : b' = b := by
    have hsame := hrun.symm.trans run
    cases hsame
    rfl
  exact hwritten

/-- **A step**: what is written is a message. -/
theorem Writes.message {bytes : Bytes} {s : Sense} (h : Writes P toUtf16 bytes s) :
    ∃ d, Message P toUtf16 d bytes s := by
  cases h with
  | java represents regular readable deep valid start refs texts run =>
    obtain ⟨-, hspec⟩ := toWson_represents (P := P) represents regular deep valid start refs
    obtain ⟨hbytes, hlength, -⟩ := hspec _ _ run
    -- every length that is written is below that of the bytes, so that it fits its header
    have hsized := Doc.sized_of_encode_lt P.endian (by rw [← hbytes]; omega)
    refine ⟨_, ?_, JValue.plain_written readable, distinctKeys_written P regular, texts,
      JValue.sense_written regular⟩
    rw [hbytes]
    exact Doc.encodes_encode P.endian hsized
  | @script O W _ E t val w block b holds deep exact distinct texts size run =>
    obtain ⟨hstored, hcomplete, -⟩ := agrees_pushJsValue (E := E) (e := P.endian) _ [] rfl val w
    -- a tree has no getters, so that each header counts what follows it
    obtain ⟨-, hdoc, hsteady⟩ := JsTree.pushJsValue_holds (e := P.endian) holds (by
      rw [List.length_nil]
      omega) w
    rw [Visit.bytes_of_steady hcomplete hsteady, hdoc] at hstored
    have hsized := Visit.sized_of_complete hcomplete
    rw [hdoc] at hsized
    have hwritten := written_of_storeAll size run
    refine ⟨_, ?_, JsTree.plain_doc P t, distinct, texts, JsTree.sense_doc exact t⟩
    rw [hwritten, hstored]
    exact Doc.encodes_encode P.endian hsized
  | @runtime v block b texts distinct encodable size run =>
    obtain ⟨d, hd⟩ := RuntimeValue.sense_written P texts distinct encodable
    -- both lemmas are about the one document that the value is written as
    obtain ⟨d', hd', hsized, hstored, -⟩ := RuntimeValue.written_of_encodable (e := P.endian) texts distinct encodable
    obtain rfl := Option.some.inj (hd.written.symm.trans hd')
    rw [RuntimeValue.putValuesToWson_eq] at run
    have hwritten := written_of_storeAll size run
    refine ⟨d, ?_, hd.plain, hd.distinct, hd.texts, hd.sense⟩
    rw [hwritten, hstored]
    exact Doc.encodes_encode P.endian hsized
  | @ios F T val block b vectors distinct texts size run =>
    have hsize : (Buffer.new block).length < 2 ^ Library.bits .c := size
    rw [Ios.toWson, Ios.pushObject_eq] at run
    have hfits := Buffer.fits_of_storeAll (Buffer.valid_new block) hsize run
    obtain ⟨-, -, -, hlength⟩ := Ios.toWson_of_fits (Buffer.valid_new block) size hfits
    have hexcess := Ios.excess_stores hlength
    -- only a vector is written as more than one value
    rw [vectors] at hexcess
    have hwritten := (written_of_storeAll size run).trans hexcess.eq
    rw [hexcess.eq] at hlength
    refine ⟨_, ?_, Ios.plain_doc P val, distinct, texts, Ios.sense_doc val⟩
    rw [hwritten]
    exact Doc.encodes_encode P.endian (Doc.sized_of_encode_lt P.endian hlength)

/-! ## What every end reads -/

section Reads

variable {d : Doc} {bytes : Bytes} {s : Sense}

theorem Message.javaReads (h : Message P toUtf16 d bytes s) (size : bytes.length < 2 ^ 30) :
    JavaReads P bytes s := by
  have hmeaning : ∃ v, d.meaning (fun _ => none) = some v ∧ v.sense P = d.sense :=
    JValue.sense_meaning h.plain h.distinct
  obtain ⟨v, hv, hsense⟩ := hmeaning
  refine ⟨d.height, fun n hn cache => ?_⟩
  obtain ⟨cache', hparse⟩ := parse_encodes h.encodes hv hn (by omega) [] [] cache
  rw [List.append_nil] at hparse
  exact ⟨v, cache', hparse, hsense.trans h.sense⟩

theorem Message.scriptReads (hV : V.Exact toDouble) (hindex : V.CanonicalIndex)
    (h : Message P toUtf16 d bytes s) (size : bytes.length < 2 ^ 30) : ScriptReads P V toDouble bytes s := by
  refine ⟨d.height, fun n hn cache hcache => ?_⟩
  have hlength : bytes.length < 2 ^ 32 := by omega
  obtain ⟨decoder, hdecode, -⟩ := consumes_wsonToJsValue hlength hindex h.encodes
    (shortKeys_of_within (h.encodes.within (by omega))) h.distinct h.plain.known hn
    ⟨⟨bytes, 0, bytes.length⟩, cache⟩ 0 [] ⟨⟨rfl, Nat.zero_le _⟩, hcache.consistent⟩
    (List.append_nil bytes).symm
  exact ⟨_, decoder, hdecode, (Jsc.sense_decoded hV hindex h.plain.known).trans h.sense⟩

theorem Message.runtimeReads (h : Message P toUtf16 d bytes s) (size : bytes.length < 2 ^ 30) :
    RuntimeReads P toUtf16 bytes s := by
  obtain ⟨v, hv, hsense⟩ := Runtime.sense_decoded P h.plain h.distinct h.texts (h.encodes.within size)
  refine ⟨d.height, fun n hn => ?_⟩
  have hlength : bytes.length < 2 ^ 32 := by omega
  have hanswers : Answers bytes (Buffer.At bytes bytes.length) _ _ _ := answers_convert hlength h.encodes hn
  rw [hv] at hanswers
  obtain ⟨buffer, hconvert, -⟩ := hanswers ⟨bytes, 0, bytes.length⟩ 0 [] ⟨rfl, Nat.zero_le _⟩
    (List.append_nil bytes).symm
  exact ⟨v, buffer, hconvert, hsense.trans h.sense⟩

theorem Message.iosReads (h : Message P toUtf16 d bytes s) (size : bytes.length < 2 ^ 30) :
    IosReads P bytes s := by
  refine ⟨d.height, fun n hn => ?_⟩
  have hlength : bytes.length < 2 ^ 32 := by omega
  obtain ⟨buffer, hobject, -⟩ := Ios.consumes_toObj hlength (Nat.le_refl _) h.encodes h.plain.known hn
    ⟨bytes, 0, bytes.length⟩ 0 [] ⟨rfl, Nat.zero_le _⟩ (List.append_nil bytes).symm
  exact ⟨_, buffer, hobject, (Ios.sense_parsed h.plain.known h.distinct).trans h.sense⟩

/-- No bytes say two things to an end. -/
theorem eq_of_reads {s' : Sense} (hjava : JavaReads P bytes s) (hscript : ScriptReads P V toDouble bytes s)
    (hruntime : RuntimeReads P toUtf16 bytes s) (hios : IosReads P bytes s)
    (h : JavaReads P bytes s' ∨ ScriptReads P V toDouble bytes s' ∨ RuntimeReads P toUtf16 bytes s' ∨
      IosReads P bytes s') : s' = s := by
  -- the two readings are one run of the same decoder, on a stack that is large enough for both
  have hmax (m n : Nat) : m < max m n + 1 ∧ n < max m n + 1 := by omega
  rcases h with ⟨m, h⟩ | ⟨m, h⟩ | ⟨m, h⟩ | ⟨m, h⟩
  · obtain ⟨n, hjava⟩ := hjava
    obtain ⟨v, _, hv, rfl⟩ := h _ (hmax m n).1 fun _ => none
    obtain ⟨v', _, hv', rfl⟩ := hjava _ (hmax m n).2 fun _ => none
    cases hv.symm.trans hv'
    rfl
  · obtain ⟨n, hscript⟩ := hscript
    have hfresh : Reachable V P.endian (Cache.replicate 32 (by decide) .fresh) := .fresh 32 (.inl rfl) []
    obtain ⟨value, _, hvalue, rfl⟩ := h _ (hmax m n).1 _ hfresh
    obtain ⟨value', _, hvalue', rfl⟩ := hscript _ (hmax m n).2 _ hfresh
    cases hvalue.symm.trans hvalue'
    rfl
  · obtain ⟨n, hruntime⟩ := hruntime
    obtain ⟨v, _, hv, rfl⟩ := h _ (hmax m n).1
    obtain ⟨v', _, hv', rfl⟩ := hruntime _ (hmax m n).2
    cases hv.symm.trans hv'
    rfl
  · obtain ⟨n, hios⟩ := hios
    obtain ⟨object, _, hobject, rfl⟩ := h _ (hmax m n).1
    obtain ⟨object', _, hobject', rfl⟩ := hios _ (hmax m n).2
    cases hobject.symm.trans hobject'
    rfl

end Reads

/-- **The invariant**: on every way the bytes are those of a document of this sense. -/
theorem Carried.message (hV : V.Exact toDouble) (hindex : V.CanonicalIndex) {s : Sense} {bytes : Bytes}
    (h : Carried P V toDouble toUtf16 s bytes) :
    bytes.length < 2 ^ 30 ∧ ∃ d, Message P toUtf16 d bytes s := by
  induction h with
  | sent writes size => exact ⟨size, writes.message⟩
  | passed _ reads writes size ih =>
    obtain ⟨hsize, d, hd⟩ := ih
    -- the end has read what the bytes say, so that this is what it writes again
    obtain rfl := eq_of_reads (hd.javaReads hsize) (hd.scriptReads hV hindex hsize) (hd.runtimeReads hsize)
      (hd.iosReads hsize) reads
    exact ⟨size, writes.message⟩

end Relay

theorem exact_sampleVm : sampleVm.Exact id where
  ofInt32 _ := rfl
  ofInt64 _ := rfl
  ofFloat _ := rfl
  ofDouble _ := rfl

/-- `{"k": ["a", undefined], "f": function}`. -/
def sampleRuntimeValue : RuntimeValue :=
  .map [([0x6B], .array [.string [0x61], .undefined]), ([0x66], .function)]

/-- In Java, `{"k": ["a", null]}` says the same. -/
theorem sense_sampleRuntimeValue :
    (JValue.map [([0x6B], .list [.string [0x61], .null])]).sense Platform.plain =
      sampleRuntimeValue.sense asciiUnits := by
  refine congrArg Sense.map (funext fun key => ?_)
  show (if [0x6B] = key then _ else Sense.null) = if [0x6B] = key then _ else if [0x66] = key then _ else Sense.null
  split
  · rfl
  · split <;> rfl

end Wson.Interop
