import Wson.Native.Writer

/-!
# Sequences of writer calls

A program that writes with the C library is a sequence of calls of its writers.
`Call.bytes` is what a call stands for, whatever the library, and `writes_calls`
says that a sequence writes the bytes of its calls, one behind the other. Two
consequences:

- `Tree.encoding_eq_encode`: a tree written with the tagged writers comes out as the
  encoding of its document;
- **`sameStream`**: started on new buffers, the two libraries hold the same bytes
  after every call, however their buffers have grown in between.
-/

namespace Wson.Native

open Effect Wire

/-- A call of a writer, untagged or tagged, with its arguments. -/
inductive Call where
  | byte (bt : Byte)
  | type (bt : Byte)
  | varInt (value : BitVec 32)
  | varUint (num : BitVec 32)
  | uint64 (num : BitVec 64)
  | double (num : BitVec 64)
  | float (num : BitVec 32)
  | bytes (src : Bytes)
  | typeNull
  | booleanWithTag (value : Byte)
  | varIntWithTag (num : BitVec 32)
  | fixedInt64WithTag (num : BitVec 64)
  | doubleWithTag (num : BitVec 64)
  | floatWithTag (num : BitVec 32)
  | stringWithTag (src : Bytes)
  | uint8StringWithTag (src : Bytes)
  | mapKey (src : Bytes)
  | typeStringLength (length : BitVec 32)
  | typeMap (size : BitVec 32)
  | typeArray (size : BitVec 32)
  | typeExtend (src : Bytes)

namespace Call

open Buffer

/-- The writer that the call runs. -/
def run (lib : Library) : Call → BufferM Unit
  | .byte bt => writeByte lib bt
  | .type bt => writeType lib bt
  | .varInt value => writeVarInt lib value
  | .varUint num => writeVarUint lib num
  | .uint64 num => writeUint64 lib num
  | .double num => writeDouble lib num
  | .float num => writeFloat lib num
  | .bytes src => writeBytes lib src
  | .typeNull => writeTypeNull lib
  | .booleanWithTag value => writeBooleanWithTag lib value
  | .varIntWithTag num => writeVarIntWithTag lib num
  | .fixedInt64WithTag num => writeFixedInt64WithTag lib num
  | .doubleWithTag num => writeDoubleWithTag lib num
  | .floatWithTag num => writeFloatWithTag lib num
  | .stringWithTag src => writeStringWithTag lib src
  | .uint8StringWithTag src => writeUint8StringWithTag lib src
  | .mapKey src => writeMapKey lib src
  | .typeStringLength length => writeTypeStringLength lib length
  | .typeMap size => writeTypeMap lib size
  | .typeArray size => writeTypeArray lib size
  | .typeExtend src => writeTypeExtend lib src

/-- What the call stands for in the format. -/
def encoding : Call → Bytes
  | .byte bt | .type bt => [bt]
  | .varInt value => encode (zigzag value).toNat
  | .varUint num => encode num.toNat
  | .uint64 num | .double num => be64 num
  | .float num => be32 num
  | .bytes src => src
  | .typeNull => [Tag.null]
  | .booleanWithTag value => [booleanTag (value ≠ 0)]
  | .varIntWithTag num => Tag.int :: encode (zigzag num).toNat
  | .fixedInt64WithTag num => Tag.long :: be64 num
  | .doubleWithTag num => Tag.double :: be64 num
  | .floatWithTag num => Tag.float :: be32 num
  | .stringWithTag src => Tag.string :: (encode src.length ++ src)
  | .uint8StringWithTag src => Tag.uint8String :: (encode src.length ++ src)
  | .mapKey src => encode src.length ++ src
  | .typeStringLength length => Tag.string :: encode length.toNat
  | .typeMap size => Tag.map :: encode size.toNat
  | .typeArray size => Tag.array :: encode size.toNat
  | .typeExtend src => extendTag :: (encode src.length ++ src)

variable (lib : Library)

/-- **One call** writes what it stands for. -/
theorem writes_run : ∀ call : Call, Writes lib (call.run lib) call.encoding
  | .byte _ | .type _ | .typeNull => writes_writeType _
  | .varInt _ | .varUint _ => writes_writeVarUint _
  | .uint64 _ | .double _ => writes_writeUint64 _
  | .float _ => writes_writeFloat _
  | .bytes _ => writes_writeBytes _
  | .booleanWithTag value => by
    have hbyte : (if value ≠ 0 then Tag.booleanTrue else Tag.booleanFalse)
        = booleanTag (decide (value ≠ 0)) := by
      simp only [booleanTag, decide_eq_true_eq]
    rw [run, writeBooleanWithTag, hbyte]
    exact writes_put (by decide) (Nat.le_succ 1) (Nat.le_add_left 2 7)
  | .varIntWithTag _ => (writes_writeType _).bind (writes_writeVarUint _)
  | .fixedInt64WithTag _ | .doubleWithTag _ => (writes_writeType _).bind (writes_writeUint64 _)
  | .floatWithTag _ => (writes_writeType _).bind (writes_writeFloat _)
  | .stringWithTag _ | .uint8StringWithTag _ | .typeExtend _ => writes_writeBlockWithTag _ _
  | .mapKey _ => writes_writeMapKey _
  | .typeStringLength _ | .typeMap _ | .typeArray _ => writes_writeCountWithTag _ _

/-- The calls, one after the other. -/
def runAll : List Call → BufferM Unit
  | [] => pure ()
  | call :: calls => do
    call.run lib
    runAll calls

/-- What the calls stand for, one behind the other. -/
def encodings (calls : List Call) : Bytes :=
  calls.flatMap encoding

/-- **A sequence of calls** writes what they stand for. -/
theorem writes_runAll : ∀ calls : List Call, Writes lib (runAll lib calls) (encodings calls)
  | [] => writes_pure
  | call :: calls => (writes_run lib call).bind (writes_runAll calls)

/-! ## The two libraries -/

/-- The state after the calls, from a new buffer around `block`. -/
def after (block : Bytes) (calls : List Call) : Option Buffer :=
  (returns (runAll lib calls) (Buffer.new block)).map Prod.snd

/-- What the call does to a buffer in which `done` was written: it returns, having stored
inside the block and behind what was there, which is now followed by its encoding. -/
def Appends (buffer : Buffer) (call : Call) (done : Bytes) : Prop :=
  ∃ buffer', call.run lib buffer = .ok () buffer' ∧
    buffer'.position ≤ buffer'.length ∧ buffer'.length = buffer'.data.length ∧
    buffer'.data.take buffer.position = buffer.data.take buffer.position ∧
    buffer'.data.take buffer'.position = done ++ call.encoding

/-- A further call in a sequence that stays below the limit. -/
theorem appends_after (block : Bytes) (calls : List Call) (call : Call)
    (htotal : (encodings (calls ++ [call])).length ≤ limit lib) :
    ∃ buffer, after lib block calls = some buffer ∧
      Appends lib buffer call (encodings calls) := by
  have happend : encodings (calls ++ [call]) = encodings calls ++ call.encoding := by
    simp only [encodings, List.flatMap_append, List.flatMap_cons, List.flatMap_nil,
      List.append_nil]
  rw [happend, List.length_append] at htotal
  have hv := valid_new block
  obtain ⟨b₁, h₁, hv₁, hw₁⟩ := writes_runAll lib calls _ hv (by
    show 0 + _ ≤ _
    omega)
  have hp₁ := position_of_written hv hv₁ hw₁
  obtain ⟨b₂, h₂, hv₂, hw₂⟩ := writes_run lib call b₁ hv₁ (by
    rw [hp₁]
    show 0 + _ + _ ≤ _
    omega)
  have hp₂ := position_of_written hv₁ hv₂ hw₂
  rw [written_new, List.nil_append] at hw₁
  refine ⟨b₁, ?_, b₂, h₂, hv₂.inside, hv₂.length_eq, ?_, ?_⟩
  · rw [after, returns_eq_some.mpr h₁]
    rfl
  · have hwritten : b₂.written.take b₁.position = b₂.data.take b₁.position := by
      rw [written, List.take_take, Nat.min_eq_left (by omega)]
    rw [← hwritten, hw₂, List.take_left' hv₁.written_length]
    rfl
  · rw [← hw₁]
    exact hw₂

/-- **The two libraries write the same stream**: after every call of a sequence whose output
stays below `2^30` bytes. -/
theorem sameStream (block block' : Bytes) (calls : List Call) (call : Call)
    (htotal : (encodings (calls ++ [call])).length < 2 ^ 30) :
    ∃ buffer buffer', after .c block calls = some buffer ∧
      after .io block' calls = some buffer' ∧
      Appends .c buffer call (encodings calls) ∧ Appends .io buffer' call (encodings calls) := by
  have hio : 2 ^ 30 ≤ limit .io := by decide
  obtain ⟨b, hb, hcall⟩ := appends_after .c block calls call (Nat.le_of_lt htotal)
  obtain ⟨b', hb', hcall'⟩ := appends_after .io block' calls call (by omega)
  exact ⟨b, b', hb, hb', hcall, hcall'⟩

/-- A sequence in which the text does not fit into the blocks that `malloc` returned. -/
theorem sameStream_grows : ∃ buffer buffer',
    after .c [] [typeArray 2, stringWithTag (List.replicate 6000 0)] = some buffer ∧
      after .io [0] [typeArray 2, stringWithTag (List.replicate 6000 0)] = some buffer' ∧
      Appends .c buffer (varIntWithTag 7)
        (encodings [typeArray 2, stringWithTag (List.replicate 6000 0)]) ∧
      Appends .io buffer' (varIntWithTag 7)
        (encodings [typeArray 2, stringWithTag (List.replicate 6000 0)]) := by
  refine sameStream [] [0] _ (varIntWithTag 7) ?_
  have hheader := encodeGroups_length_le 4 6000
  have htail := encodeGroups_length_le 4 (zigzag (7 : BitVec 32)).toNat
  simp only [encodings, List.cons_append, List.nil_append, List.flatMap_cons, List.flatMap_nil,
    List.append_nil, encoding, List.length_append, List.length_cons, List.length_replicate]
  have hcount := encodeGroups_length_le 4 (2 : BitVec 32).toNat
  unfold Wire.encode
  omega

end Call

/-! ## Trees -/

/-- A value tree, as the value writers put it together. -/
inductive Tree where
  | null
  | boolean (value : Byte)
  | int (num : BitVec 32)
  | long (num : BitVec 64)
  | float (num : BitVec 32)
  | double (num : BitVec 64)
  | string (s : Utf16)
  | uint8String (src : Bytes)
  | extend (src : Bytes)
  | array (items : List Tree)
  | map (entries : List (Utf16 × Tree))

namespace Tree

section Calls

variable (e : Endian)

mutual

/-- The calls that write the tree; counts are those of the entries that follow. -/
def calls : Tree → List Call
  | .null => [.typeNull]
  | .boolean value => [.booleanWithTag value]
  | .int num => [.varIntWithTag num]
  | .long num => [.fixedInt64WithTag num]
  | .float num => [.floatWithTag num]
  | .double num => [.doubleWithTag num]
  | .string s => [.stringWithTag (units e s)]
  | .uint8String src => [.uint8StringWithTag src]
  | .extend src => [.typeExtend src]
  | .array items => .typeArray (BitVec.ofNat 32 items.length) :: callsItems items
  | .map entries => .typeMap (BitVec.ofNat 32 entries.length) :: callsEntries entries

def callsItems : List Tree → List Call
  | [] => []
  | t :: ts => calls t ++ callsItems ts

def callsEntries : List (Utf16 × Tree) → List Call
  | [] => []
  | (k, t) :: es => .mapKey (units e k) :: (calls t ++ callsEntries es)

end

/-- What the tree looks like in a buffer. -/
def encoding (t : Tree) : Bytes :=
  Call.encodings (t.calls e)

end Calls

mutual

/-- The document that the tree is, unless it holds an extend block. -/
def doc : Tree → Option Doc
  | .null => some .null
  | .boolean value => some (.boolean (value ≠ 0))
  | .int num => some (.int num)
  | .long num => some (.long num)
  | .float num => some (.float num)
  | .double num => some (.double num)
  | .string s => some (.text .string s)
  | .uint8String src => some (.uint8String src)
  | .extend _ => none
  | .array items => (docItems items).map .array
  | .map entries => (docEntries entries).map .map

def docItems : List Tree → Option (List Doc)
  | [] => some []
  | t :: ts => do
    let d ← doc t
    let ds ← docItems ts
    pure (d :: ds)

def docEntries : List (Utf16 × Tree) → Option (List (Utf16 × Doc))
  | [] => some []
  | (k, t) :: es => do
    let d ← doc t
    let ds ← docEntries es
    pure ((k, d) :: ds)

end

theorem docItems_length : ∀ {ts : List Tree} {ds : List Doc},
    docItems ts = some ds → ts.length = ds.length
  | [], _, h => by
    obtain rfl := Option.some.inj h
    rfl
  | _ :: _, _, h => by
    obtain ⟨d, -, h⟩ := Option.bind_eq_some_iff.mp h
    obtain ⟨ds, hds, h⟩ := Option.bind_eq_some_iff.mp h
    obtain rfl := Option.some.inj h
    exact congrArg Nat.succ (docItems_length hds)

theorem docEntries_length : ∀ {es : List (Utf16 × Tree)} {ds : List (Utf16 × Doc)},
    docEntries es = some ds → es.length = ds.length
  | [], _, h => by
    obtain rfl := Option.some.inj h
    rfl
  | (_, _) :: _, _, h => by
    obtain ⟨d, -, h⟩ := Option.bind_eq_some_iff.mp h
    obtain ⟨ds, hds, h⟩ := Option.bind_eq_some_iff.mp h
    obtain rfl := Option.some.inj h
    exact congrArg Nat.succ (docEntries_length hds)

section Calls

variable (e : Endian)

open Call (encodings)

theorem encodings_append (calls calls' : List Call) :
    encodings (calls ++ calls') = encodings calls ++ encodings calls' :=
  List.flatMap_append

theorem encodings_cons (call : Call) (calls : List Call) :
    encodings (call :: calls) = call.encoding ++ encodings calls :=
  rfl

mutual

/-- **The tagged writers write the format.** -/
theorem encoding_eq_encode : ∀ {t : Tree} {d : Doc}, t.doc = some d → d.Sized →
    t.encoding e = d.encode e
  | .null, _, h, _ | .boolean _, _, h, _ | .int _, _, h, _ | .long _, _, h, _
  | .float _, _, h, _ | .double _, _, h, _ | .uint8String _, _, h, _ => by
    obtain rfl := Option.some.inj h
    exact List.append_nil _
  | .string s, _, h, _ => by
    obtain rfl := Option.some.inj h
    show Tag.string :: (encode (units e s).length ++ units e s) ++ [] = _
    rw [units_length, List.append_nil]
    rfl
  | .extend _, _, h, _ => nomatch h
  | .array _, _, h, hs => by
    obtain ⟨ds, hds, rfl⟩ := Option.map_eq_some_iff.mp h
    have hitems := encodings_callsItems hds hs.2
    show Tag.array :: encode _ ++ encodings (callsItems e _) = _
    rw [hitems, docItems_length hds, BitVec.toNat_ofNat, Nat.mod_eq_of_lt hs.1]
    rfl
  | .map _, _, h, hs => by
    obtain ⟨ds, hds, rfl⟩ := Option.map_eq_some_iff.mp h
    have hentries := encodings_callsEntries hds hs.2
    show Tag.map :: encode _ ++ encodings (callsEntries e _) = _
    rw [hentries, docEntries_length hds, BitVec.toNat_ofNat, Nat.mod_eq_of_lt hs.1]
    rfl

theorem encodings_callsItems : ∀ {ts : List Tree} {ds : List Doc}, docItems ts = some ds →
    Doc.SizedItems ds → encodings (callsItems e ts) = Doc.encodeItems e ds
  | [], _, h, _ => by
    obtain rfl := Option.some.inj h
    rfl
  | t :: _, _, h, hs => by
    obtain ⟨d, hd, h⟩ := Option.bind_eq_some_iff.mp h
    obtain ⟨ds, hds, h⟩ := Option.bind_eq_some_iff.mp h
    obtain rfl := Option.some.inj h
    have hvalue : encodings (t.calls e) = _ := encoding_eq_encode hd hs.1
    rw [callsItems, encodings_append, hvalue, encodings_callsItems hds hs.2]
    rfl

theorem encodings_callsEntries : ∀ {es : List (Utf16 × Tree)} {ds : List (Utf16 × Doc)},
    docEntries es = some ds → Doc.SizedEntries ds →
      encodings (callsEntries e es) = Doc.encodeEntries e ds
  | [], _, h, _ => by
    obtain rfl := Option.some.inj h
    rfl
  | (k, t) :: _, _, h, hs => by
    obtain ⟨d, hd, h⟩ := Option.bind_eq_some_iff.mp h
    obtain ⟨ds, hds, h⟩ := Option.bind_eq_some_iff.mp h
    obtain rfl := Option.some.inj h
    have hvalue : encodings (t.calls e) = _ := encoding_eq_encode hd hs.2.1
    rw [callsEntries, encodings_cons, encodings_append, hvalue,
      encodings_callsEntries hds hs.2.2, Doc.encodeEntries, ← units_length e k]
    simp only [Call.encoding, List.append_assoc]

end

end Calls

end Tree

end Wson.Native
