import Wson.Java.Input
import Wson.Java.Output
import Wson.Native.Calls
import Wson.Native.Reader

/-!
# Primitives on both sides

A sequence of primitive values, written by `Output` in Java or by the writers of the
C library in `io/`, is the same stream of bytes; and `Input` in Java and the readers
of `io/` get the values back from it, whatever follows, and stop behind it
(`interoperates`).
-/

namespace Wson.Interop

open Effect Wire Native Java

/-- A primitive value; doubles and floats are bit patterns. -/
inductive Primitive where
  | varInt (x : BitVec 32)
  | varUint (x : BitVec 32)
  | byte (b : Byte)
  | long (x : BitVec 64)
  | double (x : BitVec 64)
  | float (x : BitVec 32)
  deriving DecidableEq

namespace Primitive

/-- Which of the primitives a reader is asked for. -/
inductive Kind where
  | varInt
  | varUint
  | byte
  | long
  | double
  | float

def kind : Primitive → Kind
  | .varInt _ => .varInt
  | .varUint _ => .varUint
  | .byte _ => .byte
  | .long _ => .long
  | .double _ => .double
  | .float _ => .float

/-- If the value is no number, it has the pattern that Java writes. -/
def Canonical : Primitive → Prop
  | .double x => Output.doubleToLongBits x = x
  | .float x => Output.floatToIntBits x = x
  | _ => True

instance : ∀ p : Primitive, Decidable p.Canonical
  | .double x => inferInstanceAs (Decidable (Output.doubleToLongBits x = x))
  | .float x => inferInstanceAs (Decidable (Output.floatToIntBits x = x))
  | .varInt _ | .varUint _ | .byte _ | .long _ => inferInstanceAs (Decidable True)

/-- The bytes of the value. -/
def encoding : Primitive → Bytes
  | .varInt x => encode (zigzag x).toNat
  | .varUint x => encode x.toNat
  | .byte b => [b]
  | .long x | .double x => be64 x
  | .float x => be32 x

def encodings (ps : List Primitive) : Bytes :=
  ps.flatMap encoding

/-! ## The four sides -/

/-- The method of `Output`. -/
def writeJava : Primitive → OutputM Unit
  | .varInt x => Output.writeVarInt x
  | .varUint x => Output.writeUInt x
  | .byte b => Output.writeByte b
  | .long x => Output.writeLong x
  | .double x => Output.writeDouble x
  | .float x => Output.writeFloat x

def writeAllJava : List Primitive → OutputM Unit
  | [] => pure ()
  | p :: ps => do
    p.writeJava
    writeAllJava ps

/-- The writer of `io/`. -/
def call : Primitive → Native.Call
  | .varInt x => .varInt x
  | .varUint x => .varUint x
  | .byte b => .byte b
  | .long x => .uint64 x
  | .double x => .double x
  | .float x => .float x

/-- The method of `Input`; doubles are read as `long`s. -/
def readJava (buffer : Bytes) : Kind → ParserM Primitive
  | .varInt => do return .varInt (← Input.readVarInt buffer)
  | .varUint => do return .varUint (← Input.readUInt buffer)
  | .byte => do return .byte (← Input.readByte buffer)
  | .long => do return .long (← Input.readLong buffer)
  | .double => do return .double (← Input.readLong buffer)
  | .float => do return .float (← Input.readFloat buffer)

def readAllJava (buffer : Bytes) : List Kind → ParserM (List Primitive)
  | [] => pure []
  | k :: ks => do
    let p ← readJava buffer k
    let ps ← readAllJava buffer ks
    pure (p :: ps)

/-- The reader of `io/`; doubles are read as 64-bit integers. -/
def readIo : Kind → BufferM Primitive
  | .varInt => do return .varInt (← Buffer.readVarInt .io)
  | .varUint => do return .varUint (← Buffer.readVarUint .io)
  | .byte => do return .byte (← Buffer.readByte .io)
  | .long => do return .long (← Buffer.readLong .io)
  | .double => do return .double (← Buffer.readLong .io)
  | .float => do return .float (← Buffer.readFloat .io)

def readAllIo : List Kind → BufferM (List Primitive)
  | [] => pure []
  | k :: ks => do
    let p ← readIo k
    let ps ← readAllIo ks
    pure (p :: ps)

/-! ## Writing -/

theorem encoding_ne_nil : ∀ p : Primitive, p.encoding ≠ []
  | .varInt _ | .varUint _ => encodeGroups_ne_nil 4 _
  | .byte _ | .long _ | .double _ | .float _ => List.cons_ne_nil _ _

theorem appends_writeJava : ∀ {p : Primitive}, p.Canonical → Appends p.writeJava p.encoding
  | .varInt x, _ => Output.appends_writeVarInt x
  | .varUint x, _ => Output.appends_writeUInt x
  | .byte b, _ => Output.appends_writeByte b
  | .long x, _ => Output.appends_writeLong x
  | .double x, h => by
    have happend := Output.appends_writeDouble x
    rwa [show Output.doubleToLongBits x = x from h] at happend
  | .float x, h => by
    have happend := Output.appends_writeFloat x
    rwa [show Output.floatToIntBits x = x from h] at happend

theorem appends_writeAllJava : ∀ {ps : List Primitive}, (∀ p ∈ ps, p.Canonical) →
    Appends (writeAllJava ps) (encodings ps)
  | [], _ => Output.appends_pure
  | p :: _, h => by
    have hp := appends_writeJava (h p List.mem_cons_self)
    have hps := appends_writeAllJava fun q hq => h q (List.mem_cons_of_mem p hq)
    exact Output.Appends.bind (encoding_ne_nil p) hp hps

theorem encodings_map_call : ∀ ps : List Primitive, Native.Call.encodings (ps.map call) = encodings ps
  | [] => rfl
  | p :: ps => by
    have hp : p.call.encoding = p.encoding := by cases p <;> rfl
    have ih := encodings_map_call ps
    show p.call.encoding ++ Native.Call.encodings (ps.map call) = p.encoding ++ encodings ps
    rw [hp, ih]

/-! ## Reading -/

theorem consumes_readJava {buffer : Bytes} : ∀ p : Primitive,
    Consumes buffer Input.At (returns (readJava buffer p.kind)) p.encoding p
  | .varInt x => consumes_wrap (Input.consumes_readVarInt (varUInt_encode (zigzag x).isLt))
  | .varUint x => by
    have h : Consumes buffer Input.At (returns (Input.readUInt buffer)) _ _ :=
      Input.consumes_readUInt_varUInt (varUInt_encode x.isLt)
    rw [BitVec.ofNat_toNat, BitVec.setWidth_eq] at h
    exact consumes_wrap h
  | .byte b => consumes_wrap (Input.consumes_readByte b)
  | .long x | .double x => consumes_wrap (Input.consumes_readLong x)
  | .float x => consumes_wrap (Input.consumes_readFloat x)

theorem consumes_readAllJava {buffer : Bytes} : ∀ ps : List Primitive,
    Consumes buffer Input.At (returns (readAllJava buffer (ps.map kind))) (encodings ps) ps
  | [] => consumes_pure _
  | p :: ps => by
    rw [List.map_cons, readAllJava, returns_bind_eq]
    exact (consumes_readJava p).bind (consumes_wrap (consumes_readAllJava ps))

section Io

variable {data : Bytes} {length : Nat}

theorem consumes_readIo (hdata : data.length < 2 ^ 64) : ∀ p : Primitive,
    Consumes data (Buffer.At data length) (returns (readIo p.kind)) p.encoding p
  | .varInt x => consumes_wrap (Buffer.consumes_readVarInt hdata (varUInt_encode (zigzag x).isLt))
  | .varUint x => by
    have h : Consumes data (Buffer.At data length) (returns (Buffer.readVarUint .io)) _ _ :=
      Buffer.consumes_readVarUint hdata (varUInt_encode x.isLt)
    rw [BitVec.ofNat_toNat, BitVec.setWidth_eq] at h
    exact consumes_wrap h
  | .byte b => consumes_wrap (Buffer.consumes_readByte hdata b)
  | .long x | .double x => consumes_wrap (Buffer.consumes_readFixedUint64 hdata x)
  | .float x => consumes_wrap (Buffer.consumes_readFloat hdata x)

theorem consumes_readAllIo (hdata : data.length < 2 ^ 64) : ∀ ps : List Primitive,
    Consumes data (Buffer.At data length) (returns (readAllIo (ps.map kind))) (encodings ps) ps
  | [] => consumes_pure _
  | p :: ps => by
    rw [List.map_cons, readAllIo, returns_bind_eq]
    exact (consumes_readIo hdata p).bind (consumes_wrap (consumes_readAllIo hdata ps))

end Io

/-! ## Both sides -/

/-- Both writers produce `stream`: `Output` behind what it holds, `io/` in a new buffer. -/
def BothWrite (ps : List Primitive) (o : Output) (block stream : Bytes) : Prop :=
  (∃ o', returns (writeAllJava ps) o = some ((), o') ∧ o'.written = o.written ++ stream) ∧
  ∃ buffer, Native.Call.after .io block (ps.map call) = some buffer ∧ buffer.written = stream

/-- Both readers get the values back from `stream`, wherever it stands, and stop behind it. -/
def BothRead (ps : List Primitive) (stream : Bytes) : Prop :=
  ∀ before after : Bytes, (before ++ stream ++ after).length < 2 ^ 64 →
    (∀ cache, ∃ s, returns (readAllJava (before ++ stream ++ after) (ps.map kind))
        ⟨before.length, cache⟩ = some (ps, s) ∧
      s.position = (before ++ stream).length) ∧
    ∀ length, returns (readAllIo (ps.map kind)) ⟨before ++ stream ++ after, before.length, length⟩
      = some (ps, ⟨before ++ stream ++ after, (before ++ stream).length, length⟩)

/-- **Java and C interoperate** on primitives. -/
theorem interoperates {ps : List Primitive} (hcanonical : ∀ p ∈ ps, p.Canonical) {o : Output}
    (hroom : o.position + (encodings ps).length ≤ o.buffer.length) (hsmall : o.buffer.length < 2 ^ 31)
    (block : Bytes) : BothWrite ps o block (encodings ps) ∧ BothRead ps (encodings ps) := by
  refine ⟨⟨⟨o.put (encodings ps), ?_, take_overwrite_end _ _ hroom⟩, ?_⟩, ?_⟩
  · rw [appends_writeAllJava hcanonical o fun _ => by omega, if_pos hroom]
  -- the buffer in C grows by itself; the one in Java has the room that is assumed
  · obtain ⟨buffer, hrun, -, hwritten⟩ := Native.Call.writes_runAll .io (ps.map call)
      (Buffer.new block) (Buffer.valid_new block) (by
        rw [encodings_map_call]
        show 0 + _ ≤ 2 ^ 31
        omega)
    refine ⟨buffer, ?_, ?_⟩
    · rw [Native.Call.after, returns_eq_some.mpr hrun]
      rfl
    · rw [hwritten, encodings_map_call]
      rfl
  · intro before after hdata
    have hdrop : (before ++ encodings ps ++ after).drop before.length = encodings ps ++ after := by
      rw [List.append_assoc, List.drop_left]
    refine ⟨fun cache => ?_, fun length => ?_⟩
    · obtain ⟨s, hs, hp⟩ := consumes_readAllJava ps ⟨before.length, cache⟩ before.length after rfl hdrop
      refine ⟨s, hs, ?_⟩
      rw [List.length_append]
      exact hp
    · exact Buffer.returns_of_consumesAt (consumes_readAllIo hdata ps).consumesAt

theorem interoperates_sample :
    BothWrite [.varInt (-3), .double 0x3FF0000000000000, .byte 0xFF] ⟨List.replicate 16 0, 1⟩ []
        (encodings [.varInt (-3), .double 0x3FF0000000000000, .byte 0xFF]) ∧
      BothRead [.varInt (-3), .double 0x3FF0000000000000, .byte 0xFF]
        (encodings [.varInt (-3), .double 0x3FF0000000000000, .byte 0xFF]) :=
  interoperates (by decide) (by decide) (by decide) []

end Primitive

end Wson.Interop
