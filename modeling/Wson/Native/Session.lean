import Wson.Effect.Simulation
import Wson.Native.Accessors

/-!
# Walks with and without a length

`wson_parser(data)` declares a length of 1 MB, whatever stands at `data`. A walk is a
sequence of requests to the parser; `trace` is what it returns for each of them. The
declared length is looked at by `nextType` alone (`uniform_answer`), so a walk reads the
same as with the length of the document iff `nextType` is called below both
(`sameReading_iff`). `inside_of_walks`: as long as no float is skipped, the walks along a
document call it at values of the document.
-/

namespace Wson.Native

open Effect Wire

/-- A call to the parser. A value is read or skipped with the type that `nextType` has
returned last. -/
inductive Request where
  | nextType
  | nextMapSize
  | nextArraySize
  | nextMapKeyUTF8
  | nextStringUTF8
  | skipValue
  deriving DecidableEq, Repr

inductive Reply where
  | type (t : Byte)
  | size (n : Int)
  | text (utf8 : Bytes)
  | done
  deriving DecidableEq, Repr

/-- The type that the next value is read with. -/
def Reply.typeOr (type : Byte) : Reply → Byte
  | .type t => t
  | _ => type

/-- A request, the position where it is made, and what comes of it: a reply and the position
behind it, or nothing. -/
structure Entry where
  request : Request
  position : Nat
  outcome : Option (Reply × Nat)
  deriving DecidableEq, Repr

namespace Parser

open Buffer

/-- `wson_parser(const char *data)`. -/
def wsonParser (data : Bytes) : Buffer where
  data := data
  position := 0
  length := 1024 * 1024

/-- `wson_parser(const char *data, int length)`. -/
def wsonParserOfLength (data : Bytes) (length : Nat) : Buffer where
  data := data
  position := 0
  length := length

variable (lib : Library) (e : Endian) (libc : Libc) (n : Nat)

def answer (type : Byte) : Request → BufferM Reply
  | .nextType => do return .type (← nextType lib)
  | .nextMapSize => do return .size (← nextMapSize lib)
  | .nextArraySize => do return .size (← nextArraySize lib)
  | .nextMapKeyUTF8 => do return .text (← nextMapKeyUTF8 lib e)
  | .nextStringUTF8 => do return .text (← nextStringUTF8 lib e libc n type)
  | .skipValue => do
    skipValue lib n type
    return .done

/-- The walk up to its end, or to the first request that does not return. -/
def trace : List Request → Byte → Buffer → List Entry
  | [], _, _ => []
  | request :: requests, type, buffer =>
    match returns (answer lib e libc n type request) buffer with
    | none => [⟨request, buffer.position, none⟩]
    | some (reply, buffer') =>
      ⟨request, buffer.position, some (reply, buffer'.position)⟩ ::
        trace requests (reply.typeOr type) buffer'

/-- If the request is `nextType`, the reply is the byte at the position. -/
def Tagged (bs : Bytes) (x : Entry) : Prop :=
  x.request = .nextType → ∃ t, bs[x.position]? = some t ∧ x.outcome.map Prod.fst = some (.type t)

/-- Both parsers reply the same, and `nextType` replies with the byte at the position. -/
def SameReading (bs : Bytes) (type : Byte) (requests : List Request) : Prop :=
  trace lib e libc n requests type (wsonParser bs) =
      trace lib e libc n requests type (wsonParserOfLength bs bs.length) ∧
    ∀ x ∈ trace lib e libc n requests type (wsonParser bs), Tagged bs x

/-- If the request is `nextType`, the position is inside the document and below `length`. -/
def Inside (bs : Bytes) (length : Nat) (x : Entry) : Prop :=
  x.request = .nextType → x.position < bs.length ∧ x.position < length

/-! ## The length is looked at by `nextType` alone -/

/-- Two buffers over the same bytes, at the same position. -/
def SamePosition (bs : Bytes) (length length' : Nat) (b b' : Buffer) : Prop :=
  ∃ p, b = ⟨bs, p, length⟩ ∧ b' = ⟨bs, p, length'⟩

/-- The program does not depend on the declared length, and leaves it as it is. -/
def Uniform {α : Type} (m : BufferM α) : Prop :=
  ∀ bs length length', Simulates (SamePosition bs length length') Eq m m

variable {lib e libc n}

theorem uniform_pure {α : Type} (a : α) : Uniform (pure a : BufferM α) :=
  fun _ _ _ => simulates_pure rfl

theorem uniform_throw {α : Type} (fault : Fault) : Uniform (throw fault : BufferM α) :=
  fun _ _ _ => simulates_throw fault

theorem Uniform.bind {α β : Type} {m : BufferM α} {f : α → BufferM β} (hm : Uniform m)
    (hf : ∀ a, Uniform (f a)) : Uniform (m >>= f) :=
  fun bs length length' => (hm bs length length').bind_eq fun a => hf a bs length length'

theorem Uniform.wrap {α β : Type} {m : BufferM α} (hm : Uniform m) (f : α → β) :
    Uniform (do return f (← m)) :=
  hm.bind fun a => uniform_pure (f a)

theorem Uniform.ite {α : Type} {c : Prop} [Decidable c] {m m' : BufferM α} (hm : Uniform m)
    (hm' : Uniform m') : Uniform (if c then m else m') :=
  fun bs length length' =>
    Simulates.ite (fun _ => hm bs length length') (fun _ => hm' bs length length')

theorem uniform_load (i : Nat) : Uniform (load i) := by
  rintro bs length length' _ _ ⟨p, rfl, rfl⟩
  cases h : bs[p + i]? with
  | none =>
    simp only [load, h]
    exact .error _ ⟨_, rfl, rfl⟩
  | some b =>
    simp only [load, h]
    exact .ok rfl ⟨_, rfl, rfl⟩

theorem uniform_move (step : Nat) : Uniform (move lib step) := by
  rintro bs length length' _ _ ⟨p, rfl, rfl⟩
  exact .ok rfl ⟨_, rfl, rfl⟩

theorem uniform_bytesAt (ptr k : Nat) : Uniform (bytesAt ptr k) := by
  rintro bs length length' _ _ ⟨p, rfl, rfl⟩
  by_cases h : ptr + k ≤ bs.length
  · simp only [bytesAt, h, if_true]
    exact .ok rfl ⟨_, rfl, rfl⟩
  · simp only [bytesAt, h, if_false]
    exact .error _ ⟨_, rfl, rfl⟩

theorem uniform_readBts (size : BitVec 32) : Uniform (readBts lib size) := by
  rintro bs length length' _ _ ⟨p, rfl, rfl⟩
  exact .ok rfl ⟨_, rfl, rfl⟩

theorem uniform_readType : Uniform (readType lib) :=
  (uniform_load 0).bind fun _ => (uniform_move 1).bind fun _ => uniform_pure _

theorem uniform_readVarUint : Uniform (readVarUint lib) := by
  have hend {k : Nat} {x : BitVec 32} : Uniform (do move lib k; return x) :=
    (uniform_move k).bind fun _ => uniform_pure x
  unfold readVarUint
  refine (uniform_load 0).bind fun _ => .ite hend ?_
  refine (uniform_load 1).bind fun _ => .ite hend ?_
  refine (uniform_load 2).bind fun _ => .ite hend ?_
  refine (uniform_load 3).bind fun _ => .ite hend ?_
  exact (uniform_load 4).bind fun _ => hend

theorem uniform_readFixedUint64 : Uniform (readFixedUint64 lib) := by
  unfold readFixedUint64
  iterate 8 refine (uniform_load _).bind fun _ => ?_
  exact (uniform_move 8).bind fun _ => uniform_pure _

theorem uniform_readFloat : Uniform (readFloat lib) := by
  unfold readFloat
  iterate 4 refine (uniform_load _).bind fun _ => ?_
  exact (uniform_move 4).bind fun _ => uniform_pure _

theorem uniform_requireDecodingBuffer (size : BitVec 32) : Uniform (requireDecodingBuffer size) :=
  .ite (uniform_throw _) (uniform_pure ())

theorem uniform_appendBytes (utf8 : Nat) (size : BitVec 32) : Uniform (appendBytes utf8 size) :=
  .ite ((uniform_throw _).bind fun _ => uniform_bytesAt _ _)
    ((uniform_pure ()).bind fun _ => uniform_bytesAt _ _)

theorem uniform_readUtf16 : Uniform (readUtf16 lib e) :=
  uniform_readVarUint.bind fun size => (uniform_readBts size).bind fun _ =>
    (uniform_requireDecodingBuffer size).bind fun _ => (uniform_bytesAt _ _).wrap _

theorem uniform_readUtf8 : Uniform (readUtf8 lib) :=
  uniform_readVarUint.bind fun size => (uniform_readBts size).bind fun utf8 =>
    uniform_appendBytes utf8 size

theorem uniform_jsonItems {m : BufferM Bytes} (hm : Uniform m) : ∀ k, Uniform (jsonItems m k)
  | 0 => uniform_pure _
  | k + 1 => hm.bind fun _ => (uniform_jsonItems hm k).bind fun _ => uniform_pure _

theorem uniform_jsonEntries {m : BufferM Bytes} (hm : Uniform m) :
    ∀ k, Uniform (jsonEntries lib e m k)
  | 0 => uniform_pure _
  | k + 1 =>
    uniform_readUtf16.bind fun _ => hm.bind fun _ => (uniform_jsonEntries hm k).bind fun _ =>
      uniform_pure _

theorem uniform_toJSONtring : ∀ n, Uniform (toJSONtring lib e libc n)
  | 0 => uniform_throw _
  | n + 1 => by
    have ih := uniform_toJSONtring n
    refine uniform_readType.bind fun type => ?_
    unfold jsonValue
    split
    · exact uniform_readUtf8
    · exact uniform_readUtf16.wrap _
    · exact uniform_pure _
    · exact (uniform_readVarUint.wrap _).wrap _
    · exact uniform_readFloat.wrap _
    · exact uniform_readFixedUint64.wrap _
    · exact uniform_readFixedUint64.wrap _
    · exact uniform_pure _
    · exact uniform_pure _
    · exact uniform_readVarUint.bind fun _ => (uniform_jsonEntries ih _).wrap _
    · exact uniform_readVarUint.bind fun _ => (uniform_jsonItems ih _).wrap _
    · exact uniform_pure _

theorem uniform_nextStringUTF8 (type : Byte) : Uniform (nextStringUTF8 lib e libc n type) := by
  have hback : Uniform (modify fun buffer : Buffer =>
      { buffer with position := (buffer.position + 2 ^ lib.bits - 1) % 2 ^ lib.bits }) := by
    rintro bs length length' _ _ ⟨p, rfl, rfl⟩
    exact .ok rfl ⟨_, rfl, rfl⟩
  unfold nextStringUTF8
  split
  · exact uniform_readUtf8
  · exact uniform_readUtf16.wrap _
  · exact uniform_pure _
  · exact (uniform_readVarUint.wrap _).wrap _
  · exact uniform_readFloat.wrap _
  · exact uniform_readFixedUint64.wrap _
  · exact uniform_readFixedUint64.wrap _
  · exact uniform_pure _
  · exact uniform_pure _
  · exact hback.bind fun _ => uniform_toJSONtring n
  · exact hback.bind fun _ => uniform_toJSONtring n
  · exact uniform_pure _

theorem uniform_skipBlock : Uniform (skipBlock lib) :=
  uniform_readVarUint.bind fun size => (uniform_readBts size).bind fun _ => uniform_pure _

theorem uniform_skipItems {skip : Byte → BufferM Unit} (h : ∀ type, Uniform (skip type)) :
    ∀ k, Uniform (skipItems lib skip k)
  | 0 => uniform_pure _
  | k + 1 => uniform_readType.bind fun type => (h type).bind fun _ => uniform_skipItems h k

theorem uniform_skipEntries {skip : Byte → BufferM Unit} (h : ∀ type, Uniform (skip type)) :
    ∀ k, Uniform (skipEntries lib skip k)
  | 0 => uniform_pure _
  | k + 1 =>
    uniform_skipBlock.bind fun _ => uniform_readType.bind fun type =>
      (h type).bind fun _ => uniform_skipEntries h k

theorem uniform_skipValue : ∀ n type, Uniform (skipValue lib n type)
  | 0, _ => uniform_throw _
  | n + 1, type => by
    have ih := uniform_skipValue n
    have hdiscard {α : Type} {m : BufferM α} (hm : Uniform m) : Uniform (discard m) :=
      hm.wrap fun _ => ()
    unfold skipValue
    split
    · exact uniform_skipBlock
    · exact uniform_skipBlock
    · exact uniform_pure _
    · exact hdiscard (uniform_readVarUint.wrap _)
    · cases lib with
      | c => exact hdiscard uniform_readFloat
      | io => exact uniform_pure _
    · exact hdiscard uniform_readFixedUint64
    · exact hdiscard uniform_readFixedUint64
    · exact uniform_pure _
    · exact uniform_readVarUint.bind fun _ => uniform_skipEntries ih _
    · exact uniform_readVarUint.bind fun _ => uniform_skipItems ih _
    · exact uniform_pure _

/-- **Only `nextType`** looks at the declared length. -/
theorem uniform_answer (type : Byte) {request : Request} (h : request ≠ .nextType) :
    Uniform (answer lib e libc n type request) := by
  cases request with
  | nextType => exact absurd rfl h
  | nextMapSize | nextArraySize => exact (uniform_readVarUint.wrap _).wrap _
  | nextMapKeyUTF8 => exact (uniform_readUtf16.wrap _).wrap _
  | nextStringUTF8 => exact (uniform_nextStringUTF8 type).wrap _
  | skipValue => exact (uniform_skipValue n type).bind fun _ => uniform_pure _

/-- What such a program returns with one length it returns with the other. -/
theorem Uniform.returns {α : Type} {m : BufferM α} (hm : Uniform m) (bs : Bytes)
    (p length length' : Nat) :
    returns m ⟨bs, p, length⟩ = none ∧ returns m ⟨bs, p, length'⟩ = none ∨
      ∃ a q, returns m ⟨bs, p, length⟩ = some (a, ⟨bs, q, length⟩) ∧
        returns m ⟨bs, p, length'⟩ = some (a, ⟨bs, q, length'⟩) := by
  have h := hm bs length length' ⟨p, rfl, rfl⟩
  unfold Effect.returns
  cases h₁ : m ⟨bs, p, length⟩ with
  | ok a s =>
    cases h₂ : m ⟨bs, p, length'⟩ with
    | ok b t =>
      rw [h₁, h₂] at h
      obtain ⟨rfl, q, rfl, rfl⟩ := h
      exact .inr ⟨a, q, rfl, rfl⟩
    | error fault t =>
      rw [h₁, h₂] at h
      exact nomatch h
  | error fault s =>
    cases h₂ : m ⟨bs, p, length'⟩ with
    | ok b t =>
      rw [h₁, h₂] at h
      exact nomatch h
    | error fault' t => exact .inl ⟨rfl, rfl⟩

/-! ## Walks -/

theorem returns_nextType_lt {bs : Bytes} {p length : Nat} (h : p < length) (hp : p < bs.length) :
    returns (nextType lib) ⟨bs, p, length⟩ = some (bs[p], ⟨bs, (p + 1) % 2 ^ lib.bits, length⟩) := by
  have hload : returns (load 0) ⟨bs, p, length⟩ = some (bs[p], ⟨bs, p, length⟩) := by
    rw [returns_eq_some, load]
    simp only [Nat.add_zero, List.getElem?_eq_getElem hp]
  rw [returns_nextType h, readType, returns_bind, hload, Option.bind_some, returns_bind, returns_move]
  rfl

/-- Past the declared length, `nextType` does not move. -/
theorem returns_nextType_ge {bs : Bytes} {p length : Nat} (h : length ≤ p) :
    returns (nextType lib) ⟨bs, p, length⟩ = some (Tag.null, ⟨bs, p, length⟩) := by
  have hrun : nextType lib ⟨bs, p, length⟩ =
      (if p < length then readType lib else pure Tag.null) ⟨bs, p, length⟩ := rfl
  rw [returns, hrun, if_neg (by omega)]
  rfl

theorem succ_mod_ne (p m : Nat) (hm : 1 < m) : (p + 1) % m ≠ p := by
  intro h
  have hlt : p < m := h ▸ Nat.mod_lt _ (by omega)
  rcases Nat.lt_or_ge (p + 1) m with hsucc | hsucc
  · rw [Nat.mod_eq_of_lt hsucc] at h
    omega
  · obtain rfl : m = p + 1 := by omega
    rw [Nat.mod_self] at h
    omega

variable {bs : Bytes} {length length' p q : Nat} {type : Byte} {requests : List Request}

theorem trace_cons_none {request : Request} {buffer : Buffer}
    (h : returns (answer lib e libc n type request) buffer = none) :
    trace lib e libc n (request :: requests) type buffer = [⟨request, buffer.position, none⟩] := by
  rw [trace, h]

theorem trace_cons_some {request : Request} {buffer buffer' : Buffer} {reply : Reply}
    (h : returns (answer lib e libc n type request) buffer = some (reply, buffer')) :
    trace lib e libc n (request :: requests) type buffer =
      ⟨request, buffer.position, some (reply, buffer'.position)⟩ ::
        trace lib e libc n requests (reply.typeOr type) buffer' := by
  rw [trace, h]

theorem returns_answer_nextType {t : Byte} {buffer buffer' : Buffer}
    (h : returns (nextType lib) buffer = some (t, buffer')) :
    returns (answer lib e libc n type .nextType) buffer = some (.type t, buffer') := by
  rw [answer, returns_bind, h]
  rfl

section Agreement

variable (lib e libc n bs length)

/-- From offset `p` on, the parser with the declared length replies as the one with the length
of the document. -/
def Agrees (requests : List Request) (type : Byte) (p : Nat) : Prop :=
  trace lib e libc n requests type ⟨bs, p, length⟩ =
      trace lib e libc n requests type ⟨bs, p, bs.length⟩ ∧
    ∀ x ∈ trace lib e libc n requests type ⟨bs, p, length⟩, Tagged bs x

end Agreement

/-- Below both lengths, the same type is read. -/
theorem agrees_nextType (hp : p < bs.length) (hlength : p < length) :
    Agrees lib e libc n bs length (.nextType :: requests) type p ↔
      Agrees lib e libc n bs length requests bs[p] ((p + 1) % 2 ^ lib.bits) := by
  unfold Agrees
  rw [trace_cons_some (returns_answer_nextType (returns_nextType_lt hp hp)),
    trace_cons_some (returns_answer_nextType (returns_nextType_lt hlength hp)), List.cons.injEq,
    List.forall_mem_cons]
  constructor
  · rintro ⟨⟨-, htrace⟩, -, htagged⟩
    exact ⟨htrace, htagged⟩
  · rintro ⟨htrace, htagged⟩
    exact ⟨⟨rfl, htrace⟩, fun _ => ⟨bs[p], List.getElem?_eq_getElem hp, rfl⟩, htagged⟩

/-- Past one of them, either there is no byte to reply with or one parser moves and the other
does not. -/
theorem not_agrees_nextType (h : ¬ (p < bs.length ∧ p < length)) :
    ¬ Agrees lib e libc n bs length (.nextType :: requests) type p := by
  rintro ⟨htrace, htagged⟩
  by_cases hp : p < bs.length
  · have hlength : length ≤ p := Nat.le_of_not_lt fun hlength => h ⟨hp, hlength⟩
    rw [trace_cons_some (returns_answer_nextType (returns_nextType_lt hp hp)),
      trace_cons_some (returns_answer_nextType (returns_nextType_ge hlength))] at htrace
    injection htrace with hentry _
    injection hentry with _ _ houtcome
    have hposition := congrArg Prod.snd (Option.some.inj houtcome)
    exact succ_mod_ne p _ (Nat.one_lt_two_pow (by cases lib <;> decide)) hposition.symm
  · rw [htrace, trace_cons_some (returns_answer_nextType (returns_nextType_ge (Nat.le_of_not_lt hp))),
      List.forall_mem_cons] at htagged
    obtain ⟨t, ht, -⟩ := htagged.1 rfl
    exact nomatch (List.getElem?_eq_none (Nat.le_of_not_lt hp)).symm.trans ht

/-- **Walks that agree**, by induction on the requests: as long as the parsers stand at the same
position, only a `nextType` past one of the lengths can part them. -/
theorem agrees_iff (requests : List Request) (type : Byte) (p : Nat) :
    Agrees lib e libc n bs length requests type p ↔
      ∀ x ∈ trace lib e libc n requests type ⟨bs, p, bs.length⟩, Inside bs length x := by
  induction requests generalizing type p with
  | nil =>
    constructor
    · intro _ x hx
      exact nomatch hx
    · intro _
      exact ⟨rfl, fun x hx => nomatch hx⟩
  | cons request requests ih =>
    by_cases hrequest : request = .nextType
    · subst hrequest
      by_cases hp : p < bs.length ∧ p < length
      · rw [agrees_nextType hp.1 hp.2, ih,
          trace_cons_some (returns_answer_nextType (returns_nextType_lt hp.1 hp.1)), List.forall_mem_cons]
        exact ⟨fun h => ⟨fun _ => hp, h⟩, fun h => h.2⟩
      · constructor
        · intro h
          exact absurd h (not_agrees_nextType hp)
        · intro h
          rw [trace] at h
          split at h
          · exact absurd (h _ List.mem_cons_self rfl) hp
          · exact absurd (h _ List.mem_cons_self rfl) hp
    · have huniform : Uniform (answer lib e libc n type request) := uniform_answer type hrequest
      unfold Agrees
      obtain ⟨hdeclared, hfull⟩ | ⟨reply, q, hdeclared, hfull⟩ := huniform.returns bs p length bs.length
      · rw [trace_cons_none hdeclared, trace_cons_none hfull, List.forall_mem_singleton,
          List.forall_mem_singleton]
        exact ⟨fun _ h => absurd h hrequest, fun _ => ⟨rfl, fun h => absurd h hrequest⟩⟩
      · rw [trace_cons_some hdeclared, trace_cons_some hfull, List.cons.injEq, List.forall_mem_cons,
          List.forall_mem_cons, ← ih]
        constructor
        · rintro ⟨⟨-, htrace⟩, -, htagged⟩
          exact ⟨fun h => absurd h hrequest, htrace, htagged⟩
        · rintro ⟨-, htrace, htagged⟩
          exact ⟨⟨rfl, htrace⟩, fun h => absurd h hrequest, htagged⟩

/-- **Without a length** a walk reads the same iff `nextType` is called inside the document and
below 1 MB. -/
theorem sameReading_iff :
    SameReading lib e libc n bs type requests ↔
      ∀ x ∈ trace lib e libc n requests type (wsonParserOfLength bs bs.length),
        Inside bs (1024 * 1024) x :=
  agrees_iff requests type 0

/-- A text of 1 MB and an element behind it, where the parser without a length does not move. -/
theorem not_sameReading_text {cs : Bytes} (hcs : cs.length = 1024 * 1024)
    (hbs : bs = 0x5B :: 0x02 :: 0x75 :: 0x80 :: 0x80 :: 0x40 :: (cs ++ [0x69, 0x02])) :
    ¬ SameReading .io e libc 2 bs type
      [.nextType, .nextArraySize, .nextType, .skipValue, .nextType, .skipValue] := by
  intro h
  have hinside := (agrees_iff _ _ _).mp h
  have hlen : bs.length = cs.length + 8 := by
    rw [hbs]
    simp only [List.length_cons, List.length_append, List.length_nil]
  have hdata : bs.length < 2 ^ Library.bits .io := by
    rw [hlen, hcs]
    decide
  have htype₀ : returns (nextType .io) ⟨bs, 0, bs.length⟩ = some (0x5B, ⟨bs, 1, bs.length⟩) := by
    subst hbs
    exact returns_nextType_lt (by omega) (by omega)
  obtain ⟨_, hsize, rfl, -⟩ := consumes_readVarUint hdata (varUInt_encode (n := 2) (by decide))
    ⟨bs, 1, bs.length⟩ 1 (bs.drop 2) ⟨rfl, by omega⟩ (by rw [hbs]; rfl)
  have htype₂ : returns (nextType .io) ⟨bs, 2, bs.length⟩ = some (0x75, ⟨bs, 3, bs.length⟩) := by
    subst hbs
    exact returns_nextType_lt (by omega) (by omega)
  have hheader : VarUInt cs.length [0x80, 0x80, 0x40] := by
    rw [hcs]
    exact varUInt_encode (by decide)
  obtain ⟨_, hskip, rfl, -⟩ := consumes_skipBlock hdata hheader ⟨bs, 3, bs.length⟩ 3 [0x69, 0x02]
    ⟨rfl, by omega⟩ (by rw [hbs]; rfl)
  have hanswer₁ : returns (answer .io e libc 2 0x5B .nextArraySize) ⟨bs, 1, bs.length⟩ =
      some (.size 2, ⟨bs, 2, bs.length⟩) := by
    rw [answer, returns_bind, nextArraySize, returns_bind, hsize]
    rfl
  have hanswer₃ : returns (answer .io e libc 2 0x75 .skipValue) ⟨bs, 3, bs.length⟩ =
      some (.done, ⟨bs, 3 + ([0x80, 0x80, 0x40] ++ cs).length, bs.length⟩) := by
    have hrun : returns (skipValue .io 2 0x75) ⟨bs, 3, bs.length⟩ = _ := hskip
    rw [answer, returns_bind, hrun]
    rfl
  rw [trace_cons_some (returns_answer_nextType htype₀), Reply.typeOr, trace_cons_some hanswer₁,
    trace_cons_some (returns_answer_nextType htype₂), Reply.typeOr, trace_cons_some hanswer₃,
    trace] at hinside
  -- The fifth request is `nextType`, at this position.
  have hlast := fun x hx => hinside x (.tail _ (.tail _ (.tail _ (.tail _ hx))))
  have hfar : ¬ 3 + ([0x80, 0x80, 0x40] ++ cs).length < 1024 * 1024 := by
    simp only [List.length_append, hcs]
    omega
  split at hlast
  · exact hfar (hlast _ List.mem_cons_self rfl).2
  · exact hfar (hlast _ List.mem_cons_self rfl).2

/-- `["aaa...", 1]`, where the text has 1 MB. -/
def longText : Bytes :=
  0x5B :: 0x02 :: 0x75 :: 0x80 :: 0x80 :: 0x40 ::
    (List.replicate (1024 * 1024) 0x61 ++ [0x69, 0x02])

/-- The parser without a length replies that the second element is null, and stays there. -/
theorem not_sameReading_longText :
    ¬ SameReading .io .little .ofIntegers 2 longText Tag.null
      [.nextType, .nextArraySize, .nextType, .skipValue, .nextType, .skipValue] :=
  not_sameReading_text List.length_replicate rfl

/-! ## Walks along a document -/

section Follows

variable (skippable : Doc → Prop)

mutual

/-- The walk takes the value as a whole, or goes through its entries in the same way. -/
def Follows : Doc → List Request → Prop
  | .array ds, requests => requests = [.nextType, .skipValue] ∧ skippable (.array ds) ∨
      requests = [.nextType, .nextStringUTF8] ∨
        ∃ rest, FollowsItems ds rest ∧ requests = .nextType :: .nextArraySize :: rest
  | .map es, requests => requests = [.nextType, .skipValue] ∧ skippable (.map es) ∨
      requests = [.nextType, .nextStringUTF8] ∨
        ∃ rest, FollowsEntries es rest ∧ requests = .nextType :: .nextMapSize :: rest
  | d, requests => requests = [.nextType, .skipValue] ∧ skippable d ∨
      requests = [.nextType, .nextStringUTF8]

def FollowsItems : List Doc → List Request → Prop
  | [], requests => requests = []
  | d :: ds, requests => ∃ first rest, Follows d first ∧ FollowsItems ds rest ∧ requests = first ++ rest

def FollowsEntries : List (Utf16 × Doc) → List Request → Prop
  | [], requests => requests = []
  | (_, d) :: es, requests => ∃ first rest, Follows d first ∧ FollowsEntries es rest ∧
      requests = .nextMapKeyUTF8 :: (first ++ rest)

end

end Follows

section Starts

variable (lib e libc n bs)

/-- Whenever the walk calls `nextType` there is a byte. -/
def StartsInside (requests : List Request) (type : Byte) (p : Nat) : Prop :=
  ∀ x ∈ trace lib e libc n requests type ⟨bs, p, bs.length⟩, x.request = .nextType → x.position < bs.length

end Starts

/-- One request, and what is left of the walk behind it. -/
theorem startsInside_cons {request : Request} (hp : request = .nextType → p < bs.length)
    (h : ∀ reply buffer, returns (answer lib e libc n type request) ⟨bs, p, bs.length⟩ =
      some (reply, buffer) → ∃ q, buffer = ⟨bs, q, bs.length⟩ ∧
        StartsInside lib e libc n bs requests (reply.typeOr type) q) :
    StartsInside lib e libc n bs (request :: requests) type p := by
  unfold StartsInside
  cases hanswer : returns (answer lib e libc n type request) ⟨bs, p, bs.length⟩ with
  | none =>
    rw [trace_cons_none hanswer, List.forall_mem_singleton]
    exact hp
  | some r =>
    obtain ⟨q, hbuffer, hrest⟩ := h r.1 r.2 hanswer
    rw [trace_cons_some (hanswer.trans (show some r = some (r.1, ⟨bs, q, bs.length⟩) by rw [← hbuffer])),
      List.forall_mem_cons]
    exact ⟨hp, hrest⟩

/-- A request behind which the position is known, if it returns. -/
theorem startsInside_answers {request : Request} {α : Type} {m : BufferM α} {f : α → Reply} {o : Option α}
    {xs rest : Bytes} (hrequest : answer lib e libc n type request = (do return f (← m)))
    (hne : request ≠ .nextType) (hm : Answers bs (At bs bs.length) (returns m) xs o)
    (hdrop : bs.drop p = xs ++ rest) (hp : p ≤ bs.length)
    (hrest : ∀ type, StartsInside lib e libc n bs requests type (p + xs.length)) :
    StartsInside lib e libc n bs (request :: requests) type p := by
  refine startsInside_cons (fun h => absurd h hne) fun reply buffer h => ?_
  rw [hrequest, returns_bind] at h
  cases o with
  | none =>
    rw [hm ⟨bs, p, bs.length⟩ p rest ⟨rfl, hp⟩ hdrop] at h
    exact nomatch h
  | some a =>
    obtain ⟨_, hrun, rfl, -⟩ := hm ⟨bs, p, bs.length⟩ p rest ⟨rfl, hp⟩ hdrop
    rw [hrun] at h
    obtain rfl : _ = buffer := congrArg Prod.snd (Option.some.inj h)
    exact ⟨_, rfl, hrest _⟩

/-- A value that is taken as a whole. -/
theorem startsInside_value {d : Doc} {b rest : Bytes} {request : Request}
    {α : Type} {m : Byte → BufferM α} {f : α → Reply} {o : Option α} (hd : d.Encodes e b)
    (hrequest : ∀ type, answer lib e libc n type request = (do return f (← m type)))
    (hne : request ≠ .nextType)
    (hm : Answers bs (At bs bs.length) (returns (do m (← nextType lib))) b o)
    (hdrop : bs.drop p = b ++ rest) (hp : p ≤ bs.length)
    (hrest : ∀ type, StartsInside lib e libc n bs requests type (p + b.length)) :
    StartsInside lib e libc n bs (.nextType :: request :: requests) type p := by
  have hpos := hd.length_pos
  have hend := end_le_length hdrop hp
  have hlt : p < bs.length := by omega
  have htype : returns (nextType lib) _ = _ := returns_nextType_lt hlt hlt
  refine startsInside_cons (fun _ => by omega) fun reply buffer h => ?_
  rw [returns_answer_nextType htype] at h
  obtain ⟨rfl, rfl⟩ := Prod.mk.inj (Option.some.inj h)
  refine ⟨_, rfl, startsInside_cons (fun h => absurd h hne) fun reply buffer h => ?_⟩
  rw [hrequest, returns_bind] at h
  cases o with
  | none =>
    have hnone := hm ⟨bs, p, bs.length⟩ p rest ⟨rfl, hp⟩ hdrop
    rw [returns_bind, htype] at hnone
    have hnone : returns (m bs[p]) ⟨bs, (p + 1) % 2 ^ lib.bits, bs.length⟩ = none := hnone
    rw [Reply.typeOr, hnone] at h
    exact nomatch h
  | some a =>
    obtain ⟨_, hrun, rfl, -⟩ := hm ⟨bs, p, bs.length⟩ p rest ⟨rfl, hp⟩ hdrop
    rw [returns_bind, htype] at hrun
    have hrun : returns (m bs[p]) ⟨bs, (p + 1) % 2 ^ lib.bits, bs.length⟩ = _ := hrun
    rw [Reply.typeOr, hrun] at h
    obtain rfl : _ = buffer := congrArg Prod.snd (Option.some.inj h)
    exact ⟨_, rfl, hrest _⟩

variable {d : Doc}

theorem startsInside_skipValue (hdata : bs.length < 2 ^ lib.bits) {b rest : Bytes} (hd : d.Encodes e b)
    (hskips : d.AllLeaves (Skips lib)) (hn : d.height < n) (hlen : d.Within (2 ^ 31))
    (hdrop : bs.drop p = b ++ rest) (hp : p ≤ bs.length)
    (hrest : ∀ type, StartsInside lib e libc n bs requests type (p + b.length)) :
    StartsInside lib e libc n bs (.nextType :: .skipValue :: requests) type p :=
  startsInside_value hd (f := fun _ => .done) (fun _ => rfl) nofun
    (answers_skipValue hdata (Nat.le_refl _) hd hskips hn hlen) hdrop hp hrest

theorem startsInside_nextStringUTF8 (hdata : bs.length < 2 ^ lib.bits) {b rest : Bytes}
    (hd : d.Encodes e b) (hn : d.height < n) (hlen : d.Within (2 ^ 31))
    (hdrop : bs.drop p = b ++ rest) (hp : p ≤ bs.length)
    (hrest : ∀ type, StartsInside lib e libc n bs requests type (p + b.length)) :
    StartsInside lib e libc n bs (.nextType :: .nextStringUTF8 :: requests) type p :=
  startsInside_value hd (fun _ => rfl) nofun
    (answers_nextStringUTF8 hdata (Nat.le_refl _) hd hn hlen) hdrop hp hrest

/-- The size of a container, read behind its type. -/
theorem startsInside_size (hdata : bs.length < 2 ^ lib.bits) {request : Request} {t : Byte} {k : Nat}
    {h rest : Bytes} (hk : VarUInt k h)
    (hrequest : ∀ type, answer lib e libc n type request =
      (do return .size (← (do return (← readVarUint lib).toInt))))
    (hne : request ≠ .nextType) (hdrop : bs.drop p = t :: (h ++ rest)) (hp : p ≤ bs.length)
    (hrest : ∀ type, StartsInside lib e libc n bs requests type (p + 1 + h.length)) :
    StartsInside lib e libc n bs (.nextType :: request :: requests) type p := by
  have hend := end_le_length (show bs.drop p = [t] ++ (h ++ rest) from hdrop) hp
  rw [List.length_singleton] at hend
  refine startsInside_cons (fun _ => hend) fun reply buffer hrun => ?_
  rw [returns_answer_nextType (returns_nextType_lt hend hend)] at hrun
  obtain ⟨rfl, rfl⟩ := Prod.mk.inj (Option.some.inj hrun)
  rw [Nat.mod_eq_of_lt (by omega)]
  refine ⟨_, rfl, ?_⟩
  exact startsInside_answers (o := some (BitVec.ofNat 32 k).toInt) (hrequest _) hne
    (consumes_wrap (f := BitVec.toInt) (consumes_readVarUint hdata hk))
    (drop_append_of_drop (s := [t]) hdrop) hend hrest

mutual

/-- **Along a document** `nextType` is called where a value stands, as long as no float is skipped
that the library leaves there. -/
theorem startsInside_of_follows (hdata : bs.length < 2 ^ lib.bits) : ∀ {d : Doc} {b rest : Bytes}
    {first requests : List Request} {type : Byte} {p : Nat}, d.Encodes e b →
      Follows (fun d => d.AllLeaves (Skips lib)) d first → d.height < n → d.Within (2 ^ 31) →
        bs.drop p = b ++ rest → p ≤ bs.length →
          (∀ type, StartsInside lib e libc n bs requests type (p + b.length)) →
            StartsInside lib e libc n bs (first ++ requests) type p
  | .array ds, _, rest, _, _, _, p, hd, hfollows, hn, hlen, hdrop, hp, hrest => by
    obtain ⟨rfl, hskips⟩ | rfl | ⟨items, hitems, rfl⟩ := hfollows
    · exact startsInside_skipValue hdata hd hskips hn hlen hdrop hp hrest
    · exact startsInside_nextStringUTF8 hdata hd hn hlen hdrop hp hrest
    · obtain ⟨h, body, hk, hds, rfl⟩ := hd
      have hdrop : bs.drop p = Tag.array :: (h ++ (body ++ rest)) := by
        rw [hdrop, ← List.append_assoc]
        rfl
      have hdrop₁ := drop_append_of_drop (s := [Tag.array]) hdrop
      have hp₁ := end_le_length (show bs.drop p = [Tag.array] ++ _ from hdrop) hp
      refine startsInside_size hdata hk (fun _ => rfl) nofun hdrop hp fun type => ?_
      refine startsInside_of_followsItems hdata hds hitems (Nat.lt_of_succ_lt hn) hlen.2
        (drop_append_of_drop hdrop₁) (end_le_length hdrop₁ hp₁) fun type => ?_
      have hrest := hrest type
      rw [List.length_cons, List.length_append] at hrest
      rwa [show p + 1 + h.length + body.length = p + (h.length + body.length + 1) by omega]
  | .map es, _, rest, _, _, _, p, hd, hfollows, hn, hlen, hdrop, hp, hrest => by
    obtain ⟨rfl, hskips⟩ | rfl | ⟨items, hitems, rfl⟩ := hfollows
    · exact startsInside_skipValue hdata hd hskips hn hlen hdrop hp hrest
    · exact startsInside_nextStringUTF8 hdata hd hn hlen hdrop hp hrest
    · obtain ⟨h, body, hk, hes, rfl⟩ := hd
      have hdrop : bs.drop p = Tag.map :: (h ++ (body ++ rest)) := by
        rw [hdrop, ← List.append_assoc]
        rfl
      have hdrop₁ := drop_append_of_drop (s := [Tag.map]) hdrop
      have hp₁ := end_le_length (show bs.drop p = [Tag.map] ++ _ from hdrop) hp
      refine startsInside_size hdata hk (fun _ => rfl) nofun hdrop hp fun type => ?_
      refine startsInside_of_followsEntries hdata hes hitems (Nat.lt_of_succ_lt hn) hlen.2
        (drop_append_of_drop hdrop₁) (end_le_length hdrop₁ hp₁) fun type => ?_
      have hrest := hrest type
      rw [List.length_cons, List.length_append] at hrest
      rwa [show p + 1 + h.length + body.length = p + (h.length + body.length + 1) by omega]
  | .null, _, _, _, _, _, _, hd, hfollows, hn, hlen, hdrop, hp, hrest
  | .boolean _, _, _, _, _, _, _, hd, hfollows, hn, hlen, hdrop, hp, hrest
  | .int _, _, _, _, _, _, _, hd, hfollows, hn, hlen, hdrop, hp, hrest
  | .long _, _, _, _, _, _, _, hd, hfollows, hn, hlen, hdrop, hp, hrest
  | .float _, _, _, _, _, _, _, hd, hfollows, hn, hlen, hdrop, hp, hrest
  | .double _, _, _, _, _, _, _, hd, hfollows, hn, hlen, hdrop, hp, hrest
  | .text _ _, _, _, _, _, _, _, hd, hfollows, hn, hlen, hdrop, hp, hrest
  | .uint8String _, _, _, _, _, _, _, hd, hfollows, hn, hlen, hdrop, hp, hrest => by
    obtain ⟨rfl, hskips⟩ | rfl := hfollows
    · exact startsInside_skipValue hdata hd hskips hn hlen hdrop hp hrest
    · exact startsInside_nextStringUTF8 hdata hd hn hlen hdrop hp hrest

theorem startsInside_of_followsItems (hdata : bs.length < 2 ^ lib.bits) : ∀ {ds : List Doc}
    {b rest : Bytes} {items requests : List Request} {type : Byte} {p : Nat}, Doc.EncodesItems e ds b →
      FollowsItems (fun d => d.AllLeaves (Skips lib)) ds items → Doc.heightItems ds < n →
        Doc.WithinItems (2 ^ 31) ds → bs.drop p = b ++ rest → p ≤ bs.length →
          (∀ type, StartsInside lib e libc n bs requests type (p + b.length)) →
            StartsInside lib e libc n bs (items ++ requests) type p
  | [], _, _, _, _, type, _, hd, hfollows, _, _, _, _, hrest => by
    obtain rfl := hd
    obtain rfl := hfollows
    exact hrest type
  | d :: ds, _, rest, _, _, _, _, ⟨b₁, b₂, h₁, h₂, hd⟩, ⟨first, items, hfirst, hitems, hall⟩, hn, hlen,
    hdrop, hp, hrest => by
    subst hd hall
    rw [Doc.heightItems, Nat.max_lt] at hn
    rw [List.append_assoc] at hdrop ⊢
    refine startsInside_of_follows hdata h₁ hfirst hn.1 hlen.1 hdrop hp fun type => ?_
    refine startsInside_of_followsItems hdata h₂ hitems hn.2 hlen.2 (drop_append_of_drop hdrop)
      (end_le_length hdrop hp) fun type => ?_
    have hrest := hrest type
    rwa [List.length_append, ← Nat.add_assoc] at hrest

theorem startsInside_of_followsEntries (hdata : bs.length < 2 ^ lib.bits) : ∀ {es : List (Utf16 × Doc)}
    {b rest : Bytes} {items requests : List Request} {type : Byte} {p : Nat}, Doc.EncodesEntries e es b →
      FollowsEntries (fun d => d.AllLeaves (Skips lib)) es items → Doc.heightEntries es < n →
        Doc.WithinEntries (2 ^ 31) es → bs.drop p = b ++ rest → p ≤ bs.length →
          (∀ type, StartsInside lib e libc n bs requests type (p + b.length)) →
            StartsInside lib e libc n bs (items ++ requests) type p
  | [], _, _, _, _, type, _, hd, hfollows, _, _, _, _, hrest => by
    obtain rfl := hd
    obtain rfl := hfollows
    exact hrest type
  | (k, d) :: es, _, rest, _, _, _, _, ⟨h, b₁, b₂, hk, h₁, h₂, hd⟩,
    ⟨first, items, hfirst, hitems, hall⟩, hn, hlen, hdrop, hp, hrest => by
    subst hd hall
    rw [Doc.heightEntries, Nat.max_lt] at hn
    rw [List.append_assoc, List.append_assoc] at hdrop
    have hp₁ := end_le_length hdrop hp
    have hdrop₁ := drop_append_of_drop hdrop
    refine startsInside_answers rfl nofun (answers_wrap (answers_readUtf16 hdata hk)) hdrop hp fun type => ?_
    show StartsInside lib e libc n bs (first ++ items ++ _) type _
    rw [List.append_assoc]
    refine startsInside_of_follows hdata h₁ hfirst hn.1 hlen.2.1 hdrop₁ hp₁ fun type => ?_
    refine startsInside_of_followsEntries hdata h₂ hitems hn.2 hlen.2.2 (drop_append_of_drop hdrop₁)
      (end_le_length hdrop₁ hp₁) fun type => ?_
    have hrest := hrest type
    rwa [List.length_append, List.length_append, ← Nat.add_assoc, ← Nat.add_assoc] at hrest

end

/-- Without a length, a walk along a document reads the same iff every value it comes to stands
below 1 MB. -/
theorem sameReading_follows_iff (hdata : bs.length < 2 ^ 31) (hd : d.Encodes e bs)
    (hfollows : Follows (fun d => d.AllLeaves (Skips lib)) d requests) (hn : d.height < n) :
    SameReading lib e libc n bs type requests ↔
      ∀ x ∈ trace lib e libc n requests type (wsonParserOfLength bs bs.length),
        x.request = .nextType → x.position < 1024 * 1024 := by
  have hbits : bs.length < 2 ^ lib.bits := by
    have := two_pow_le_bits lib
    omega
  have hinside : StartsInside lib e libc n bs (requests ++ []) type 0 :=
    startsInside_of_follows hbits hd hfollows hn (hd.within hdata) (List.append_nil bs).symm
      (Nat.zero_le _) fun _ _ hx => nomatch hx
  rw [List.append_nil] at hinside
  refine (agrees_iff requests type 0).trans ?_
  constructor
  · intro h x hx hrequest
    exact (h x hx hrequest).2
  · intro h x hx hrequest
    exact ⟨hinside x hx hrequest, h x hx hrequest⟩

end Parser

end Wson.Native
