import Wson.Native.Accessors

/-!
# Walking over the entries of a document

The loop of the quick start: the size of a map or an array is read, and then entry by
entry a key, a type and the value, with whichever accessor the caller likes.

`visitsEntries_iff`: the walk visits the entries of the document and returns what they
store iff every key can be decoded, `nextStringUTF8` is only called where it can decode
the value, and `nextNumber` is not called for a text that is not empty.
-/

namespace Wson.Native

open Effect Text Wire

inductive Accessor where
  | nextStringUTF8
  | nextNumber
  | nextBool
  | skipValue
  deriving DecidableEq, Repr

/-- What an accessor returns. -/
inductive Accessed where
  | text (utf8 : Bytes)
  | number (x : BitVec 64)
  | bool (b : Bool)
  | skipped
  deriving DecidableEq, Repr

/-- What the loop has seen of an entry, and where the parser stood before it. -/
structure Visit where
  position : Nat
  key : Option Bytes
  type : Byte
  value : Accessed
  deriving DecidableEq, Repr

namespace Parser

open Buffer

section Walk

variable (e : Endian) (libc : Libc) (n : Nat)

def access (type : Byte) : Accessor → BufferM Accessed
  | .nextStringUTF8 => do return .text (← nextStringUTF8 .c e libc n type)
  | .nextNumber => do return .number (← nextNumber .c e libc n type)
  | .nextBool => do return .bool (← nextBool .c n type)
  | .skipValue => do
    skipValue .c n type
    return .skipped

/-- One turn of the loop over an array. -/
def visitItem (accessor : Accessor) : BufferM Visit := do
  let position ← getState
  let type ← nextType .c
  let value ← access e libc n type accessor
  return ⟨position, none, type, value⟩

/-- One turn of the loop over a map. -/
def visitEntry (accessor : Accessor) : BufferM Visit := do
  let position ← getState
  let key ← nextMapKeyUTF8 .c e
  let type ← nextType .c
  let value ← access e libc n type accessor
  return ⟨position, some key, type, value⟩

/-- The loop; `choice i` is the accessor for entry `i`. -/
def visitAll (visit : Accessor → BufferM Visit) : (Nat → Accessor) → Nat → BufferM (List Visit)
  | _, 0 => pure []
  | choice, size + 1 => do
    let v ← visit (choice 0)
    let vs ← visitAll visit (fun i => choice (i + 1)) size
    return v :: vs

def walk (choice : Nat → Accessor) : BufferM (List Visit) := do
  let type ← nextType .c
  if type = Tag.map then
    let size ← nextMapSize .c
    visitAll (visitEntry e libc n) choice size.toNat
  else if type = Tag.array then
    let size ← nextArraySize .c
    visitAll (visitItem e libc n) choice size.toNat
  else return []

end Walk

/-! ## What the walk should visit -/

/-- The values of a map with their keys, or those of an array. -/
def entriesOf : Doc → List (Option Utf16 × Doc)
  | .map es => es.map fun x => (some x.1, x.2)
  | .array ds => ds.map fun d => (none, d)
  | _ => []

section Spec

variable (e : Endian) (libc : Libc) (bs : Bytes)

/-- The bytes of one entry. -/
def EncodesEntry : Option Utf16 × Doc → Bytes → Prop
  | (some k, d), b => Doc.EncodesEntries e [(k, d)] b
  | (none, d), b => Doc.EncodesItems e [d] b

/-- The value that is returned is the one that is stored, as far as it has one of this sort: the
text of a text, and the number of a text or of an integer. -/
def Stored : Doc → Accessor → Accessed → Prop
  | .text _ s, .nextStringUTF8, a => a = .text (utf8 s)
  | .uint8String cs, .nextStringUTF8, a => a = .text cs
  | .text _ s, .nextNumber, a => a = .number (strtodOf libc (utf8 s))
  | .uint8String cs, .nextNumber, a => a = .number (strtodOf libc cs)
  | .int x, .nextNumber, a => a = .number (Binary64.ofInt x.toInt)
  | .long x, .nextNumber, a => a = .number (Binary64.ofInt x.toInt)
  | _, _, _ => True

/-- The visits of the entries that stand from `p` up to `q`, in order. -/
def Visited : (Nat → Accessor) → Nat → List (Option Utf16 × Doc) → List Visit → Nat → Prop
  | _, p, [], vs, q => vs = [] ∧ q = p
  | choice, p, x :: xs, vs, q => ∃ v vs' b rest, vs = v :: vs' ∧ EncodesEntry e x b ∧
      bs.drop p = b ++ rest ∧ v.position = p ∧ v.key = x.1.map utf8 ∧ v.type = x.2.kind.tag ∧
        Stored libc x.2 (choice 0) v.value ∧
          Visited (fun i => choice (i + 1)) (p + b.length) xs vs' q

/-- The walk visits the entries of the document and ends where the document does. -/
def VisitsEntries (n : Nat) (d : Doc) (choice : Nat → Accessor) : Prop :=
  ∃ vs p, returns (walk e libc n choice) ⟨bs, 0, bs.length⟩ = some (vs, ⟨bs, bs.length, bs.length⟩) ∧
    Visited e libc bs choice p (entriesOf d) vs bs.length

end Spec

/-- The accessor ends behind the value. -/
def Aligned (d : Doc) : Accessor → Prop
  | .nextStringUTF8 => DecodableDoc d
  | .nextNumber => textSize d = 0
  | .nextBool | .skipValue => True

/-- So does the turn of the loop for the entry. -/
def AlignedEntry (x : Option Utf16 × Doc) (accessor : Accessor) : Prop :=
  (∀ k ∈ x.1, Decodable k) ∧ Aligned x.2 accessor

variable {e : Endian} {libc : Libc} {n : Nat} {d : Doc} {bs data : Bytes} {length : Nat}

/-! ## One value -/

theorem allLeaves_skips : ∀ d : Doc, d.AllLeaves (Skips .c) := by
  intro d
  refine Doc.allLeaves_of_values fun u _ _ h => ?_
  exact nomatch h

theorem stringOf_of_decodable (hdec : DecodableDoc d) (hlen : d.Within (2 ^ 31)) :
    ∃ text, stringOf libc d = some text ∧ Stored libc d .nextStringUTF8 (.text text) := by
  cases d with
  | text kind s =>
    refine ⟨utf8 s, ?_, rfl⟩
    rw [stringOf, if_pos (show 2 * s.length < 2 ^ 30 from hdec), Option.map_some,
      utf16ConvertToUtf8Cstr_eq]
  | uint8String cs => exact ⟨cs, if_pos hlen, rfl⟩
  | null => exact ⟨[], rfl, trivial⟩
  | _ => exact ⟨_, rendered_of_decodable hdec hlen, trivial⟩

theorem stringOf_eq_none (hdec : ¬ DecodableDoc d) : stringOf libc d = none := by
  cases h : stringOf libc d with
  | none => rfl
  | some text =>
    refine absurd ?_ hdec
    cases d with
    | text kind s =>
      obtain ⟨_, h, -⟩ := Option.map_eq_some_iff.mp h
      exact (Option.ite_none_right_eq_some.mp h).1
    | null => trivial
    | _ =>
      have hrendered : rendered libc _ = some text := h
      exact decodable_of_rendered hrendered

theorem stored_numberOf (hd : textSize d = 0) : Stored libc d .nextNumber (.number (numberOf libc d)) := by
  cases d with
  | text kind s =>
    obtain rfl : s = [] := List.length_eq_zero_iff.mp (by simpa [textSize] using hd)
    rfl
  | uint8String cs =>
    obtain rfl : cs = [] := List.length_eq_zero_iff.mp hd
    rfl
  | int x | long x => rw [numberOf, Stored]
  | _ => trivial

/-- The type of the value that stands there. -/
theorem returns_nextType_tag (hdata : data.length < 2 ^ 32) (hlength : data.length ≤ length)
    (hd : d.Encodes e bs) {p : Nat} {rest : Bytes} (hdrop : data.drop p = bs ++ rest)
    (hp : p ≤ data.length) :
    returns (nextType .c) ⟨data, p, length⟩ = some (d.kind.tag, ⟨data, p + 1, length⟩) := by
  obtain ⟨tl, rfl⟩ := hd.head
  have hend := end_le_length hdrop hp
  rw [List.length_cons] at hend
  obtain ⟨_, htype, rfl, -⟩ := consumes_readType (show _ < 2 ^ Library.bits .c from hdata) d.kind.tag
    ⟨data, p, length⟩ p (tl ++ rest) ⟨rfl, hp⟩ hdrop
  rw [returns_nextType (by show p < length; omega)]
  exact htype

theorem returns_access (hdata : data.length < 2 ^ 31) (hlength : data.length ≤ length)
    (hd : d.Encodes e bs) (hn : d.height < n) (hlen : d.Within (2 ^ 31)) {p : Nat} {rest : Bytes}
    (hdrop : data.drop p = bs ++ rest) (hp : p ≤ data.length) {a : Accessor} (ha : Aligned d a) :
    ∃ value, Stored libc d a value ∧ returns (access e libc n d.kind.tag a) ⟨data, p + 1, length⟩ =
      some (value, ⟨data, p + bs.length, length⟩) := by
  have hbits : data.length < 2 ^ Library.bits .c := Nat.lt_trans hdata (by decide)
  have htype := returns_nextType_tag hbits hlength hd hdrop hp
  -- What is known of the accessor behind `nextType`, and a wrapper around its result.
  have hanswer {α : Type} {m : Byte → BufferM α} {x : α} {f : α → Accessed}
      (hm : Answers data (At data length) (returns (do m (← nextType .c))) bs (some x)) :
      returns (do return f (← m d.kind.tag)) ⟨data, p + 1, length⟩ =
        some (f x, ⟨data, p + bs.length, length⟩) := by
    obtain ⟨_, hrun, rfl, -⟩ := hm ⟨data, p, length⟩ p rest ⟨rfl, hp⟩ hdrop
    rw [returns_bind, htype, Option.bind_some] at hrun
    rw [returns_bind, hrun]
    rfl
  cases a with
  | nextStringUTF8 =>
    obtain ⟨text, htext, hstored⟩ := stringOf_of_decodable ha hlen
    have hread : Answers data (At data length)
        (returns (do nextStringUTF8 .c e libc n (← nextType .c))) bs (stringOf libc d) :=
      answers_nextStringUTF8 hbits hlength hd hn hlen
    rw [htext] at hread
    exact ⟨_, hstored, hanswer hread⟩
  | nextNumber =>
    exact ⟨_, stored_numberOf ha,
      hanswer (answers_nextNumber hbits hlength hd ha (allLeaves_skips d) hn hlen)⟩
  | nextBool =>
    refine ⟨_, ?_, hanswer (answers_nextBool hbits hlength hd (allLeaves_skips d) hn hlen)⟩
    cases d <;> trivial
  | skipValue =>
    refine ⟨.skipped, ?_, hanswer (f := fun _ => .skipped)
      (answers_skipValue hbits hlength hd (allLeaves_skips d) hn hlen)⟩
    cases d <;> trivial

/-- An accessor that is not aligned ends somewhere else, if at all. -/
theorem not_returns_access (hdata : data.length < 2 ^ 31) (hlength : data.length ≤ length)
    (hd : d.Encodes e bs) (hn : d.height < n) (hlen : d.Within (2 ^ 31)) {p : Nat} {rest : Bytes}
    (hdrop : data.drop p = bs ++ rest) (hp : p ≤ data.length) {a : Accessor} (ha : ¬ Aligned d a)
    {value : Accessed} {buffer : Buffer}
    (h : returns (access e libc n d.kind.tag a) ⟨data, p + 1, length⟩ = some (value, buffer)) :
    buffer.position ≠ p + bs.length := by
  have hbits : data.length < 2 ^ Library.bits .c := Nat.lt_trans hdata (by decide)
  have htype := returns_nextType_tag hbits hlength hd hdrop hp
  cases a with
  | nextStringUTF8 =>
    have hread : Answers data (At data length)
        (returns (do nextStringUTF8 .c e libc n (← nextType .c))) bs (stringOf libc d) :=
      answers_nextStringUTF8 hbits hlength hd hn hlen
    rw [stringOf_eq_none ha] at hread
    have hnone := hread ⟨data, p, length⟩ p rest ⟨rfl, hp⟩ hdrop
    rw [returns_bind, htype, Option.bind_some] at hnone
    rw [access, returns_bind, hnone] at h
    exact nomatch h
  | nextNumber =>
    rw [access, returns_bind] at h
    obtain ⟨⟨x, buffer'⟩, hrun, h⟩ := Option.bind_eq_some_iff.mp h
    obtain rfl : buffer' = buffer := congrArg Prod.snd (Option.some.inj h)
    have hnumber := returns_nextNumber_text hdata hlength hd ha hdrop hp
      (by rw [returns_bind, htype]; exact hrun)
    rw [hnumber]
    show p + bs.length + textSize d ≠ p + bs.length
    have hne : textSize d ≠ 0 := ha
    omega
  | nextBool | skipValue => exact absurd trivial ha

/-! ## One turn of the loop -/

/-- What one turn of the loop does for the entry `x`. -/
structure Turn (e : Endian) (libc : Libc) (data : Bytes) (length : Nat)
    (visit : Accessor → BufferM Visit) (x : Option Utf16 × Doc) : Prop where
  visited : ∀ {a p b rest}, EncodesEntry e x b → data.drop p = b ++ rest → p ≤ data.length →
    AlignedEntry x a → ∃ value, Stored libc x.2 a value ∧
      returns (visit a) ⟨data, p, length⟩ =
        some (⟨p, x.1.map utf8, x.2.kind.tag, value⟩, ⟨data, p + b.length, length⟩)
  aligned : ∀ {a p b rest v buffer}, EncodesEntry e x b → data.drop p = b ++ rest → p ≤ data.length →
    returns (visit a) ⟨data, p, length⟩ = some (v, buffer) → buffer.position = p + b.length →
      AlignedEntry x a

theorem turn_visitItem (hdata : data.length < 2 ^ 31) (hlength : data.length ≤ length)
    (hn : d.height < n) (hlen : d.Within (2 ^ 31)) :
    Turn e libc data length (visitItem e libc n) (none, d) := by
  have hbits : data.length < 2 ^ Library.bits .c := Nat.lt_trans hdata (by decide)
  have hrun {a : Accessor} {p : Nat} {b rest : Bytes} (hb : EncodesEntry e (none, d) b)
      (hdrop : data.drop p = b ++ rest) (hp : p ≤ data.length) :
      d.Encodes e b ∧ returns (visitItem e libc n a) ⟨data, p, length⟩ =
        (returns (access e libc n d.kind.tag a) ⟨data, p + 1, length⟩).map
          fun r => (⟨p, none, d.kind.tag, r.1⟩, r.2) := by
    obtain ⟨b₁, b₂, hb₁, rfl, rfl⟩ := hb
    rw [List.append_nil] at hdrop ⊢
    have hget : returns getState ⟨data, p, length⟩ = some (p, ⟨data, p, length⟩) := rfl
    refine ⟨hb₁, ?_⟩
    rw [visitItem, returns_bind, hget, Option.bind_some, returns_bind,
      returns_nextType_tag hbits hlength hb₁ hdrop hp, Option.bind_some, returns_bind]
    cases returns (access e libc n d.kind.tag a) ⟨data, p + 1, length⟩ <;> rfl
  constructor
  · intro a p b rest hb hdrop hp ha
    obtain ⟨hb, hrun⟩ := hrun hb hdrop hp
    obtain ⟨value, hstored, hvalue⟩ := returns_access hdata hlength hb hn hlen hdrop hp ha.2
    refine ⟨value, hstored, ?_⟩
    rw [hrun, hvalue]
    rfl
  · intro a p b rest v buffer hb hdrop hp hvisit hposition
    obtain ⟨hb, hrun⟩ := hrun hb hdrop hp
    refine ⟨nofun, ?_⟩
    rw [hrun] at hvisit
    obtain ⟨⟨value, buffer'⟩, hvalue, hv⟩ := Option.map_eq_some_iff.mp hvisit
    obtain rfl : buffer' = buffer := congrArg Prod.snd hv
    by_contra ha
    exact not_returns_access hdata hlength hb hn hlen hdrop hp ha hvalue hposition

theorem turn_visitEntry (hdata : data.length < 2 ^ 31) (hlength : data.length ≤ length)
    {k : Utf16} (hn : d.height < n) (hlen : d.Within (2 ^ 31)) :
    Turn e libc data length (visitEntry e libc n) (some k, d) := by
  have hbits : data.length < 2 ^ Library.bits .c := Nat.lt_trans hdata (by decide)
  have hkey {h : Bytes} (hk : VarUInt (2 * k.length) h) : Answers data (At data length)
      (returns (nextMapKeyUTF8 .c e)) (h ++ units e k) _ := answers_wrap (answers_readUtf16 hbits hk)
  have hget {p : Nat} : returns getState ⟨data, p, length⟩ = some (p, ⟨data, p, length⟩) := rfl
  -- Where the key can be decoded, the value is read behind it.
  have hrun {a : Accessor} {p : Nat} {h b rest : Bytes} (hk : VarUInt (2 * k.length) h)
      (hdec : Decodable k) (hb : d.Encodes e b) (hdrop : data.drop p = h ++ units e k ++ (b ++ rest))
      (hp : p ≤ data.length) :
      returns (visitEntry e libc n a) ⟨data, p, length⟩ =
        (returns (access e libc n d.kind.tag a)
          ⟨data, p + (h ++ units e k).length + 1, length⟩).map
          fun r => (⟨p, some (utf8 k), d.kind.tag, r.1⟩, r.2) := by
    have hread := hkey hk
    rw [if_pos (show 2 * k.length < 2 ^ 30 from hdec), Option.map_some, utf16ConvertToUtf8Cstr_eq] at hread
    obtain ⟨_, hread, rfl, hp'⟩ := hread ⟨data, p, length⟩ p _ ⟨rfl, hp⟩ hdrop
    rw [visitEntry, returns_bind, hget, Option.bind_some, returns_bind, hread, Option.bind_some, returns_bind,
      returns_nextType_tag hbits hlength hb (drop_append_of_drop hdrop) hp', Option.bind_some, returns_bind]
    cases returns (access e libc n d.kind.tag a) ⟨data, p + (h ++ units e k).length + 1, length⟩ <;> rfl
  constructor
  · rintro a p _ rest ⟨h, b, b₂, hk, hb, rfl, rfl⟩ hdrop hp ha
    rw [List.append_nil] at hdrop ⊢
    rw [List.append_assoc] at hdrop
    have hp' := end_le_length hdrop hp
    obtain ⟨value, hstored, hvalue⟩ :=
      returns_access hdata hlength hb hn hlen (drop_append_of_drop hdrop) hp' ha.2
    refine ⟨value, hstored, ?_⟩
    rw [hrun hk (ha.1 k rfl) hb hdrop hp, hvalue, Option.map_some, @List.length_append _ (h ++ _),
      Nat.add_assoc]
    rfl
  · rintro a p _ rest v buffer ⟨h, b, b₂, hk, hb, rfl, rfl⟩ hdrop hp hvisit hposition
    rw [List.append_nil] at hdrop hposition
    rw [List.append_assoc] at hdrop
    have hp' := end_le_length hdrop hp
    have hdec : Decodable k := by
      by_contra hdec
      have hread := hkey hk
      rw [if_neg (show ¬ 2 * k.length < 2 ^ 30 from hdec)] at hread
      rw [visitEntry, returns_bind, hget, Option.bind_some, returns_bind,
        hread ⟨data, p, length⟩ p _ ⟨rfl, hp⟩ hdrop] at hvisit
      exact nomatch hvisit
    refine ⟨fun k' hk' => Option.some.inj hk' ▸ hdec, ?_⟩
    rw [hrun hk hdec hb hdrop hp] at hvisit
    obtain ⟨⟨value, buffer'⟩, hvalue, hv⟩ := Option.map_eq_some_iff.mp hvisit
    obtain rfl : buffer' = buffer := congrArg Prod.snd hv
    by_contra ha
    refine not_returns_access hdata hlength hb hn hlen (drop_append_of_drop hdrop) hp' ha hvalue ?_
    rw [hposition, @List.length_append _ (h ++ _), Nat.add_assoc]

/-! ## The loop -/

/-- An entry stands at a place in one way. -/
theorem EncodesEntry.inj {x : Option Utf16 × Doc} {b b' r r' : Bytes} (h : EncodesEntry e x b)
    (h' : EncodesEntry e x b') (heq : b ++ r = b' ++ r') : b = b' := by
  match x, h, h' with
  | (none, d), h, h' => exact (Doc.encodesItems_append_inj h h' rfl heq).2.1
  | (some k, d), h, h' => exact (Doc.encodesEntries_append_inj h h' rfl heq).2.1

/-- The entries stand one behind the other. -/
def EncodesAll (e : Endian) : List (Option Utf16 × Doc) → Bytes → Prop
  | [], b => b = []
  | x :: xs, b => ∃ b₁ b₂, EncodesEntry e x b₁ ∧ EncodesAll e xs b₂ ∧ b = b₁ ++ b₂

/-- The accessors that are chosen are aligned. -/
def AlignedAll : (Nat → Accessor) → List (Option Utf16 × Doc) → Prop
  | _, [] => True
  | choice, x :: xs => AlignedEntry x (choice 0) ∧ AlignedAll (fun i => choice (i + 1)) xs

/-- The first visit is where the loop starts. -/
theorem position_of_visited {visit : Accessor → BufferM Visit}
    (hstart : ∀ a buffer v buffer', returns (visit a) buffer = some (v, buffer') →
      v.position = buffer.position)
    {xs : List (Option Utf16 × Doc)} {choice : Nat → Accessor} {p q : Nat} {vs : List Visit}
    {buffer buffer' : Buffer} (h : returns (visitAll visit choice xs.length) buffer = some (vs, buffer'))
    (hq : buffer'.position = q) (hvisited : Visited e libc data choice p xs vs q) :
    buffer.position = p := by
  cases xs with
  | nil =>
    obtain ⟨-, rfl⟩ := hvisited
    obtain rfl : buffer = buffer' := congrArg Prod.snd (Option.some.inj h)
    exact hq
  | cons x xs =>
    obtain ⟨v, vs', -, -, rfl, -, -, hposition, -⟩ := hvisited
    rw [List.length_cons, visitAll, returns_bind] at h
    obtain ⟨⟨v', buffer₁⟩, hvisit, h⟩ := Option.bind_eq_some_iff.mp h
    rw [returns_bind] at h
    obtain ⟨⟨vs'', buffer₂⟩, -, h⟩ := Option.bind_eq_some_iff.mp h
    obtain rfl : v' = v := (List.cons.inj (congrArg Prod.fst (Option.some.inj h))).1
    rw [← hstart _ _ _ _ hvisit, hposition]

/-- **The loop** visits the entries iff the accessors are aligned, by induction on the entries:
after a turn that is not aligned the next visit starts in the wrong place. -/
theorem visited_iff {visit : Accessor → BufferM Visit}
    (hstart : ∀ a buffer v buffer', returns (visit a) buffer = some (v, buffer') →
      v.position = buffer.position) {xs : List (Option Utf16 × Doc)}
    (hturn : ∀ x ∈ xs, Turn e libc data length visit x) {choice : Nat → Accessor} {p : Nat}
    {b rest : Bytes} (hb : EncodesAll e xs b) (hdrop : data.drop p = b ++ rest) (hp : p ≤ data.length) :
    (∃ vs, returns (visitAll visit choice xs.length) ⟨data, p, length⟩ =
        some (vs, ⟨data, p + b.length, length⟩) ∧
      Visited e libc data choice p xs vs (p + b.length)) ↔ AlignedAll choice xs := by
  induction xs generalizing choice p b with
  | nil =>
    obtain rfl := hb
    exact ⟨fun _ => trivial, fun _ => ⟨[], rfl, rfl, rfl⟩⟩
  | cons x xs ih =>
    obtain ⟨b₁, b₂, hb₁, hb₂, rfl⟩ := hb
    obtain ⟨hx, hxs⟩ := List.forall_mem_cons.mp hturn
    rw [List.append_assoc] at hdrop
    have hdrop₂ := drop_append_of_drop hdrop
    have hp₂ := end_le_length hdrop hp
    rw [List.length_append, ← Nat.add_assoc]
    have ih := @ih hxs (fun i => choice (i + 1)) _ _ hb₂ hdrop₂ hp₂
    constructor
    · rintro ⟨vs, hrun, hvisited⟩
      obtain ⟨v, vs', b, rest', rfl, hb, hdrop', hvisit⟩ := hvisited
      obtain ⟨-, -, -, -, hvisited⟩ := hvisit
      obtain rfl := hb₁.inj hb (hdrop.symm.trans hdrop')
      rw [List.length_cons, visitAll, returns_bind] at hrun
      obtain ⟨⟨v₁, buffer₁⟩, hvisit, hrun⟩ := Option.bind_eq_some_iff.mp hrun
      rw [returns_bind] at hrun
      obtain ⟨⟨vs₁, buffer₂⟩, hloop, hrun⟩ := Option.bind_eq_some_iff.mp hrun
      obtain rfl : buffer₂ = _ := congrArg Prod.snd (Option.some.inj hrun)
      have hlist : v₁ :: vs₁ = v :: vs' := congrArg Prod.fst (Option.some.inj hrun)
      obtain ⟨rfl, rfl⟩ := List.cons.inj hlist
      -- the next visit starts where the next entry does, so that this one has ended there
      have hposition := position_of_visited hstart hloop rfl hvisited
      have haligned := hx.aligned hb₁ hdrop hp hvisit hposition
      obtain ⟨value, -, hturn⟩ := hx.visited hb₁ hdrop hp haligned
      obtain rfl : buffer₁ = _ := congrArg Prod.snd (Option.some.inj (hvisit.symm.trans hturn))
      exact ⟨haligned, ih.mp ⟨_, hloop, hvisited⟩⟩
    · rintro ⟨haligned, hrest⟩
      obtain ⟨value, hstored, hvisit⟩ := hx.visited hb₁ hdrop hp haligned
      obtain ⟨vs, hloop, hvisited⟩ := ih.mpr hrest
      refine ⟨⟨p, x.1.map utf8, x.2.kind.tag, value⟩ :: vs, ?_, _, vs, b₁, b₂ ++ rest, rfl, hb₁, hdrop, rfl,
        rfl, rfl, hstored, hvisited⟩
      rw [List.length_cons, visitAll, returns_bind, hvisit, Option.bind_some, returns_bind, hloop]
      rfl

theorem alignedAll_iff {xs : List (Option Utf16 × Doc)} {choice : Nat → Accessor} :
    AlignedAll choice xs ↔ ∀ i x, xs[i]? = some x → AlignedEntry x (choice i) := by
  induction xs generalizing choice with
  | nil => exact ⟨fun _ _ _ h => (nomatch h), fun _ => trivial⟩
  | cons x xs ih =>
    rw [AlignedAll, ih]
    constructor
    · rintro ⟨hx, hxs⟩ i y hy
      cases i with
      | zero => exact Option.some.inj hy ▸ hx
      | succ i => exact hxs i y hy
    · intro h
      exact ⟨h 0 x rfl, fun i y hy => h (i + 1) y hy⟩

theorem encodesAll_items : ∀ {ds : List Doc} {b : Bytes}, Doc.EncodesItems e ds b →
    EncodesAll e (ds.map fun d => (none, d)) b
  | [], _, h => h
  | _ :: _, _, ⟨b₁, b₂, h₁, h₂, h⟩ =>
    ⟨b₁, b₂, ⟨b₁, [], h₁, rfl, (List.append_nil b₁).symm⟩, encodesAll_items h₂, h⟩

theorem encodesAll_entries : ∀ {es : List (Utf16 × Doc)} {b : Bytes}, Doc.EncodesEntries e es b →
    EncodesAll e (es.map fun x => (some x.1, x.2)) b
  | [], _, h => h
  | (_, _) :: _, _, ⟨h, b₁, b₂, hk, h₁, h₂, hb⟩ =>
    ⟨_, b₂, ⟨h, b₁, [], hk, h₁, rfl, (List.append_nil _).symm⟩, encodesAll_entries h₂, hb⟩

theorem position_visitItem (a : Accessor) (buffer : Buffer) (v : Visit) (buffer' : Buffer)
    (h : returns (visitItem e libc n a) buffer = some (v, buffer')) : v.position = buffer.position := by
  have hget : returns getState buffer = some (buffer.position, buffer) := rfl
  rw [visitItem, returns_bind, hget, Option.bind_some, returns_bind] at h
  obtain ⟨_, -, h⟩ := Option.bind_eq_some_iff.mp h
  rw [returns_bind] at h
  obtain ⟨_, -, h⟩ := Option.bind_eq_some_iff.mp h
  obtain rfl : _ = v := congrArg Prod.fst (Option.some.inj h)
  rfl

theorem position_visitEntry (a : Accessor) (buffer : Buffer) (v : Visit) (buffer' : Buffer)
    (h : returns (visitEntry e libc n a) buffer = some (v, buffer')) : v.position = buffer.position := by
  have hget : returns getState buffer = some (buffer.position, buffer) := rfl
  rw [visitEntry, returns_bind, hget, Option.bind_some, returns_bind] at h
  obtain ⟨_, -, h⟩ := Option.bind_eq_some_iff.mp h
  rw [returns_bind] at h
  obtain ⟨_, -, h⟩ := Option.bind_eq_some_iff.mp h
  rw [returns_bind] at h
  obtain ⟨_, -, h⟩ := Option.bind_eq_some_iff.mp h
  obtain rfl : _ = v := congrArg Prod.fst (Option.some.inj h)
  rfl

/-- A size is read behind the type, and then the loop runs. -/
theorem returns_size {α : Type} (hdata : data.length < 2 ^ 31) {t : Byte} {k : Nat} {h body : Bytes}
    (hk : VarUInt k h) (hsmall : k < 2 ^ 31) (hbs : data = t :: (h ++ body)) {m : Nat → BufferM α} :
    returns (do let size ← nextArraySize .c; m size.toNat) ⟨data, 1, data.length⟩ =
      returns (m k) ⟨data, 1 + h.length, data.length⟩ := by
  have hp : 1 ≤ data.length := by
    rw [hbs]
    exact Nat.succ_le_of_lt (Nat.succ_pos _)
  obtain ⟨_, hheader, rfl, -⟩ :=
    consumes_readVarUint (show _ < 2 ^ Library.bits .c from Nat.lt_trans hdata (by decide)) hk
      ⟨data, 1, data.length⟩ 1 body
      ⟨rfl, hp⟩ (by rw [hbs]; rfl)
  have hsize : returns (nextArraySize .c) ⟨data, 1, data.length⟩ =
      some ((BitVec.ofNat 32 k).toInt, ⟨data, 1 + h.length, data.length⟩) := by
    rw [nextArraySize, returns_bind, hheader]
    rfl
  rw [returns_bind, hsize, Option.bind_some]
  simp only [toInt_ofNat hsmall, Int.toNat_natCast]

theorem returns_walk_array {ds : List Doc} {h body : Bytes} (hk : VarUInt ds.length h)
    (hds : Doc.EncodesItems e ds body) (hsize : (Tag.array :: (h ++ body)).length < 2 ^ 31)
    (choice : Nat → Accessor) :
    returns (walk e libc n choice) ⟨Tag.array :: (h ++ body), 0, (Tag.array :: (h ++ body)).length⟩ =
      returns (visitAll (visitItem e libc n) choice (entriesOf (.array ds)).length)
        ⟨Tag.array :: (h ++ body), 1 + h.length, (Tag.array :: (h ++ body)).length⟩ := by
  have hd : (Doc.array ds).Encodes e (Tag.array :: (h ++ body)) := ⟨h, body, hk, hds, rfl⟩
  have htype := returns_nextType_tag (Nat.lt_trans hsize (by decide)) (Nat.le_refl _) hd
    (List.append_nil _).symm (Nat.zero_le _)
  have hloop := returns_size hsize hk (hd.within hsize).1 rfl (m := visitAll (visitItem e libc n) choice)
  rw [walk, returns_bind, htype, Option.bind_some, entriesOf, List.length_map, ← hloop]
  rfl

theorem returns_walk_map {es : List (Utf16 × Doc)} {h body : Bytes} (hk : VarUInt es.length h)
    (hes : Doc.EncodesEntries e es body) (hsize : (Tag.map :: (h ++ body)).length < 2 ^ 31)
    (choice : Nat → Accessor) :
    returns (walk e libc n choice) ⟨Tag.map :: (h ++ body), 0, (Tag.map :: (h ++ body)).length⟩ =
      returns (visitAll (visitEntry e libc n) choice (entriesOf (.map es)).length)
        ⟨Tag.map :: (h ++ body), 1 + h.length, (Tag.map :: (h ++ body)).length⟩ := by
  have hd : (Doc.map es).Encodes e (Tag.map :: (h ++ body)) := ⟨h, body, hk, hes, rfl⟩
  have htype := returns_nextType_tag (Nat.lt_trans hsize (by decide)) (Nat.le_refl _) hd
    (List.append_nil _).symm (Nat.zero_le _)
  have hloop := returns_size hsize hk (hd.within hsize).1 rfl (m := visitAll (visitEntry e libc n) choice)
  rw [walk, returns_bind, htype, Option.bind_some, entriesOf, List.length_map, ← hloop]
  rfl

/-- The loop of a container against its entries; `p` is where the body starts. -/
theorem visitsEntries_of_loop {visit : Accessor → BufferM Visit} {p : Nat} {body : Bytes}
    {choice : Nat → Accessor}
    (hwalk : returns (walk e libc n choice) ⟨bs, 0, bs.length⟩ =
      returns (visitAll visit choice (entriesOf d).length) ⟨bs, p, bs.length⟩)
    (hstart : ∀ a buffer v buffer', returns (visit a) buffer = some (v, buffer') →
      v.position = buffer.position)
    (hturn : ∀ x ∈ entriesOf d, Turn e libc bs bs.length visit x) (hbody : EncodesAll e (entriesOf d) body)
    (hdrop : bs.drop p = body ++ []) (hend : p + body.length = bs.length) :
    VisitsEntries e libc bs n d choice ↔ AlignedAll choice (entriesOf d) := by
  have hloop := @visited_iff _ _ _ _ _ hstart _ hturn choice _ _ _ hbody hdrop (by omega)
  rw [hend] at hloop
  rw [← hloop, VisitsEntries]
  constructor
  · rintro ⟨vs, q, hrun, hvisited⟩
    rw [hwalk] at hrun
    obtain rfl : p = q := position_of_visited hstart hrun rfl hvisited
    exact ⟨vs, hrun, hvisited⟩
  · rintro ⟨vs, hrun, hvisited⟩
    exact ⟨vs, p, hwalk.trans hrun, hvisited⟩

theorem visitsEntries_iff_alignedAll (hd : d.Encodes e bs) (hroot : ¬ d.IsLeaf) (hsize : bs.length < 2 ^ 31)
    (hn : d.height ≤ n) {choice : Nat → Accessor} :
    VisitsEntries e libc bs n d choice ↔ AlignedAll choice (entriesOf d) := by
  have hwithin := hd.within hsize
  cases d with
  | array ds =>
    obtain ⟨h, body, hk, hds, rfl⟩ := hd
    refine visitsEntries_of_loop (returns_walk_array hk hds hsize choice) position_visitItem ?_
      (encodesAll_items hds) ?_ ?_
    · intro x hx
      obtain ⟨d, hd, rfl⟩ := List.mem_map.mp hx
      have hheight := Doc.height_le_of_mem hd
      rw [Doc.height] at hn
      exact turn_visitItem hsize (Nat.le_refl _) (by omega) (hwithin.2.of_mem hd)
    · rw [Nat.add_comm, List.drop_succ_cons, List.drop_left, List.append_nil]
    · rw [List.length_cons, List.length_append]
      omega
  | map es =>
    obtain ⟨h, body, hk, hes, rfl⟩ := hd
    refine visitsEntries_of_loop (returns_walk_map hk hes hsize choice) position_visitEntry ?_
      (encodesAll_entries hes) ?_ ?_
    · intro x hx
      obtain ⟨y, hy, rfl⟩ := List.mem_map.mp hx
      have hheight := Doc.height_le_of_mem_entries hy
      rw [Doc.height] at hn
      exact turn_visitEntry hsize (Nat.le_refl _) (by omega) (hwithin.2.of_mem hy).2
    · rw [Nat.add_comm, List.drop_succ_cons, List.drop_left, List.append_nil]
    · rw [List.length_cons, List.length_append]
      omega
  | _ => exact absurd trivial hroot

/-- **Which walks visit the entries.** -/
theorem visitsEntries_iff (hd : d.Encodes e bs) (hroot : ¬ d.IsLeaf) (hsize : bs.length < 2 ^ 31)
    (hn : d.height ≤ n) {choice : Nat → Accessor} :
    VisitsEntries e libc bs n d choice ↔
      ∀ i x, (entriesOf d)[i]? = some x → AlignedEntry x (choice i) :=
  (visitsEntries_iff_alignedAll hd hroot hsize hn).trans alignedAll_iff

/-- `["1", 2]`, read as a text and a number. -/
theorem visitsEntries_iff_array :
    VisitsEntries .little .ofIntegers (Doc.encode .little (.array [.text .string [0x31], .int 2])) 2
      (.array [.text .string [0x31], .int 2]) (fun i => if i = 0 then .nextStringUTF8 else .nextNumber) ↔
    ∀ i x, (entriesOf (.array [.text .string [0x31], .int 2]))[i]? = some x →
      AlignedEntry x (if i = 0 then .nextStringUTF8 else .nextNumber) :=
  visitsEntries_iff (Doc.encodes_encode .little (by simp [Doc.Sized, Doc.SizedItems])) id (by decide)
    (by simp [Doc.height, Doc.heightItems])

/-- `["1"]`, read as a number: the text is passed over before it is read. -/
theorem not_visitsEntries_number :
    ¬ VisitsEntries .little .ofIntegers [0x5B, 0x01, 0x73, 0x02, 0x31, 0x00] 2
      (.array [.text .string [0x31]]) (fun _ => .nextNumber) := by
  intro h
  have hencodes : (Doc.array [.text .string [0x31]]).Encodes .little [0x5B, 0x01, 0x73, 0x02, 0x31, 0x00] :=
    Doc.encodes_encode .little (d := .array [.text .string [0x31]]) (by simp [Doc.Sized, Doc.SizedItems])
  have haligned := (visitsEntries_iff_alignedAll hencodes (fun h => h) (by decide)
    (by simp [Doc.height, Doc.heightItems])).mp h
  exact absurd (show 2 = 0 from haligned.1.2) (by decide)

end Parser

end Wson.Native
