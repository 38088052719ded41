import Wson.Format.Below
import Wson.Native.Entries
import Wson.Native.Session

/-!
# The fields of a node

What the functions of `dom_wson.cpp` have in common: a node is a map with six keys of its
own, and its attributes, styles and events are read in loops over the parser in `c/`.

- `fieldOf`: how a key is compared; `Doc.fieldNamed`: which key it is.
- `consumes_readPairs`, `consumes_readEvents`: where an encoding stands, the loops add its
  entries one by one and end behind it.

`wson_parser` looks at its declared length where `nextType` is called, so all that is needed
of an encoding is that its types stand below it (`Doc.EncodesBelow`).
-/

namespace Wson.Dom

open Effect Text Wire Native Native.Buffer Native.Parser

inductive Field where
  | ref
  | type
  | attr
  | style
  | event
  | children
  deriving DecidableEq, Repr

namespace Field

def all : List Field :=
  [.ref, .type, .attr, .style, .event, .children]

/-- The literal that keys are compared with. -/
def name : Field → Bytes
  | .ref => [0x72, 0x65, 0x66]
  | .type => [0x74, 0x79, 0x70, 0x65]
  | .attr => [0x61, 0x74, 0x74, 0x72]
  | .style => [0x73, 0x74, 0x79, 0x6C, 0x65]
  | .event => [0x65, 0x76, 0x65, 0x6E, 0x74]
  | .children => [0x63, 0x68, 0x69, 0x6C, 0x64, 0x72, 0x65, 0x6E]

/-- The key itself. -/
def key (f : Field) : Utf16 :=
  f.name.map (BitVec.setWidth 16)

end Field

/-- `strcmp(str.c_str(), literal) == 0`: what is behind a NUL is not compared. -/
def strEquals (str literal : Bytes) : Bool :=
  str.takeWhile (· ≠ 0) == literal

/-- The branch that is taken for a key. -/
def fieldOf (objectKey : Bytes) : Option Field :=
  Field.all.find? fun f => strEquals objectKey f.name

/-- The field with this key. -/
def fieldNamed (k : Utf16) : Option Field :=
  Field.all.find? fun f => k == f.key

/-- The key is not taken for a field that it does not name. -/
def Plain (k : Utf16) : Prop :=
  fieldOf (utf8 k) = fieldNamed k

instance (k : Utf16) : Decidable (Plain k) :=
  inferInstanceAs (Decidable (_ = _))

/-- The length that `wson_parser(data)` declares. -/
def declaredLength : Nat := 1024 * 1024

/-- `std::map<std::string, std::string>`: the entries in the order of the keys. -/
abbrev StringMap := List (Bytes × Bytes)

namespace StringMap

/-- `map[key] = value`. -/
def assign (key value : Bytes) : StringMap → StringMap
  | [] => [(key, value)]
  | entry :: entries =>
    if entry.1 = key then (key, value) :: entries
    else if key < entry.1 then (key, value) :: entry :: entries
    else entry :: assign key value entries

/-- `map.insert({key, value})`: a key that is there keeps its value. -/
def insert (key value : Bytes) : StringMap → StringMap
  | [] => [(key, value)]
  | entry :: entries =>
    if entry.1 = key then entry :: entries
    else if key < entry.1 then (key, value) :: entry :: entries
    else entry :: insert key value entries

end StringMap

section Loops

variable (e : Endian) (libc : Libc) (n : Nat)

/-- `parser.nextStringUTF8(parser.nextType())`. -/
def nextString : BufferM Bytes := do
  nextStringUTF8 .c e libc n (← nextType .c)

/-- The loop over the entries of `attr` or `style`; `add` is what it does with each. -/
def readPairs {α : Type} (add : α → Bytes → Bytes → α) : Nat → α → BufferM α
  | 0, a => pure a
  | size + 1, a => do
    let key ← nextMapKeyUTF8 .c e
    let value ← nextString e libc n
    readPairs add size (add a key value)

/-- The loop over the elements of `event`; empty texts are left out. -/
def readEvents {α : Type} (add : α → Bytes → α) : Nat → α → BufferM α
  | 0, a => pure a
  | size + 1, a => do
    let eventValue ← nextString e libc n
    readEvents add size (if eventValue.length > 0 then add a eventValue else a)

end Loops

/-! ## What a document holds -/

section Doc

variable (libc : Libc)

/-- A value as a text. -/
def textOf (d : Doc) : Bytes :=
  (stringOf libc d).getD []

/-- The entries of a map, as texts; other values count as empty. -/
def pairsOf : Doc → List (Bytes × Bytes)
  | .map es => es.map fun x => (utf8 x.1, textOf libc x.2)
  | _ => []

/-- The elements of an array, as texts. -/
def eventsOf : Doc → List Bytes
  | .array ds => (ds.map (textOf libc)).filter (0 < ·.length)
  | _ => []

end Doc

theorem fieldNamed_eq_some {k : Utf16} {f : Field} : fieldNamed k = some f ↔ k = f.key := by
  constructor
  · intro h
    have hbeq := List.find?_some (show Field.all.find? (fun f => k == f.key) = some f from h)
    exact eq_of_beq hbeq
  · rintro rfl
    cases f <;> rfl

theorem fieldOf_key (f : Field) : fieldOf (utf8 f.key) = some f := by
  cases f <;> decide

theorem plain_key (f : Field) : Plain f.key := by
  rw [Plain, fieldOf_key]
  exact (fieldNamed_eq_some.mpr rfl).symm

/-! ## Consuming them -/

mutual

theorem decodable_of_within : ∀ {d : Doc}, d.Within (2 ^ 30) → DecodableDoc d
  | .null, _ | .boolean _, _ | .int _, _ | .long _, _ | .float _, _ | .double _, _
  | .uint8String _, _ => trivial
  | .text _ _, h => h
  | .array _, h => decodableItems_of_within h.2
  | .map _, h => decodableEntries_of_within h.2

theorem decodableItems_of_within : ∀ {ds : List Doc}, Doc.WithinItems (2 ^ 30) ds →
    Doc.LeavesItems DecodableLeaf Decodable ds
  | [], _ => trivial
  | _ :: _, h => ⟨decodable_of_within h.1, decodableItems_of_within h.2⟩

theorem decodableEntries_of_within : ∀ {es : List (Utf16 × Doc)}, Doc.WithinEntries (2 ^ 30) es →
    Doc.LeavesEntries DecodableLeaf Decodable es
  | [], _ => trivial
  | (_, _) :: _, h => ⟨h.1, decodable_of_within h.2.1, decodableEntries_of_within h.2.2⟩

end

variable {e : Endian} {libc : Libc} {data : Bytes} {length n p : Nat}

/-- A pass over `bs` behind which the parser goes back and reads `bs` once more. -/
theorem consumes_twice {α β : Type} {m : BufferM α} {g : Nat → α → BufferM β} {f : BufferM β}
    {bs : Bytes} {a : α} {b : β} (hm : ConsumesAt data (At data length) p (returns m) bs a)
    (hg : ∀ state, g state a = do restoreToState state; f)
    (hf : ConsumesAt data (At data length) p (returns f) bs b) :
    ConsumesAt data (At data length) p (returns (do g (← getState) (← m))) bs b := by
  rintro _ rest ⟨rfl, hp⟩ hdrop
  obtain ⟨_, hrun, rfl, -⟩ := hm ⟨data, p, length⟩ rest ⟨rfl, hp⟩ hdrop
  have hget : returns getState ⟨data, p, length⟩ = some (p, ⟨data, p, length⟩) := rfl
  have hrestore {q : Nat} : returns (restoreToState p) ⟨data, q, length⟩ = some ((), ⟨data, p, length⟩) :=
    rfl
  obtain ⟨s, hthen, hs⟩ := hf ⟨data, p, length⟩ rest ⟨rfl, hp⟩ hdrop
  refine ⟨s, ?_, hs⟩
  rw [returns_bind, hget, Option.bind_some, returns_bind, hrun, Option.bind_some, hg, returns_bind,
    hrestore, Option.bind_some, hthen]

/-- A pass behind which the saved position is not used. -/
theorem consumes_once {α β : Type} {m : BufferM α} {g : Nat → α → BufferM β} {bs : Bytes} {a : α} {b : β}
    (hm : ConsumesAt data (At data length) p (returns m) bs a) (hg : ∀ state, g state a = pure b) :
    ConsumesAt data (At data length) p (returns (do g (← getState) (← m))) bs b := by
  rintro _ rest ⟨rfl, hp⟩ hdrop
  obtain ⟨s, hrun, hs⟩ := hm ⟨data, p, length⟩ rest ⟨rfl, hp⟩ hdrop
  have hget : returns getState ⟨data, p, length⟩ = some (p, ⟨data, p, length⟩) := rfl
  refine ⟨s, ?_, hs⟩
  rw [returns_bind, hget, Option.bind_some, returns_bind, hrun, Option.bind_some, hg, returns_pure]

section Consumes

variable (hdata : data.length < 2 ^ Library.bits .c)
include hdata

theorem consumes_nextMapSize {k : Nat} {h : Bytes} (hk : VarUInt k h) (hsmall : k < 2 ^ 31) :
    ConsumesAt data (At data length) p (returns (nextMapSize .c)) h (k : Int) :=
  ((consumes_wrap (consumes_readVarUint hdata hk)).of_eq rfl (toInt_ofNat hsmall)).consumesAt

theorem consumes_nextMapKeyUTF8 {k : Utf16} {h : Bytes} (hk : VarUInt (2 * k.length) h)
    (hshort : 2 * k.length < 2 ^ 30) :
    ConsumesAt data (At data length) p (returns (nextMapKeyUTF8 .c e)) (h ++ units e k) (utf8 k) := by
  have hread : Answers data (At data length) (returns (nextMapKeyUTF8 .c e)) (h ++ units e k) _ :=
    answers_wrap (answers_readUtf16 hdata hk)
  rw [if_pos hshort, Option.map_some, utf16ConvertToUtf8Cstr_eq] at hread
  exact Consumes.consumesAt hread

/-- The type is read where it stands below the declared length. -/
theorem consumes_type (hp : p < length) (t : Byte) :
    ConsumesAt data (At data length) p (returns (nextType .c)) [t] t := by
  rintro _ rest ⟨rfl, hle⟩ hdrop
  rw [returns_nextType hp]
  exact consumes_readType hdata t _ p rest ⟨rfl, hle⟩ hdrop

/-- A type is read, and then what depends on it. -/
theorem consumes_nextType {α : Type} {d : Doc} {bs : Bytes} (hd : d.EncodesBelow e length p bs)
    {m : Byte → BufferM α} {a : α} (hm : ∀ tl, bs = d.kind.tag :: tl →
      ConsumesAt data (At data length) (p + 1) (returns (m d.kind.tag)) tl a) :
    ConsumesAt data (At data length) p (returns (do m (← nextType .c))) bs a := by
  obtain ⟨tl, rfl⟩ := hd.encodes.head
  rw [returns_bind_eq]
  exact (consumes_type hdata hd.lt _).bind (hm tl rfl)

omit hdata in
/-- What reads a value below a length that covers all of the data reads it below any other length
behind its type, if it looks at the length nowhere else. -/
theorem consumes_uniform {α : Type} {d : Doc} {bs : Bytes} (hd : d.EncodesBelow e length p bs)
    {m : Byte → BufferM α} {a : α} (hm : ∀ type, Uniform (m type))
    (hread : Consumes data (At data data.length) (returns (do m (← nextType .c))) bs a) :
    ConsumesAt data (At data length) p (returns (do m (← nextType .c))) bs a := by
  rintro _ rest ⟨rfl, hle⟩ hdrop
  have hpos := hd.encodes.length_pos
  have hend := end_le_length hdrop hle
  have hlt : p < data.length := by omega
  obtain ⟨_, hrun, rfl, hle'⟩ := hread ⟨data, p, data.length⟩ p rest ⟨rfl, hle⟩ hdrop
  rw [returns_bind, returns_nextType_lt hlt hlt, Option.bind_some] at hrun
  rw [returns_bind, returns_nextType_lt hd.lt hlt, Option.bind_some]
  obtain ⟨-, hnone⟩ | ⟨a', q, hdeclared, hfull⟩ := (hm data[p]).returns data ((p + 1) % 2 ^ Library.bits .c)
    length data.length
  · rw [hnone] at hrun
    cases hrun
  · rw [hfull] at hrun
    obtain ⟨rfl, hq⟩ := Prod.mk.inj (Option.some.inj hrun)
    obtain rfl : q = p + bs.length := congrArg Buffer.position hq
    exact ⟨_, hdeclared, rfl, hle'⟩

theorem consumes_nextString {d : Doc} {bs : Bytes} (hd : d.EncodesBelow e length p bs) (hn : d.height < n)
    (hw : d.Within (2 ^ 30)) :
    ConsumesAt data (At data length) p (returns (nextString e libc n)) bs (textOf libc d) := by
  have hwide : d.Within (2 ^ 31) := hw.mono (by decide)
  obtain ⟨text, htext, -⟩ : ∃ text, stringOf libc d = some text ∧ _ :=
    stringOf_of_decodable (decodable_of_within hw) hwide
  have hread : Answers data (At data data.length) (returns (nextString e libc n)) bs (stringOf libc d) :=
    answers_nextStringUTF8 hdata (Nat.le_refl _) hd.encodes hn hwide
  rw [textOf, htext]
  rw [htext] at hread
  exact consumes_uniform hd uniform_nextStringUTF8 hread

theorem consumes_nextSkip {d : Doc} {bs : Bytes} (hd : d.EncodesBelow e length p bs) (hn : d.height < n)
    (hw : d.Within (2 ^ 30)) :
    ConsumesAt data (At data length) p (returns (do skipValue .c n (← nextType .c))) bs () :=
  consumes_uniform hd (uniform_skipValue n)
    (answers_skipValue hdata (Nat.le_refl _) hd.encodes (allLeaves_skips d) hn (hw.mono (by decide)))

/-- A value that is no map, or no array, is skipped behind its type. -/
theorem consumes_skipped {α : Type} {d : Doc} {bs : Bytes} {k : Doc.Kind} (hd : d.EncodesBelow e length p bs)
    (hn : d.height < n) (hw : d.Within (2 ^ 30)) (hkind : d.kind ≠ k) {m : Byte → BufferM α} {a : α}
    (hm : ∀ t, t ≠ k.tag → m t = do skipValue .c n t; return a) :
    ConsumesAt data (At data length) p (returns (do m (← nextType .c))) bs a := by
  refine consumes_nextType hdata hd ?_
  intro tl htl
  have hencodes := hd.encodes
  rw [htl] at hencodes
  rw [hm _ fun htag => hkind (Doc.Kind.tag_injective htag)]
  exact (consumes_wrap (f := fun _ => a) (consumes_skipValue hdata hencodes (allLeaves_skips d) hn
    (hw.mono (by decide)))).consumesAt

/-- A map is read: its size behind the type, and then its entries. -/
theorem consumes_nextMap {α : Type} {es : List (Utf16 × Doc)} {bs : Bytes}
    (hd : (Doc.map es).EncodesBelow e length p bs) (hw : (Doc.map es).Within (2 ^ 30)) {m : Byte → BufferM α}
    {f : Int → BufferM α} {a : α} (hm : m Tag.map = do f (← nextMapSize .c))
    (hf : ∀ q body, Doc.EncodesEntriesBelow e length es q body →
      ConsumesAt data (At data length) q (returns (f es.length)) body a) :
    ConsumesAt data (At data length) p (returns (do m (← nextType .c))) bs a := by
  refine consumes_nextType hdata hd ?_
  intro tl htl
  obtain ⟨-, h, body, hc, hes, hbs⟩ := hd
  obtain rfl := (List.cons.inj (htl.symm.trans hbs)).2
  show ConsumesAt data _ _ (returns (m Tag.map)) _ a
  rw [hm, returns_bind_eq]
  exact (consumes_nextMapSize hdata hc (Nat.lt_trans hw.1 (by decide))).bind (hf _ body hes)

/-- The same for an array and what is read behind it. -/
theorem consumes_nextArray_append {α : Type} {ds : List Doc} {bs rest : Bytes}
    (hd : (Doc.array ds).EncodesBelow e length p bs) (hw : (Doc.array ds).Within (2 ^ 30)) {m : Byte → BufferM α}
    {f : Int → BufferM α} {a : α} (hm : m Tag.array = do f (← nextArraySize .c))
    (hf : ∀ q body, q + body.length = p + bs.length → Doc.EncodesItemsBelow e length ds q body →
      ConsumesAt data (At data length) q (returns (f ds.length)) (body ++ rest) a) :
    ConsumesAt data (At data length) p (returns (do m (← nextType .c))) (bs ++ rest) a := by
  have hlt := hd.lt
  obtain ⟨-, h, body, hc, hds, rfl⟩ := hd
  have hend : p + 1 + h.length + body.length = p + (Tag.array :: (h ++ body)).length := by
    rw [List.length_cons, List.length_append]
    omega
  rw [List.cons_append, List.append_assoc, returns_bind_eq]
  refine (consumes_type hdata hlt Tag.array).bind ?_
  rw [hm, returns_bind_eq]
  exact (consumes_nextMapSize hdata hc (Nat.lt_trans hw.1 (by decide))).bind (hf _ body hend hds)

theorem consumes_nextArray {α : Type} {ds : List Doc} {bs : Bytes} (hd : (Doc.array ds).EncodesBelow e length p bs)
    (hw : (Doc.array ds).Within (2 ^ 30)) {m : Byte → BufferM α} {f : Int → BufferM α} {a : α}
    (hm : m Tag.array = do f (← nextArraySize .c))
    (hf : ∀ q body, Doc.EncodesItemsBelow e length ds q body →
      ConsumesAt data (At data length) q (returns (f ds.length)) body a) :
    ConsumesAt data (At data length) p (returns (do m (← nextType .c))) bs a := by
  rw [← List.append_nil bs]
  refine consumes_nextArray_append hdata hd hw hm ?_
  intro q body _ hds
  rw [List.append_nil]
  exact hf q body hds

/-- **The loop over pairs.** -/
theorem consumes_readPairs {α : Type} (add : α → Bytes → Bytes → α) {es : List (Utf16 × Doc)}
    {bs : Bytes} (hes : Doc.EncodesEntriesBelow e length es p bs) (hn : Doc.heightEntries es < n)
    (hw : Doc.WithinEntries (2 ^ 30) es) (a : α) :
    ConsumesAt data (At data length) p (returns (readPairs e libc n add es.length a)) bs
      ((pairsOf libc (.map es)).foldl (fun a x => add a x.1 x.2) a) := by
  induction es generalizing p bs a with
  | nil =>
    obtain rfl := hes
    exact (consumes_pure a).consumesAt
  | cons x es ih =>
    obtain ⟨h, b₁, b₂, hk, h₁, h₂, rfl⟩ := hes
    rw [Doc.heightEntries, Nat.max_lt] at hn
    rw [List.length_append, ← Nat.add_assoc] at h₂
    rw [List.length_cons, readPairs, returns_bind_eq, List.append_assoc]
    refine (consumes_nextMapKeyUTF8 hdata hk hw.1).bind ?_
    rw [returns_bind_eq]
    exact (consumes_nextString hdata h₁ hn.1 hw.2.1).bind (ih h₂ hn.2 hw.2.2 _)

/-- **The loop over events.** -/
theorem consumes_readEvents {α : Type} (add : α → Bytes → α) {ds : List Doc} {bs : Bytes}
    (hds : Doc.EncodesItemsBelow e length ds p bs) (hn : Doc.heightItems ds < n)
    (hw : Doc.WithinItems (2 ^ 30) ds) (a : α) :
    ConsumesAt data (At data length) p (returns (readEvents e libc n add ds.length a)) bs
      ((eventsOf libc (.array ds)).foldl add a) := by
  induction ds generalizing p bs a with
  | nil =>
    obtain rfl := hds
    exact (consumes_pure a).consumesAt
  | cons d ds ih =>
    obtain ⟨b₁, b₂, h₁, h₂, rfl⟩ := hds
    rw [Doc.heightItems, Nat.max_lt] at hn
    rw [List.length_cons, readEvents, returns_bind_eq]
    refine ((consumes_nextString hdata h₁ hn.1 hw.1).bind (ih h₂ hn.2 hw.2 _)).of_eq rfl ?_
    by_cases hempty : (textOf libc d).length > 0
    · rw [if_pos hempty, eventsOf, eventsOf, List.map_cons, List.filter_cons_of_pos (by simpa using hempty),
        List.foldl_cons]
    · rw [if_neg hempty, eventsOf, eventsOf, List.map_cons, List.filter_cons_of_neg (by simpa using hempty)]

/-- The entries of a map are added one by one; another value is skipped and adds nothing. -/
theorem consumes_foldPairs {α β : Type} {d : Doc} {bs : Bytes} (hd : d.EncodesBelow e length p bs)
    (hn : d.height < n) (hw : d.Within (2 ^ 30)) (add : α → Bytes → Bytes → α) (a : α) (k : α → β)
    {m : Byte → BufferM β}
    (hmap : m Tag.map = do
      let size ← nextMapSize .c
      let a ← readPairs e libc n add size.toNat a
      return k a)
    (hother : ∀ t, t ≠ Tag.map → m t = do skipValue .c n t; return k a) :
    ConsumesAt data (At data length) p (returns (do m (← nextType .c))) bs
      (k ((pairsOf libc d).foldl (fun a x => add a x.1 x.2) a)) := by
  cases d with
  | map es =>
    refine consumes_nextMap hdata hd hw hmap ?_
    intro q body hes
    rw [Int.toNat_natCast]
    exact consumesAt_wrap (consumes_readPairs hdata add hes (Nat.lt_of_succ_lt hn) hw.2 a)
  | _ => exact consumes_skipped (k := .map) hdata hd hn hw nofun hother

/-- The same for the elements of an array. -/
theorem consumes_foldEvents {α β : Type} {d : Doc} {bs : Bytes} (hd : d.EncodesBelow e length p bs)
    (hn : d.height < n) (hw : d.Within (2 ^ 30)) (add : α → Bytes → α) (a : α) (k : α → β) {m : Byte → BufferM β}
    (harray : m Tag.array = do
      let size ← nextArraySize .c
      let a ← readEvents e libc n add size.toNat a
      return k a)
    (hother : ∀ t, t ≠ Tag.array → m t = do skipValue .c n t; return k a) :
    ConsumesAt data (At data length) p (returns (do m (← nextType .c))) bs
      (k ((eventsOf libc d).foldl add a)) := by
  cases d with
  | array ds =>
    refine consumes_nextArray hdata hd hw harray ?_
    intro q body hds
    rw [Int.toNat_natCast]
    exact consumesAt_wrap (consumes_readEvents hdata add hds (Nat.lt_of_succ_lt hn) hw.2 a)
  | _ => exact consumes_skipped (k := .array) hdata hd hn hw nofun hother

/-- A value that is skipped, whatever it is. -/
theorem consumes_passed {α : Type} {d : Doc} {bs : Bytes} (hd : d.EncodesBelow e length p bs)
    (hn : d.height < n) (hw : d.Within (2 ^ 30)) {m : Byte → BufferM α} {a : α}
    (hm : ∀ t, m t = do skipValue .c n t; return a) :
    ConsumesAt data (At data length) p (returns (do m (← nextType .c))) bs a := by
  refine consumes_nextType hdata hd ?_
  intro tl htl
  have hencodes := hd.encodes
  rw [htl] at hencodes
  rw [hm]
  exact (consumes_wrap (f := fun _ => a) (consumes_skipValue hdata hencodes (allLeaves_skips d) hn
    (hw.mono (by decide)))).consumesAt

end Consumes

end Wson.Dom
