import Wson.Wire.Varint

/-!
# The wson format

What a wson document is, independent of the programs that read and write it.

- `Doc`: the tree a document denotes; texts are sequences of 16-bit units, number
  payloads are bit patterns.
- `Encodes e d bs`: `bs` is an encoding of `d`, on a machine with byte order `e`.
  Headers may be any run of groups denoting the length or count, so a tree has
  many encodings; `Doc.encode` picks the shortest (`encodes_encode`).
- `encodes_append_inj`: unique readability. A byte string starts with at most one
  encoding, of at most one tree; hence `Doc.encode_injective`.
-/

namespace Wson

open Wire

/-! ## Type bytes -/

namespace Tag

/-- `'0'` -/
abbrev null : Byte := 0x30
/-- `'s'` -/
abbrev string : Byte := 0x73
/-- `'u'` -/
abbrev uint8String : Byte := 0x75
/-- `'t'` -/
abbrev booleanTrue : Byte := 0x74
/-- `'f'` -/
abbrev booleanFalse : Byte := 0x66
/-- `'i'` -/
abbrev int : Byte := 0x69
/-- `'l'` -/
abbrev long : Byte := 0x6C
/-- `'g'` -/
abbrev bigInteger : Byte := 0x67
/-- `'e'` -/
abbrev bigDecimal : Byte := 0x65
/-- `'d'` -/
abbrev double : Byte := 0x64
/-- `'F'` -/
abbrev float : Byte := 0x46
/-- `'['` -/
abbrev array : Byte := 0x5B
/-- `'{'` -/
abbrev map : Byte := 0x7B

end Tag

/-- The three kinds of value that are stored as UTF-16 text. -/
inductive TextKind where
  | string
  | bigInteger
  | bigDecimal
  deriving DecidableEq, Repr

def TextKind.tag : TextKind → Byte
  | .string => Tag.string
  | .bigInteger => Tag.bigInteger
  | .bigDecimal => Tag.bigDecimal

def booleanTag (b : Bool) : Byte :=
  if b then Tag.booleanTrue else Tag.booleanFalse

/-! ## Trees -/

/-- The tree a document denotes. -/
inductive Doc where
  | null
  | boolean (b : Bool)
  | int (x : BitVec 32)
  | long (x : BitVec 64)
  | float (x : BitVec 32)
  | double (x : BitVec 64)
  | text (kind : TextKind) (s : Utf16)
  | uint8String (bs : Bytes)
  | array (ds : List Doc)
  | map (es : List (Utf16 × Doc))

namespace Doc

variable (e : Endian)

mutual

/-- The encoding with the shortest headers. -/
def encode : Doc → Bytes
  | .null => [Tag.null]
  | .boolean b => [booleanTag b]
  | .int x => Tag.int :: Wire.encode (zigzag x).toNat
  | .long x => Tag.long :: be64 x
  | .float x => Tag.float :: be32 x
  | .double x => Tag.double :: be64 x
  | .text kind s => kind.tag :: (Wire.encode (2 * s.length) ++ units e s)
  | .uint8String bs => Tag.uint8String :: (Wire.encode bs.length ++ bs)
  | .array ds => Tag.array :: (Wire.encode ds.length ++ encodeItems ds)
  | .map es => Tag.map :: (Wire.encode es.length ++ encodeEntries es)

def encodeItems : List Doc → Bytes
  | [] => []
  | d :: ds => encode d ++ encodeItems ds

def encodeEntries : List (Utf16 × Doc) → Bytes
  | [] => []
  | (k, d) :: es => Wire.encode (2 * k.length) ++ units e k ++ encode d ++ encodeEntries es

end

mutual

/-- `bs` is an encoding of the tree, with any headers that denote its lengths and counts. -/
def Encodes : Doc → Bytes → Prop
  | .null, bs => bs = [Tag.null]
  | .boolean b, bs => bs = [booleanTag b]
  | .int x, bs => ∃ h, VarUInt (zigzag x).toNat h ∧ bs = Tag.int :: h
  | .long x, bs => bs = Tag.long :: be64 x
  | .float x, bs => bs = Tag.float :: be32 x
  | .double x, bs => bs = Tag.double :: be64 x
  | .text kind s, bs =>
    ∃ h, VarUInt (2 * s.length) h ∧ bs = kind.tag :: (h ++ units e s)
  | .uint8String cs, bs => ∃ h, VarUInt cs.length h ∧ bs = Tag.uint8String :: (h ++ cs)
  | .array ds, bs =>
    ∃ h body, VarUInt ds.length h ∧ EncodesItems ds body ∧ bs = Tag.array :: (h ++ body)
  | .map es, bs =>
    ∃ h body, VarUInt es.length h ∧ EncodesEntries es body ∧ bs = Tag.map :: (h ++ body)

def EncodesItems : List Doc → Bytes → Prop
  | [], bs => bs = []
  | d :: ds, bs => ∃ b₁ b₂, Encodes d b₁ ∧ EncodesItems ds b₂ ∧ bs = b₁ ++ b₂

def EncodesEntries : List (Utf16 × Doc) → Bytes → Prop
  | [], bs => bs = []
  | (k, d) :: es, bs =>
    ∃ h b₁ b₂, VarUInt (2 * k.length) h ∧ Encodes d b₁ ∧ EncodesEntries es b₂ ∧
      bs = h ++ units e k ++ b₁ ++ b₂

end

mutual

/-- Every byte length and count in the tree fits in 32 bits. -/
def Sized : Doc → Prop
  | .text _ s => 2 * s.length < 2 ^ 32
  | .uint8String bs => bs.length < 2 ^ 32
  | .array ds => ds.length < 2 ^ 32 ∧ SizedItems ds
  | .map es => es.length < 2 ^ 32 ∧ SizedEntries es
  | _ => True

def SizedItems : List Doc → Prop
  | [] => True
  | d :: ds => Sized d ∧ SizedItems ds

def SizedEntries : List (Utf16 × Doc) → Prop
  | [] => True
  | (k, d) :: es => 2 * k.length < 2 ^ 32 ∧ Sized d ∧ SizedEntries es

end

mutual

/-- How deep arrays and maps are nested. -/
def height : Doc → Nat
  | .array ds => heightItems ds + 1
  | .map es => heightEntries es + 1
  | _ => 0

def heightItems : List Doc → Nat
  | [] => 0
  | d :: ds => max (height d) (heightItems ds)

def heightEntries : List (Utf16 × Doc) → Nat
  | [] => 0
  | (_, d) :: es => max (height d) (heightEntries es)

end

mutual

theorem encodes_encode : ∀ {d : Doc}, d.Sized → Encodes e d (encode e d)
  | .null, _ | .boolean _, _ | .long _, _ | .float _, _ | .double _, _ => rfl
  | .int x, _ => ⟨_, varUInt_encode (zigzag x).isLt, rfl⟩
  | .text _ _, h => ⟨_, varUInt_encode h, rfl⟩
  | .uint8String _, h => ⟨_, varUInt_encode h, rfl⟩
  | .array _, h => ⟨_, _, varUInt_encode h.1, encodesItems_encode h.2, rfl⟩
  | .map _, h => ⟨_, _, varUInt_encode h.1, encodesEntries_encode h.2, rfl⟩

theorem encodesItems_encode :
    ∀ {ds : List Doc}, SizedItems ds → EncodesItems e ds (encodeItems e ds)
  | [], _ => rfl
  | _ :: _, h => ⟨_, _, encodes_encode h.1, encodesItems_encode h.2, rfl⟩

theorem encodesEntries_encode :
    ∀ {es : List (Utf16 × Doc)}, SizedEntries es → EncodesEntries e es (encodeEntries e es)
  | [], _ => rfl
  | (_, _) :: _, h =>
    ⟨_, _, _, varUInt_encode h.1, encodes_encode h.2.1, encodesEntries_encode h.2.2, rfl⟩

end

/-! ## Unique readability -/

/-- What the first byte of an encoding says about the tree. -/
inductive Kind where
  | null
  | boolean (b : Bool)
  | int
  | long
  | float
  | double
  | text (kind : TextKind)
  | uint8String
  | array
  | map
  deriving DecidableEq, Repr

def kind : Doc → Kind
  | .null => .null
  | .boolean b => .boolean b
  | .int _ => .int
  | .long _ => .long
  | .float _ => .float
  | .double _ => .double
  | .text kind _ => .text kind
  | .uint8String _ => .uint8String
  | .array _ => .array
  | .map _ => .map

def Kind.tag : Kind → Byte
  | .null => Tag.null
  | .boolean b => booleanTag b
  | .int => Tag.int
  | .long => Tag.long
  | .float => Tag.float
  | .double => Tag.double
  | .text kind => kind.tag
  | .uint8String => Tag.uint8String
  | .array => Tag.array
  | .map => Tag.map

def Kind.ofTag (t : Byte) : Option Kind :=
  if t = Tag.null then some .null
  else if t = Tag.booleanTrue then some (.boolean true)
  else if t = Tag.booleanFalse then some (.boolean false)
  else if t = Tag.int then some .int
  else if t = Tag.long then some .long
  else if t = Tag.float then some .float
  else if t = Tag.double then some .double
  else if t = Tag.string then some (.text .string)
  else if t = Tag.bigInteger then some (.text .bigInteger)
  else if t = Tag.bigDecimal then some (.text .bigDecimal)
  else if t = Tag.uint8String then some .uint8String
  else if t = Tag.array then some .array
  else if t = Tag.map then some .map
  else none

@[simp] theorem Kind.ofTag_tag : ∀ k : Kind, ofTag k.tag = some k
  | .null | .int | .long | .float | .double | .uint8String | .array | .map => by decide
  | .boolean true | .boolean false => by decide
  | .text .string | .text .bigInteger | .text .bigDecimal => by decide

theorem Kind.eq_tag_of_ofTag {t : Byte} {k : Kind} (h : ofTag t = some k) : t = k.tag := by
  have hall : ∀ t : Byte, (ofTag t).all fun k => t = k.tag := by decide +kernel
  have ht := hall t
  rw [h] at ht
  simpa using ht

theorem Kind.ofTag_eq_none {t : Byte} : ofTag t = none ↔ ∀ k : Kind, t ≠ k.tag := by
  constructor
  · rintro h k rfl
    exact nomatch (ofTag_tag k).symm.trans h
  · intro h
    cases hk : ofTag t with
    | none => rfl
    | some k => exact absurd (eq_tag_of_ofTag hk) (h k)

theorem Kind.tag_injective {k k' : Kind} (h : k.tag = k'.tag) : k = k' :=
  Option.some.inj (by rw [← ofTag_tag k, h, ofTag_tag])

variable {e}

/-- Every encoding of a tree starts with the tag of its kind. -/
theorem Encodes.head : ∀ {d : Doc} {bs : Bytes}, Encodes e d bs → ∃ tl, bs = d.kind.tag :: tl
  | .null, _, h | .boolean _, _, h => ⟨[], h⟩
  | .long _, _, h | .float _, _, h | .double _, _, h => ⟨_, h⟩
  | .int _, _, ⟨_, _, h⟩ | .text _ _, _, ⟨_, _, h⟩ | .uint8String _, _, ⟨_, _, h⟩ => ⟨_, h⟩
  | .array _, _, ⟨_, _, _, _, h⟩ | .map _, _, ⟨_, _, _, _, h⟩ => ⟨_, h⟩

theorem Encodes.length_pos {d : Doc} {bs : Bytes} (h : Encodes e d bs) : 0 < bs.length := by
  obtain ⟨tl, rfl⟩ := h.head
  exact Nat.succ_pos _

theorem append_eq_of_cons {t t' : Byte} {a a' r r' : Bytes} (h : t :: a ++ r = t' :: a' ++ r') :
    a ++ r = a' ++ r' :=
  (List.cons.inj h).2

theorem kind_eq_of_append {d d' : Doc} {b b' r r' : Bytes} (h : Encodes e d b)
    (h' : Encodes e d' b') (hb : b ++ r = b' ++ r') : d.kind = d'.kind := by
  obtain ⟨tl, rfl⟩ := h.head
  obtain ⟨tl', rfl⟩ := h'.head
  exact Kind.tag_injective (List.cons.inj hb).1

mutual

/-- **Unique readability**: a byte string starts with at most one encoding, of at most
one tree. -/
theorem encodes_append_inj : ∀ {d d' : Doc} {b b' r r' : Bytes}, Encodes e d b →
    Encodes e d' b' → b ++ r = b' ++ r' → d = d' ∧ b = b' ∧ r = r'
  | d, d', b, b', r, r', hd, hd', hb => by
    -- the first byte is the tag, so that both documents are of one kind
    have hk := kind_eq_of_append hd hd' hb
    match d, d', hd, hd', hk with
    | .null, .null, hd, hd', _ =>
      obtain rfl : b = [Tag.null] := hd
      obtain rfl : b' = [Tag.null] := hd'
      exact ⟨rfl, rfl, (List.cons.inj hb).2⟩
    | .boolean c, .boolean c', hd, hd', hk =>
      obtain rfl : c = c' := Kind.boolean.inj hk
      obtain rfl : b = [booleanTag c] := hd
      obtain rfl : b' = [booleanTag c] := hd'
      exact ⟨rfl, rfl, (List.cons.inj hb).2⟩
    | .int x, .int x', ⟨h, hv, hd⟩, ⟨h', hv', hd'⟩, _ =>
      subst hd hd'
      obtain ⟨hx, rfl, hr⟩ := hv.append_inj hv' (List.cons.inj hb).2
      exact ⟨by rw [zigzag_injective (BitVec.eq_of_toNat_eq hx)], rfl, hr⟩
    | .long x, .long x', hd, hd', _ =>
      obtain rfl : b = Tag.long :: be64 x := hd
      obtain rfl : b' = Tag.long :: be64 x' := hd'
      obtain ⟨hx, hr⟩ := List.append_inj (List.cons.inj hb).2 rfl
      obtain rfl := be64_injective hx
      exact ⟨rfl, rfl, hr⟩
    | .float x, .float x', hd, hd', _ =>
      obtain rfl : b = Tag.float :: be32 x := hd
      obtain rfl : b' = Tag.float :: be32 x' := hd'
      obtain ⟨hx, hr⟩ := List.append_inj (List.cons.inj hb).2 rfl
      obtain rfl := be32_injective hx
      exact ⟨rfl, rfl, hr⟩
    | .double x, .double x', hd, hd', _ =>
      obtain rfl : b = Tag.double :: be64 x := hd
      obtain rfl : b' = Tag.double :: be64 x' := hd'
      obtain ⟨hx, hr⟩ := List.append_inj (List.cons.inj hb).2 rfl
      obtain rfl := be64_injective hx
      exact ⟨rfl, rfl, hr⟩
    | .text k s, .text k' s', ⟨h, hv, hd⟩, ⟨h', hv', hd'⟩, hk =>
      obtain rfl : k = k' := Kind.text.inj hk
      subst hd hd'
      have hb := append_eq_of_cons hb
      rw [List.append_assoc, List.append_assoc] at hb
      obtain ⟨hlen, rfl, hrest⟩ := hv.append_inj hv' hb
      obtain ⟨hu, hr⟩ := List.append_inj hrest (by simp only [units_length]; exact hlen)
      obtain rfl := units_injective e hu
      exact ⟨rfl, rfl, hr⟩
    | .uint8String cs, .uint8String cs', ⟨h, hv, hd⟩, ⟨h', hv', hd'⟩, _ =>
      subst hd hd'
      have hb := append_eq_of_cons hb
      rw [List.append_assoc, List.append_assoc] at hb
      obtain ⟨hlen, rfl, hrest⟩ := hv.append_inj hv' hb
      obtain ⟨rfl, hr⟩ := List.append_inj hrest hlen
      exact ⟨rfl, rfl, hr⟩
    | .array ds, .array ds', ⟨h, body, hv, hds, hd⟩, ⟨h', body', hv', hds', hd'⟩, _ =>
      subst hd hd'
      have hb := append_eq_of_cons hb
      rw [List.append_assoc, List.append_assoc] at hb
      obtain ⟨hlen, rfl, hrest⟩ := hv.append_inj hv' hb
      obtain ⟨rfl, rfl, hr⟩ := encodesItems_append_inj hds hds' hlen hrest
      exact ⟨rfl, rfl, hr⟩
    | .map es, .map es', ⟨h, body, hv, hes, hd⟩, ⟨h', body', hv', hes', hd'⟩, _ =>
      subst hd hd'
      have hb := append_eq_of_cons hb
      rw [List.append_assoc, List.append_assoc] at hb
      obtain ⟨hlen, rfl, hrest⟩ := hv.append_inj hv' hb
      obtain ⟨rfl, rfl, hr⟩ := encodesEntries_append_inj hes hes' hlen hrest
      exact ⟨rfl, rfl, hr⟩

theorem encodesItems_append_inj : ∀ {ds ds' : List Doc} {b b' r r' : Bytes},
    EncodesItems e ds b → EncodesItems e ds' b' → ds.length = ds'.length →
      b ++ r = b' ++ r' → ds = ds' ∧ b = b' ∧ r = r'
  | [], [], _, _, _, _, hd, hd', _, hb => by
    subst hd hd'
    exact ⟨rfl, rfl, hb⟩
  | d :: ds, d' :: ds', _, _, _, _, ⟨b₁, b₂, h₁, h₂, hd⟩, ⟨b₁', b₂', h₁', h₂', hd'⟩, hlen, hb => by
    subst hd hd'
    rw [List.append_assoc, List.append_assoc] at hb
    obtain ⟨rfl, rfl, hrest⟩ := encodes_append_inj h₁ h₁' hb
    obtain ⟨rfl, rfl, hr⟩ := encodesItems_append_inj h₂ h₂' (Nat.succ.inj hlen) hrest
    exact ⟨rfl, rfl, hr⟩

theorem encodesEntries_append_inj : ∀ {es es' : List (Utf16 × Doc)} {b b' r r' : Bytes},
    EncodesEntries e es b → EncodesEntries e es' b' → es.length = es'.length →
      b ++ r = b' ++ r' → es = es' ∧ b = b' ∧ r = r'
  | [], [], _, _, _, _, hd, hd', _, hb => by
    subst hd hd'
    exact ⟨rfl, rfl, hb⟩
  | (k, d) :: es, (k', d') :: es', _, _, _, _, ⟨h, b₁, b₂, hv, h₁, h₂, hd⟩,
      ⟨h', b₁', b₂', hv', h₁', h₂', hd'⟩, hlen, hb => by
    subst hd hd'
    simp only [List.append_assoc] at hb
    obtain ⟨hk, rfl, hkey⟩ := hv.append_inj hv' hb
    obtain ⟨hu, hvalue⟩ := List.append_inj hkey (by simp only [units_length]; exact hk)
    obtain rfl := units_injective e hu
    obtain ⟨rfl, rfl, hrest⟩ := encodes_append_inj h₁ h₁' hvalue
    obtain ⟨rfl, rfl, hr⟩ := encodesEntries_append_inj h₂ h₂' (Nat.succ.inj hlen) hrest
    exact ⟨rfl, rfl, hr⟩

end

/-- Some bytes encode at most one document. -/
theorem Encodes.inj {d d' : Doc} {bs : Bytes} (hd : d.Encodes e bs) (hd' : d'.Encodes e bs) :
    d = d' :=
  (encodes_append_inj hd hd' (rfl : bs ++ [] = bs ++ [])).1

theorem encode_injective {d d' : Doc} (hd : d.Sized) (hd' : d'.Sized)
    (h : encode e d = encode e d') : d = d' :=
  (encodes_encode e hd).inj (h ▸ encodes_encode e hd')

/-! ## Sizes -/

theorem EncodesItems.length_le :
    ∀ {ds : List Doc} {bs : Bytes}, EncodesItems e ds bs → ds.length ≤ bs.length
  | [], _, _ => Nat.zero_le _
  | _ :: _, _, ⟨b₁, b₂, h₁, h₂, h⟩ => by
    have hpos := h₁.length_pos
    have ih := EncodesItems.length_le h₂
    rw [h, List.length_cons, List.length_append]
    omega

theorem EncodesEntries.length_le :
    ∀ {es : List (Utf16 × Doc)} {bs : Bytes}, EncodesEntries e es bs → es.length ≤ bs.length
  | [], _, _ => Nat.zero_le _
  | (_, _) :: _, _, ⟨_, b₁, b₂, _, h₁, h₂, h⟩ => by
    have hpos := h₁.length_pos
    have ih := EncodesEntries.length_le h₂
    rw [h, List.length_append, List.length_append, List.length_cons]
    omega

variable (e)

theorem encode_length_pos : ∀ d : Doc, 0 < (encode e d).length
  | .null | .boolean _ | .int _ | .long _ | .float _ | .double _ | .text _ _
  | .uint8String _ | .array _ | .map _ => by
    simp only [encode, List.length_cons]
    omega

theorem length_le_encodeItems : ∀ ds : List Doc, ds.length ≤ (encodeItems e ds).length
  | [] => Nat.le_refl 0
  | d :: ds => by
    have hd := encode_length_pos e d
    have ih := length_le_encodeItems ds
    simp only [encodeItems, List.length_append, List.length_cons]
    omega

theorem length_le_encodeEntries :
    ∀ es : List (Utf16 × Doc), es.length ≤ (encodeEntries e es).length
  | [] => Nat.le_refl 0
  | (k, d) :: es => by
    have hd := encode_length_pos e d
    have ih := length_le_encodeEntries es
    simp only [encodeEntries, List.length_append, List.length_cons]
    omega

mutual

/-- A tree whose encoding is shorter than `2^32` bytes has no larger length or count in it. -/
theorem sized_of_encode_lt : ∀ {d : Doc}, (encode e d).length < 2 ^ 32 → d.Sized
  | .null, _ | .boolean _, _ | .int _, _ | .long _, _ | .float _, _ | .double _, _ => trivial
  | .text _ s, h => by
    simp only [encode, List.length_cons, List.length_append, units_length] at h
    simp only [Sized]
    omega
  | .uint8String bs, h => by
    simp only [encode, List.length_cons, List.length_append] at h
    simp only [Sized]
    omega
  | .array ds, h => by
    have hds := length_le_encodeItems e ds
    simp only [encode, List.length_cons, List.length_append] at h
    exact ⟨by omega, sizedItems_of_encode_lt (by omega)⟩
  | .map es, h => by
    have hes := length_le_encodeEntries e es
    simp only [encode, List.length_cons, List.length_append] at h
    exact ⟨by omega, sizedEntries_of_encode_lt (by omega)⟩

theorem sizedItems_of_encode_lt :
    ∀ {ds : List Doc}, (encodeItems e ds).length < 2 ^ 32 → SizedItems ds
  | [], _ => trivial
  | d :: ds, h => by
    simp only [encodeItems, List.length_append] at h
    exact ⟨sized_of_encode_lt (by omega), sizedItems_of_encode_lt (by omega)⟩

theorem sizedEntries_of_encode_lt :
    ∀ {es : List (Utf16 × Doc)}, (encodeEntries e es).length < 2 ^ 32 → SizedEntries es
  | [], _ => trivial
  | (k, d) :: es, h => by
    simp only [encodeEntries, List.length_append, units_length] at h
    exact ⟨by omega, sized_of_encode_lt (by omega), sizedEntries_of_encode_lt (by omega)⟩

end

/-! ## Bounded lengths and counts -/

section Within

variable (bound : Nat)

mutual

/-- Every byte length and count in the tree is below the bound. -/
def Within : Doc → Prop
  | .text _ s => 2 * s.length < bound
  | .uint8String bs => bs.length < bound
  | .array ds => ds.length < bound ∧ WithinItems ds
  | .map es => es.length < bound ∧ WithinEntries es
  | _ => True

def WithinItems : List Doc → Prop
  | [] => True
  | d :: ds => Within d ∧ WithinItems ds

def WithinEntries : List (Utf16 × Doc) → Prop
  | [] => True
  | (k, d) :: es => 2 * k.length < bound ∧ Within d ∧ WithinEntries es

end

end Within

mutual

theorem sized_of_within {bound : Nat} (hb : bound ≤ 2 ^ 32) : ∀ {d : Doc}, d.Within bound → d.Sized
  | .null, _ | .boolean _, _ | .int _, _ | .long _, _ | .float _, _ | .double _, _ => trivial
  | .text _ _, h | .uint8String _, h => Nat.lt_of_lt_of_le h hb
  | .array _, h => ⟨Nat.lt_of_lt_of_le h.1 hb, sizedItems_of_within hb h.2⟩
  | .map _, h => ⟨Nat.lt_of_lt_of_le h.1 hb, sizedEntries_of_within hb h.2⟩

theorem sizedItems_of_within {bound : Nat} (hb : bound ≤ 2 ^ 32) :
    ∀ {ds : List Doc}, WithinItems bound ds → SizedItems ds
  | [], _ => trivial
  | _ :: _, h => ⟨sized_of_within hb h.1, sizedItems_of_within hb h.2⟩

theorem sizedEntries_of_within {bound : Nat} (hb : bound ≤ 2 ^ 32) :
    ∀ {es : List (Utf16 × Doc)}, WithinEntries bound es → SizedEntries es
  | [], _ => trivial
  | (_, _) :: _, h =>
    ⟨Nat.lt_of_lt_of_le h.1 hb, sized_of_within hb h.2.1, sizedEntries_of_within hb h.2.2⟩

end

mutual

theorem Within.mono {bound bound' : Nat} (hb : bound ≤ bound') : ∀ {d : Doc}, d.Within bound →
    d.Within bound'
  | .null, _ | .boolean _, _ | .int _, _ | .long _, _ | .float _, _ | .double _, _ => trivial
  | .text _ _, h | .uint8String _, h => Nat.lt_of_lt_of_le h hb
  | .array _, h => ⟨Nat.lt_of_lt_of_le h.1 hb, WithinItems.mono hb h.2⟩
  | .map _, h => ⟨Nat.lt_of_lt_of_le h.1 hb, WithinEntries.mono hb h.2⟩

theorem WithinItems.mono {bound bound' : Nat} (hb : bound ≤ bound') : ∀ {ds : List Doc},
    WithinItems bound ds → WithinItems bound' ds
  | [], _ => trivial
  | _ :: _, h => ⟨Within.mono hb h.1, WithinItems.mono hb h.2⟩

theorem WithinEntries.mono {bound bound' : Nat} (hb : bound ≤ bound') :
    ∀ {es : List (Utf16 × Doc)}, WithinEntries bound es → WithinEntries bound' es
  | [], _ => trivial
  | (_, _) :: _, h =>
    ⟨Nat.lt_of_lt_of_le h.1 hb, Within.mono hb h.2.1, WithinEntries.mono hb h.2.2⟩

end

mutual

/-- No length or count is larger than the encoding. -/
theorem Encodes.within {e : Endian} {bound : Nat} : ∀ {d : Doc} {bs : Bytes}, Encodes e d bs →
    bs.length < bound → d.Within bound
  | .null, _, _, _ | .boolean _, _, _, _ | .int _, _, _, _ | .long _, _, _, _
  | .float _, _, _, _ | .double _, _, _, _ => trivial
  | .text _ s, _, ⟨_, _, h⟩, hlen => by
    rw [h, List.length_cons, List.length_append, units_length] at hlen
    show 2 * s.length < bound
    omega
  | .uint8String cs, _, ⟨_, _, h⟩, hlen => by
    rw [h, List.length_cons, List.length_append] at hlen
    show cs.length < bound
    omega
  | .array ds, _, ⟨_, _, _, hds, h⟩, hlen => by
    have hcount := hds.length_le
    rw [h, List.length_cons, List.length_append] at hlen
    exact ⟨by omega, hds.within (by omega)⟩
  | .map es, _, ⟨_, _, _, hes, h⟩, hlen => by
    have hcount := hes.length_le
    rw [h, List.length_cons, List.length_append] at hlen
    exact ⟨by omega, hes.within (by omega)⟩

theorem EncodesItems.within {e : Endian} {bound : Nat} : ∀ {ds : List Doc} {bs : Bytes},
    EncodesItems e ds bs → bs.length < bound → WithinItems bound ds
  | [], _, _, _ => trivial
  | _ :: _, _, ⟨_, _, h₁, h₂, h⟩, hlen => by
    rw [h, List.length_append] at hlen
    exact ⟨h₁.within (by omega), h₂.within (by omega)⟩

theorem EncodesEntries.within {e : Endian} {bound : Nat} :
    ∀ {es : List (Utf16 × Doc)} {bs : Bytes}, EncodesEntries e es bs → bs.length < bound →
      WithinEntries bound es
  | [], _, _, _ => trivial
  | (_, _) :: _, _, ⟨_, _, _, _, h₁, h₂, h⟩, hlen => by
    simp only [h, List.length_append, units_length] at hlen
    exact ⟨by omega, h₁.within (by omega), h₂.within (by omega)⟩

end

/-! ### Members -/

theorem height_le_of_mem {d : Doc} : ∀ {ds : List Doc}, d ∈ ds → d.height ≤ heightItems ds
  | _ :: _, h => by
    obtain rfl | h := List.mem_cons.mp h
    · exact Nat.le_max_left _ _
    · exact (height_le_of_mem h).trans (Nat.le_max_right _ _)

theorem height_le_of_mem_entries {x : Utf16 × Doc} : ∀ {es : List (Utf16 × Doc)}, x ∈ es →
    x.2.height ≤ heightEntries es
  | (_, _) :: _, h => by
    obtain rfl | h := List.mem_cons.mp h
    · exact Nat.le_max_left _ _
    · exact (height_le_of_mem_entries h).trans (Nat.le_max_right _ _)

theorem WithinItems.of_mem {bound : Nat} {d : Doc} : ∀ {ds : List Doc}, WithinItems bound ds → d ∈ ds →
    d.Within bound
  | _ :: _, hw, h => by
    obtain rfl | h := List.mem_cons.mp h
    · exact hw.1
    · exact hw.2.of_mem h

theorem WithinEntries.of_mem {bound : Nat} {x : Utf16 × Doc} : ∀ {es : List (Utf16 × Doc)},
    WithinEntries bound es → x ∈ es → 2 * x.1.length < bound ∧ x.2.Within bound
  | (_, _) :: _, hw, h => by
    obtain rfl | h := List.mem_cons.mp h
    · exact ⟨hw.1, hw.2.1⟩
    · exact hw.2.2.of_mem h

/-! ## Conditions on leaves and keys -/

section Leaves

variable (leaf : Doc → Prop) (key : Utf16 → Prop)

mutual

/-- Every value in the tree that is no array or map satisfies `leaf`, every key `key`. -/
def Leaves : Doc → Prop
  | .array ds => LeavesItems ds
  | .map es => LeavesEntries es
  | d => leaf d

def LeavesItems : List Doc → Prop
  | [] => True
  | d :: ds => Leaves d ∧ LeavesItems ds

def LeavesEntries : List (Utf16 × Doc) → Prop
  | [] => True
  | (k, d) :: es => key k ∧ Leaves d ∧ LeavesEntries es

end

/-- The leaves that satisfy `leaf`, whatever the keys are. -/
abbrev AllLeaves : Doc → Prop :=
  Leaves leaf fun _ => True

mutual

/-- The tree and all the values in it. -/
def values : Doc → List Doc
  | .array ds => .array ds :: valuesItems ds
  | .map es => .map es :: valuesEntries es
  | d => [d]

def valuesItems : List Doc → List Doc
  | [] => []
  | d :: ds => values d ++ valuesItems ds

def valuesEntries : List (Utf16 × Doc) → List Doc
  | [] => []
  | (_, d) :: es => values d ++ valuesEntries es

end

/-- The value is no array and no map. -/
def IsLeaf : Doc → Prop
  | .array _ | .map _ => False
  | _ => True

variable {leaf : Doc → Prop} {key : Utf16 → Prop}

theorem leavesItems_iff : ∀ {ds : List Doc},
    LeavesItems leaf key ds ↔ ∀ d ∈ ds, Leaves leaf key d
  | [] => by simp [LeavesItems]
  | d :: ds => by rw [LeavesItems, leavesItems_iff, List.forall_mem_cons]

theorem leavesEntries_iff : ∀ {es : List (Utf16 × Doc)},
    LeavesEntries leaf key es ↔ ∀ x ∈ es, key x.1 ∧ Leaves leaf key x.2
  | [] => by simp [LeavesEntries]
  | x :: es => by rw [LeavesEntries, leavesEntries_iff, List.forall_mem_cons, and_assoc]

theorem leaves_of_isLeaf : ∀ {d : Doc}, d.IsLeaf → leaf d → Leaves leaf key d
  | .null, _, h | .boolean _, _, h | .int _, _, h | .long _, _, h | .float _, _, h
  | .double _, _, h | .text _ _, _, h | .uint8String _, _, h => h

mutual

theorem Leaves.mono {leaf' : Doc → Prop} {key' : Utf16 → Prop} (hleaf : ∀ d, leaf d → leaf' d)
    (hkey : ∀ k, key k → key' k) : ∀ {d : Doc}, Leaves leaf key d → Leaves leaf' key' d
  | .array _, h => LeavesItems.mono hleaf hkey h
  | .map _, h => LeavesEntries.mono hleaf hkey h
  | .null, h | .boolean _, h | .int _, h | .long _, h | .float _, h
  | .double _, h | .text _ _, h | .uint8String _, h => hleaf _ h

theorem LeavesItems.mono {leaf' : Doc → Prop} {key' : Utf16 → Prop}
    (hleaf : ∀ d, leaf d → leaf' d) (hkey : ∀ k, key k → key' k) :
    ∀ {ds : List Doc}, LeavesItems leaf key ds → LeavesItems leaf' key' ds
  | [], _ => trivial
  | _ :: _, h => ⟨Leaves.mono hleaf hkey h.1, LeavesItems.mono hleaf hkey h.2⟩

theorem LeavesEntries.mono {leaf' : Doc → Prop} {key' : Utf16 → Prop}
    (hleaf : ∀ d, leaf d → leaf' d) (hkey : ∀ k, key k → key' k) :
    ∀ {es : List (Utf16 × Doc)}, LeavesEntries leaf key es → LeavesEntries leaf' key' es
  | [], _ => trivial
  | (_, _) :: _, h =>
    ⟨hkey _ h.1, Leaves.mono hleaf hkey h.2.1, LeavesEntries.mono hleaf hkey h.2.2⟩

end

mutual

theorem height_le_of_mem_values : ∀ {d u : Doc}, u ∈ d.values → u.height ≤ d.height
  | .array _, u, hu => by
    rcases List.mem_cons.mp hu with rfl | hu
    · exact Nat.le_refl _
    · exact Nat.le_succ_of_le (height_le_of_mem_valuesItems hu)
  | .map _, u, hu => by
    rcases List.mem_cons.mp hu with rfl | hu
    · exact Nat.le_refl _
    · exact Nat.le_succ_of_le (height_le_of_mem_valuesEntries hu)
  | .null, _, hu | .boolean _, _, hu | .int _, _, hu | .long _, _, hu | .float _, _, hu
  | .double _, _, hu | .text _ _, _, hu | .uint8String _, _, hu => by
    rw [List.mem_singleton.mp hu]

theorem height_le_of_mem_valuesItems : ∀ {ds : List Doc} {u : Doc}, u ∈ valuesItems ds →
    u.height ≤ heightItems ds
  | _ :: _, _, hu => by
    rcases List.mem_append.mp hu with hu | hu
    · exact (height_le_of_mem_values hu).trans (Nat.le_max_left _ _)
    · exact (height_le_of_mem_valuesItems hu).trans (Nat.le_max_right _ _)

theorem height_le_of_mem_valuesEntries : ∀ {es : List (Utf16 × Doc)} {u : Doc},
    u ∈ valuesEntries es → u.height ≤ heightEntries es
  | (_, _) :: _, _, hu => by
    rcases List.mem_append.mp hu with hu | hu
    · exact (height_le_of_mem_values hu).trans (Nat.le_max_left _ _)
    · exact (height_le_of_mem_valuesEntries hu).trans (Nat.le_max_right _ _)

end

mutual

theorem Leaves.of_mem_values : ∀ {d u : Doc}, Leaves leaf key d → u ∈ d.values → Leaves leaf key u
  | .array _, u, h, hu => by
    rcases List.mem_cons.mp hu with rfl | hu
    · exact h
    · exact LeavesItems.of_mem_values h hu
  | .map _, u, h, hu => by
    rcases List.mem_cons.mp hu with rfl | hu
    · exact h
    · exact LeavesEntries.of_mem_values h hu
  | .null, _, h, hu | .boolean _, _, h, hu | .int _, _, h, hu | .long _, _, h, hu
  | .float _, _, h, hu | .double _, _, h, hu | .text _ _, _, h, hu | .uint8String _, _, h, hu => by
    rw [List.mem_singleton.mp hu]
    exact h

theorem LeavesItems.of_mem_values : ∀ {ds : List Doc} {u : Doc}, LeavesItems leaf key ds →
    u ∈ valuesItems ds → Leaves leaf key u
  | _ :: _, _, h, hu => by
    rcases List.mem_append.mp hu with hu | hu
    · exact Leaves.of_mem_values h.1 hu
    · exact LeavesItems.of_mem_values h.2 hu

theorem LeavesEntries.of_mem_values : ∀ {es : List (Utf16 × Doc)} {u : Doc},
    LeavesEntries leaf key es → u ∈ valuesEntries es → Leaves leaf key u
  | (_, _) :: _, _, h, hu => by
    rcases List.mem_append.mp hu with hu | hu
    · exact Leaves.of_mem_values h.2.1 hu
    · exact LeavesEntries.of_mem_values h.2.2 hu

end

mutual

theorem allLeaves_of_values : ∀ {d : Doc}, (∀ u ∈ d.values, u.IsLeaf → leaf u) → AllLeaves leaf d
  | .array _, h => allLeaves_of_valuesItems fun u hu => h u (List.mem_cons_of_mem _ hu)
  | .map _, h => allLeaves_of_valuesEntries fun u hu => h u (List.mem_cons_of_mem _ hu)
  | .null, h | .boolean _, h | .int _, h | .long _, h | .float _, h
  | .double _, h | .text _ _, h | .uint8String _, h => h _ List.mem_cons_self trivial

theorem allLeaves_of_valuesItems : ∀ {ds : List Doc}, 
    (∀ u ∈ valuesItems ds, u.IsLeaf → leaf u) → LeavesItems leaf (fun _ => True) ds
  | [], _ => trivial
  | _ :: _, h =>
    ⟨allLeaves_of_values fun u hu => h u (List.mem_append_left _ hu),
      allLeaves_of_valuesItems fun u hu => h u (List.mem_append_right _ hu)⟩

theorem allLeaves_of_valuesEntries : ∀ {es : List (Utf16 × Doc)},
    (∀ u ∈ valuesEntries es, u.IsLeaf → leaf u) → LeavesEntries leaf (fun _ => True) es
  | [], _ => trivial
  | (_, _) :: _, h =>
    ⟨trivial, allLeaves_of_values fun u hu => h u (List.mem_append_left _ hu),
      allLeaves_of_valuesEntries fun u hu => h u (List.mem_append_right _ hu)⟩

end

end Leaves

end Doc

end Wson
