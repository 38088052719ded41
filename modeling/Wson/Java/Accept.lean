import Wson.Java.Parser

/-!
# What the parser accepts

`readObject` accepts more than the format: runs of six groups, numbers that do not fit in 32
bits, odd byte lengths (halved) and map counts that are negative as an `int` (no entries).

- `Reads`: the trees the parser builds from a byte string, with the headers it has read.
- `produces_readObject`: it returns the meaning of such a tree, and of no other.
- `beginsWith_iff`: a value that is returned is the meaning of a well-formed encoding iff
  every header that was read is proper.
-/

namespace Wson.Java

open Effect Wire

/-- A header, by what stands behind it. -/
inductive Header where
  | int (h : Bytes)
  | text (h : Bytes)
  | array (h : Bytes)
  | map (h : Bytes)

/-- A run of one to five groups for a number that fits in 32 bits. -/
def ProperRun (h : Bytes) : Prop :=
  h.length ≤ 5 ∧ groups h < 2 ^ 32

/-- The headers the format has: lengths of texts are even, counts of maps are positive as an
`int`. -/
def Header.Proper : Header → Prop
  | .int h => ProperRun h
  | .text h => ProperRun h ∧ groups h % 2 = 0
  | .array h => ProperRun h
  | .map h => ProperRun h ∧ groups h < 2 ^ 31

section Reads

variable (e : Endian)

mutual

/-- The parser takes `bs` for the tree, over the given headers. -/
def Reads : Doc → Bytes → List Header → Prop
  | .null, bs, hs => bs = [Tag.null] ∧ hs = []
  | .boolean b, bs, hs => bs = [booleanTag b] ∧ hs = []
  | .int x, bs, hs =>
    ∃ h, Delimited h ∧ x = unzigzag (uintOf 0 h) ∧ bs = Tag.int :: h ∧ hs = [.int h]
  | .long x, bs, hs => bs = Tag.long :: be64 x ∧ hs = []
  | .float x, bs, hs => bs = Tag.float :: be32 x ∧ hs = []
  | .double x, bs, hs => bs = Tag.double :: be64 x ∧ hs = []
  | .text kind s, bs, hs =>
    ∃ h, Delimited h ∧ (uintOf 0 h).toInt.tdiv 2 = s.length ∧
      bs = kind.tag :: (h ++ units e s) ∧ hs = [.text h]
  | .uint8String _, _, _ => False
  | .array ds, bs, hs =>
    ∃ h body hs', Delimited h ∧ (uintOf 0 h).toInt = ds.length ∧
      ReadsItems ds body hs' ∧ bs = Tag.array :: (h ++ body) ∧ hs = .array h :: hs'
  | .map es, bs, hs =>
    ∃ h body hs', Delimited h ∧ (uintOf 0 h).toInt.toNat = es.length ∧
      ReadsEntries es body hs' ∧ bs = Tag.map :: (h ++ body) ∧ hs = .map h :: hs'

def ReadsItems : List Doc → Bytes → List Header → Prop
  | [], bs, hs => bs = [] ∧ hs = []
  | d :: ds, bs, hs =>
    ∃ b₁ b₂ hs₁ hs₂, Reads d b₁ hs₁ ∧ ReadsItems ds b₂ hs₂ ∧ bs = b₁ ++ b₂ ∧ hs = hs₁ ++ hs₂

def ReadsEntries : List (Utf16 × Doc) → Bytes → List Header → Prop
  | [], bs, hs => bs = [] ∧ hs = []
  | (k, d) :: es, bs, hs =>
    ∃ h b₁ b₂ hs₁ hs₂, Delimited h ∧ (uintOf 0 h).toInt.tdiv 2 = k.length ∧
      Reads d b₁ hs₁ ∧ ReadsEntries es b₂ hs₂ ∧ bs = h ++ units e k ++ b₁ ++ b₂ ∧
      hs = .text h :: (hs₁ ++ hs₂)

end

end Reads

namespace Parser

open Input

variable {e : Endian} {buffer : Bytes}

/-! ## The parser builds what it reads -/

/-- A read that ends by throwing produces anything. -/
theorem produces_throw {α : Type} {err : Throwable} {spec : Bytes → α → Prop} :
    Produces buffer At (returns (throw err : ParserM α)) spec :=
  fun _ _ _ _ _ h => nomatch h

/-- One read whose result is wrapped. -/
theorem produces_wrap {α β : Type} {m : ParserM α} {spec : Bytes → α → Prop}
    {spec' : Bytes → β → Prop} {f : α → β} (h : Produces buffer At (returns m) spec)
    (hspec : ∀ bs a, spec bs a → spec' bs (f a)) :
    Produces buffer At (returns (do return f (← m))) spec' := by
  rw [returns_bind_eq]
  refine h.seq ?_
  intro bs a ha
  exact produces_return (by rw [List.append_nil]; exact hspec bs a ha)

/-- The bytes of a text with its header. -/
def TextAt (e : Endian) (bs : Bytes) (s : Utf16) : Prop :=
  ∃ h, Delimited h ∧ (uintOf 0 h).toInt.tdiv 2 = s.length ∧ bs = h ++ units e s

theorem textAt_of_read {h : Bytes} {s : Utf16} (hd : Delimited h)
    (hlen : s.length = ((uintOf 0 h).toInt.tdiv 2).toNat) (hneg : ¬ (uintOf 0 h).toInt.tdiv 2 < 0) :
    TextAt e (h ++ (units e s ++ [])) s :=
  ⟨h, hd, by omega, by rw [List.append_nil]⟩

theorem produces_readUTF16String :
    Produces buffer At (returns (readUTF16String e buffer)) (TextAt e) := by
  rw [readUTF16String]
  simp only [returns_bind_eq]
  refine produces_readUInt.seq ?_
  rintro h _ ⟨hd, rfl⟩
  refine (produces_readChars _).seq ?_
  rintro _ s ⟨rfl, hlen⟩
  split
  · exact produces_throw
  · next hneg => exact produces_return (textAt_of_read hd hlen hneg)

/-- The key that is returned consists of the characters just read. -/
theorem returns_lookup_eq_some {length : Int} {chars s : Utf16} {index : BitVec 11} {p p' : Parser}
    (h : returns (do
      match (← get).globalStringBytesCache index with
      | some cache =>
        if (cache.length : Int) = length ∧ chars = cache then pure cache
        else readMapKeyUTF16.newKey length chars index
      | none => readMapKeyUTF16.newKey length chars index) p = some (s, p')) :
    s = chars ∧ ¬ length < 0 ∧ p'.position = p.position := by
  have hnew : ∀ {s p'}, returns (readMapKeyUTF16.newKey length chars index) p = some (s, p') →
      s = chars ∧ ¬ length < 0 ∧ p'.position = p.position := by
    intro s p' h
    rw [readMapKeyUTF16.newKey] at h
    by_cases hneg : length < 0
    · rw [if_pos hneg] at h
      cases h
    · rw [if_neg hneg] at h
      by_cases hshort : length < 64
      · rw [if_pos hshort] at h
        obtain ⟨rfl, rfl⟩ := Prod.mk.inj (Option.some.inj h)
        exact ⟨rfl, hneg, rfl⟩
      · rw [if_neg hshort] at h
        obtain ⟨rfl, rfl⟩ := Prod.mk.inj (Option.some.inj h)
        exact ⟨rfl, hneg, rfl⟩
  rw [returns_bind, returns_get, Option.bind_some] at h
  cases hcache : p.globalStringBytesCache index with
  | none =>
    simp only [hcache] at h
    exact hnew h
  | some cache =>
    simp only [hcache] at h
    split at h
    · next heq =>
      obtain ⟨rfl, rfl⟩ := Prod.mk.inj (Option.some.inj h)
      exact ⟨heq.2.symm, by omega, rfl⟩
    · exact hnew h

theorem produces_readMapKeyUTF16 :
    Produces buffer At (returns (readMapKeyUTF16 e buffer)) (TextAt e) := by
  rw [readMapKeyUTF16]
  simp only [returns_bind_eq]
  refine produces_readUInt.seq ?_
  rintro h _ ⟨hd, rfl⟩
  refine (produces_readChars _).seq ?_
  rintro _ chars ⟨rfl, hlen⟩
  intro p q s p' hp hlookup
  obtain ⟨rfl, hneg, hposition⟩ := returns_lookup_eq_some hlookup
  exact ⟨[], _, rfl, textAt_of_read hd hlen hneg, hposition.trans hp⟩

theorem produces_parseNumber {α : Type} (ofString : Utf16 → Option α) (s : Utf16) :
    Produces buffer At (returns (parseNumber ofString s)) fun bs a =>
      bs = [] ∧ ofString s = some a := by
  rw [parseNumber]
  cases ofString s with
  | none => exact produces_throw
  | some a => exact produces_return ⟨rfl, rfl⟩

/-- A text that is parsed as a number. -/
theorem produces_number {α : Type} (ofString : Utf16 → Option α) (f : α → JNumber) :
    Produces buffer At (returns do
      return JValue.number (f (← parseNumber ofString (← readUTF16String e buffer)))) fun bs v =>
        ∃ s n, TextAt e bs s ∧ ofString s = some n ∧ v = .number (f n) := by
  simp only [returns_bind_eq]
  refine produces_readUTF16String.seq ?_
  intro bs s hs
  refine (produces_parseNumber ofString s).seq ?_
  rintro _ n ⟨rfl, hn⟩
  exact produces_return ⟨s, n, by rwa [List.append_nil, List.append_nil], hn, rfl⟩

/-- A text and its value. -/
theorem produces_textKind (kind : TextKind) {child : ParserM JValue} :
    Produces buffer At (returns (readKind e buffer child (.text kind))) fun bs v =>
      ∃ s, TextAt e bs s ∧ textValue kind s = some v := by
  cases kind with
  | string => exact produces_wrap produces_readUTF16String fun _ s h => ⟨s, h, rfl⟩
  | bigInteger =>
    refine (produces_number BigInteger.ofString JNumber.bigInteger).mono ?_
    rintro bs _ ⟨s, n, hs, hn, rfl⟩
    exact ⟨s, hs, by rw [textValue, hn]; rfl⟩
  | bigDecimal =>
    refine (produces_number BigDecimal.ofString JNumber.bigDecimal).mono ?_
    rintro bs _ ⟨s, b, hs, hb, rfl⟩
    exact ⟨s, hs, by rw [textValue, hb]; rfl⟩

/-- What `readObject` returns is the meaning of a tree that the parser reads. -/
def ReadsAs (e : Endian) (bs : Bytes) (v : JValue) : Prop :=
  ∃ d hs, Reads e d bs hs ∧ d.meaning (fun _ => none) = some v

section Children

variable {child : ParserM JValue}

theorem produces_readElements (hchild : Produces buffer At (returns child) (ReadsAs e)) :
    ∀ length : Nat, Produces buffer At (returns (readElements child length)) fun bs vs =>
      ∃ ds hs, ReadsItems e ds bs hs ∧ ds.length = length ∧
        Doc.meaningItems (fun _ => none) ds = some vs
  | 0 => produces_return ⟨[], [], ⟨rfl, rfl⟩, rfl, rfl⟩
  | length + 1 => by
    rw [readElements, returns_bind_eq]
    refine hchild.seq ?_
    rintro b₁ v ⟨d, hs₁, hd, hv⟩
    refine produces_wrap (produces_readElements hchild length) ?_
    rintro b₂ vs ⟨ds, hs₂, hds, hlen, hvs⟩
    refine ⟨d :: ds, hs₁ ++ hs₂, ⟨b₁, b₂, hs₁, hs₂, hd, hds, rfl, rfl⟩,
      by rw [List.length_cons, hlen], ?_⟩
    rw [Doc.meaningItems, hv, hvs]
    rfl

theorem produces_readEntries (hchild : Produces buffer At (returns child) (ReadsAs e)) :
    ∀ (size : Nat) (object : List (Utf16 × JValue)),
      Produces buffer At (returns (readEntries e buffer child size object)) fun bs object' =>
        ∃ es hs, ReadsEntries e es bs hs ∧ es.length = size ∧
          Doc.meaningEntries (fun _ => none) object es = some object'
  | 0, _ => produces_return ⟨[], [], ⟨rfl, rfl⟩, rfl, rfl⟩
  | size + 1, object => by
    rw [readEntries]
    simp only [returns_bind_eq]
    refine produces_readMapKeyUTF16.seq ?_
    rintro _ key ⟨h, hdel, hkey, rfl⟩
    refine hchild.seq ?_
    rintro b₁ v ⟨d, hs₁, hd, hv⟩
    refine (produces_readEntries hchild size (mapPut key v object)).mono ?_
    rintro b₂ object' ⟨es, hs₂, hes, hlen, hobject⟩
    refine ⟨(key, d) :: es, .text h :: (hs₁ ++ hs₂),
      ⟨h, b₁, b₂, hs₁, hs₂, hdel, hkey, hd, hes, ?_, rfl⟩, by rw [List.length_cons, hlen], ?_⟩
    · simp only [List.append_assoc]
    · rw [Doc.meaningEntries, hv]
      exact hobject

/-- One kind of value, from what is produced for the values inside. -/
theorem produces_readKind (hchild : Produces buffer At (returns child) (ReadsAs e))
    (kind : Doc.Kind) : Produces buffer At (returns (readKind e buffer child kind)) fun bs v =>
      ReadsAs e (kind.tag :: bs) v := by
  cases kind with
  | null => exact produces_return ⟨.null, [], ⟨rfl, rfl⟩, rfl⟩
  | boolean b => exact produces_return ⟨.boolean b, [], ⟨rfl, rfl⟩, rfl⟩
  | int =>
    exact produces_wrap produces_readVarInt fun h x hx =>
      ⟨.int x, [.int h], ⟨h, hx.1, hx.2, rfl, rfl⟩, rfl⟩
  | long =>
    exact produces_wrap produces_readLong fun bs x hx =>
      ⟨.long x, [], ⟨congrArg _ hx, rfl⟩, rfl⟩
  | float =>
    exact produces_wrap produces_readFloat fun bs x hx =>
      ⟨.float x, [], ⟨congrArg _ hx, rfl⟩, rfl⟩
  | double =>
    exact produces_wrap produces_readDouble fun bs x hx =>
      ⟨.double x, [], ⟨congrArg _ hx, rfl⟩, rfl⟩
  | text kind =>
    refine (produces_textKind kind).mono ?_
    rintro _ v ⟨s, ⟨h, hd, hlen, rfl⟩, hv⟩
    exact ⟨.text kind s, [.text h], ⟨h, hd, hlen, rfl, rfl⟩, hv⟩
  | uint8String => exact produces_throw
  | array =>
    rw [readKind, readArray, returns_bind_eq]
    refine produces_readUInt.seq ?_
    rintro h _ ⟨hd, rfl⟩
    dsimp only
    split
    · exact produces_throw
    · next hneg =>
      refine produces_wrap (produces_readElements hchild _) ?_
      rintro body vs ⟨ds, hs, hds, hlen, hvs⟩
      refine ⟨.array ds, .array h :: hs, ⟨h, body, hs, hd, by omega, hds, rfl, rfl⟩, ?_⟩
      rw [Doc.meaning, hvs]
      rfl
  | map =>
    rw [readKind, readMap, returns_bind_eq]
    refine produces_readUInt.seq ?_
    rintro h _ ⟨hd, rfl⟩
    refine produces_wrap (produces_readEntries hchild _ []) ?_
    rintro body object ⟨es, hs, hes, hlen, hobject⟩
    refine ⟨.map es, .map h :: hs, ⟨h, body, hs, hd, hlen.symm, hes, rfl, rfl⟩, ?_⟩
    rw [Doc.meaning, hobject]
    rfl

end Children

/-- **The parser builds what it reads.** -/
theorem produces_readObject : ∀ n : Nat,
    Produces buffer At (returns (readObject e buffer n)) (ReadsAs e)
  | 0 => produces_throw
  | n + 1 => by
    rw [readObject_succ, returns_bind_eq]
    refine produces_readType.seq ?_
    rintro _ type rfl
    cases hkind : Doc.Kind.ofTag type with
    | none => exact produces_throw
    | some kind =>
      rw [Doc.Kind.eq_tag_of_ofTag hkind]
      exact produces_readKind (produces_readObject n) kind

end Parser

section Headers

open Doc Input

variable {e : Endian}

/-! ## Proper headers -/

theorem varUInt_of_proper {h : Bytes} (hd : Delimited h) (hp : ProperRun h) :
    VarUInt (groups h) h :=
  ⟨hd, hp.1, rfl, hp.2⟩

theorem properRun_of_varUInt {n : Nat} {h : Bytes} (hv : VarUInt n h) : ProperRun h :=
  ⟨hv.short, by rw [hv.value]; exact hv.fits⟩

theorem uintOf_of_proper {h : Bytes} (hd : Delimited h) (hp : ProperRun h) :
    uintOf 0 h = BitVec.ofNat 32 (groups h) :=
  uintOf_varUInt (varUInt_of_proper hd hp)

/-- A proper header of a text denotes twice the number of its characters: from `2^31` on, an
even length would be halved to a negative number. -/
theorem varUInt_of_text {h : Bytes} {s : Utf16} (hd : Delimited h)
    (hp : (Header.text h).Proper) (hlen : (uintOf 0 h).toInt.tdiv 2 = s.length) :
    VarUInt (2 * s.length) h := by
  obtain ⟨hrun, heven⟩ := hp
  have hv := varUInt_of_proper hd hrun
  have hfits := hv.fits
  rw [uintOf_of_proper hd hrun, BitVec.toInt_eq_toNat_cond, BitVec.toNat_ofNat,
    Nat.mod_eq_of_lt hfits] at hlen
  suffices h2 : groups h = 2 * s.length by rwa [h2] at hv
  split at hlen
  · rw [Int.tdiv_eq_ediv_of_nonneg (by omega)] at hlen
    omega
  · rw [Int.tdiv_eq_ediv, if_pos (Or.inr (by omega))] at hlen
    omega

theorem varUInt_of_array {h : Bytes} {n : Nat} (hd : Delimited h)
    (hp : (Header.array h).Proper) (hlen : (uintOf 0 h).toInt = n) : VarUInt n h := by
  have hv := varUInt_of_proper hd hp
  have hfits := hv.fits
  rw [uintOf_of_proper hd hp, BitVec.toInt_eq_toNat_cond, BitVec.toNat_ofNat,
    Nat.mod_eq_of_lt hfits] at hlen
  suffices h2 : groups h = n by rwa [h2] at hv
  split at hlen <;> omega

theorem varUInt_of_map {h : Bytes} {n : Nat} (hd : Delimited h)
    (hp : (Header.map h).Proper) (hlen : (uintOf 0 h).toInt.toNat = n) : VarUInt n h := by
  have hv := varUInt_of_proper hd hp.1
  rw [uintOf_of_proper hd hp.1, Parser.toInt_ofNat hp.2, Int.toNat_natCast] at hlen
  rwa [hlen] at hv

mutual

/-- With proper headers the parser has read an encoding. -/
theorem encodes_of_reads : ∀ {d : Doc} {bs : Bytes} {hs : List Header}, Reads e d bs hs →
    (∀ h ∈ hs, h.Proper) → Encodes e d bs
  | .null, _, _, h, _ | .boolean _, _, _, h, _ | .long _, _, _, h, _ | .float _, _, _, h, _
  | .double _, _, _, h, _ => h.1
  | .int x, _, _, ⟨h, hd, hx, hbs, hhs⟩, hp => by
    subst hhs
    have hrun : ProperRun h := hp _ List.mem_cons_self
    refine ⟨h, ?_, hbs⟩
    rw [hx, zigzag_unzigzag, uintOf_of_proper hd hrun, BitVec.toNat_ofNat,
      Nat.mod_eq_of_lt hrun.2]
    exact varUInt_of_proper hd hrun
  | .text _ _, _, _, ⟨h, hd, hlen, hbs, hhs⟩, hp => by
    subst hhs
    exact ⟨h, varUInt_of_text hd (hp _ List.mem_cons_self) hlen, hbs⟩
  | .uint8String _, _, _, h, _ => h.elim
  | .array ds, _, _, ⟨h, body, hs', hd, hlen, hds, hbs, hhs⟩, hp => by
    subst hhs
    exact ⟨h, body, varUInt_of_array hd (hp _ List.mem_cons_self) hlen,
      encodesItems_of_reads hds fun x hx => hp x (List.mem_cons_of_mem _ hx), hbs⟩
  | .map es, _, _, ⟨h, body, hs', hd, hlen, hes, hbs, hhs⟩, hp => by
    subst hhs
    exact ⟨h, body, varUInt_of_map hd (hp _ List.mem_cons_self) hlen,
      encodesEntries_of_reads hes fun x hx => hp x (List.mem_cons_of_mem _ hx), hbs⟩

theorem encodesItems_of_reads : ∀ {ds : List Doc} {bs : Bytes} {hs : List Header},
    ReadsItems e ds bs hs → (∀ h ∈ hs, h.Proper) → EncodesItems e ds bs
  | [], _, _, h, _ => h.1
  | _ :: _, _, _, ⟨b₁, b₂, hs₁, hs₂, h₁, h₂, hbs, hhs⟩, hp => by
    subst hhs
    exact ⟨b₁, b₂, encodes_of_reads h₁ fun x hx => hp x (List.mem_append_left _ hx),
      encodesItems_of_reads h₂ fun x hx => hp x (List.mem_append_right _ hx), hbs⟩

theorem encodesEntries_of_reads : ∀ {es : List (Utf16 × Doc)} {bs : Bytes} {hs : List Header},
    ReadsEntries e es bs hs → (∀ h ∈ hs, h.Proper) → EncodesEntries e es bs
  | [], _, _, h, _ => h.1
  | (_, _) :: _, _, _, ⟨h, b₁, b₂, hs₁, hs₂, hd, hlen, h₁, h₂, hbs, hhs⟩, hp => by
    subst hhs
    have hp' := fun x hx => hp x (List.mem_cons_of_mem _ hx)
    exact ⟨h, b₁, b₂, varUInt_of_text hd (hp _ List.mem_cons_self) hlen,
      encodes_of_reads h₁ fun x hx => hp' x (List.mem_append_left _ hx),
      encodesEntries_of_reads h₂ fun x hx => hp' x (List.mem_append_right _ hx), hbs⟩

end

/-! ## Encodings have proper headers -/

theorem Reads.head : ∀ {d : Doc} {bs : Bytes} {hs : List Header}, Reads e d bs hs →
    ∃ tl, bs = d.kind.tag :: tl
  | .null, _, _, h | .boolean _, _, _, h => ⟨[], h.1⟩
  | .long _, _, _, h | .float _, _, _, h | .double _, _, _, h => ⟨_, h.1⟩
  | .int _, _, _, ⟨_, _, _, h, _⟩ | .text _ _, _, _, ⟨_, _, _, h, _⟩ => ⟨_, h⟩
  | .uint8String _, _, _, h => h.elim
  | .array _, _, _, ⟨_, _, _, _, _, _, h, _⟩ | .map _, _, _, ⟨_, _, _, _, _, _, h, _⟩ => ⟨_, h⟩

theorem kind_eq_of_reads {d d' : Doc} {b b' r r' : Bytes} {hs : List Header} (h : Reads e d b hs)
    (h' : Encodes e d' b') (hb : b ++ r = b' ++ r') : d.kind = d'.kind := by
  obtain ⟨tl, rfl⟩ := h.head
  obtain ⟨tl', rfl⟩ := h'.head
  exact Kind.tag_injective (List.cons.inj hb).1

theorem header_eq {n : Nat} {h h' r r' : Bytes} (hd : Delimited h) (hv : VarUInt n h')
    (hb : h ++ r = h' ++ r') : h = h' ∧ ProperRun h ∧ groups h = n ∧
      uintOf 0 h = BitVec.ofNat 32 n ∧ r = r' := by
  obtain ⟨rfl, hr⟩ := hd.append_inj hv.delimited hb
  exact ⟨rfl, properRun_of_varUInt hv, hv.value, uintOf_varUInt hv, hr⟩

/-- The text behind a header of the format. -/
theorem text_eq {s s' : Utf16} {h h' r r' : Bytes} (hd : Delimited h)
    (hlen : (uintOf 0 h).toInt.tdiv 2 = s.length) (hv : VarUInt (2 * s'.length) h')
    (hb : h ++ units e s ++ r = h' ++ units e s' ++ r') (hbound : 2 * s'.length < 2 ^ 31) :
    (Header.text h).Proper ∧ h ++ units e s = h' ++ units e s' ∧ r = r' := by
  rw [List.append_assoc, List.append_assoc] at hb
  obtain ⟨rfl, hrun, hgroups, huint, hrest⟩ := header_eq hd hv hb
  rw [huint, Parser.tdiv_toInt_ofNat hbound] at hlen
  obtain ⟨hu, hr⟩ := List.append_inj hrest (by simp only [units_length]; omega)
  exact ⟨⟨hrun, by omega⟩, by rw [hu], hr⟩

mutual

/-- Where an encoding stands, the parser has read it, over proper headers. -/
theorem proper_of_encodes : ∀ {d d' : Doc} {b b' r r' : Bytes} {hs : List Header},
    Reads e d b hs → Encodes e d' b' → b ++ r = b' ++ r' → b'.length < 2 ^ 31 →
      (∀ h ∈ hs, h.Proper) ∧ b = b' ∧ r = r'
  | d, d', b, b', r, r', hs, hd, hd', hb, hlen => by
    have hk := kind_eq_of_reads hd hd' hb
    match d, d', hd, hd', hk with
    | .null, .null, ⟨hd, hhs⟩, hd', _ =>
      obtain rfl : b' = [Tag.null] := hd'
      subst hd hhs
      exact ⟨fun _ h => (nomatch h), rfl, (List.cons.inj hb).2⟩
    | .boolean c, .boolean c', ⟨hd, hhs⟩, hd', hk =>
      obtain rfl : c = c' := Kind.boolean.inj hk
      obtain rfl : b' = [booleanTag c] := hd'
      subst hd hhs
      exact ⟨fun _ h => (nomatch h), rfl, (List.cons.inj hb).2⟩
    | .int x, .int x', ⟨h, hdel, hx, hb₁, hhs⟩, ⟨h', hv', hb₁'⟩, _ =>
      subst hb₁ hb₁' hhs
      obtain ⟨rfl, hrun, -, -, hr⟩ := header_eq hdel hv' (List.cons.inj hb).2
      exact ⟨fun y hy => by rw [List.mem_singleton.mp hy]; exact hrun, rfl, hr⟩
    | .long x, .long x', ⟨hd, hhs⟩, hd', _ =>
      obtain rfl : b' = Tag.long :: be64 x' := hd'
      subst hd hhs
      obtain ⟨hx, hr⟩ := List.append_inj (List.cons.inj hb).2 rfl
      exact ⟨fun _ h => (nomatch h), by rw [hx], hr⟩
    | .float x, .float x', ⟨hd, hhs⟩, hd', _ =>
      obtain rfl : b' = Tag.float :: be32 x' := hd'
      subst hd hhs
      obtain ⟨hx, hr⟩ := List.append_inj (List.cons.inj hb).2 rfl
      exact ⟨fun _ h => (nomatch h), by rw [hx], hr⟩
    | .double x, .double x', ⟨hd, hhs⟩, hd', _ =>
      obtain rfl : b' = Tag.double :: be64 x' := hd'
      subst hd hhs
      obtain ⟨hx, hr⟩ := List.append_inj (List.cons.inj hb).2 rfl
      exact ⟨fun _ h => (nomatch h), by rw [hx], hr⟩
    | .text k s, .text k' s', ⟨h, hdel, hs', hb₁, hhs⟩, ⟨h', hv', hb₁'⟩, hk =>
      obtain rfl : k = k' := Kind.text.inj hk
      subst hb₁ hb₁' hhs
      rw [List.length_cons, List.length_append, units_length] at hlen
      obtain ⟨hp, hbytes, hr⟩ := text_eq hdel hs' hv' (append_eq_of_cons hb) (by omega)
      exact ⟨fun y hy => by rw [List.mem_singleton.mp hy]; exact hp, by rw [hbytes], hr⟩
    | .array ds, .array ds', ⟨h, body, hs', hdel, hcount, hds, hb₁, hhs⟩,
        ⟨h', body', hv', hds', hb₁'⟩, _ =>
      subst hb₁ hb₁' hhs
      have hbound := hds'.length_le
      rw [List.length_cons, List.length_append] at hlen
      have hb := append_eq_of_cons hb
      rw [List.append_assoc, List.append_assoc] at hb
      obtain ⟨rfl, hrun, -, huint, hrest⟩ := header_eq hdel hv' hb
      rw [huint, Parser.toInt_ofNat (by omega)] at hcount
      obtain ⟨hp, rfl, hr⟩ := properItems_of_encodes hds hds' (by omega) hrest (by omega)
      exact ⟨List.forall_mem_cons.mpr ⟨hrun, hp⟩, rfl, hr⟩
    | .map es, .map es', ⟨h, body, hs', hdel, hcount, hes, hb₁, hhs⟩,
        ⟨h', body', hv', hes', hb₁'⟩, _ =>
      subst hb₁ hb₁' hhs
      have hbound := hes'.length_le
      rw [List.length_cons, List.length_append] at hlen
      have hb := append_eq_of_cons hb
      rw [List.append_assoc, List.append_assoc] at hb
      -- the headers agree, so that the count that is read is the one that is written, and no negative `int`
      obtain ⟨rfl, hrun, hgroups, huint, hrest⟩ := header_eq hdel hv' hb
      rw [huint, Parser.toInt_ofNat (by omega), Int.toNat_natCast] at hcount
      obtain ⟨hp, rfl, hr⟩ := properEntries_of_encodes hes hes' (by omega) hrest (by omega)
      exact ⟨List.forall_mem_cons.mpr ⟨⟨hrun, by omega⟩, hp⟩, rfl, hr⟩

theorem properItems_of_encodes : ∀ {ds ds' : List Doc} {b b' r r' : Bytes} {hs : List Header},
    ReadsItems e ds b hs → EncodesItems e ds' b' → ds.length = ds'.length → b ++ r = b' ++ r' →
      b'.length < 2 ^ 31 → (∀ h ∈ hs, h.Proper) ∧ b = b' ∧ r = r'
  | [], [], _, _, _, _, _, ⟨hd, hhs⟩, hd', _, hb, _ => by
    subst hd hd' hhs
    exact ⟨fun _ h => (nomatch h), rfl, hb⟩
  | _ :: _, _ :: _, _, _, _, _, _, ⟨b₁, b₂, hs₁, hs₂, h₁, h₂, hd, hhs⟩,
      ⟨b₁', b₂', h₁', h₂', hd'⟩, hcount, hb, hlen => by
    subst hd hd' hhs
    rw [List.append_assoc, List.append_assoc] at hb
    rw [List.length_append] at hlen
    obtain ⟨hp₁, rfl, hrest⟩ := proper_of_encodes h₁ h₁' hb (by omega)
    obtain ⟨hp₂, rfl, hr⟩ :=
      properItems_of_encodes h₂ h₂' (Nat.succ.inj hcount) hrest (by omega)
    exact ⟨List.forall_mem_append.mpr ⟨hp₁, hp₂⟩, rfl, hr⟩

theorem properEntries_of_encodes :
    ∀ {es es' : List (Utf16 × Doc)} {b b' r r' : Bytes} {hs : List Header},
      ReadsEntries e es b hs → EncodesEntries e es' b' → es.length = es'.length →
        b ++ r = b' ++ r' → b'.length < 2 ^ 31 → (∀ h ∈ hs, h.Proper) ∧ b = b' ∧ r = r'
  | [], [], _, _, _, _, _, ⟨hd, hhs⟩, hd', _, hb, _ => by
    subst hd hd' hhs
    exact ⟨fun _ h => (nomatch h), rfl, hb⟩
  | (k, _) :: _, (k', _) :: _, _, _, _, _, _, ⟨h, b₁, b₂, hs₁, hs₂, hd, hk, h₁, h₂, hb₁, hhs⟩,
      ⟨h', b₁', b₂', hv', h₁', h₂', hb₁'⟩, hcount, hb, hlen => by
    subst hb₁ hb₁' hhs
    simp only [List.length_append, units_length] at hlen
    rw [List.append_assoc _ b₂, List.append_assoc _ b₁, List.append_assoc _ b₂',
      List.append_assoc _ b₁'] at hb
    obtain ⟨hp, hkey, hvalue⟩ := text_eq hd hk hv' hb (by omega)
    obtain ⟨hp₁, rfl, hrest⟩ := proper_of_encodes h₁ h₁' hvalue (by omega)
    obtain ⟨hp₂, rfl, hr⟩ :=
      properEntries_of_encodes h₂ h₂' (Nat.succ.inj hcount) hrest (by omega)
    exact ⟨List.forall_mem_cons.mpr ⟨hp, List.forall_mem_append.mpr ⟨hp₁, hp₂⟩⟩, by rw [hkey], hr⟩

end

end Headers

/-! ## What `parse` accepts -/

section Parse

variable {e : Endian} {n : Nat} {data : Bytes} {position : Int}
  {cache cache' : BitVec 11 → Option Utf16} {object : JValue}

/-- The bytes from the position on begin with an encoding of a tree that means the object. -/
def BeginsWith (e : Endian) (data : Bytes) (position : Int) (object : JValue) : Prop :=
  ∃ d bs rest, data.drop position.toNat = bs ++ rest ∧ Doc.Encodes e d bs ∧
    d.meaning (fun _ => none) = some object

/-- All headers that the parser reads from the position on are proper. -/
def ProperFrom (e : Endian) (data : Bytes) (position : Int) : Prop :=
  ∀ d bs rest hs, data.drop position.toNat = bs ++ rest → Reads e d bs hs → ∀ h ∈ hs, h.Proper

/-- An object that is returned was read from the position. -/
theorem reads_of_parse (h : parse e n data position cache = .ok object cache')
    (hobject : object ≠ .null) :
    ∃ bs rest, data.drop position.toNat = bs ++ rest ∧ Parser.ReadsAs e bs object := by
  unfold parse at h
  cases hrun : Parser.readObject e data n ⟨position, cache⟩ with
  | error err p =>
    rw [hrun] at h
    simp only at h
    split at h
    · exact absurd (EStateM.Result.ok.inj h).1.symm hobject
    · exact nomatch h
  | ok v p =>
    rw [hrun] at h
    obtain ⟨rfl, -⟩ := EStateM.Result.ok.inj h
    have hreturns := returns_eq_some.mpr hrun
    by_cases hneg : position < 0
    · -- the type byte is not there
      cases n with
      | zero => exact nomatch hreturns
      | succ n =>
        rw [Parser.readObject_succ, Input.readType, returns_bind, returns_bind,
          Input.returns_getPosition, Option.bind_some, returns_bind] at hreturns
        obtain ⟨_, hload, -⟩ := Option.bind_eq_some_iff.mp hreturns
        obtain ⟨⟨b, q⟩, hload, -⟩ := Option.bind_eq_some_iff.mp hload
        obtain ⟨j, hj, -⟩ := Input.returns_load_eq_some.mp hload
        simp only at hj
        omega
    · have hat : Input.At ⟨position, cache⟩ position.toNat := by
        show position = position.toNat
        omega
      obtain ⟨bs, rest, hd, hreads, -⟩ := Parser.produces_readObject n _ _ _ _ hat hreturns
      exact ⟨bs, rest, hd, hreads⟩

/-- Only null means null. -/
theorem eq_null_of_meaning {decode : Bytes → Option Utf16} :
    ∀ {d : Doc}, d.meaning decode = some .null → d = .null
  | .null, _ => rfl
  | .text .string _, h => nomatch h
  | .text .bigInteger _, h | .text .bigDecimal _, h | .uint8String _, h
  | .array _, h | .map _, h => by
    obtain ⟨_, _, h⟩ := Option.map_eq_some_iff.mp h
    exact nomatch h

/-- What is returned for an encoding of one document is the meaning of that document. -/
theorem reads_of_parse_encode {d : Doc} {bytes : Bytes} (hd : d.Encodes e bytes)
    (hlen : bytes.length < 2 ^ 31) (h : parse e n bytes 0 cache = .ok object cache')
    (hobject : object ≠ .null) :
    (∃ bs hs, Reads e d bs hs) ∧ d.meaning (fun _ => none) = some object := by
  obtain ⟨bs, rest, hdrop, d', hs, hreads, hmeaning⟩ := reads_of_parse h hobject
  have happend : bs ++ rest = bytes ++ [] := by
    rw [← hdrop, List.append_nil]
    rfl
  obtain ⟨hproper, rfl, -⟩ := proper_of_encodes hreads hd happend hlen
  obtain rfl := (encodes_of_reads hreads hproper).inj hd
  exact ⟨⟨bs, hs, hreads⟩, hmeaning⟩

/-- **What the parser accepts**: an object that is returned is the meaning of a well-formed
encoding at the position iff all headers on the way are proper. -/
theorem beginsWith_iff (hlen : data.length < 2 ^ 31)
    (h : parse e n data position cache = .ok object cache') (hobject : object ≠ .null) :
    BeginsWith e data position object ↔ ProperFrom e data position := by
  constructor
  · rintro ⟨d, bs, rest, hd, hencodes, -⟩ d' bs' rest' hs hd' hreads
    -- an encoding that stands in the data is no longer than the data
    have hbs : bs.length < 2 ^ 31 := by
      have hle := congrArg List.length hd
      rw [List.length_drop, List.length_append] at hle
      omega
    exact (proper_of_encodes hreads hencodes (hd'.symm.trans hd) hbs).1
  · intro hproper
    obtain ⟨bs, rest, hd, d, hs, hreads, hv⟩ := reads_of_parse h hobject
    exact ⟨d, bs, rest, hd, encodes_of_reads hreads (hproper d bs rest hs hd hreads), hv⟩

/-! ### Two documents -/

theorem beginsWith_sample_iff :
    ∃ cache', parse .little 2 [Tag.null, Tag.array, 0x01, Tag.int, 0x02] 1 (fun _ => none)
        = .ok (.list [.number (.integer 1)]) cache' ∧
      (BeginsWith .little [Tag.null, Tag.array, 0x01, Tag.int, 0x02] 1
          (.list [.number (.integer 1)]) ↔
        ProperFrom .little [Tag.null, Tag.array, 0x01, Tag.int, 0x02] 1) := by
  have hparse : parse .little 2 [Tag.null, Tag.array, 0x01, Tag.int, 0x02] 1 (fun _ => none)
      = .ok (.list [.number (.integer 1)]) fun _ => none := rfl
  exact ⟨_, hparse, beginsWith_iff (by decide) hparse (by simp)⟩

/-- A map count of `2^31`. -/
theorem not_beginsWith_negativeCount :
    ∃ cache', parse .little 1 [Tag.map, 0x80, 0x80, 0x80, 0x80, 0x08] 0 (fun _ => none)
        = .ok (.map []) cache' ∧
      ¬ BeginsWith .little [Tag.map, 0x80, 0x80, 0x80, 0x80, 0x08] 0 (.map []) := by
  have hparse : parse .little 1 [Tag.map, 0x80, 0x80, 0x80, 0x80, 0x08] 0 (fun _ => none)
      = .ok (.map []) fun _ => none := rfl
  refine ⟨_, hparse, ?_⟩
  rintro ⟨d, bs, rest, hd, hencodes, -⟩
  have hreads : Reads .little (.map []) [Tag.map, 0x80, 0x80, 0x80, 0x80, 0x08]
      [.map [0x80, 0x80, 0x80, 0x80, 0x08]] :=
    ⟨_, [], [], by simp [Delimited], by decide, ⟨rfl, rfl⟩, rfl, rfl⟩
  have hbs : bs.length < 2 ^ 31 := by
    have hle := congrArg List.length hd
    rw [List.length_drop, List.length_append] at hle
    simp only [List.length_cons, List.length_nil] at hle
    omega
  have hproper := (proper_of_encodes (r := []) hreads hencodes hd hbs).1 _ List.mem_cons_self
  exact absurd hproper.2 (by decide)

end Parse

end Wson.Java
