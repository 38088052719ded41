import Wson.Native.Accessors
import Wson.Text.Json

/-!
# The JSON text denotes the document

`toJSONtring` appends the bytes of a UTF-8 text without quotes, and `nan` or `inf` for a
`float` or `double` that is no number. Where a document has no such leaf its text is JSON
and denotes the tree `jsonOf` of the document (`denotes_jsonText`); otherwise no reading of
the text gives that tree (`printable_of_denotes`). `rendersJson_iff` puts this together for
`toStringUTF8`.
-/

namespace Wson.Native

open Effect Text Wire

namespace Parser

open Buffer

section Tree

variable (libc : Libc)

mutual

/-- The tree that the text of a document should denote. -/
def jsonOf : Doc → Json
  | .null => .string []
  | .boolean b => .bool b
  | .int x => .number (libc.appendInt x)
  | .long x => .number (libc.appendLong x)
  | .float x => .number (libc.appendFloat x)
  | .double x => .number (libc.appendDouble x)
  | .text _ s => .string (utf8 s)
  | .uint8String bs => .string bs
  | .array ds => .array (jsonOfItems ds)
  | .map es => .object (jsonOfEntries es)

def jsonOfItems : List Doc → List Json
  | [] => []
  | d :: ds => jsonOf d :: jsonOfItems ds

def jsonOfEntries : List (Utf16 × Doc) → List (Bytes × Json)
  | [] => []
  | (k, d) :: es => (utf8 k, jsonOf d) :: jsonOfEntries es

end

/-- The pattern denotes a number. -/
def IsFinite (x : BitVec 64) : Prop :=
  ∃ q, Binary64.value x = .finite q

/-- The text is quoted as it should. -/
def Quotes (s : Utf16) : Prop :=
  Chars (quoteUnits s) (utf8 s)

/-- The token that is appended for the leaf is one, as far as it is not this parser that
makes it. -/
def LeafToken : Doc → Prop
  | .int x => IsNumber (libc.appendInt x)
  | .long x => IsNumber (libc.appendLong x)
  | .float x => IsNumber (libc.appendFloat x) ↔ IsFinite (Binary64.ofFloat x)
  | .double x => IsNumber (libc.appendDouble x) ↔ IsFinite x
  | .text _ s => Quotes s
  | _ => True

/-- The tokens of all leaves and keys. -/
abbrev Tokens : Doc → Prop :=
  Doc.Leaves (LeafToken libc) Quotes

end Tree

/-- A leaf with a token of its own. -/
def PrintableLeaf : Doc → Prop
  | .float x => IsFinite (Binary64.ofFloat x)
  | .double x => IsFinite x
  | .uint8String _ => False
  | _ => True

/-- There is no UTF-8 text in the document, no infinity and no NaN. -/
abbrev Printable : Doc → Prop :=
  Doc.AllLeaves PrintableLeaf

variable {libc : Libc}

/-! ## The text of a printable document -/

theorem stringToken_quote {s : Utf16} (h : Quotes s) :
    StringToken (utf16ConvertToUtf8QuoteCstr s) (utf8 s) :=
  ⟨_, h, rfl⟩

mutual

theorem denotes_jsonText : ∀ {d : Doc}, Tokens libc d → Printable d →
    Json.Denotes (jsonOf libc d) (jsonText libc d)
  | .null, _, _ => ⟨[], .nil, rfl⟩
  | .boolean true, _, _ | .boolean false, _, _ => rfl
  | .int _, htok, _ | .long _, htok, _ => ⟨rfl, htok⟩
  | .float _, htok, h | .double _, htok, h => ⟨rfl, htok.mpr h⟩
  | .text _ _, htok, _ => stringToken_quote htok
  | .uint8String _, _, h => h.elim
  | .array _, htok, h => ⟨_, denotesItems_jsonText htok h, rfl⟩
  | .map _, htok, h => ⟨_, denotesMembers_jsonText htok h, rfl⟩

theorem denotesItems_jsonText : ∀ {ds : List Doc}, Doc.LeavesItems (LeafToken libc) Quotes ds →
    Doc.LeavesItems PrintableLeaf (fun _ => True) ds →
      Json.DenotesItems (jsonOfItems libc ds) (jsonTextItems libc ds)
  | [], _, _ => space_nil
  | [d], htok, h =>
    ⟨[], _, [], [], space_nil, denotes_jsonText htok.1 h.1, space_nil, .inl ⟨rfl, rfl⟩, by
      simp [jsonTextItems]⟩
  | d :: d' :: ds, htok, h =>
    ⟨[], _, [], _, space_nil, denotes_jsonText htok.1 h.1, space_nil,
      .inr ⟨nofun, _, denotesItems_jsonText htok.2 h.2, rfl⟩, by simp [jsonTextItems]⟩

theorem denotesMembers_jsonText : ∀ {es : List (Utf16 × Doc)},
    Doc.LeavesEntries (LeafToken libc) Quotes es →
      Doc.LeavesEntries PrintableLeaf (fun _ => True) es →
        Json.DenotesMembers (jsonOfEntries libc es) (jsonTextEntries libc es)
  | [], _, _ => space_nil
  | [(k, d)], htok, h =>
    ⟨[], _, [], [], _, [], [], space_nil, stringToken_quote htok.1, space_nil, space_nil,
      denotes_jsonText htok.2.1 h.2.1, space_nil, .inl ⟨rfl, rfl⟩, by simp [jsonTextEntries]⟩
  | (k, d) :: (k', d') :: es, htok, h =>
    ⟨[], _, [], [], _, [], _, space_nil, stringToken_quote htok.1, space_nil, space_nil,
      denotes_jsonText htok.2.1 h.2.1, space_nil,
      .inr ⟨nofun, _, denotesMembers_jsonText htok.2.2 h.2.2, rfl⟩, by simp [jsonTextEntries]⟩

end

/-! ## Readings of a text -/

/-- A literal that is read as itself. -/
theorem eq_of_literal {b c : Byte} {t r ws rest : Bytes} (hb : ¬ IsSpace b) (hws : Space ws)
    (heq : b :: t ++ c :: r = ws ++ (b :: t ++ rest)) : c :: r = rest := by
  obtain ⟨-, -, htail⟩ := hws.eq_nil_of_cons hb heq
  exact List.append_cancel_left htail

theorem eq_of_number {c : Byte} {t r ws rest : Bytes} (ht : IsNumber t) (hws : Space ws)
    (heq : t ++ c :: r = ws ++ (t ++ rest)) : c :: r = rest := by
  obtain ⟨b, t, rfl, hb⟩ := ht.head
  exact eq_of_literal hb hws heq

/-- What is left behind a string and its reading. -/
theorem eq_of_quote {s : Utf16} {cs t r ws rest : Bytes} (hs : Quotes s) (hws : Space ws)
    (ht : StringToken t cs) (heq : utf16ConvertToUtf8QuoteCstr s ++ r = ws ++ (t ++ rest)) :
    r = rest := by
  rw [utf16ConvertToUtf8QuoteCstr, List.cons_append, List.append_assoc] at heq
  exact (hs.body.token_inj hws ht heq).2

/-- What is left between two brackets and their reading. -/
theorem eq_of_brackets {a b c : Byte} {x y r ws rest : Bytes} (ha : ¬ IsSpace a) (hws : Space ws)
    (heq : a :: (x ++ [b]) ++ c :: r = ws ++ (a :: (y ++ [b]) ++ rest)) :
    x ++ b :: c :: r = y ++ b :: rest := by
  obtain ⟨-, -, htail⟩ := hws.eq_nil_of_cons ha heq
  have htail : x ++ [b] ++ c :: r = y ++ [b] ++ rest := htail
  rwa [List.append_assoc, List.append_assoc] at htail

/-- Between two values there is a comma and nothing else. -/
theorem eq_of_separator {c c' : Byte} {r ws rest : Bytes} (hc : IsSeparator c) (hws : Space ws)
    (heq : c :: r = ws ++ c' :: rest) : c = c' ∧ r = rest :=
  (hws.eq_nil_of_cons hc.not_isSpace heq).2

mutual

/-- **Only a printable document** has a text that can be read as its tree, and then the
reading ends where the text does. -/
theorem printable_of_denotes : ∀ {d : Doc} {c : Byte} {r ws t rest : Bytes}, Tokens libc d →
    IsSeparator c → Space ws → Json.Denotes (jsonOf libc d) t →
      jsonText libc d ++ c :: r = ws ++ (t ++ rest) → Printable d ∧ c :: r = rest
  | .null, _, _, _, _, _, _, _, hws, ht, heq => ⟨trivial, (Body.nil.token_inj hws ht heq).2⟩
  | .boolean true, _, _, _, _, _, _, _, hws, ht, heq => by
    obtain rfl := ht
    exact ⟨trivial, eq_of_literal (by decide) hws heq⟩
  | .boolean false, _, _, _, _, _, _, _, hws, ht, heq => by
    obtain rfl := ht
    exact ⟨trivial, eq_of_literal (by decide) hws heq⟩
  | .int x, _, _, _, _, _, _, _, hws, ht, heq => by
    obtain ⟨rfl, ht⟩ := ht
    exact ⟨trivial, eq_of_number ht hws heq⟩
  | .long x, _, _, _, _, _, _, _, hws, ht, heq => by
    obtain ⟨rfl, ht⟩ := ht
    exact ⟨trivial, eq_of_number ht hws heq⟩
  | .float x, _, _, _, _, _, htok, _, hws, ht, heq => by
    obtain ⟨rfl, ht⟩ := ht
    exact ⟨htok.mp ht, eq_of_number ht hws heq⟩
  | .double x, _, _, _, _, _, htok, _, hws, ht, heq => by
    obtain ⟨rfl, ht⟩ := ht
    exact ⟨htok.mp ht, eq_of_number ht hws heq⟩
  | .text _ _, _, _, _, _, _, htok, _, hws, ht, heq => ⟨trivial, eq_of_quote htok hws ht heq⟩
  | .uint8String _, _, _, _, _, _, _, hc, hws, ht, heq => absurd heq (ht.not_prefix hws hc)
  | .array ds, c, r, _, _, rest, htok, hc, hws, ht, heq => by
    obtain ⟨body, hbody, rfl⟩ := ht
    obtain ⟨hds, -, hrest⟩ :=
      printableItems_of_denotes htok (.inr (.inl rfl)) hbody (eq_of_brackets (by decide) hws heq)
    exact ⟨hds, hrest⟩
  | .map es, c, r, _, _, rest, htok, hc, hws, ht, heq => by
    obtain ⟨body, hbody, rfl⟩ := ht
    obtain ⟨hes, -, hrest⟩ :=
      printableEntries_of_denotes htok (.inr (.inr rfl)) hbody (eq_of_brackets (by decide) hws heq)
    exact ⟨hes, hrest⟩

theorem printableItems_of_denotes : ∀ {ds : List Doc} {c c' : Byte} {r body rest : Bytes},
    Doc.LeavesItems (LeafToken libc) Quotes ds → IsSeparator c →
      Json.DenotesItems (jsonOfItems libc ds) body →
        jsonTextItems libc ds ++ c :: r = body ++ c' :: rest →
          Doc.LeavesItems PrintableLeaf (fun _ => True) ds ∧ c = c' ∧ r = rest
  | [], _, _, _, _, _, _, hc, hbody, heq => ⟨trivial, eq_of_separator hc hbody heq⟩
  | [d], c, c', r, _, rest, htok, hc, ⟨ws, t, ws', rest', hws, ht, hws', hrest', hbody⟩, heq => by
    obtain ⟨-, rfl⟩ | ⟨hne, -⟩ := hrest'
    · subst hbody
      have heq : jsonText libc d ++ c :: r = ws ++ (t ++ (ws' ++ c' :: rest)) := by
        simpa [jsonTextItems] using heq
      obtain ⟨hd, htail⟩ := printable_of_denotes htok.1 hc hws ht heq
      exact ⟨⟨hd, trivial⟩, eq_of_separator hc hws' htail⟩
    · exact absurd rfl hne
  | d :: d' :: ds, c, c', r, _, rest, htok, hc, ⟨ws, t, ws', rest', hws, ht, hws', hrest', hbody⟩,
    heq => by
    obtain ⟨hne, -⟩ | ⟨-, body', hbody', rfl⟩ := hrest'
    · exact nomatch hne
    · subst hbody
      have heq : jsonText libc d ++ 0x2C :: (jsonTextItems libc (d' :: ds) ++ c :: r) =
          ws ++ (t ++ (ws' ++ 0x2C :: (body' ++ c' :: rest))) := by
        rw [jsonTextItems, if_pos (show (d' :: ds).length ≠ 0 from Nat.succ_ne_zero _)] at heq
        simpa using heq
      obtain ⟨hd, htail⟩ := printable_of_denotes htok.1 (.inl rfl) hws ht heq
      obtain ⟨-, htail⟩ := eq_of_separator (.inl rfl) hws' htail
      obtain ⟨hds, hrest⟩ := printableItems_of_denotes htok.2 hc hbody' htail
      exact ⟨⟨hd, hds⟩, hrest⟩

theorem printableEntries_of_denotes : ∀ {es : List (Utf16 × Doc)} {c c' : Byte}
    {r body rest : Bytes}, Doc.LeavesEntries (LeafToken libc) Quotes es → IsSeparator c →
      Json.DenotesMembers (jsonOfEntries libc es) body →
        jsonTextEntries libc es ++ c :: r = body ++ c' :: rest →
          Doc.LeavesEntries PrintableLeaf (fun _ => True) es ∧ c = c' ∧ r = rest
  | [], _, _, _, _, _, _, hc, hbody, heq => ⟨trivial, eq_of_separator hc hbody heq⟩
  | [(k, d)], c, c', r, _, rest, htok, hc,
    ⟨ws, name, ws₁, ws₂, t, ws', rest', hws, hname, hws₁, hws₂, ht, hws', hrest', hbody⟩, heq => by
    obtain ⟨-, rfl⟩ | ⟨hne, -⟩ := hrest'
    · subst hbody
      have heq : utf16ConvertToUtf8QuoteCstr k ++ 0x3A :: (jsonText libc d ++ c :: r) =
          ws ++ (name ++ (ws₁ ++ 0x3A :: (ws₂ ++ (t ++ (ws' ++ c' :: rest))))) := by
        simpa [jsonTextEntries] using heq
      have hcolon := eq_of_quote htok.1 hws hname heq
      obtain ⟨-, -, hvalue⟩ := hws₁.eq_nil_of_cons (by decide) hcolon
      obtain ⟨hd, htail⟩ := printable_of_denotes htok.2.1 hc hws₂ ht hvalue
      exact ⟨⟨trivial, hd, trivial⟩, eq_of_separator hc hws' htail⟩
    · exact absurd rfl hne
  | (k, d) :: (k', d') :: es, c, c', r, _, rest, htok, hc,
    ⟨ws, name, ws₁, ws₂, t, ws', rest', hws, hname, hws₁, hws₂, ht, hws', hrest', hbody⟩, heq => by
    obtain ⟨hne, -⟩ | ⟨-, body', hbody', rfl⟩ := hrest'
    · exact nomatch hne
    · subst hbody
      have heq : utf16ConvertToUtf8QuoteCstr k ++ 0x3A :: (jsonText libc d ++
          0x2C :: (jsonTextEntries libc ((k', d') :: es) ++ c :: r)) =
          ws ++ (name ++ (ws₁ ++ 0x3A :: (ws₂ ++ (t ++ (ws' ++ 0x2C :: (body' ++ c' :: rest)))))) := by
        rw [jsonTextEntries, if_pos (show ((k', d') :: es).length ≠ 0 from Nat.succ_ne_zero _)] at heq
        simpa using heq
      have hcolon := eq_of_quote htok.1 hws hname heq
      obtain ⟨-, -, hvalue⟩ := hws₁.eq_nil_of_cons (by decide) hcolon
      obtain ⟨hd, htail⟩ := printable_of_denotes htok.2.1 (.inl rfl) hws₂ ht hvalue
      obtain ⟨-, htail⟩ := eq_of_separator (.inl rfl) hws' htail
      obtain ⟨hes, hrest⟩ := printableEntries_of_denotes htok.2.2 hc hbody' htail
      exact ⟨⟨trivial, hd, hes⟩, hrest⟩

end

/-- A text is JSON and denotes the tree of the document iff the document is printable. -/
theorem accepts_jsonText_iff {d : Doc} (htok : Tokens libc d) :
    Json.Accepts (jsonOf libc d) (jsonText libc d) ↔ Printable d := by
  constructor
  · rintro ⟨ws, t, ws', hws, ht, -, htext⟩
    -- A comma behind both sides, as if the value stood in an array.
    have heq : jsonText libc d ++ 0x2C :: [] = ws ++ (t ++ (ws' ++ [0x2C])) := by
      rw [htext, List.append_assoc, List.append_assoc]
    exact (printable_of_denotes htok (.inl rfl) hws ht heq).1
  · intro h
    exact ⟨[], _, [], space_nil, denotes_jsonText htok h, space_nil, (List.append_nil _).symm⟩

/-! ## `toStringUTF8` -/

/-- Wherever the parser stands it returns a JSON text of the document, and stands there
again. -/
def RendersJson (e : Endian) (libc : Libc) (n : Nat) (bs : Bytes) (d : Doc) : Prop :=
  ∀ p length, p ≤ bs.length → 0 < length → ∃ text,
    returns (toStringUTF8 .io e libc n) ⟨bs, p, length⟩ = some (text, ⟨bs, p, length⟩) ∧
      Json.Accepts (jsonOf libc d) text

variable {e : Endian} {n : Nat} {d : Doc} {bs : Bytes}

theorem returns_toStringUTF8 (hd : d.Encodes e bs) (hroot : ¬ d.IsLeaf) (hsize : bs.length < 2 ^ 31)
    {p length : Nat} (hlength : 0 < length) :
    returns (toStringUTF8 .io e libc n) ⟨bs, p, length⟩ =
      (returns (toJSONtring .io e libc n) ⟨bs, 0, length⟩).map
        fun r => (r.1, { r.2 with position := p }) := by
  have hget : returns getState ⟨bs, p, length⟩ = some (p, ⟨bs, p, length⟩) := rfl
  have hrestore {buffer : Buffer} {q : Nat} :
    returns (restoreToState q) buffer = some ((), { buffer with position := q }) := rfl
  have hstring : returns (do nextStringUTF8 .io e libc n (← nextType .io)) ⟨bs, 0, length⟩ =
      returns (toJSONtring .io e libc n) ⟨bs, 0, length⟩ :=
    returns_nextStringUTF8 (Nat.lt_trans hsize (by decide)) hd hroot (List.append_nil bs).symm
      (Nat.zero_le _) hlength
  rw [toStringUTF8, returns_bind, hget, Option.bind_some, returns_bind, hrestore, Option.bind_some,
    ← bind_assoc, returns_bind, hstring]
  cases returns (toJSONtring .io e libc n) ⟨bs, 0, length⟩ with
  | none => rfl
  | some r => rfl

theorem printable_of_rendersJson (hd : d.Encodes e bs) (hroot : ¬ d.IsLeaf)
    (hsize : bs.length < 2 ^ 31) (hn : d.height < n) (htok : Tokens libc d)
    (h : RendersJson e libc n bs d) : Printable d ∧ DecodableDoc d := by
  have hdata : bs.length < 2 ^ Library.bits .io := Nat.lt_trans hsize (by decide)
  have hdrop : bs.drop 0 = bs ++ [] := (List.append_nil bs).symm
  obtain ⟨text, hrun, haccepts⟩ := h 0 1 (Nat.zero_le _) Nat.one_pos
  rw [returns_toStringUTF8 hd hroot hsize Nat.one_pos] at hrun
  have hdec : DecodableDoc d := by
    by_contra hdec
    rw [returns_toJSONtring_none hdata hd hdec hn (hd.within hsize) (Nat.zero_le _) hdrop] at hrun
    exact nomatch hrun
  obtain ⟨_, htext, -⟩ := consumes_toJSONtring hdata hd hdec hn (hd.within hsize)
    ⟨bs, 0, 1⟩ 0 [] ⟨rfl, Nat.zero_le _⟩ hdrop
  rw [htext] at hrun
  obtain rfl := congrArg Prod.fst (Option.some.inj hrun)
  exact ⟨(accepts_jsonText_iff htok).mp haccepts, hdec⟩

theorem rendersJson_of_printable (hd : d.Encodes e bs) (hroot : ¬ d.IsLeaf)
    (hsize : bs.length < 2 ^ 31) (hn : d.height < n) (htok : Tokens libc d) (hprint : Printable d)
    (hdec : DecodableDoc d) : RendersJson e libc n bs d := by
  intro p length hp hlength
  have hdata : bs.length < 2 ^ Library.bits .io := Nat.lt_trans hsize (by decide)
  have hdrop : bs.drop 0 = bs ++ [] := (List.append_nil bs).symm
  obtain ⟨_, htext, rfl, -⟩ := consumes_toJSONtring hdata hd hdec hn (hd.within hsize)
    ⟨bs, 0, length⟩ 0 [] ⟨rfl, Nat.zero_le _⟩ hdrop
  refine ⟨jsonText libc d, ?_, (accepts_jsonText_iff htok).mpr hprint⟩
  rw [returns_toStringUTF8 hd hroot hsize hlength, htext]
  rfl

/-- **What `toStringUTF8` renders as JSON.** -/
theorem rendersJson_iff (hd : d.Encodes e bs) (hroot : ¬ d.IsLeaf) (hsize : bs.length < 2 ^ 31)
    (hn : d.height < n) (htok : Tokens libc d) :
    RendersJson e libc n bs d ↔ Printable d ∧ DecodableDoc d := by
  constructor
  · intro h
    exact printable_of_rendersJson hd hroot hsize hn htok h
  · rintro ⟨hprint, hdec⟩
    exact rendersJson_of_printable hd hroot hsize hn htok hprint hdec

/-- `{"k":[1,"a",null]}`. -/
theorem rendersJson_iff_map :
    RendersJson .little .ofIntegers 3 (Doc.encode .little
      (.map [([0x6B], .array [.int 1, .text .string [0x61], .null])]))
      (.map [([0x6B], .array [.int 1, .text .string [0x61], .null])]) ↔
    Printable (.map [([0x6B], .array [.int 1, .text .string [0x61], .null])]) ∧
      DecodableDoc (.map [([0x6B], .array [.int 1, .text .string [0x61], .null])]) := by
  have hchar {b : Byte} (hb : IsPlain b) : Chars [b] [b] := .plain hb .nil
  refine rendersJson_iff (Doc.encodes_encode _ ?_) (fun h => h) ?_ ?_ ?_
  · simp [Doc.Sized, Doc.SizedEntries, Doc.SizedItems]
  · decide
  · simp [Doc.height, Doc.heightEntries, Doc.heightItems]
  · refine ⟨hchar (by decide), ⟨⟨[], [0x31], [], [], rfl, .inl rfl, ?_, .inl rfl, .inl rfl⟩,
      hchar (by decide), trivial, trivial⟩, trivial⟩
    exact .inr ⟨⟨by rintro ⟨⟩, by decide⟩, by decide⟩

/-- A UTF-8 text stands there without quotes: `[a]`. -/
theorem not_rendersJson_uint8String :
    ¬ RendersJson .little .ofIntegers 2 [0x5B, 0x01, 0x75, 0x01, 0x61] (.array [.uint8String [0x61]]) := by
  intro h
  have hencodes : (Doc.array [.uint8String [0x61]]).Encodes .little [0x5B, 0x01, 0x75, 0x01, 0x61] :=
    Doc.encodes_encode .little (d := .array [.uint8String [0x61]]) (by simp [Doc.Sized, Doc.SizedItems])
  exact (printable_of_rendersJson hencodes (fun h => h) (by decide) (by simp [Doc.height, Doc.heightItems])
    ⟨trivial, trivial⟩ h).1.1

end Parser

end Wson.Native
