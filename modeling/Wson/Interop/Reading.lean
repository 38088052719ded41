import Wson.Java.Accept
import Wson.Native.Calls

/-!
# C documents in the Java parser

What `Wson.parse` makes of a tree that the tagged writers of `io/` have written. The
switch of the Java parser has a case for every tag of the writers but the one of
UTF-8 texts, so the tree comes back iff there is no such text in it
(`readsBack_iff`); otherwise `parse` returns null.
-/

namespace Wson.Interop

open Effect Wire Native Java

/-- The calls return, and `Wson.parse` of what they have written is the tree. `decode` makes
Java strings of UTF-8 texts. -/
def ReadsBack (e : Endian) (decode : Bytes → Option Utf16) (n : Nat) (block : Bytes) (t : Tree)
    (d : Doc) : Prop :=
  ∃ buffer v, Call.after .io block (t.calls e) = some buffer ∧ d.meaning decode = some v ∧
    ∀ cache, ∃ cache', parse e n buffer.written 0 cache = .ok v cache'

/-! ## Meanings -/

/-- A leaf that the parser has a case for and that is no big number. -/
def Plain (d : Doc) : Prop :=
  d.kind ≠ .uint8String ∧ d.kind ≠ .text .bigInteger ∧ d.kind ≠ .text .bigDecimal

mutual

/-- Such a tree means something, and the same for every way to decode UTF-8. -/
theorem exists_meaning : ∀ {d : Doc}, d.AllLeaves Plain →
    ∃ v, ∀ decode, d.meaning decode = some v
  | .null, _ | .boolean _, _ | .int _, _ | .long _, _ | .float _, _ | .double _, _ =>
    ⟨_, fun _ => rfl⟩
  | .text .string _, _ => ⟨_, fun _ => rfl⟩
  | .text .bigInteger _, h => absurd rfl h.2.1
  | .text .bigDecimal _, h => absurd rfl h.2.2
  | .uint8String _, h => absurd rfl h.1
  | .array ds, h => by
    obtain ⟨vs, hvs⟩ := exists_meaningItems h
    exact ⟨.list vs, fun decode => by rw [Doc.meaning, hvs]; rfl⟩
  | .map es, h => by
    obtain ⟨object, hobject⟩ := exists_meaningEntries h []
    exact ⟨.map object, fun decode => by rw [Doc.meaning, hobject]; rfl⟩

theorem exists_meaningItems : ∀ {ds : List Doc}, Doc.LeavesItems Plain (fun _ => True) ds →
    ∃ vs, ∀ decode, Doc.meaningItems decode ds = some vs
  | [], _ => ⟨[], fun _ => rfl⟩
  | _ :: _, h => by
    obtain ⟨v, hv⟩ := exists_meaning h.1
    obtain ⟨vs, hvs⟩ := exists_meaningItems h.2
    exact ⟨v :: vs, fun decode => by rw [Doc.meaningItems, hv, hvs]; rfl⟩

theorem exists_meaningEntries : ∀ {es : List (Utf16 × Doc)},
    Doc.LeavesEntries Plain (fun _ => True) es → ∀ object,
      ∃ object', ∀ decode, Doc.meaningEntries decode object es = some object'
  | [], _, object => ⟨object, fun _ => rfl⟩
  | (k, _) :: _, h, object => by
    obtain ⟨v, hv⟩ := exists_meaning h.2.1
    obtain ⟨object', hobject'⟩ := exists_meaningEntries h.2.2 (mapPut k v object)
    exact ⟨object', fun decode => by rw [Doc.meaningEntries, hv]; exact hobject' decode⟩

end

mutual

/-- Nothing that the parser builds holds a UTF-8 text. -/
theorem allLeaves_of_reads {e : Endian} : ∀ {d : Doc} {bs : Bytes} {hs : List Header},
    Reads e d bs hs → d.AllLeaves fun u => u.kind ≠ .uint8String
  | .null, _, _, _ | .boolean _, _, _, _ | .int _, _, _, _ | .long _, _, _, _ | .float _, _, _, _
  | .double _, _, _, _ | .text _ _, _, _, _ => fun h => nomatch h
  | .uint8String _, _, _, h => h.elim
  | .array _, _, _, ⟨_, _, _, _, _, h, _⟩ => allLeaves_of_readsItems h
  | .map _, _, _, ⟨_, _, _, _, _, h, _⟩ => allLeaves_of_readsEntries h

theorem allLeaves_of_readsItems {e : Endian} : ∀ {ds : List Doc} {bs : Bytes} {hs : List Header},
    ReadsItems e ds bs hs → Doc.LeavesItems (fun u => u.kind ≠ .uint8String) (fun _ => True) ds
  | [], _, _, _ => trivial
  | _ :: _, _, _, ⟨_, _, _, _, h₁, h₂, _⟩ => ⟨allLeaves_of_reads h₁, allLeaves_of_readsItems h₂⟩

theorem allLeaves_of_readsEntries {e : Endian} :
    ∀ {es : List (Utf16 × Doc)} {bs : Bytes} {hs : List Header}, ReadsEntries e es bs hs →
      Doc.LeavesEntries (fun u => u.kind ≠ .uint8String) (fun _ => True) es
  | [], _, _, _ => trivial
  | (_, _) :: _, _, _, ⟨_, _, _, _, _, _, _, h₁, h₂, _⟩ =>
    ⟨trivial, allLeaves_of_reads h₁, allLeaves_of_readsEntries h₂⟩

end

mutual

/-- The tagged writers write no big number. -/
theorem plain_of_doc : ∀ {t : Tree} {d : Doc}, t.doc = some d →
    (d.AllLeaves fun u => u.kind ≠ .uint8String) → d.AllLeaves Plain
  | .null, _, hd, _ | .boolean _, _, hd, _ | .int _, _, hd, _ | .long _, _, hd, _
  | .float _, _, hd, _ | .double _, _, hd, _ | .string _, _, hd, _ => by
    obtain rfl := Option.some.inj hd
    show Plain _
    exact ⟨nofun, nofun, nofun⟩
  | .uint8String _, _, hd, h => by
    obtain rfl := Option.some.inj hd
    exact absurd rfl h
  | .array _, _, hd, h => by
    obtain ⟨ds, hds, rfl⟩ := Option.map_eq_some_iff.mp hd
    exact plain_of_docItems hds h
  | .map _, _, hd, h => by
    obtain ⟨es, hes, rfl⟩ := Option.map_eq_some_iff.mp hd
    exact plain_of_docEntries hes h

theorem plain_of_docItems : ∀ {ts : List Tree} {ds : List Doc}, Tree.docItems ts = some ds →
    Doc.LeavesItems (fun u => u.kind ≠ .uint8String) (fun _ => True) ds →
      Doc.LeavesItems Plain (fun _ => True) ds
  | [], _, hd, _ => by
    obtain rfl := Option.some.inj hd
    trivial
  | _ :: _, _, hd, h => by
    obtain ⟨d, hd₁, hd⟩ := Option.bind_eq_some_iff.mp hd
    obtain ⟨ds, hd₂, hd⟩ := Option.bind_eq_some_iff.mp hd
    obtain rfl := Option.some.inj hd
    exact ⟨plain_of_doc hd₁ h.1, plain_of_docItems hd₂ h.2⟩

theorem plain_of_docEntries : ∀ {es : List (Utf16 × Tree)} {ds : List (Utf16 × Doc)},
    Tree.docEntries es = some ds →
      Doc.LeavesEntries (fun u => u.kind ≠ .uint8String) (fun _ => True) ds →
        Doc.LeavesEntries Plain (fun _ => True) ds
  | [], _, hd, _ => by
    obtain rfl := Option.some.inj hd
    trivial
  | (_, _) :: _, _, hd, h => by
    obtain ⟨d, hd₁, hd⟩ := Option.bind_eq_some_iff.mp hd
    obtain ⟨ds, hd₂, hd⟩ := Option.bind_eq_some_iff.mp hd
    obtain rfl := Option.some.inj hd
    exact ⟨trivial, plain_of_doc hd₁ h.2.1, plain_of_docEntries hd₂ h.2.2⟩

end

/-! ## Reading back -/

/-- **Java reads what C writes** iff it holds no UTF-8 text. -/
theorem readsBack_iff {e : Endian} {decode : Bytes → Option Utf16} {n : Nat} {t : Tree} {d : Doc}
    (ht : t.doc = some d) (hlen : (d.encode e).length < 2 ^ 31) (hn : d.height < n) (block : Bytes) :
    ReadsBack e decode n block t d ↔ d.AllLeaves fun u => u.kind ≠ .uint8String := by
  have hsized := Doc.sized_of_encode_lt e (show (d.encode e).length < 2 ^ 32 by omega)
  have hencoding := Tree.encoding_eq_encode e ht hsized
  have hencodes := Doc.encodes_encode e hsized
  obtain ⟨buffer, hrun, -, hwritten⟩ := Call.writes_runAll .io (t.calls e)
    (Buffer.new block) (Buffer.valid_new block) (by
      show 0 + (t.encoding e).length ≤ 2 ^ 31
      rw [hencoding]
      omega)
  have hafter : Call.after .io block (t.calls e) = some buffer := by
    rw [Call.after, returns_eq_some.mpr hrun]
    rfl
  have hbytes : buffer.written = d.encode e := hwritten.trans hencoding
  constructor
  · rintro ⟨buffer', v, hbuffer, hv, hparse⟩
    obtain rfl := Option.some.inj (hafter.symm.trans hbuffer)
    -- an exception gives null, too, so that null is settled by itself
    by_cases hnull : v = .null
    · rw [hnull] at hv
      obtain rfl := eq_null_of_meaning hv
      exact fun h => nomatch h
    · obtain ⟨cache', h⟩ := hparse fun _ => none
      rw [hbytes] at h
      obtain ⟨⟨_, _, hreads⟩, -⟩ := reads_of_parse_encode hencodes hlen h hnull
      exact allLeaves_of_reads hreads
  · intro hplain
    obtain ⟨v, hv⟩ := exists_meaning (plain_of_doc ht hplain)
    refine ⟨buffer, v, hafter, hv decode, fun cache => ?_⟩
    have hparse := parse_encodes hencodes (hv _) hn hlen [] [] cache
    rw [List.nil_append, List.append_nil] at hparse
    rw [hbytes]
    exact hparse

/-- `{"k": [true, 7]}`. -/
theorem readsBack_sample_iff :
    ReadsBack .little (fun _ => none) 3 [] (.map [([0x6B], .array [.boolean 1, .int 7])])
        (.map [([0x6B], .array [.boolean true, .int 7])]) ↔
      (Doc.map [([0x6B], .array [.boolean true, .int 7])]).AllLeaves fun u =>
        u.kind ≠ .uint8String :=
  readsBack_iff rfl (by decide) (by decide) []

/-- The UTF-8 text `a` is written as `75 01 61`, and read as null. -/
theorem not_readsBack_uint8String :
    (∃ buffer, Call.after .io (List.replicate 8 0) ((Tree.uint8String [0x61]).calls .little)
        = some buffer ∧ buffer.written = [0x75, 0x01, 0x61]) ∧
      (parse .little 1 [0x75, 0x01, 0x61] 0 fun _ => none) = .ok .null (fun _ => none) ∧
      ¬ ReadsBack .little (fun _ => some [0x61]) 1 (List.replicate 8 0) (.uint8String [0x61])
        (.uint8String [0x61]) := by
  refine ⟨⟨_, rfl, rfl⟩, rfl, ?_⟩
  rintro ⟨buffer, v, hbuffer, hv, hparse⟩
  obtain rfl := Option.some.inj hbuffer
  obtain rfl := Option.some.inj hv
  obtain ⟨cache', h⟩ := hparse fun _ => none
  have hnull : (parse .little 1 [0x75, 0x01, 0x61] 0 fun _ => none) = .ok .null (fun _ => none) := rfl
  exact nomatch hnull.symm.trans h

end Wson.Interop
