import Wson.Native.Calls
import Wson.Native.Json

/-!
# Written trees in the parser

The two recursive readers of the parser in `c/`, `toJSONtring` and `skipValue`, on
what the value writers of `c/` have written. Both stop behind every value of a tree
iff there is no extend block in it, whose tag no reader knows, and every 16-bit text
and key is short enough for the decoding buffer (`walksExactly_iff`).
-/

namespace Wson.Native

open Effect Wire

namespace Tree

mutual

/-- The tree and all the values in it. -/
def values : Tree → List Tree
  | .array ts => .array ts :: valuesItems ts
  | .map es => .map es :: valuesEntries es
  | t => [t]

def valuesItems : List Tree → List Tree
  | [] => []
  | t :: ts => values t ++ valuesItems ts

def valuesEntries : List (Utf16 × Tree) → List Tree
  | [] => []
  | (_, t) :: es => values t ++ valuesEntries es

end

mutual

/-- How deep arrays and maps are nested. -/
def height : Tree → Nat
  | .array ts => heightItems ts + 1
  | .map es => heightEntries es + 1
  | _ => 0

def heightItems : List Tree → Nat
  | [] => 0
  | t :: ts => max (height t) (heightItems ts)

def heightEntries : List (Utf16 × Tree) → Nat
  | [] => 0
  | (_, t) :: es => max (height t) (heightEntries es)

end

mutual

/-- Every byte length and count in the tree is below `2^31`. -/
def Within : Tree → Prop
  | .string s => 2 * s.length < 2 ^ 31
  | .uint8String src | .extend src => src.length < 2 ^ 31
  | .array ts => ts.length < 2 ^ 31 ∧ WithinItems ts
  | .map es => es.length < 2 ^ 31 ∧ WithinEntries es
  | _ => True

def WithinItems : List Tree → Prop
  | [] => True
  | t :: ts => Within t ∧ WithinItems ts

def WithinEntries : List (Utf16 × Tree) → Prop
  | [] => True
  | (k, t) :: es => 2 * k.length < 2 ^ 31 ∧ Within t ∧ WithinEntries es

end

mutual

/-- There is no extend block in the tree, and every 16-bit text and key can be decoded. -/
def Walkable : Tree → Prop
  | .string s => Parser.Decodable s
  | .extend _ => False
  | .array ts => WalkableItems ts
  | .map es => WalkableEntries es
  | _ => True

def WalkableItems : List Tree → Prop
  | [] => True
  | t :: ts => Walkable t ∧ WalkableItems ts

def WalkableEntries : List (Utf16 × Tree) → Prop
  | [] => True
  | (k, t) :: es => Parser.Decodable k ∧ Walkable t ∧ WalkableEntries es

end

theorem walkableEntries_iff : ∀ {es : List (Utf16 × Tree)},
    WalkableEntries es ↔ ∀ x ∈ es, Parser.Decodable x.1 ∧ x.2.Walkable
  | [] => by simp [WalkableEntries]
  | x :: es => by rw [WalkableEntries, walkableEntries_iff, List.forall_mem_cons, and_assoc]

mutual

/-- A walkable tree is a document. -/
theorem exists_doc : ∀ {t : Tree}, t.Walkable → t.Within →
    ∃ d, t.doc = some d ∧ Parser.DecodableDoc d ∧ d.Within (2 ^ 31) ∧ d.height = t.height
  | .null, _, _ | .boolean _, _, _ | .int _, _, _ | .long _, _, _ | .float _, _, _
  | .double _, _, _ => ⟨_, rfl, trivial, trivial, rfl⟩
  | .string _, h, hw => ⟨_, rfl, h, hw, rfl⟩
  | .uint8String _, _, hw => ⟨_, rfl, trivial, hw, rfl⟩
  | .extend _, h, _ => h.elim
  | .array ts, h, hw => by
    obtain ⟨ds, hds, hdec, hwithin, hheight⟩ := exists_docItems h hw.2
    refine ⟨.array ds, by rw [doc, hds]; rfl, hdec, ⟨?_, hwithin⟩, congrArg Nat.succ hheight⟩
    rw [← docItems_length hds]
    exact hw.1
  | .map es, h, hw => by
    rw [Walkable, walkableEntries_iff] at h
    obtain ⟨ds, hds, hkeys, hdec, hwithin, hheight⟩ := exists_docEntries (fun x hx => (h x hx).2) hw.2
    refine ⟨.map ds, by rw [doc, hds]; rfl, Doc.leavesEntries_iff.mpr fun x hx => ⟨?_, hdec x hx⟩,
      ⟨?_, hwithin⟩, congrArg Nat.succ hheight⟩
    · obtain ⟨y, hy, hyx⟩ := List.mem_map.mp (hkeys ▸ List.mem_map_of_mem (f := Prod.fst) hx)
      exact hyx ▸ (h y hy).1
    · rw [← docEntries_length hds]
      exact hw.1

theorem exists_docItems : ∀ {ts : List Tree}, WalkableItems ts → WithinItems ts →
    ∃ ds, docItems ts = some ds ∧ Doc.LeavesItems Parser.DecodableLeaf Parser.Decodable ds ∧
      Doc.WithinItems (2 ^ 31) ds ∧ Doc.heightItems ds = heightItems ts
  | [], _, _ => ⟨[], rfl, trivial, trivial, rfl⟩
  | t :: ts, h, hw => by
    obtain ⟨d, hd, hdec, hwithin, hheight⟩ := exists_doc h.1 hw.1
    obtain ⟨ds, hds, hdecs, hwithins, hheights⟩ := exists_docItems h.2 hw.2
    refine ⟨d :: ds, by rw [docItems, hd, hds]; rfl, ⟨hdec, hdecs⟩, ⟨hwithin, hwithins⟩, ?_⟩
    rw [Doc.heightItems, heightItems, hheight, hheights]

theorem exists_docEntries : ∀ {es : List (Utf16 × Tree)}, (∀ x ∈ es, x.2.Walkable) →
    WithinEntries es → ∃ ds, docEntries es = some ds ∧ ds.map Prod.fst = es.map Prod.fst ∧
      (∀ x ∈ ds, Parser.DecodableDoc x.2) ∧ Doc.WithinEntries (2 ^ 31) ds ∧
      Doc.heightEntries ds = heightEntries es
  | [], _, _ => ⟨[], rfl, rfl, fun _ h => (nomatch h), trivial, rfl⟩
  | (k, t) :: es, h, hw => by
    rw [List.forall_mem_cons] at h
    obtain ⟨d, hd, hdec, hwithin, hheight⟩ := exists_doc h.1 hw.2.1
    obtain ⟨ds, hds, hkeys, hdecs, hwithins, hheights⟩ := exists_docEntries h.2 hw.2.2
    refine ⟨(k, d) :: ds, by rw [docEntries, hd, hds]; rfl, by rw [List.map_cons, List.map_cons, hkeys],
      List.forall_mem_cons.mpr ⟨hdec, hdecs⟩, ⟨hw.1, hwithin, hwithins⟩, ?_⟩
    rw [Doc.heightEntries, heightEntries, hheight, hheights]

end

/-! ## Walking -/

open Wson.Native.Parser

/-- Positioned on its first byte, both readers end one past the last byte of the tree. -/
def WalksExactly (e : Endian) (libc : Libc) (n : Nat) (t : Tree) : Prop :=
  ∀ (before after : Bytes) (length : Nat), (before ++ t.encoding e ++ after).length < 2 ^ 32 →
    before.length + (t.encoding e).length ≤ length →
      (∃ text, returns (toJSONtring .c e libc n) ⟨before ++ t.encoding e ++ after, before.length, length⟩
        = some (text, ⟨before ++ t.encoding e ++ after, before.length + (t.encoding e).length, length⟩)) ∧
      returns (do skipValue .c n (← nextType .c)) ⟨before ++ t.encoding e ++ after, before.length, length⟩
        = some ((), ⟨before ++ t.encoding e ++ after, before.length + (t.encoding e).length, length⟩)

variable {e : Endian} {libc : Libc} {n : Nat}

theorem walksExactly_of_walkable {t : Tree} (h : t.Walkable) (hw : t.Within) (hn : t.height < n) :
    WalksExactly e libc n t := by
  obtain ⟨d, hd, hdec, hwithin, hheight⟩ := exists_doc h hw
  have hsized := Doc.sized_of_within (by decide) hwithin
  have hencodes := Doc.encodes_encode e hsized
  have hpos := Doc.encode_length_pos e d
  rw [← hheight] at hn
  intro before after length hdata hlength
  rw [encoding_eq_encode e hd hsized] at hdata hlength ⊢
  have hdata : (before ++ d.encode e ++ after).length < 2 ^ Library.bits .c := hdata
  have hdrop : (before ++ d.encode e ++ after).drop before.length = d.encode e ++ after := by
    rw [List.append_assoc, List.drop_left]
  constructor
  · obtain ⟨_, hrun, rfl, -⟩ := consumes_toJSONtring hdata hencodes hdec hn hwithin
      ⟨_, before.length, length⟩ before.length after ⟨rfl, by simp only [List.length_append]; omega⟩ hdrop
    exact ⟨_, hrun⟩
  · exact returns_skipValue hdata hencodes
      (Doc.Leaves.mono (fun _ _ h => nomatch h) (fun _ _ => trivial) hdec) hn hwithin hdrop (by omega)

/-- No reader knows the tag of an extend block. -/
theorem not_walksExactly_extend {src : Bytes} (h : src.length < 2 ^ 31) :
    ¬ WalksExactly e libc n (.extend src) := by
  intro hwalk
  have hheader := encodeGroups_length_le 4 src.length
  have hpos := List.length_pos_of_ne_nil (encodeGroups_ne_nil 4 src.length)
  have hencoding : (Tree.extend src).encoding e = Buffer.extendTag :: (encode src.length ++ src) :=
    List.append_nil _
  unfold WalksExactly at hwalk
  rw [hencoding] at hwalk
  obtain ⟨-, hskip⟩ := hwalk [] [] _
    (by
      simp only [List.nil_append, List.append_nil, List.length_cons, List.length_append, Wire.encode]
      omega)
    (Nat.le_refl _)
  rw [returns_bind, returns_nextType (by simp)] at hskip
  cases n with
  | zero => cases hskip
  | succ n =>
    have hposition := congrArg (fun r => r.map fun p => p.2.position) hskip
    have hend : 1 = 0 + (Buffer.extendTag :: (encode src.length ++ src)).length :=
      Option.some.inj hposition
    rw [List.length_cons, List.length_append, Wire.encode] at hend
    omega

/-- The JSON reader does not end behind a tree that cannot be decoded. -/
theorem decodable_of_walksExactly {t : Tree} {d : Doc} (hd : t.doc = some d) (hw : d.Within (2 ^ 31))
    (hn : d.height < n) (hsize : (t.encoding e).length < 2 ^ 32) (h : WalksExactly e libc n t) :
    DecodableDoc d := by
  by_contra hdec
  have hsized := Doc.sized_of_within (by decide) hw
  obtain ⟨⟨text, hrun⟩, -⟩ := h [] [] (t.encoding e).length
    (by rwa [List.nil_append, List.append_nil]) (by simp)
  rw [List.nil_append, List.append_nil] at hrun
  rw [encoding_eq_encode e hd hsized] at hsize hrun
  have hdata : (d.encode e).length < 2 ^ Library.bits .c := hsize
  have hnone : returns (toJSONtring .c e libc n) ⟨d.encode e, 0, (d.encode e).length⟩ = none :=
    returns_toJSONtring_none hdata (Doc.encodes_encode e hsized) hdec hn hw (Nat.zero_le _)
      (List.append_nil _).symm
  exact nomatch hnone.symm.trans hrun

mutual

/-- Where both readers end behind every value, the tree is walkable. -/
theorem walkable_of_values : ∀ {t : Tree}, (∀ u ∈ t.values, WalksExactly e libc n u) → t.Within →
    t.height < n → (t.encoding e).length < 2 ^ 32 → t.Walkable
  | .null, _, _, _, _ | .boolean _, _, _, _, _ | .int _, _, _, _, _ | .long _, _, _, _, _
  | .float _, _, _, _, _ | .double _, _, _, _, _ | .uint8String _, _, _, _, _ => trivial
  | .extend src, h, hw, _, _ => absurd (h _ List.mem_cons_self) (not_walksExactly_extend hw)
  | .string s, h, hw, hn, hsize =>
    decodable_of_walksExactly (d := .text .string s) rfl hw hn hsize (h _ List.mem_cons_self)
  | .array ts, h, hw, hn, hsize => by
    rw [encoding, calls, encodings_cons, List.length_append] at hsize
    exact walkableItems_of_values (fun u hu => h u (List.mem_cons_of_mem _ hu)) hw.2
      (Nat.lt_of_succ_lt hn) (by omega)
  | .map es, h, hw, hn, hsize => by
    have hvalues := walkableEntries_of_values (fun u hu => h u (List.mem_cons_of_mem _ hu)) hw.2
      (Nat.lt_of_succ_lt hn) (by
        rw [encoding, calls, encodings_cons, List.length_append] at hsize
        omega)
    refine walkableEntries_iff.mpr fun x hx => ⟨?_, hvalues x hx⟩
    obtain ⟨ds, hds, hkeys, hdec, hwithin, hheight⟩ := exists_docEntries hvalues hw.2
    have hdecodable := decodable_of_walksExactly (t := .map es) (d := .map ds) (by rw [doc, hds]; rfl)
      ⟨docEntries_length hds ▸ hw.1, hwithin⟩ (by rwa [Doc.height, hheight]) hsize (h _ List.mem_cons_self)
    obtain ⟨y, hy, hyx⟩ := List.mem_map.mp (hkeys.symm ▸ List.mem_map_of_mem (f := Prod.fst) hx)
    exact hyx ▸ (Doc.leavesEntries_iff.mp hdecodable y hy).1

theorem walkableItems_of_values : ∀ {ts : List Tree},
    (∀ u ∈ valuesItems ts, WalksExactly e libc n u) → WithinItems ts → heightItems ts < n →
      (Call.encodings (callsItems e ts)).length < 2 ^ 32 → WalkableItems ts
  | [], _, _, _, _ => trivial
  | t :: ts, h, hw, hn, hsize => by
    rw [heightItems, Nat.max_lt] at hn
    rw [callsItems, encodings_append, List.length_append] at hsize
    exact ⟨walkable_of_values (fun u hu => h u (List.mem_append_left _ hu)) hw.1 hn.1
        (by show (Call.encodings (t.calls e)).length < _; omega),
      walkableItems_of_values (fun u hu => h u (List.mem_append_right _ hu)) hw.2 hn.2 (by omega)⟩

theorem walkableEntries_of_values : ∀ {es : List (Utf16 × Tree)},
    (∀ u ∈ valuesEntries es, WalksExactly e libc n u) → WithinEntries es → heightEntries es < n →
      (Call.encodings (callsEntries e es)).length < 2 ^ 32 → ∀ x ∈ es, x.2.Walkable
  | [], _, _, _, _ => fun _ h => nomatch h
  | (k, t) :: es, h, hw, hn, hsize => by
    rw [heightEntries, Nat.max_lt] at hn
    rw [callsEntries, encodings_cons, encodings_append, List.length_append, List.length_append] at hsize
    exact List.forall_mem_cons.mpr
      ⟨walkable_of_values (fun u hu => h u (List.mem_append_left _ hu)) hw.2.1 hn.1
        (by show (Call.encodings (t.calls e)).length < _; omega),
      walkableEntries_of_values (fun u hu => h u (List.mem_append_right _ hu)) hw.2.2 hn.2 (by omega)⟩

end

mutual

theorem of_mem_values : ∀ {t u : Tree}, t.Walkable → t.Within → u ∈ t.values →
    u.Walkable ∧ u.Within ∧ u.height ≤ t.height
  | .null, _, h, hw, hu | .boolean _, _, h, hw, hu | .int _, _, h, hw, hu | .long _, _, h, hw, hu
  | .float _, _, h, hw, hu | .double _, _, h, hw, hu | .string _, _, h, hw, hu
  | .uint8String _, _, h, hw, hu | .extend _, _, h, hw, hu => by
    obtain rfl := List.mem_singleton.mp hu
    exact ⟨h, hw, Nat.le_refl _⟩
  | .array _, _, h, hw, hu => by
    obtain rfl | hu := List.mem_cons.mp hu
    · exact ⟨h, hw, Nat.le_refl _⟩
    · obtain ⟨hu, hwu, hle⟩ := of_mem_valuesItems h hw.2 hu
      exact ⟨hu, hwu, Nat.le_succ_of_le hle⟩
  | .map _, _, h, hw, hu => by
    obtain rfl | hu := List.mem_cons.mp hu
    · exact ⟨h, hw, Nat.le_refl _⟩
    · obtain ⟨hu, hwu, hle⟩ := of_mem_valuesEntries h hw.2 hu
      exact ⟨hu, hwu, Nat.le_succ_of_le hle⟩

theorem of_mem_valuesItems : ∀ {ts : List Tree} {u : Tree}, WalkableItems ts → WithinItems ts →
    u ∈ valuesItems ts → u.Walkable ∧ u.Within ∧ u.height ≤ heightItems ts
  | t :: ts, u, h, hw, hu => by
    obtain hu | hu := List.mem_append.mp hu
    · obtain ⟨hu, hwu, hle⟩ := of_mem_values h.1 hw.1 hu
      exact ⟨hu, hwu, hle.trans (Nat.le_max_left _ _)⟩
    · obtain ⟨hu, hwu, hle⟩ := of_mem_valuesItems h.2 hw.2 hu
      exact ⟨hu, hwu, hle.trans (Nat.le_max_right _ _)⟩

theorem of_mem_valuesEntries : ∀ {es : List (Utf16 × Tree)} {u : Tree}, WalkableEntries es →
    WithinEntries es → u ∈ valuesEntries es → u.Walkable ∧ u.Within ∧ u.height ≤ heightEntries es
  | (_, t) :: es, u, h, hw, hu => by
    obtain hu | hu := List.mem_append.mp hu
    · obtain ⟨hu, hwu, hle⟩ := of_mem_values h.2.1 hw.2.1 hu
      exact ⟨hu, hwu, hle.trans (Nat.le_max_left _ _)⟩
    · obtain ⟨hu, hwu, hle⟩ := of_mem_valuesEntries h.2.2 hw.2.2 hu
      exact ⟨hu, hwu, hle.trans (Nat.le_max_right _ _)⟩

end

/-- **What the parser can walk.** -/
theorem walksExactly_iff {t : Tree} (hw : t.Within) (hn : t.height < n)
    (hsize : (t.encoding e).length < 2 ^ 32) :
    (∀ u ∈ t.values, WalksExactly e libc n u) ↔ t.Walkable := by
  constructor
  · intro h
    exact walkable_of_values h hw hn hsize
  · intro h u hu
    obtain ⟨hu, hwu, hle⟩ := of_mem_values h hw hu
    exact walksExactly_of_walkable hu hwu (Nat.lt_of_le_of_lt hle hn)

/-- `["a", 1]`. -/
theorem walksExactly_iff_array :
    (∀ u ∈ (Tree.array [.string [0x61], .int 1]).values, WalksExactly .little .ofIntegers 2 u) ↔
      (Tree.array [.string [0x61], .int 1]).Walkable :=
  walksExactly_iff (by simp [Within, WithinItems]) (by simp [height, heightItems]) (by decide)

/-- An extend block without bytes: `skipValue` ends behind its tag. -/
theorem not_walksExactly_emptyExtend : ¬ WalksExactly .little .ofIntegers 1 (.extend []) :=
  not_walksExactly_extend (by decide)

end Tree

end Wson.Native
