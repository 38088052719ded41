import Wson.Java.RoundTrip
import Wson.Native.Skip

/-!
# Java documents in the C++ parser

What `skipValue(nextType())` of the parser in `io/` does on a document that
`Wson.toWson` has written. It keeps in step with the encoder at a value and at all
the values inside iff there is no float among them (`skipsExactly_iff`): the case
for floats moves over nothing, so the four bytes behind the tag are taken for the
next entries.
-/

namespace Wson.Interop

open Effect Wire Native Java

/-- Positioned on the first byte of the encoding inside a larger buffer, `skipValue(nextType())`
leaves the position one past the last byte. -/
def SkipsExactly (e : Endian) (n : Nat) (d : Doc) : Prop :=
  ∀ (before after : Bytes) (length : Nat), (d.encode e).length < 2 ^ 31 →
    (before ++ d.encode e ++ after).length < 2 ^ 64 →
      before.length + (d.encode e).length ≤ length →
        returns (do Parser.skipValue .io n (← Parser.nextType .io))
            ⟨before ++ d.encode e ++ after, before.length, length⟩
          = some ((), ⟨before ++ d.encode e ++ after, before.length + (d.encode e).length, length⟩)

theorem skipsExactly_of_skips {e : Endian} {d : Doc} {n : Nat}
    (hskips : d.AllLeaves (Parser.Skips .io)) (hn : d.height < n) : SkipsExactly e n d := by
  intro before after length hsmall hdata hlength
  have hpos := Doc.encode_length_pos e d
  have hencodes := Doc.encodes_encode e (Doc.sized_of_encode_lt e (show (d.encode e).length < 2 ^ 32 by omega))
  exact Parser.returns_skipValue hdata hencodes hskips hn (hencodes.within hsmall)
    (by rw [List.append_assoc, List.drop_left]) (by omega)

/-- Nothing is skipped behind the tag of a float. -/
theorem not_skipsExactly_float (e : Endian) (n : Nat) (x : BitVec 32) :
    ¬ SkipsExactly e n (.float x) := by
  intro h
  have hlen : ((Doc.float x).encode e).length = 5 := rfl
  have hrun := h [] [] 5 (by rw [hlen]; decide) (by simp [hlen]) (by rw [hlen]; decide)
  cases n with
  | zero => exact nomatch hrun
  | succ n =>
    have hposition := congrArg (fun r => r.map fun p => p.2.position) hrun
    exact absurd (show some 1 = some 5 from hposition) (by decide)

/-- **Skipping Java documents**: `toWson` returns the encoding of the document of a value, and
the parser keeps in step at every value in it iff there is no float. -/
theorem skipsExactly_iff {O : Type} [DecidableEq O] {H : Heap O} {P : Platform} {b : Builder O}
    {v : JValue} {o : O} {n m : Nat} (ho : Represents H v o) (hr : v.Regular)
    (hn : v.height + 1 < n) (hv : b.output.Valid) (hp : b.output.position = 0) (hrefs : b.refs = [])
    (hm : v.height < m) :
    (∀ bytes b', Builder.toWson P H n o b = .ok bytes b' →
      bytes = (v.written P).doc.encode P.endian ∧ bytes.length < 2 ^ 31) ∧
    ((∀ d ∈ (v.written P).doc.values, SkipsExactly P.endian m d) ↔
      (v.written P).doc.AllLeaves fun d => d.kind ≠ .float) := by
  refine ⟨fun bytes b' h => ?_, fun h => ?_, fun h d hd => ?_⟩
  · obtain ⟨hbytes, hlen, -⟩ := (toWson_represents (P := P) ho hr hn hv hp hrefs).2 bytes b' h
    exact ⟨hbytes, hlen⟩
  · refine Doc.allLeaves_of_values fun d hd _ hfloat => ?_
    cases d with
    -- the case of a float in `skipValue` reads nothing
    | float x => exact not_skipsExactly_float _ _ x (h _ hd)
    | _ => exact nomatch hfloat
  · have hheight := JValue.height_written P v
    have hle := Doc.height_le_of_mem_values hd
    refine skipsExactly_of_skips (Doc.Leaves.mono ?_ ?_ (Doc.Leaves.of_mem_values h hd)) (by omega)
    · exact fun _ hne _ => hne
    · exact fun _ hk => hk

theorem skipsExactly_sample_iff :
    (∀ bytes b', Builder.toWson Platform.plain sampleHeap 4 3 (Builder.fresh (Fin 4)) = .ok bytes b' →
      bytes = ((JValue.map [([0x6B], .list [.string [0x61], .null])]).written
        Platform.plain).doc.encode .little ∧ bytes.length < 2 ^ 31) ∧
    ((∀ d ∈ ((JValue.map [([0x6B], .list [.string [0x61], .null])]).written
        Platform.plain).doc.values, SkipsExactly .little 3 d) ↔
      ((JValue.map [([0x6B], .list [.string [0x61], .null])]).written
        Platform.plain).doc.AllLeaves fun d => d.kind ≠ .float) :=
  skipsExactly_iff (P := Platform.plain)
    ⟨_, rfl, _, _, rfl, ⟨_, rfl, _, _, rfl, rfl, _, _, rfl, rfl, rfl⟩, rfl⟩
    ⟨List.nodup_singleton _, ⟨trivial, trivial, trivial⟩, trivial⟩ (by decide)
    (Builder.fresh_valid _) rfl rfl (by decide)

/-- The number `1.0f`. -/
def floatHeap : Heap Bool where
  null := false
  view o := if o then .number (.float 0x3F800000) else .null
  view_null := rfl
  view_map o es h := by cases o <;> exact nomatch h
  ownEquals a b := a = b
  toJSON := id

/-- `toWson` writes the float, and the parser stops behind its tag. -/
theorem not_skipsExactly_toWson :
    (∃ b', Builder.toWson Platform.plain floatHeap 2 true (Builder.fresh Bool)
      = .ok [0x46, 0x3F, 0x80, 0x00, 0x00] b') ∧
    (Doc.float 0x3F800000).encode .little = [0x46, 0x3F, 0x80, 0x00, 0x00] ∧
    ∀ n, ¬ SkipsExactly .little n (.float 0x3F800000) := by
  have hrep : Represents floatHeap (.number (.float 0x3F800000)) true := rfl
  obtain ⟨hiff, hspec⟩ := toWson_represents (P := Platform.plain) hrep trivial
    (show 0 + 1 < 2 by decide) (Builder.fresh_valid _) rfl rfl
  rw [Builder.fresh_capacity] at hiff
  obtain ⟨bytes, b', h⟩ := hiff.mpr (by decide)
  obtain ⟨hbytes, -⟩ := hspec bytes b' h
  have hencode : ((JValue.number (.float 0x3F800000)).written Platform.plain).doc.encode .little
      = [0x46, 0x3F, 0x80, 0x00, 0x00] := by decide
  refine ⟨⟨b', ?_⟩, by decide, fun n => not_skipsExactly_float _ n _⟩
  rw [h, hbytes]
  exact congrArg (EStateM.Result.ok · b') hencode

end Wson.Interop
