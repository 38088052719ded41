import Wson.Effect.Simulation
import Wson.Java.Parser

/-!
# Parsers at the same position

How a method of the parser ends depends on the position only, not on the cache of map
keys: started at the same position, two runs return or throw the same and stop at the
same place (`Simulates SamePosition Eq`). Reading a key is the same as reading a string.
-/

namespace Wson.Java

open Effect Wire

namespace Parser

open Input

variable {e : Endian} {buffer : Bytes}

/-- All that two parsers need to have in common. -/
def SamePosition (p p' : Parser) : Prop :=
  p.position = p'.position

theorem simulates_getPosition : Simulates SamePosition Eq getPosition getPosition :=
  fun _ _ h => .ok h h

theorem simulates_move (step : Int) : Simulates SamePosition Eq (move step) (move step) :=
  fun _ _ h => .ok rfl (congrArg (· + step) h)

theorem simulates_load (i : Int) : Simulates SamePosition Eq (load buffer i) (load buffer i) := by
  unfold load
  split
  · exact simulates_pure rfl
  · exact simulates_throw _

theorem simulates_readType : Simulates SamePosition Eq (readType buffer) (readType buffer) :=
  simulates_getPosition.bind_eq fun position => (simulates_load position).bind_eq fun _ =>
    (simulates_move 1).bind_eq fun _ => simulates_pure rfl

theorem simulates_readUIntLoop : ∀ (k : Nat) (value : BitVec 32) (i : Nat),
    Simulates SamePosition Eq (readUIntLoop buffer k value i) (readUIntLoop buffer k value i)
  | 0, _, _ => simulates_throw _
  | k + 1, value, i => by
    refine simulates_getPosition.bind_eq fun position => (simulates_load position).bind_eq fun b => ?_
    refine Simulates.ite (fun _ => ?_) fun _ => ?_
    · refine (simulates_move 1).bind_eq fun _ => ?_
      split
      · exact (simulates_throw _).bind_eq fun _ => simulates_readUIntLoop k _ _
      · exact simulates_readUIntLoop k _ _
    · exact (simulates_move 1).bind_eq fun _ => simulates_pure rfl

theorem simulates_readUInt : Simulates SamePosition Eq (readUInt buffer) (readUInt buffer) :=
  simulates_readUIntLoop 7 0 0

theorem simulates_readVarInt : Simulates SamePosition Eq (readVarInt buffer) (readVarInt buffer) :=
  simulates_readUInt.bind_eq fun _ => simulates_pure rfl

theorem simulates_readLong : Simulates SamePosition Eq (readLong buffer) (readLong buffer) := by
  refine simulates_getPosition.bind_eq fun position => ?_
  refine (simulates_load _).bind_eq fun b₇ => (simulates_load _).bind_eq fun b₆ => ?_
  refine (simulates_load _).bind_eq fun b₅ => (simulates_load _).bind_eq fun b₄ => ?_
  refine (simulates_load _).bind_eq fun b₃ => (simulates_load _).bind_eq fun b₂ => ?_
  refine (simulates_load _).bind_eq fun b₁ => (simulates_load _).bind_eq fun b₀ => ?_
  exact (simulates_move 8).bind_eq fun _ => simulates_pure rfl

theorem simulates_readFloat : Simulates SamePosition Eq (readFloat buffer) (readFloat buffer) := by
  refine simulates_getPosition.bind_eq fun position => ?_
  refine (simulates_load _).bind_eq fun b₃ => (simulates_load _).bind_eq fun b₂ => ?_
  refine (simulates_load _).bind_eq fun b₁ => (simulates_load _).bind_eq fun b₀ => ?_
  exact (simulates_move 4).bind_eq fun _ => simulates_pure rfl

theorem simulates_readChar : Simulates SamePosition Eq (readChar e buffer) (readChar e buffer) :=
  simulates_getPosition.bind_eq fun _ => (simulates_load _).bind_eq fun _ =>
    (simulates_load _).bind_eq fun _ => (simulates_move 2).bind_eq fun _ => simulates_pure rfl

theorem simulates_readChars : ∀ length : Nat,
    Simulates SamePosition Eq (readChars e buffer length) (readChars e buffer length)
  | 0 => simulates_pure rfl
  | length + 1 => simulates_readChar.bind_eq fun _ =>
      (simulates_readChars length).bind_eq fun _ => simulates_pure rfl

theorem simulates_readUTF16String :
    Simulates SamePosition Eq (readUTF16String e buffer) (readUTF16String e buffer) := by
  refine simulates_readUInt.bind_eq fun raw => (simulates_readChars _).bind_eq fun chars => ?_
  split
  · exact (simulates_throw _).bind_eq fun _ => simulates_pure rfl
  · exact simulates_pure rfl

/-- The end of reading a key: whatever the cache holds, the chars are returned. -/
theorem lookup_eq (length : Int) (chars : Utf16) (globalIndex : BitVec 11) (p : Parser) :
    ∃ cache, (do
      match (← get).globalStringBytesCache globalIndex with
      | some cache =>
        if (cache.length : Int) = length ∧ chars = cache then pure cache
        else readMapKeyUTF16.newKey length chars globalIndex
      | none => readMapKeyUTF16.newKey length chars globalIndex : ParserM Utf16) p
        = if length < 0 then .error .stringIndexOutOfBounds p
          else .ok chars { p with globalStringBytesCache := cache } := by
  have hnew : ∃ cache, readMapKeyUTF16.newKey length chars globalIndex p
      = if length < 0 then .error .stringIndexOutOfBounds p
        else .ok chars { p with globalStringBytesCache := cache } := by
    unfold readMapKeyUTF16.newKey
    by_cases hneg : length < 0
    · exact ⟨p.globalStringBytesCache, by rw [if_pos hneg, if_pos hneg]; rfl⟩
    · by_cases hshort : length < 64
      · exact ⟨_, by rw [if_neg hneg, if_neg hneg, if_pos hshort]; rfl⟩
      · exact ⟨_, by rw [if_neg hneg, if_neg hneg, if_neg hshort]; rfl⟩
  show ∃ cache, (match p.globalStringBytesCache globalIndex with
    | some cache =>
      if (cache.length : Int) = length ∧ chars = cache then pure cache
      else readMapKeyUTF16.newKey length chars globalIndex
    | none => readMapKeyUTF16.newKey length chars globalIndex : ParserM Utf16) p = _
  cases p.globalStringBytesCache globalIndex with
  | none => exact hnew
  | some cache =>
    dsimp only
    split
    · next h => exact ⟨p.globalStringBytesCache, by rw [if_neg (by omega), h.2]; rfl⟩
    · exact hnew

theorem simulates_readMapKeyUTF16 :
    Simulates SamePosition Eq (readMapKeyUTF16 e buffer) (readMapKeyUTF16 e buffer) := by
  refine simulates_readUInt.bind_eq fun raw => (simulates_readChars _).bind_eq fun chars => ?_
  intro p p' h
  obtain ⟨cache, hp⟩ := lookup_eq (raw.toInt.tdiv 2) chars ((hashOf chars).setWidth 11) p
  obtain ⟨cache', hp'⟩ := lookup_eq (raw.toInt.tdiv 2) chars ((hashOf chars).setWidth 11) p'
  refine Eq.mp (congrArg₂ (SameEnd SamePosition Eq) hp.symm hp'.symm) ?_
  split
  · exact .error _ h
  · exact .ok rfl h

theorem simulates_parseNumber {α : Type} (ofString : Utf16 → Option α) (s : Utf16) :
    Simulates SamePosition Eq (parseNumber ofString s) (parseNumber ofString s) := by
  unfold parseNumber
  split
  · exact simulates_pure rfl
  · exact simulates_throw _

/-- **Keys and strings**: the two readers do the same. -/
theorem simulates_readMapKeyUTF16_readUTF16String :
    Simulates SamePosition Eq (readMapKeyUTF16 e buffer) (readUTF16String e buffer) := by
  refine simulates_readUInt.bind_eq fun raw => (simulates_readChars _).bind_eq fun chars => ?_
  intro p p' h
  obtain ⟨cache, hp⟩ := lookup_eq (raw.toInt.tdiv 2) chars ((hashOf chars).setWidth 11) p
  refine Eq.mp (congrArg (SameEnd SamePosition Eq · _) hp.symm) ?_
  by_cases hneg : raw.toInt.tdiv 2 < 0
  · rw [if_pos hneg, if_pos hneg]
    exact .error _ h
  · rw [if_neg hneg, if_neg hneg]
    exact .ok rfl h

end Parser

end Wson.Java
