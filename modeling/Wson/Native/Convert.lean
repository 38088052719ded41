import Wson.Effect.Program
import Wson.Native.Lang
import Wson.Native.Utf8
import Wson.Wire.Store

/-!
# `wson_util.cpp`: the loops

The two conversions as they run: indices `i` and `count` of type `int`, and stores
through the pointer `buffer`, each of which must hit the memory behind it. The loops
differ only in what they do with a unit that is no part of a pair.

`Puts m bs` is the specification of a part: it stores `bs` from `count` on and advances
`count`, or faults when the memory or the `int` is too small; one lemma for each part
and one rule for sequences. Of the whole conversion it says what is stored and what is
returned (`returns_utf16ConvertToUtf8Cstr`), and that texts whose UTF-8 an `int` cannot
count are the only ones that are not converted (`convertsToUtf8_iff`).
-/

namespace Wson.Native

open Effect Text Wire

/-- A program over the bytes that a `char*` points to. -/
abbrev CstrM := EStateM Fault Bytes

namespace Cstr

/-- `buffer[i] = b`. -/
def store (i : Nat) (b : Byte) : CstrM Unit := fun memory =>
  if i < memory.length then .ok () (memory.set i b) else .error .outOfBounds memory

/-- The sum of a variable and a number as `int`s. -/
def addInt (x n : Nat) : CstrM Nat :=
  if x + n < 2 ^ 31 then pure (x + n) else throw .overflow

/-- Stores at one index after the other. -/
def storeAll : Nat → Bytes → CstrM Unit
  | _, [] => pure ()
  | i, b :: bs => do
    store i b
    storeAll (i + 1) bs

/-- `src[count++] = b`. -/
def putChar (b : Byte) (count : Nat) : CstrM Nat := do
  store count b
  addInt count 1

/-- `count += utf16_char_convert_to_utf8_cstr(codePoint, src + count)`. -/
def putCodePoint (codePoint : BitVec 32) (count : Nat) : CstrM Nat := do
  storeAll count (utf16CharConvertToUtf8Cstr codePoint)
  addInt count (utf16CharConvertToUtf8Cstr codePoint).length

/-- The body of the loop for the unit `c₁` in front of `i`. `other` treats a unit that is no part
of a pair, `next` is the turn behind. -/
def convertUnit (other : Char16 → Nat → CstrM Nat) (next : Nat → Nat → CstrM Nat) (utf16 : Utf16)
    (c₁ : Char16) (i count : Nat) : CstrM Nat := do
  if IsHigh c₁ then
    match utf16[i]? with
    | none =>
      let count ← other c₁ count
      next i count
    | some c₂ =>
      let i₂ ← addInt i 1
      if IsLow c₂ then
        let count ← putCodePoint (toCodePoint c₁ c₂) count
        next i₂ count
      else
        -- `i--`: the second unit is left for the next turn.
        let count ← other c₁ count
        next i count
  else
    let count ← other c₁ count
    next i count

/-- The loop over the units; every turn takes at least one of them. -/
def convertLoop (other : Char16 → Nat → CstrM Nat) (utf16 : Utf16) : Nat → Nat → Nat → CstrM Nat
  | 0, _, count => pure count
  | turns + 1, i, count =>
    match utf16[i]? with
    | none => pure count
    | some c₁ => do
      let i ← addInt i 1
      convertUnit other (convertLoop other utf16 turns) utf16 c₁ i count

/-- `utf16_convert_to_utf8_cstr`. -/
def utf16ConvertToUtf8Cstr (utf16 : Utf16) : CstrM Nat := do
  let count ← convertLoop (fun c₁ => putCodePoint (c₁.setWidth 32)) utf16 utf16.length 0 0
  store count 0
  pure count

/-- The branches of `utf16_convert_to_utf8_quote_cstr` for a unit that is no part of a pair. -/
def putQuoteUnit (c₁ : Char16) (count : Nat) : CstrM Nat := do
  if c₁ = 0x22 ∨ c₁ = 0x5C then
    let count ← putChar 0x5C count
    putCodePoint (c₁.setWidth 32) count
  else if c₁ = 0x09 then
    let count ← putChar 0x5C count
    putChar 0x74 count
  else if c₁ = 0x0D then
    let count ← putChar 0x5C count
    putChar 0x72 count
  else if c₁ = 0x0A then
    let count ← putChar 0x5C count
    putChar 0x6E count
  else if c₁ = 0x0C then
    let count ← putChar 0x5C count
    putChar 0x66 count
  else if c₁ = 0x08 then
    let count ← putChar 0x5C count
    putChar 0x62 count
  else putCodePoint (c₁.setWidth 32) count

/-- `utf16_convert_to_utf8_quote_cstr`. -/
def utf16ConvertToUtf8QuoteCstr (utf16 : Utf16) : CstrM Nat := do
  let count ← putChar 0x22 0
  let count ← convertLoop putQuoteUnit utf16 utf16.length 0 count
  let count ← putChar 0x22 count
  store count 0
  pure count

/-! ## Stores from a count on -/

/-- From a count of at least `least`, `m` stores `bs` and returns the count behind it; it faults
when the memory or the `int` has no room for that. -/
def PutsFrom (least : Nat) (m : Nat → CstrM Nat) (bs : Bytes) : Prop :=
  ∀ memory count, least ≤ count → count ≤ memory.length → count < 2 ^ 31 →
    returns (m count) memory =
      if count + bs.length ≤ memory.length ∧ count + bs.length < 2 ^ 31 then
        some (count + bs.length, overwrite memory count bs)
      else none

/-- From every count. -/
abbrev Puts (m : Nat → CstrM Nat) (bs : Bytes) : Prop :=
  PutsFrom 0 m bs

theorem PutsFrom.mono {l l' : Nat} {m : Nat → CstrM Nat} {bs : Bytes} (h : PutsFrom l m bs)
    (hl : l ≤ l') : PutsFrom l' m bs :=
  fun memory count hcount => h memory count (Nat.le_trans hl hcount)

/-- **Sequencing**: the second part starts where the first one ends. -/
theorem PutsFrom.bind {l : Nat} {m m' : Nat → CstrM Nat} {as bs : Bytes} (hm : PutsFrom l m as)
    (hm' : PutsFrom (l + as.length) m' bs) :
    PutsFrom l (fun count => m count >>= m') (as ++ bs) := by
  intro memory count hl hmemory hcount
  rw [returns_bind, hm memory count hl hmemory hcount, List.length_append]
  by_cases hfits : count + as.length ≤ memory.length ∧ count + as.length < 2 ^ 31
  · rw [if_pos hfits, Option.bind_some,
      hm' _ _ (by omega) (by rw [overwrite_length]; exact hfits.1) hfits.2, overwrite_append]
    simp only [overwrite_length, Nat.add_assoc]
  · rw [if_neg hfits, if_neg (by omega)]
    rfl

theorem puts_pure : Puts pure [] := by
  intro memory count _ hmemory hcount
  rw [if_pos ⟨hmemory, hcount⟩]
  rfl

theorem returns_store {memory : Bytes} {i : Nat} (b : Byte) :
    returns (store i b) memory = if i < memory.length then some ((), memory.set i b) else none := by
  unfold returns store
  by_cases h : i < memory.length
  · rw [if_pos h, if_pos h]
  · rw [if_neg h, if_neg h]

theorem returns_addInt (x n : Nat) (memory : Bytes) :
    returns (addInt x n) memory = if x + n < 2 ^ 31 then some (x + n, memory) else none := by
  unfold addInt
  rw [returns_ite]
  rfl

theorem returns_storeAll : ∀ (bs : Bytes) {memory : Bytes} {i : Nat}, i ≤ memory.length →
    returns (storeAll i bs) memory =
      if i + bs.length ≤ memory.length then some ((), overwrite memory i bs) else none
  | [], memory, i, h => by
    rw [if_pos (by simpa using h)]
    rfl
  | b :: bs, memory, i, h => by
    rw [storeAll, returns_bind, returns_store, List.length_cons]
    by_cases hi : i < memory.length
    · rw [if_pos hi, Option.bind_some, returns_storeAll bs (by rw [List.length_set]; exact hi),
        List.length_set, overwrite_set _ _ _ (Nat.lt_succ_self i), overwrite]
      simp only [Nat.add_assoc, Nat.add_comm 1]
    · rw [if_neg hi, if_neg (by omega)]
      rfl

theorem puts_storeAll (bs : Bytes) :
    Puts (fun count => do storeAll count bs; addInt count bs.length) bs := by
  intro memory count _ hmemory _
  rw [returns_bind, returns_storeAll bs hmemory]
  by_cases hfits : count + bs.length ≤ memory.length
  · rw [if_pos hfits, Option.bind_some, returns_addInt]
    by_cases hint : count + bs.length < 2 ^ 31
    · rw [if_pos hint, if_pos ⟨hfits, hint⟩]
    · rw [if_neg hint, if_neg fun h => hint h.2]
  · rw [if_neg hfits, if_neg fun h => hfits h.1]
    rfl

theorem puts_putCodePoint (codePoint : BitVec 32) :
    Puts (putCodePoint codePoint) (utf16CharConvertToUtf8Cstr codePoint) :=
  puts_storeAll _

theorem puts_putChar (b : Byte) : Puts (putChar b) [b] := by
  have hstore : putChar b = (fun count => do storeAll count [b]; addInt count [b].length) := by
    funext count
    rw [storeAll, storeAll, bind_pure_unit]
    rfl
  rw [hstore]
  exact puts_storeAll [b]

/-- An index that is advanced in front of `m`: it cannot overflow where the count does not. -/
theorem PutsFrom.addInt {l x n : Nat} {m : Nat → Nat → CstrM Nat} {bs : Bytes}
    (hm : PutsFrom l (m (x + n)) bs) (hx : x + n ≤ l + bs.length) :
    PutsFrom l (fun count => do
      let y ← addInt x n
      m y count) bs := by
  intro memory count hl hmemory hcount
  rw [returns_bind, returns_addInt]
  by_cases hint : x + n < 2 ^ 31
  · rw [if_pos hint, Option.bind_some]
    exact hm memory count hl hmemory hcount
  · rw [if_neg hint, if_neg (by omega)]
    rfl

/-- The branches store what `quoteUnit` lists. -/
theorem puts_putQuoteUnit (c₁ : Char16) : Puts (putQuoteUnit c₁) (quoteUnit c₁) := by
  have hescape (b : Byte) : Puts (fun count => do
      let count ← putChar 0x5C count
      putChar b count) [0x5C, b] :=
    (puts_putChar 0x5C).bind ((puts_putChar b).mono (Nat.zero_le _))
  unfold quoteUnit putQuoteUnit
  split
  · exact (puts_putChar 0x5C).bind ((puts_putCodePoint _).mono (Nat.zero_le _))
  split
  · exact hescape 0x74
  split
  · exact hescape 0x72
  split
  · exact hescape 0x6E
  split
  · exact hescape 0x66
  split
  · exact hescape 0x62
  · exact puts_putCodePoint _

/-! ## The loops -/

/-- What a loop stores, where `other` is what it stores for a unit that is no part of a pair. -/
def convertUnits (other : Char16 → Bytes) : Utf16 → Bytes
  | [] => []
  | [c₁] => other c₁
  | c₁ :: c₂ :: utf16 =>
    if IsHigh c₁ ∧ IsLow c₂ then
      Native.utf16CharConvertToUtf8Cstr (toCodePoint c₁ c₂) ++ convertUnits other utf16
    else other c₁ ++ convertUnits other (c₂ :: utf16)

theorem length_putCodePoint_pair {high low : Char16} (hhigh : IsHigh high) (hlow : IsLow low) :
    (Native.utf16CharConvertToUtf8Cstr (toCodePoint high low)).length = 4 := by
  have hpair := toNat_toCodePoint hhigh hlow
  have hlt := pair_lt hhigh hlow
  rw [utf16CharConvertToUtf8Cstr_eq (by omega), hpair, length_utf8Char_pair]

theorem convertUnits_cons_of_not_high (other : Char16 → Bytes) {c₁ : Char16} (h : ¬ IsHigh c₁)
    (utf16 : Utf16) : convertUnits other (c₁ :: utf16) = other c₁ ++ convertUnits other utf16 := by
  cases utf16 with
  | nil => exact (List.append_nil _).symm
  | cons c₂ utf16 => rw [convertUnits, if_neg fun hpair => h hpair.1]

theorem length_convertUnits_cons_pos {other : Char16 → Bytes} (hother : ∀ c, 1 ≤ (other c).length)
    (c₁ : Char16) (utf16 : Utf16) : 1 ≤ (convertUnits other (c₁ :: utf16)).length := by
  have hone := hother c₁
  cases utf16 with
  | nil => exact hone
  | cons c₂ utf16 =>
    rw [convertUnits]
    split
    · next hpair =>
      rw [List.length_append, length_putCodePoint_pair hpair.1 hpair.2]
      omega
    · rw [List.length_append]
      omega

section Loop

variable {other : Char16 → Nat → CstrM Nat} {bytes : Char16 → Bytes}

/-- One turn. The index behind the units it takes does not overtake the count behind their
bytes. -/
theorem putsFrom_convertUnit (hother : ∀ c, Puts (other c) (bytes c))
    (hsize : ∀ c, 1 ≤ (bytes c).length ∧ (IsHigh c → 2 ≤ (bytes c).length)) {utf16 : Utf16}
    {next : Nat → Nat → CstrM Nat} {i : Nat}
    (hnext : ∀ j, i < j → PutsFrom j (next j) (convertUnits bytes (utf16.drop j)))
    {c₁ : Char16} {rest : Utf16} (hrest : utf16.drop (i + 1) = rest) :
    PutsFrom i (convertUnit other next utf16 c₁ (i + 1)) (convertUnits bytes (c₁ :: rest)) := by
  obtain ⟨hone, htwo⟩ := hsize c₁
  -- The unit on its own.
  have hunit : PutsFrom i (fun count => other c₁ count >>= next (i + 1))
      (bytes c₁ ++ convertUnits bytes rest) := by
    rw [← hrest]
    exact ((hother c₁).mono (Nat.zero_le i)).bind ((hnext (i + 1) (by omega)).mono (by omega))
  by_cases hhigh : IsHigh c₁
  · cases rest with
    | nil =>
      have hnone : utf16[i + 1]? = none :=
        List.getElem?_eq_none_iff.mpr (List.drop_eq_nil_iff.mp hrest)
      unfold convertUnit
      simp only [if_pos hhigh, hnone]
      rwa [convertUnits, List.append_nil] at hunit
    | cons c₂ rest =>
      have hc₂ : utf16[i + 1]? = some c₂ := by
        have := congrArg (·[0]?) hrest
        simpa using this
      unfold convertUnit
      simp only [if_pos hhigh, hc₂]
      by_cases hlow : IsLow c₂
      · have hfour := length_putCodePoint_pair hhigh hlow
        have hdrop : utf16.drop (i + 1 + 1) = rest := by
          rw [← List.drop_drop, hrest]
          rfl
        simp only [if_pos hlow]
        rw [convertUnits, if_pos ⟨hhigh, hlow⟩]
        refine PutsFrom.addInt (m := fun i₂ count => putCodePoint (toCodePoint c₁ c₂) count >>= next i₂)
          ?_ ?_
        · refine ((puts_putCodePoint _).mono (Nat.zero_le i)).bind ?_
          rw [← hdrop]
          exact (hnext (i + 1 + 1) (by omega)).mono (by omega)
        · rw [List.length_append]
          omega
      · simp only [if_neg hlow]
        rw [convertUnits, if_neg fun hpair => hlow hpair.2]
        refine PutsFrom.addInt (m := fun _ count => other c₁ count >>= next (i + 1)) hunit ?_
        have := htwo hhigh
        rw [List.length_append]
        omega
  · unfold convertUnit
    simp only [if_neg hhigh]
    rwa [convertUnits_cons_of_not_high bytes hhigh]

/-- **The loop**, by induction on the turns that are left. -/
theorem putsFrom_convertLoop (hother : ∀ c, Puts (other c) (bytes c))
    (hsize : ∀ c, 1 ≤ (bytes c).length ∧ (IsHigh c → 2 ≤ (bytes c).length)) (utf16 : Utf16) :
    ∀ turns i, utf16.length ≤ i + turns →
      PutsFrom i (convertLoop other utf16 turns i) (convertUnits bytes (utf16.drop i)) := by
  intro turns
  induction turns with
  | zero =>
    intro i hi
    rw [List.drop_of_length_le (by omega)]
    exact puts_pure.mono (Nat.zero_le i)
  | succ turns ih =>
    intro i hi
    cases hrest : utf16.drop i with
    | nil =>
      have hnone : utf16[i]? = none :=
        List.getElem?_eq_none_iff.mpr (List.drop_eq_nil_iff.mp hrest)
      have hloop : convertLoop other utf16 (turns + 1) i = pure := by
        funext count
        simp only [convertLoop, hnone]
      rw [hloop]
      exact puts_pure.mono (Nat.zero_le i)
    | cons c₁ rest =>
      have hc₁ : utf16[i]? = some c₁ := by
        have := congrArg (·[0]?) hrest
        simpa using this
      have hdrop : utf16.drop (i + 1) = rest := by
        rw [← List.drop_drop, hrest]
        rfl
      have hlength := congrArg List.length hrest
      rw [List.length_drop, List.length_cons] at hlength
      -- one turn takes one unit, or the two of a pair
      have hloop : convertLoop other utf16 (turns + 1) i = (fun count => do
          let i ← Cstr.addInt i 1
          convertUnit other (convertLoop other utf16 turns) utf16 c₁ i count) := by
        funext count
        simp only [convertLoop, hc₁]
      rw [hloop]
      refine PutsFrom.addInt (m := convertUnit other (convertLoop other utf16 turns) utf16 c₁) ?_ ?_
      · exact putsFrom_convertUnit hother hsize (fun j hj => ih j (by omega)) hdrop
      · have hpos := length_convertUnits_cons_pos (fun c => (hsize c).1) c₁ rest
        omega

end Loop

theorem convertUnits_cstr : ∀ utf16 : Utf16,
    convertUnits (fun c₁ => Native.utf16CharConvertToUtf8Cstr (c₁.setWidth 32)) utf16 = utf8 utf16
  | [] => rfl
  | [c₁] => by
    rw [convertUnits, ← utf16ConvertToUtf8Cstr_eq, Native.utf16ConvertToUtf8Cstr]
  | c₁ :: c₂ :: utf16 => by
    rw [convertUnits, convertUnits_cstr utf16, convertUnits_cstr (c₂ :: utf16),
      ← utf16ConvertToUtf8Cstr_eq, ← utf16ConvertToUtf8Cstr_eq, ← utf16ConvertToUtf8Cstr_eq,
      Native.utf16ConvertToUtf8Cstr]

theorem convertUnits_quoteUnit : ∀ utf16 : Utf16, convertUnits quoteUnit utf16 = quoteUnits utf16
  | [] => rfl
  | [_] => rfl
  | c₁ :: c₂ :: utf16 => by
    rw [convertUnits, convertUnits_quoteUnit utf16, convertUnits_quoteUnit (c₂ :: utf16), quoteUnits]

/-- A high surrogate on its own has the pattern of three bytes. -/
theorem length_char_unit (c : Char16) :
    1 ≤ (Native.utf16CharConvertToUtf8Cstr (c.setWidth 32)).length ∧
      (IsHigh c → 2 ≤ (Native.utf16CharConvertToUtf8Cstr (c.setWidth 32)).length) := by
  rw [utf16CharConvertToUtf8Cstr_unit]
  refine ⟨(length_utf8Char_unit c).1, fun hhigh => ?_⟩
  obtain ⟨hle, -⟩ := hhigh
  unfold utf8Char
  rw [if_neg (by omega), if_neg (by omega)]
  split
  · exact Nat.le_add_left 2 1
  · exact Nat.le_add_left 2 2

theorem length_quoteUnit (c : Char16) :
    1 ≤ (quoteUnit c).length ∧ (IsHigh c → 2 ≤ (quoteUnit c).length) := by
  obtain ⟨hone, htwo⟩ := length_char_unit c
  unfold quoteUnit
  split
  · rw [List.length_cons]
    exact ⟨by omega, fun _ => by omega⟩
  split
  · exact ⟨Nat.le_add_left 1 1, fun _ => Nat.le_refl 2⟩
  split
  · exact ⟨Nat.le_add_left 1 1, fun _ => Nat.le_refl 2⟩
  split
  · exact ⟨Nat.le_add_left 1 1, fun _ => Nat.le_refl 2⟩
  split
  · exact ⟨Nat.le_add_left 1 1, fun _ => Nat.le_refl 2⟩
  split
  · exact ⟨Nat.le_add_left 1 1, fun _ => Nat.le_refl 2⟩
  · exact ⟨hone, htwo⟩

/-! ## The conversions -/

/-- The NUL behind what is stored from the start. -/
theorem returns_terminated {m : Nat → CstrM Nat} {bs : Bytes} (hm : Puts m bs) (memory : Bytes) :
    returns (do
      let count ← m 0
      store count 0
      pure count) memory =
      if bs.length < memory.length ∧ bs.length < 2 ^ 31 then
        some (bs.length, bs ++ 0 :: memory.drop (bs.length + 1))
      else none := by
  rw [returns_bind, hm memory 0 (Nat.le_refl 0) (Nat.zero_le _) (by decide)]
  simp only [Nat.zero_add]
  by_cases hfits : bs.length < memory.length ∧ bs.length < 2 ^ 31
  · rw [if_pos ⟨Nat.le_of_lt hfits.1, hfits.2⟩, if_pos hfits, Option.bind_some, returns_bind,
      returns_store, overwrite_length, if_pos hfits.1, Option.bind_some, returns_pure,
      overwrite_zero (Nat.le_of_lt hfits.1), List.set_append_right _ _ (Nat.le_refl _), Nat.sub_self,
      List.drop_eq_getElem_cons hfits.1, List.set_cons_zero]
  · rw [if_neg hfits]
    by_cases hle : bs.length ≤ memory.length ∧ bs.length < 2 ^ 31
    · rw [if_pos hle, Option.bind_some, returns_bind, returns_store, overwrite_length,
        if_neg (by omega)]
      rfl
    · rw [if_neg hle]
      rfl

theorem returns_utf16ConvertToUtf8Cstr (utf16 : Utf16) (memory : Bytes) :
    returns (utf16ConvertToUtf8Cstr utf16) memory =
      if (utf8 utf16).length < memory.length ∧ (utf8 utf16).length < 2 ^ 31 then
        some ((utf8 utf16).length, utf8 utf16 ++ 0 :: memory.drop ((utf8 utf16).length + 1))
      else none := by
  have hunit (c₁ : Char16) : Puts (putCodePoint (c₁.setWidth 32)) _ := puts_putCodePoint _
  have hloop := putsFrom_convertLoop hunit length_char_unit utf16 utf16.length 0 (by omega)
  rw [List.drop_zero, convertUnits_cstr] at hloop
  exact returns_terminated hloop memory

theorem returns_utf16ConvertToUtf8QuoteCstr (utf16 : Utf16) (memory : Bytes) :
    returns (utf16ConvertToUtf8QuoteCstr utf16) memory =
      if (Native.utf16ConvertToUtf8QuoteCstr utf16).length < memory.length ∧
          (Native.utf16ConvertToUtf8QuoteCstr utf16).length < 2 ^ 31 then
        some ((Native.utf16ConvertToUtf8QuoteCstr utf16).length,
          Native.utf16ConvertToUtf8QuoteCstr utf16 ++
            0 :: memory.drop ((Native.utf16ConvertToUtf8QuoteCstr utf16).length + 1))
      else none := by
  have hloop := putsFrom_convertLoop puts_putQuoteUnit length_quoteUnit utf16 utf16.length 0 (by omega)
  rw [List.drop_zero, convertUnits_quoteUnit] at hloop
  have hquoted := (puts_putChar 0x22).bind ((hloop.bind ((puts_putChar 0x22).mono (Nat.zero_le _))).mono
    (Nat.zero_le _))
  have hrun := returns_terminated hquoted memory
  simp only [bind_assoc] at hrun
  exact hrun

/-! ## UTF-8 -/

/-- Where the memory has room, the conversion stores the UTF-8 of the code points and one NUL,
leaves what is behind it alone and returns the number of bytes in front of it; and if every
surrogate is paired, decoding these bytes strictly gives the text. -/
def ConvertsToUtf8 (utf16 : Utf16) : Prop :=
  (∀ memory : Bytes, (utf8 utf16).length < memory.length →
    returns (utf16ConvertToUtf8Cstr utf16) memory
      = some ((utf8 utf16).length, utf8 utf16 ++ 0 :: memory.drop ((utf8 utf16).length + 1))) ∧
  (WellFormed utf16 → decodeText (utf8 utf16) = some utf16)

theorem not_convertsToUtf8_of_le {utf16 : Utf16} (h : 2 ^ 31 ≤ (utf8 utf16).length) :
    ¬ ConvertsToUtf8 utf16 := by
  rintro ⟨hrun, -⟩
  have hnone := hrun (List.replicate ((utf8 utf16).length + 1) 0) (by simp)
  rw [returns_utf16ConvertToUtf8Cstr, if_neg (by omega)] at hnone
  cases hnone

/-- **UTF-16 to UTF-8**: the conversion is correct iff an `int` can count the bytes. -/
theorem convertsToUtf8_iff (utf16 : Utf16) :
    ConvertsToUtf8 utf16 ↔ (utf8 utf16).length < 2 ^ 31 := by
  constructor
  · intro h
    by_contra hlong
    exact not_convertsToUtf8_of_le (by omega) h
  · intro hsmall
    refine ⟨fun memory hmemory => ?_, decodeText_utf8⟩
    rw [returns_utf16ConvertToUtf8Cstr, if_pos ⟨hmemory, hsmall⟩]

/-- A text of 2³¹ letters. -/
theorem not_convertsToUtf8_long : ¬ ConvertsToUtf8 (List.replicate (2 ^ 31) 0x61) := by
  apply not_convertsToUtf8_of_le
  have h := (length_utf8 (List.replicate (2 ^ 31) 0x61)).1
  rwa [List.length_replicate] at h

end Cstr

end Wson.Native
