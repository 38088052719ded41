import Wson.Wire.Word

/-!
# Base-128 integers

A base-128 integer is a run of bytes carrying seven bits each, least significant
group first; every byte but the last has its top bit set.

- `groups h`: the number a run denotes; `Delimited h`: the run ends where its
  first byte without the top bit stands. Runs are self-delimiting
  (`Delimited.append_inj`), which is what makes formats built on them uniquely
  readable.
- `VarUInt n h`: `h` is a run of one to five bytes denoting `n`, and `n` fits in
  32 bits. A number has several such runs; `encode n` is the shortest
  (`varUInt_encode`).
- `zigzag` and `unzigzag` fold the sign into the lowest bit and back.
-/

namespace Wire

/-! ## Runs of groups -/

/-- The number denoted by a run, least significant group first. -/
def groups : Bytes → Nat
  | [] => 0
  | b :: bs => b.toNat % 128 + 128 * groups bs

/-- Exactly the last byte of the run lacks the continuation bit. -/
def Delimited : Bytes → Prop
  | [] => False
  | [b] => b.toNat < 128
  | b :: b' :: bs => 128 ≤ b.toNat ∧ Delimited (b' :: bs)

theorem Delimited.ne_nil {h : Bytes} (hd : Delimited h) : h ≠ [] := by
  rintro rfl
  exact hd

theorem Delimited.length_pos {h : Bytes} (hd : Delimited h) : 0 < h.length :=
  List.length_pos_of_ne_nil hd.ne_nil

theorem delimited_cons_of_lt {b : Byte} {bs : Bytes} (hb : b.toNat < 128)
    (h : Delimited (b :: bs)) : bs = [] := by
  cases bs with
  | nil => rfl
  | cons b' bs => exact absurd h.1 (by omega)

theorem delimited_cons_of_le {b : Byte} {bs : Bytes} (hb : 128 ≤ b.toNat) :
    Delimited (b :: bs) ↔ Delimited bs := by
  cases bs with
  | nil => exact ⟨fun h => absurd h (Nat.not_lt.mpr hb), False.elim⟩
  | cons b' bs => exact ⟨And.right, fun h => ⟨hb, h⟩⟩

/-- **Runs are self-delimiting**: two runs that start the same byte string are
the same run. -/
theorem Delimited.append_inj :
    ∀ {h₁ h₂ r₁ r₂ : Bytes}, Delimited h₁ → Delimited h₂ → h₁ ++ r₁ = h₂ ++ r₂ →
      h₁ = h₂ ∧ r₁ = r₂
  | [], _, _, _, hd, _, _ => hd.elim
  | _ :: _, [], _, _, _, hd, _ => hd.elim
  | b :: bs, b' :: bs', r₁, r₂, hd₁, hd₂, h => by
    obtain ⟨rfl, htail⟩ := List.cons.inj h
    by_cases hb : b.toNat < 128
    · have hnil := delimited_cons_of_lt hb hd₁
      have hnil' := delimited_cons_of_lt hb hd₂
      subst hnil hnil'
      exact ⟨rfl, htail⟩
    · rw [delimited_cons_of_le (Nat.not_lt.mp hb)] at hd₁ hd₂
      obtain ⟨rfl, hr⟩ := Delimited.append_inj hd₁ hd₂ htail
      exact ⟨rfl, hr⟩

theorem groups_lt : ∀ h : Bytes, groups h < 128 ^ h.length
  | [] => Nat.one_pos
  | b :: bs => by
    have ih := groups_lt bs
    simp only [groups, List.length_cons, Nat.pow_succ]
    omega

/-! ## Runs that are cut off -/

/-- What a reader of at most `k` groups reads: a run, or `k` groups, of which the last may have
any top bit. -/
def Header : Nat → Bytes → Prop
  | 0, _ => False
  | _, [] => False
  | k + 1, [b] => b.toNat < 128 ∨ k = 0
  | k + 1, b :: b' :: bs => 128 ≤ b.toNat ∧ Header k (b' :: bs)

theorem Header.length_pos {k : Nat} {h : Bytes} (hh : Header k h) : 0 < h.length := by
  cases k with
  | zero => exact hh.elim
  | succ k =>
    cases h with
    | nil => exact hh.elim
    | cons b bs => exact Nat.succ_pos _

theorem header_of_delimited {k : Nat} {h : Bytes} (hd : Delimited h) (hk : h.length ≤ k) :
    Header k h := by
  induction k generalizing h with
  | zero => exact absurd hd.length_pos (by omega)
  | succ k ih =>
    match h, hd with
    | [b], hb => exact .inl hb
    | b :: b' :: bs, ⟨hb, hbs⟩ => exact ⟨hb, ih hbs (Nat.le_of_succ_le_succ hk)⟩

theorem header_cons {k : Nat} {b : Byte} {h : Bytes} (hb : 128 ≤ b.toNat) (hh : Header k h) :
    Header (k + 1) (b :: h) := by
  cases h with
  | nil => exact absurd hh.length_pos (Nat.lt_irrefl 0)
  | cons b' bs => exact ⟨hb, hh⟩

/-- Any bytes start with a header, unless they are too few and all of them continue. -/
theorem exists_header (k : Nat) (xs : Bytes) :
    (∃ h rest, xs = h ++ rest ∧ Header (k + 1) h) ∨ xs.length ≤ k ∧ ∀ b ∈ xs, 128 ≤ b.toNat := by
  induction k generalizing xs with
  | zero =>
    cases xs with
    | nil => exact .inr ⟨Nat.le_refl 0, nofun⟩
    | cons b bs => exact .inl ⟨[b], bs, rfl, .inr rfl⟩
  | succ k ih =>
    cases xs with
    | nil => exact .inr ⟨Nat.zero_le _, nofun⟩
    | cons b bs =>
      by_cases hb : b.toNat < 128
      · exact .inl ⟨[b], bs, rfl, .inl hb⟩
      · have hmore : 128 ≤ b.toNat := Nat.not_lt.mp hb
        rcases ih bs with ⟨h, rest, rfl, hh⟩ | ⟨hlen, hall⟩
        · exact .inl ⟨b :: h, rest, rfl, header_cons hmore hh⟩
        · exact .inr ⟨Nat.succ_le_succ hlen, List.forall_mem_cons.mpr ⟨hmore, hall⟩⟩

/-! ## The shortest run -/

/-- At most `k + 1` groups of `n`, without leading zero groups. -/
def encodeGroups : Nat → Nat → Bytes
  | 0, n => [BitVec.ofNat 8 (n % 128)]
  | k + 1, n =>
    if n < 128 then [BitVec.ofNat 8 n]
    else BitVec.ofNat 8 (n % 128 + 128) :: encodeGroups k (n / 128)

/-- The shortest run of a 32-bit number. -/
def encode (n : Nat) : Bytes :=
  encodeGroups 4 n

theorem toNat_ofNat_of_lt {n : Nat} (h : n < 256) : (BitVec.ofNat 8 n).toNat = n := by
  rw [BitVec.toNat_ofNat]
  exact Nat.mod_eq_of_lt h

theorem encodeGroups_length_le : ∀ k n, (encodeGroups k n).length ≤ k + 1
  | 0, _ => Nat.le_refl 1
  | k + 1, n => by
    rw [encodeGroups]
    split
    · simp
    · exact Nat.succ_le_succ (encodeGroups_length_le k (n / 128))

theorem encodeGroups_ne_nil (k n : Nat) : encodeGroups k n ≠ [] := by
  cases k with
  | zero => simp [encodeGroups]
  | succ k =>
    rw [encodeGroups]
    split <;> simp

theorem delimited_encodeGroups : ∀ k n, Delimited (encodeGroups k n)
  | 0, n => by
    show (BitVec.ofNat 8 (n % 128)).toNat < 128
    rw [toNat_ofNat_of_lt (by omega)]
    omega
  | k + 1, n => by
    rw [encodeGroups]
    split
    · next h =>
      show (BitVec.ofNat 8 n).toNat < 128
      rw [toNat_ofNat_of_lt (by omega)]
      exact h
    · refine (delimited_cons_of_le ?_).mpr (delimited_encodeGroups k (n / 128))
      rw [toNat_ofNat_of_lt (by omega)]
      omega

theorem groups_encodeGroups : ∀ k n, n < 128 ^ (k + 1) → groups (encodeGroups k n) = n
  | 0, n, h => by
    simp only [encodeGroups, groups]
    rw [toNat_ofNat_of_lt (by omega)]
    omega
  | k + 1, n, h => by
    rw [encodeGroups]
    split
    · next hn =>
      simp only [groups]
      rw [toNat_ofNat_of_lt (by omega)]
      omega
    · have hdiv : n / 128 < 128 ^ (k + 1) := by
        rw [Nat.div_lt_iff_lt_mul (by decide), ← Nat.pow_succ]
        exact h
      simp only [groups]
      rw [toNat_ofNat_of_lt (by omega), groups_encodeGroups k (n / 128) hdiv]
      omega

/-! ## 32-bit unsigned runs -/

/-- `h` is a run of one to five bytes that denotes the 32-bit number `n`. -/
structure VarUInt (n : Nat) (h : Bytes) : Prop where
  delimited : Delimited h
  short : h.length ≤ 5
  value : groups h = n
  fits : n < 2 ^ 32

theorem varUInt_encode {n : Nat} (h : n < 2 ^ 32) : VarUInt n (encode n) where
  delimited := delimited_encodeGroups 4 n
  short := encodeGroups_length_le 4 n
  value := groups_encodeGroups 4 n (by omega)
  fits := h

theorem VarUInt.length_pos {n : Nat} {h : Bytes} (hv : VarUInt n h) : 0 < h.length :=
  hv.delimited.length_pos

/-- A byte string starts with at most one run, hence with at most one number. -/
theorem VarUInt.append_inj {n m : Nat} {h₁ h₂ r₁ r₂ : Bytes} (hn : VarUInt n h₁)
    (hm : VarUInt m h₂) (h : h₁ ++ r₁ = h₂ ++ r₂) : n = m ∧ h₁ = h₂ ∧ r₁ = r₂ := by
  obtain ⟨rfl, hr⟩ := hn.delimited.append_inj hm.delimited h
  exact ⟨hn.value.symm.trans hm.value, rfl, hr⟩

/-! ## The groups of a machine word -/

theorem toNat_and_low (x : BitVec 32) : (x &&& 0x7F#32).toNat = x.toNat % 128 := by
  rw [BitVec.toNat_and]
  exact Nat.and_two_pow_sub_one_eq_mod x.toNat 7

theorem toNat_and_low_or (x : BitVec 32) :
    (x &&& 0x7F#32 ||| 0x80#32).toNat = x.toNat % 128 + 128 := by
  rw [BitVec.toNat_or, toNat_and_low, Nat.or_comm]
  show 2 ^ 7 * 1 ||| x.toNat % 128 = _
  rw [← Nat.two_pow_add_eq_or_of_lt (Nat.mod_lt _ (by decide))]
  omega

theorem and_high (x : BitVec 32) : x &&& 0xFFFFFF80#32 = (x >>> 7) <<< 7 := by
  apply BitVec.eq_of_getLsbD_eq
  intro i hi
  rw [BitVec.getLsbD_and, BitVec.getLsbD_shiftLeft, BitVec.getLsbD_ushiftRight]
  interval_cases i <;> simp

theorem and_high_eq_zero (x : BitVec 32) : x &&& 0xFFFFFF80#32 = 0#32 ↔ x.toNat < 128 := by
  have hx := x.isLt
  rw [and_high, ← BitVec.toNat_inj]
  simp only [BitVec.toNat_shiftLeft, BitVec.toNat_ushiftRight, Nat.shiftRight_eq_div_pow,
    Nat.shiftLeft_eq, BitVec.toNat_ofNat]
  omega

/-- The byte of the last group. -/
theorem setWidth_and_low (x : BitVec 32) :
    (x &&& 0x7F#32).setWidth 8 = BitVec.ofNat 8 (x.toNat % 128) := by
  apply BitVec.eq_of_toNat_eq
  rw [BitVec.toNat_setWidth, toNat_and_low, BitVec.toNat_ofNat]

/-- The byte of a group that is not the last one. -/
theorem setWidth_and_low_or (x : BitVec 32) :
    (x &&& 0x7F#32 ||| 0x80#32).setWidth 8 = BitVec.ofNat 8 (x.toNat % 128 + 128) := by
  apply BitVec.eq_of_toNat_eq
  rw [BitVec.toNat_setWidth, toNat_and_low_or, BitVec.toNat_ofNat]

theorem toNat_ushiftRight_seven {w : Nat} (x : BitVec w) : (x >>> 7).toNat = x.toNat / 128 := by
  rw [BitVec.toNat_ushiftRight, Nat.shiftRight_eq_div_pow]

/-- Without its lowest group a number has one group less. -/
theorem div_lt_of_groups {n k : Nat} (h : n < 128 ^ (k + 1 + 1)) : n / 128 < 128 ^ (k + 1) := by
  rw [Nat.div_lt_iff_lt_mul (by decide), ← Nat.pow_succ]
  exact h

/-- The word made of a run whose first group is shifted by `i`, by shifting and joining the
groups; shifts are taken modulo 32. -/
def uintOf (i : Nat) : Bytes → BitVec 32
  | [] => 0
  | b :: bs => (b.setWidth 32 &&& 0x7F) <<< (i % 32) ||| uintOf (i + 7) bs

/-- One group lies below the groups that follow it. -/
theorem shift_or_ofNat {w : Nat} {x : BitVec w} {c : Nat} (hx : x.toNat = c) (hc : c < 128)
    (g i : Nat) : x <<< i ||| BitVec.ofNat w (g * 2 ^ (i + 7))
      = BitVec.ofNat w ((c + 128 * g) * 2 ^ i) := by
  have hlow : x <<< i = BitVec.ofNat w (c * 2 ^ i) := by
    apply BitVec.eq_of_toNat_eq
    rw [BitVec.toNat_shiftLeft, hx, Nat.shiftLeft_eq, BitVec.toNat_ofNat]
  have hlt : c * 2 ^ i < 2 ^ (i + 7) := by
    rw [Nat.add_comm, Nat.pow_add]
    exact Nat.mul_lt_mul_of_pos_right hc (Nat.two_pow_pos i)
  rw [hlow, ← BitVec.ofNat_or, Nat.or_comm, Nat.mul_comm g,
    ← Nat.two_pow_add_eq_or_of_lt hlt]
  congr 1
  rw [pow_add]
  ring

theorem uintOf_eq : ∀ {h : Bytes} {i : Nat}, i + 7 * h.length ≤ 35 →
    uintOf i h = BitVec.ofNat 32 (groups h * 2 ^ i)
  | [], _, _ => by simp [uintOf, groups]
  | b :: bs, i, hi => by
    rw [List.length_cons] at hi
    have hlow : (b.setWidth 32 &&& 0x7F#32).toNat = b.toNat % 128 := by
      rw [toNat_and_low, BitVec.toNat_setWidth]
      omega
    rw [uintOf, uintOf_eq (show i + 7 + 7 * bs.length ≤ 35 by omega),
      Nat.mod_eq_of_lt (show i < 32 by omega), groups]
    exact shift_or_ofNat hlow (Nat.mod_lt _ (by decide)) _ _

theorem uintOf_varUInt {n : Nat} {h : Bytes} (hv : VarUInt n h) :
    uintOf 0 h = BitVec.ofNat 32 n := by
  have hshort := hv.short
  rw [uintOf_eq (by omega), hv.value, pow_zero, Nat.mul_one]

theorem and_continuation (b : Byte) : b &&& 0x80 ≠ 0 ↔ 128 ≤ b.toNat := by
  revert b
  decide

/-- The last group needs no mask. -/
theorem uintOf_last {b : Byte} (hb : b.toNat < 128) (i : Nat) :
    uintOf i [b] = b.setWidth 32 <<< (i % 32) := by
  have hmask : b.setWidth 32 &&& 0x7F#32 = b.setWidth 32 := by
    apply BitVec.eq_of_toNat_eq
    rw [toNat_and_low, BitVec.toNat_setWidth]
    omega
  rw [uintOf, uintOf, show (0x7F : BitVec 32) = 0x7F#32 from rfl, hmask]
  exact BitVec.or_zero

/-! ## 64-bit runs -/

theorem toNat_and_low_64 (x : BitVec 64) : (x &&& 0x7F#64).toNat = x.toNat % 128 := by
  rw [BitVec.toNat_and]
  exact Nat.and_two_pow_sub_one_eq_mod x.toNat 7

theorem and_not_low_eq_zero (x : BitVec 64) : x &&& ~~~0x7F#64 = 0#64 ↔ x.toNat < 128 := by
  have hsplit : x &&& 0x7F#64 ||| x &&& ~~~0x7F#64 = x := by
    rw [← BitVec.and_or_distrib_left, BitVec.or_not_self, BitVec.and_allOnes]
  constructor
  · intro h
    rw [h, BitVec.or_zero] at hsplit
    have hlow := toNat_and_low_64 x
    rw [hsplit] at hlow
    omega
  · intro h
    have hlow : x &&& 0x7F#64 = x := by
      apply BitVec.eq_of_toNat_eq
      rw [toNat_and_low_64]
      omega
    rw [← hlow, BitVec.and_assoc, BitVec.and_not_self]
    exact BitVec.and_zero

theorem toNat_or_continuation (b : Byte) : (b ||| 0x80#8).toNat = b.toNat % 128 + 128 := by
  revert b
  decide

theorem toNat_group_64 (b : Byte) : (b.setWidth 64 &&& 0x7F#64).toNat = b.toNat % 128 := by
  rw [toNat_and_low_64, BitVec.toNat_setWidth]
  omega

/-! ## Sign folding -/

variable {w : Nat}

/-- Fold the sign into the lowest bit. -/
def zigzag (x : BitVec w) : BitVec w :=
  (x <<< 1) ^^^ (x.sshiftRight (w - 1))

/-- Undo `zigzag`: shift the sign back out and complement when it was set. -/
def unzigzag (x : BitVec w) : BitVec w :=
  (x >>> 1) ^^^ (BitVec.fill w (x.getLsbD 0))

theorem getLsbD_fill (b : Bool) (i : Nat) :
    (BitVec.fill w b).getLsbD i = (decide (i < w) && b) := by
  cases b <;> simp

theorem getLsbD_zigzag (x : BitVec w) (i : Nat) :
    (zigzag x).getLsbD i
      = (decide (i < w) && (if i = 0 then x.msb else x.getLsbD (i - 1) ^^ x.msb)) := by
  simp only [zigzag, BitVec.getLsbD_xor, BitVec.getLsbD_shiftLeft, BitVec.getLsbD_sshiftRight]
  by_cases hi : i < w
  · by_cases h0 : i = 0
    · subst h0
      simp [hi, BitVec.msb_eq_getLsbD_last, show w ≠ 0 by omega]
    · have hlt : ¬ (w - 1 + i < w) := by omega
      simp [hi, h0, hlt, show ¬ w ≤ i by omega, show ¬ i < 1 by omega]
  · simp [hi]

theorem getLsbD_unzigzag (x : BitVec w) (i : Nat) :
    (unzigzag x).getLsbD i = (decide (i < w) && (x.getLsbD (i + 1) ^^ x.getLsbD 0)) := by
  simp only [unzigzag, BitVec.getLsbD_xor, BitVec.getLsbD_ushiftRight, getLsbD_fill]
  by_cases hi : i < w
  · simp [hi, Nat.add_comm]
  · simp [hi, BitVec.getLsbD_of_ge x (1 + i) (by omega)]

theorem unzigzag_zigzag (x : BitVec w) : unzigzag (zigzag x) = x := by
  apply BitVec.eq_of_getLsbD_eq
  intro i hi
  rw [getLsbD_unzigzag, getLsbD_zigzag, getLsbD_zigzag]
  by_cases hlast : i + 1 < w
  · simp [hi, hlast, show 0 < w by omega]
  · have hmsb : x.msb = x.getLsbD i := by
      rw [BitVec.msb_eq_getLsbD_last, show w - 1 = i by omega]
    simp [hi, hlast, show 0 < w by omega, hmsb]

theorem zigzag_injective {x y : BitVec w} (h : zigzag x = zigzag y) : x = y := by
  rw [← unzigzag_zigzag x, h, unzigzag_zigzag]

theorem zigzag_unzigzag (x : BitVec w) : zigzag (unzigzag x) = x := by
  apply BitVec.eq_of_getLsbD_eq
  intro i hi
  have hmsb : (unzigzag x).msb = x.getLsbD 0 := by
    rw [BitVec.msb_eq_getLsbD_last, getLsbD_unzigzag, show w - 1 + 1 = w by omega,
      BitVec.getLsbD_of_ge x w (Nat.le_refl w)]
    simp [show w - 1 < w by omega]
  rw [getLsbD_zigzag, hmsb]
  by_cases h0 : i = 0
  · simp [h0, show 0 < w by omega]
  · rw [getLsbD_unzigzag, show i - 1 + 1 = i by omega]
    simp [hi, h0, show i - 1 < w by omega]

end Wire
