import Wson.Native.Growth

/-!
# How far a `wson_buffer` grows

`msg_buffer_resize` adds in `uint32_t`: the old length, a doubled length, or the request and
some slack.

- `wanted`: the length it is about; `Covered`: the sum is not too large for 32 bits.
- `provides_iff`: in every state that pushes lead to, the macro makes room for a request
  exactly when the request is covered.
- `inside_of_coveredAll`: where all requests of a run are covered, the position stays
  inside the block and the block never shrinks.
-/

namespace Wson.Native

open Effect Wire

/-- A push, or `wson_push_ensure_size`, of which the sum is a `size_t`. -/
inductive Push where
  | write (call : Native.Call)
  | ensureSize (dataSize : BitVec 32)

namespace Push

open Buffer

def run : Push → BufferM Unit
  | .write call => call.run .c
  | .ensureSize dataSize => Buffer.ensureSize .c 64 dataSize.toNat

def runAll : List Push → BufferM Unit
  | [] => pure ()
  | push :: pushes => do
    push.run
    runAll pushes

end Push

namespace Buffer

/-! ## A request -/

/-- The new length, if there were no limit for it. -/
def wanted (size length : Nat) : Nat :=
  if size < length then length + if length < 1024 * 16 then 1024 * 16 else length
  else length + (size + 1024)

/-- There is room for `size` bytes, or a new length of 32 bits is enough. Where both the block and
the request are within 1024 bytes of the limit, a sum that wraps around may be enough, too. -/
def Covered (size : Nat) (b : Buffer) : Prop :=
  b.position + size ≤ b.length ∨
    (b.position + size ≤ wanted size b.length ∧ wanted size b.length < 2 ^ 32) ∨
    (b.length ≤ size ∧ 2 ^ 32 + b.position ≤ b.length + 1024 ∧ wanted size b.length < 2 ^ 33)

instance (size : Nat) (b : Buffer) : Decidable (Covered size b) :=
  inferInstanceAs (Decidable (_ ∨ _ ∨ _))

/-- What `WSON_BUFFER_ENSURE_SIZE(size)` should do, where the sum in it has `width` bits. -/
def Provides (width size : Nat) (b : Buffer) : Prop :=
  ∃ b', ensureSize .c width size b = .ok () b' ∧ b'.position = b.position ∧
    b.position + size ≤ b'.length ∧ b.length ≤ b'.length

/-- `position` and `length` are `uint32_t`s. -/
structure Counted (b : Buffer) : Prop where
  position : b.position < 2 ^ 32
  length : b.length < 2 ^ 32

theorem resizedLength_eq (size length : Nat) :
    resizedLength .c size length = wanted size length % 2 ^ 32 := by
  unfold resizedLength wanted
  by_cases h : size < length
  · rw [if_pos h, if_pos h, Nat.add_comm length]
    rfl
  · rw [if_neg h, if_neg h, Nat.add_comm length]
    rfl

/-- The sum is enough if it does not wrap around. -/
theorem le_resizedLength_iff {size : Nat} {b : Buffer} (hcounted : b.Counted)
    (hsize : b.position + size < 2 ^ 32) (hgrow : b.length < b.position + size) :
    b.position + size ≤ wanted size b.length % 2 ^ 32 ∧ b.length ≤ wanted size b.length % 2 ^ 32 ↔
      Covered size b := by
  have hlength := hcounted.length
  unfold Covered
  rw [or_iff_right (Nat.not_le_of_lt hgrow)]
  by_cases hfits : wanted size b.length < 2 ^ 32
  · rw [Nat.mod_eq_of_lt hfits]
    constructor
    · rintro ⟨hroom, -⟩
      exact .inl ⟨hroom, hfits⟩
    · rintro (⟨hroom, -⟩ | ⟨hle, hcorner, -⟩)
      · exact ⟨hroom, by omega⟩
      · unfold wanted at hfits
        rw [if_neg (Nat.not_lt_of_le hle)] at hfits
        omega
  · rw [or_iff_right fun h => hfits h.2]
    unfold wanted at hfits ⊢
    by_cases hlt : size < b.length
    · rw [if_pos hlt] at hfits ⊢
      refine iff_of_false ?_ fun h => Nat.not_le_of_lt hlt h.1
      by_cases hsmall : b.length < 1024 * 16
      · rw [if_pos hsmall] at hfits
        omega
      · rw [if_neg hsmall] at hfits ⊢
        omega
    · rw [if_neg hlt] at hfits ⊢
      omega

/-- Where the sum is a number of 32 bits, the macro compares and then resizes. -/
theorem ensureSize_run {width size : Nat} {b : Buffer} (hwidth : 32 ≤ width)
    (hsize : b.position + size < 2 ^ 32) : ensureSize .c width size b =
      if b.length < b.position + size then
        .ok () { b with
          data := realloc b.data (wanted size b.length % 2 ^ 32)
          length := wanted size b.length % 2 ^ 32 }
      else .ok () b := by
  have hpow : 2 ^ 32 ≤ 2 ^ width := Nat.pow_le_pow_right (by decide) hwidth
  have hrun : ensureSize .c width size b = (if b.length < (b.position + size) % 2 ^ width then
      resize .c (size % 2 ^ 32) else pure () : BufferM Unit) b := rfl
  rw [hrun, Nat.mod_eq_of_lt (Nat.lt_of_lt_of_le hsize hpow), Nat.mod_eq_of_lt (show size < 2 ^ 32 by omega),
    ← resizedLength_eq]
  split <;> rfl

/-- **The macro** makes room for a request exactly when it is covered. -/
theorem provides_iff_covered {width size : Nat} {b : Buffer} (hcounted : b.Counted) (hwidth : 32 ≤ width)
    (hsize : b.position + size < 2 ^ 32) : Provides width size b ↔ Covered size b := by
  have hrun := ensureSize_run hwidth hsize
  by_cases hgrow : b.length < b.position + size
  · rw [if_pos hgrow] at hrun
    rw [← le_resizedLength_iff hcounted hsize hgrow]
    constructor
    · rintro ⟨b', hok, -, hroom, hle⟩
      obtain ⟨-, rfl⟩ := EStateM.Result.ok.inj (hrun.symm.trans hok)
      exact ⟨hroom, hle⟩
    · rintro ⟨hroom, hle⟩
      exact ⟨_, hrun, rfl, hroom, hle⟩
  · rw [if_neg hgrow] at hrun
    have hroom := Nat.le_of_not_lt hgrow
    exact iff_of_true ⟨b, hrun, rfl, hroom, Nat.le_refl _⟩ (.inl hroom)

/-! ## Runs -/

/-- However a run ends, the fields are numbers of 32 bits. -/
def StaysCounted (b b' : Buffer) : Prop :=
  b.Counted → b'.Counted

theorem staysCounted_refl (b : Buffer) : StaysCounted b b :=
  id

theorem staysCounted_trans ⦃b b₁ b₂ : Buffer⦄ (h : StaysCounted b b₁) (h' : StaysCounted b₁ b₂) :
    StaysCounted b b₂ :=
  fun hb => h' (h hb)

theorem staysCounted_ensureSize (width size : Nat) :
    Preserves StaysCounted (ensureSize .c width size) := by
  refine (preserves_get staysCounted_refl).bind staysCounted_trans fun b => ?_
  refine Preserves.ite (preserves_modify fun b hb => ?_) (preserves_pure staysCounted_refl _)
  exact ⟨hb.position, Nat.mod_lt _ (by decide)⟩

theorem staysCounted_put (bs : Bytes) : Preserves StaysCounted (put .c bs) := by
  intro b hb
  unfold final put
  by_cases hroom : b.position + bs.length ≤ b.data.length
  · rw [if_pos hroom]
    exact ⟨Nat.mod_lt _ (by decide), hb.length⟩
  · rw [if_neg hroom]
    exact hb

theorem staysCounted_copy (s : Store) : Preserves StaysCounted (copy .c s) := by
  intro b hb
  unfold final copy
  by_cases hroom : b.position + s.count ≤ b.data.length
  · rw [if_pos hroom]
    exact staysCounted_put s.bytes b hb
  · rw [if_neg hroom]
    exact hb

theorem staysCounted_storeAll (ss : List Store) : Preserves StaysCounted (storeAll .c ss) := by
  induction ss with
  | nil => exact preserves_pure staysCounted_refl _
  | cons s ss ih =>
    refine Preserves.bind staysCounted_trans ?_ fun _ => ih
    exact (staysCounted_ensureSize _ _).bind staysCounted_trans fun _ => staysCounted_copy s

end Buffer

namespace Push

open Buffer

theorem staysCounted_run (push : Push) : Preserves StaysCounted push.run := by
  cases push with
  | write call =>
    rw [run, Call.run_eq_storeAll]
    exact staysCounted_storeAll _
  | ensureSize dataSize => exact staysCounted_ensureSize _ _

theorem staysCounted_runAll (pushes : List Push) : Preserves StaysCounted (runAll pushes) := by
  induction pushes with
  | nil => exact preserves_pure staysCounted_refl _
  | cons push pushes ih => exact (staysCounted_run push).bind staysCounted_trans fun _ => ih

/-- **After any pushes** on a new buffer, the macro makes room for a request exactly when it is
covered. -/
theorem provides_iff {block : Bytes} {pushes : List Push} {b : Buffer} {width size : Nat}
    (hblock : block.length = 1024) (hrun : runAll pushes (Buffer.new block) = .ok () b)
    (hwidth : 32 ≤ width) (hsize : b.position + size < 2 ^ 32) :
    Provides width size b ↔ Covered size b := by
  have hnew : (Buffer.new block).Counted := by
    refine ⟨Nat.two_pow_pos 32, ?_⟩
    show block.length < _
    rw [hblock]
    decide
  exact provides_iff_covered ((staysCounted_runAll pushes).of_ok hrun hnew) hwidth hsize

theorem provides_iff_first : Provides 64 2000 (Buffer.new (List.replicate 1024 0)) ↔
    Covered 2000 (Buffer.new (List.replicate 1024 0)) :=
  provides_iff List.length_replicate (show runAll [] _ = .ok () _ from rfl) (by decide) (by decide)

/-- After `wson_push_ensure_size(2^31)`. -/
def reserved : Buffer where
  data := realloc (List.replicate 1024 0) (2 ^ 31 + 2048)
  position := 0
  length := 2 ^ 31 + 2048

theorem ensureSize_reserved :
    Buffer.ensureSize .c 64 (2 ^ 31) (Buffer.new (List.replicate 1024 0)) = .ok () reserved := by
  have hlength : (Buffer.new (List.replicate 1024 0)).length = 1024 := List.length_replicate
  have hwanted : wanted (2 ^ 31) 1024 % 2 ^ 32 = 2 ^ 31 + 2048 := by decide
  rw [ensureSize_run (by decide) (by decide), hlength, hwanted]
  exact if_pos (by decide)

/-- A request of `2^31 + 2049` bytes more: the sum wraps around to a block of 5121 bytes. -/
theorem not_provides_reserved :
    runAll [.ensureSize 0x80000000] (Buffer.new (List.replicate 1024 0)) = .ok () reserved ∧
      reserved.position + 0x80000801 < 2 ^ 32 ∧ ¬ Provides 64 0x80000801 reserved := by
  refine ⟨bind_of_ok ensureSize_reserved _, by decide, ?_⟩
  rintro ⟨b', hrun, -, hroom, -⟩
  rw [ensureSize_run (by decide) (by decide), if_pos (by decide)] at hrun
  obtain ⟨-, rfl⟩ := EStateM.Result.ok.inj hrun
  exact absurd hroom (by decide)

/-! ### Runs that are covered -/

/-- All requests of the stores are covered when they are made. -/
def CoveredStores : List Store → Buffer → Prop
  | [], _ => True
  | s :: ss, b => Covered s.request b ∧ ∀ b', store .c s b = .ok () b' → CoveredStores ss b'

/-- The same for the pushes of a run. -/
def CoveredAll : List Push → Buffer → Prop
  | [], _ => True
  | .write call :: pushes, b =>
    CoveredStores (call.stores .c) b ∧ ∀ b', run (.write call) b = .ok () b' → CoveredAll pushes b'
  | .ensureSize dataSize :: pushes, b =>
    Covered dataSize.toNat b ∧ ∀ b', run (.ensureSize dataSize) b = .ok () b' → CoveredAll pushes b'

/-- The position is inside the block, which is no smaller than it was. -/
structure Inside (length : Nat) (b : Buffer) : Prop where
  counted : b.Counted
  inside : b.position ≤ b.length
  le : length ≤ b.length

theorem exists_of_seq {m m' : BufferM Unit} {b b' : Buffer}
    (h : (do m; m') b = .ok () b') : ∃ b₁, m b = .ok () b₁ ∧ m' b₁ = .ok () b' := by
  have hreturns := returns_eq_some.mpr h
  rw [returns_bind] at hreturns
  obtain ⟨⟨⟨⟩, b₁⟩, h₁, h₂⟩ := Option.bind_eq_some_iff.mp hreturns
  exact ⟨b₁, returns_eq_some.mp h₁, returns_eq_some.mp h₂⟩

theorem Inside.ensureSize {length width size : Nat} {b b' : Buffer} (h : Inside length b)
    (hcovered : Covered size b) (hwidth : 32 ≤ width) (hrun : Buffer.ensureSize .c width size b = .ok () b') :
    Inside length b' ∧ b'.position + size ≤ b'.length := by
  have hsize : b.position + size < 2 ^ 32 := by
    have hlength := h.counted.length
    rcases hcovered with hroom | ⟨hroom, hfits⟩ | ⟨hle, hcorner, hfits⟩
    · omega
    · omega
    · rw [wanted, if_neg (Nat.not_lt_of_le hle)] at hfits
      omega
  obtain ⟨b₁, hrun₁, hposition, hroom, hle⟩ := (provides_iff_covered h.counted hwidth hsize).mpr hcovered
  obtain ⟨-, rfl⟩ := EStateM.Result.ok.inj (hrun₁.symm.trans hrun)
  have hcounted := (staysCounted_ensureSize width size).of_ok hrun h.counted
  exact ⟨⟨hcounted, by omega, Nat.le_trans h.le hle⟩, by omega⟩

theorem Inside.storeAll {length : Nat} {ss : List Store} (htight : ∀ s ∈ ss, s.Tight) {b b' : Buffer}
    (h : Inside length b) (hcovered : CoveredStores ss b) (hrun : Buffer.storeAll .c ss b = .ok () b') :
    Inside length b' := by
  induction ss generalizing b with
  | nil =>
    obtain ⟨-, rfl⟩ := EStateM.Result.ok.inj hrun
    exact h
  | cons s ss ih =>
    obtain ⟨hs, htight⟩ := List.forall_mem_cons.mp htight
    obtain ⟨b₁, hstore, hrest⟩ := exists_of_seq hrun
    obtain ⟨b₂, hensure, hcopy⟩ := exists_of_seq hstore
    refine ih htight ?_ (hcovered.2 b₁ hstore) hrest
    obtain ⟨h₂, hroom⟩ := h.ensureSize hcovered.1 hs.width_le hensure
    have hcounted := (staysCounted_copy s).of_ok hcopy h₂.counted
    have hbytes := hs.le_request
    have hlength := h₂.counted.length
    have hend : b₁.position = (b₂.position + s.bytes.length) % 2 ^ 32 ∧ b₁.length = b₂.length := by
      unfold copy put at hcopy
      split at hcopy
      · split at hcopy
        · obtain ⟨-, rfl⟩ := EStateM.Result.ok.inj hcopy
          exact ⟨rfl, rfl⟩
        · exact nomatch hcopy
      · exact nomatch hcopy
    rw [Nat.mod_eq_of_lt (by omega)] at hend
    exact ⟨hcounted, by omega, by rw [hend.2]; exact h₂.le⟩

/-- **Where every request of a run is covered**, the position stays inside the block, and the block
never shrinks. -/
theorem Inside.runAll {length : Nat} {pushes : List Push} {b b' : Buffer} (h : Inside length b)
    (hcovered : CoveredAll pushes b) (hrun : Push.runAll pushes b = .ok () b') : Inside length b' := by
  induction pushes generalizing b with
  | nil =>
    obtain ⟨-, rfl⟩ := EStateM.Result.ok.inj hrun
    exact h
  | cons push pushes ih =>
    obtain ⟨b₁, hpush, hrest⟩ := exists_of_seq hrun
    cases push with
    | write call =>
      refine ih ?_ (hcovered.2 b₁ hpush) hrest
      rw [run, Call.run_eq_storeAll] at hpush
      exact h.storeAll (call.tight_of_mem_stores .c) hcovered.1 hpush
    | ensureSize dataSize =>
      exact ih (h.ensureSize hcovered.1 (by decide) hpush).1 (hcovered.2 b₁ hpush) hrest

end Push

end Wson.Native
