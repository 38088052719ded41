import Wson.Java.Input
import Wson.Native.Reader

/-!
# The two readers of headers

`readUInt` of `Input.java` is a loop with a limit on the shift, `wson_io_read_var_uint`
of `io/` is unrolled and stops behind its fifth byte. On the bytes that encoders write
they are the same (`consumes_readUInt_varUInt`, `consumes_readVarUint`); on arbitrary
bytes they agree iff one of the first five bytes ends the run (`readersAgree_iff`):
the limit of the loop lets a sixth byte through, which the C reader never looks at.
-/

namespace Wson.Interop

open Effect Wire Native Java

/-- `readUInt` at offset `p`: the value and how far the position has moved, `none` if it
throws. -/
def readUIntAt (data : Bytes) (p : Nat) (cache : BitVec 11 → Option Utf16) :
    Option (BitVec 32 × Int) :=
  (returns (Input.readUInt data) ⟨p, cache⟩).map fun r => (r.1, r.2.position - p)

/-- `wson_io_read_var_uint` at offset `p`. -/
def readVarUintAt (data : Bytes) (p length : Nat) : Option (BitVec 32 × Int) :=
  (returns (Buffer.readVarUint .io) ⟨data, p, length⟩).map fun r => (r.1, r.2.position - p)

/-- Neither reader runs out of bytes at `p`: a byte ends the run, or there are six bytes. -/
def EnoughBytes (data : Bytes) (p : Nat) : Prop :=
  (∃ b ∈ data.drop p, b.toNat < 128) ∨ 6 ≤ (data.drop p).length

/-- One of the first five bytes at `p` ends the run. -/
def EndsInFive (data : Bytes) (p : Nat) : Prop :=
  ∃ b ∈ (data.drop p).take 5, b.toNat < 128

/-- Both readers reject, or they return the same value and move equally far. -/
def ReadersAgree (data : Bytes) (p : Nat) : Prop :=
  ∀ cache length, readUIntAt data p cache = readVarUintAt data p length

/-! ## Runs that end -/

/-- A byte without the top bit among the first `k` bytes ends a run of at most `k` bytes. -/
theorem exists_delimited {k : Nat} {xs : Bytes} (h : ∃ b ∈ xs.take k, b.toNat < 128) :
    ∃ run rest, xs = run ++ rest ∧ Delimited run ∧ run.length ≤ k := by
  induction k generalizing xs with
  | zero =>
    obtain ⟨b, hb, -⟩ := h
    cases hb
  | succ k ih =>
    cases xs with
    | nil =>
      obtain ⟨b, hb, -⟩ := h
      cases hb
    | cons x xs =>
      by_cases hx : x.toNat < 128
      · exact ⟨[x], xs, rfl, hx, by simp⟩
      · obtain ⟨b, hb, hlt⟩ := h
        rw [List.take_succ_cons, List.mem_cons] at hb
        obtain rfl | hb := hb
        · exact absurd hlt hx
        obtain ⟨run, rest, rfl, hd, hlen⟩ := ih ⟨b, hb, hlt⟩
        refine ⟨x :: run, rest, rfl, (delimited_cons_of_le (by omega)).mpr hd, ?_⟩
        rw [List.length_cons]
        omega

/-- Conversely the last byte of a run is one without the top bit. -/
theorem exists_mem_of_delimited {run : Bytes} (h : Delimited run) : ∃ b ∈ run, b.toNat < 128 := by
  induction run with
  | nil => exact h.elim
  | cons b bs ih =>
    by_cases hb : b.toNat < 128
    · exact ⟨b, List.mem_cons_self, hb⟩
    · obtain ⟨c, hc, hlt⟩ := ih ((delimited_cons_of_le (by omega)).mp h)
      exact ⟨c, List.mem_cons_of_mem b hc, hlt⟩

/-! ## The readers at a position -/

section

variable {data : Bytes} {p : Nat}

theorem readUIntAt_eq {run rest : Bytes} (hdrop : data.drop p = run ++ rest) (hd : Delimited run)
    (hlen : run.length ≤ 6) (cache : BitVec 11 → Option Utf16) :
    readUIntAt data p cache = some (uintOf 0 run, (run.length : Int)) := by
  obtain ⟨s, hs, hp⟩ := Input.consumes_readUInt hd hlen ⟨p, cache⟩ p rest rfl hdrop
  rw [readUIntAt, hs, Option.map_some, show s.position = ((p + run.length : Nat) : Int) from hp,
    Nat.cast_add, add_sub_cancel_left]

theorem readVarUintAt_eq (hdata : data.length < 2 ^ 64) (hp : p ≤ data.length) {run rest : Bytes}
    (hdrop : data.drop p = run ++ rest) (hd : Delimited run) (hlen : run.length ≤ 5) (length : Nat) :
    readVarUintAt data p length = some (uintOf 0 run, (run.length : Int)) := by
  obtain ⟨_, hs, rfl, -⟩ := Buffer.consumes_readVarUint_uintOf (show _ < 2 ^ Library.io.bits from hdata) hd hlen
    ⟨data, p, length⟩ p rest ⟨rfl, hp⟩ hdrop
  rw [readVarUintAt, hs, Option.map_some, Nat.cast_add, add_sub_cancel_left]

/-- Whatever `readUInt` returns, it has moved over a whole run. -/
theorem exists_delimited_of_readUIntAt {cache : BitVec 11 → Option Utf16} {value : BitVec 32}
    {step : Int} (h : readUIntAt data p cache = some (value, step)) :
    ∃ run rest, data.drop p = run ++ rest ∧ Delimited run ∧ step = run.length := by
  obtain ⟨⟨a, s⟩, hs, heq⟩ := Option.map_eq_some_iff.mp h
  obtain ⟨run, rest, hdrop, ⟨hd, -⟩, hp⟩ := Input.produces_readUInt ⟨p, cache⟩ p a s rfl hs
  refine ⟨run, rest, hdrop, hd, ?_⟩
  rw [← (Prod.mk.inj heq).2]
  show s.position - p = _
  rw [show s.position = ((p + run.length : Nat) : Int) from hp]
  omega

/-- Where the first four bytes all continue, the C reader is done behind the fifth. -/
theorem exists_readVarUintAt_eq (hdata : data.length < 2 ^ 64) {b₀ b₁ b₂ b₃ b₄ : Byte} {rest : Bytes}
    (hdrop : data.drop p = [b₀, b₁, b₂, b₃, b₄] ++ rest) (hmore : ∀ b ∈ [b₀, b₁, b₂, b₃], 128 ≤ b.toNat)
    (length : Nat) : ∃ value, readVarUintAt data p length = some (value, 5) := by
  have hp : p ≤ data.length := by
    have := congrArg List.length hdrop
    simp only [List.length_drop, List.length_append, List.length_cons] at this
    omega
  have hheader : Header 5 [b₀, b₁, b₂, b₃, b₄] :=
    ⟨hmore b₀ (by simp), hmore b₁ (by simp), hmore b₂ (by simp), hmore b₃ (by simp), .inr rfl⟩
  obtain ⟨_, hs, rfl, -⟩ := Buffer.consumes_readVarUint_header
    (show _ < 2 ^ Library.io.bits from hdata) hheader ⟨data, p, length⟩ p rest ⟨rfl, hp⟩ hdrop
  refine ⟨uintOf 0 [b₀, b₁, b₂, b₃, b₄], ?_⟩
  rw [readVarUintAt, hs, Option.map_some, Nat.cast_add, add_sub_cancel_left]
  rfl

/-- **Arbitrary bytes**: the readers agree iff the run ends within five bytes. Otherwise the
Java reader moves over six bytes or rejects, the C reader moves over five. -/
theorem readersAgree_iff (hdata : data.length < 2 ^ 64) (henough : EnoughBytes data p) :
    ReadersAgree data p ↔ EndsInFive data p := by
  constructor
  · intro hagree
    by_contra hlong
    have hmore : ∀ b ∈ (data.drop p).take 5, 128 ≤ b.toNat := by
      intro b hb
      by_contra hlt
      exact hlong ⟨b, hb, by omega⟩
    -- Five bytes are there, since no shorter run ends.
    have hfive : 5 ≤ (data.drop p).length := by
      by_contra hshort
      rw [List.take_of_length_le (by omega)] at hmore
      obtain ⟨b, hb, hlt⟩ | hsix := henough
      · exact absurd (hmore b hb) (by omega)
      · omega
    obtain ⟨value, hvalue⟩ : ∃ value, readVarUintAt data p 0 = some (value, 5) := by
      -- the reader in C takes the fifth byte as the last one, whatever it is
      match hdrop : data.drop p, hfive with
      | b₀ :: b₁ :: b₂ :: b₃ :: b₄ :: rest, _ =>
        refine exists_readVarUintAt_eq hdata (show _ = _ ++ rest from hdrop) (fun b hb => hmore b ?_) 0
        rw [hdrop]
        simp only [List.take_succ_cons, List.take_zero, List.mem_cons] at hb ⊢
        tauto
    obtain ⟨run, rest, hdrop, hd, hstep⟩ :=
      exists_delimited_of_readUIntAt ((hagree (fun _ => none) 0).trans hvalue)
    obtain ⟨b, hb, hlt⟩ := exists_mem_of_delimited hd
    -- the reader in Java has stopped behind a byte below 128, one of the same five
    refine hlong ⟨b, ?_, hlt⟩
    rw [hdrop, List.take_left' (by omega)]
    exact hb
  · rintro hfive cache length
    obtain ⟨run, rest, hdrop, hd, hlen⟩ := exists_delimited hfive
    have hp : p ≤ data.length := by
      by_contra h
      rw [List.drop_of_length_le (by omega)] at hdrop
      exact hd.ne_nil (List.append_eq_nil_iff.mp hdrop.symm).1
    rw [readUIntAt_eq hdrop hd (by omega), readVarUintAt_eq hdata hp hdrop hd hlen]

end

theorem readersAgree_overlong_iff :
    ReadersAgree [0x00, 0x80, 0x80, 0x80, 0x80, 0x80, 0x00] 1 ↔
      EndsInFive [0x00, 0x80, 0x80, 0x80, 0x80, 0x80, 0x00] 1 :=
  readersAgree_iff (by decide) (.inr (by decide))

/-- Zero in six groups: both readers return it, at different positions. -/
theorem not_readersAgree_overlong : ¬ ReadersAgree [0x80, 0x80, 0x80, 0x80, 0x80, 0x00] 0 := by
  intro h
  have hjava : readUIntAt [0x80, 0x80, 0x80, 0x80, 0x80, 0x00] 0 (fun _ => none) = some (0, 6) := by
    decide
  have hc : readVarUintAt [0x80, 0x80, 0x80, 0x80, 0x80, 0x00] 0 0 = some (0, 5) := by
    decide
  exact absurd (hjava.symm.trans ((h _ 0).trans hc)) (by decide)

end Wson.Interop
