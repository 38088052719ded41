import Wson.Java.Lang
import Wson.Text.Decimal

/-!
# `java.math`: the text of big numbers

`BigInteger.toString` and `BigDecimal.toString` as the platform documents them,
and the constructors that read such text back. Reading what was written gives the
number back (`BigInteger.ofString_toString`, `BigDecimal.ofString_toString`); for
decimals the scale comes back too. There is one exception: the constructor takes no
exponent beyond `Integer.MAX_VALUE`, which the text of a decimal with a scale near
`Integer.MIN_VALUE` can have (`BigDecimal.Readable`).
-/

namespace Wson.Java

open Wire Decimal

/-- `'-'` -/
abbrev minus : Char16 := 0x2D
/-- `'+'` -/
abbrev plus : Char16 := 0x2B
/-- `'.'` -/
abbrev point : Char16 := 0x2E
/-- `'E'` -/
abbrev exponentMark : Char16 := 0x45

/-- An optional sign, and what follows it. -/
def takeSign : Utf16 → Bool × Utf16
  | [] => (false, [])
  | c :: cs => if c = minus then (true, cs) else if c = plus then (false, cs) else (false, c :: cs)

def signed (negative : Bool) (n : Nat) : Int :=
  if negative then -n else n

/-- `Integer.toString` and its kin. -/
def intText (n : Int) : Utf16 :=
  if n < 0 then minus :: text (digits n.natAbs) else text (digits n.natAbs)

/-- A signed run of digits that takes up the whole text. -/
def intOfText (s : Utf16) : Option Int :=
  let (negative, s) := takeSign s
  match takeDigits s with
  | ([], _) => none
  | (ds, []) => some (signed negative (value ds))
  | (_, _ :: _) => none

theorem takeSign_of_text {ds : List Nat} (hds : IsDigits ds) (rest : Utf16) (hne : ds ≠ []) :
    takeSign (text ds ++ rest) = (false, text ds ++ rest) := by
  cases ds with
  | nil => exact absurd rfl hne
  | cons d ds =>
    have hchar : ∀ d < 10, char d ≠ minus ∧ char d ≠ plus := by decide
    obtain ⟨h₁, h₂⟩ := hchar d (hds d List.mem_cons_self)
    show takeSign (char d :: (text ds ++ rest)) = _
    rw [takeSign, if_neg h₁, if_neg h₂]
    rfl

/-- A sign in front of digits is split off. -/
theorem takeSign_intSign (n : Int) {ds : List Nat} (hds : IsDigits ds) (hne : ds ≠ [])
    (rest : Utf16) :
    takeSign (if n < 0 then minus :: (text ds ++ rest) else text ds ++ rest)
      = (decide (n < 0), text ds ++ rest) := by
  by_cases hn : n < 0
  · rw [if_pos hn, decide_eq_true hn]
    rfl
  · rw [if_neg hn, takeSign_of_text hds rest hne, decide_eq_false hn]

theorem signed_natAbs (n : Int) : signed (decide (n < 0)) n.natAbs = n := by
  unfold signed
  by_cases hn : n < 0
  · rw [decide_eq_true hn, if_pos rfl]
    omega
  · rw [decide_eq_false hn, if_neg (by simp)]
    omega

theorem intOfText_intText (n : Int) : intOfText (intText n) = some n := by
  have hds := isDigits_digits n.natAbs
  have hne := digits_ne_nil n.natAbs
  have hsign := takeSign_intSign n hds hne []
  rw [List.append_nil] at hsign
  unfold intOfText intText
  rw [hsign]
  simp only [takeDigits_text_nil hds]
  generalize hd : digits n.natAbs = ds at hne ⊢
  cases ds with
  | nil => exact absurd rfl hne
  | cons d ds => rw [← hd, value_digits, signed_natAbs]

/-- `BigInteger.toString()`. -/
def BigInteger.toString (n : Int) : Utf16 :=
  intText n

/-- `new BigInteger(String)`, which throws `NumberFormatException` where this is `none`. -/
def BigInteger.ofString (s : Utf16) : Option Int :=
  intOfText s

theorem BigInteger.ofString_toString (n : Int) : ofString (toString n) = some n :=
  intOfText_intText n

/-- `unscaledValue / 10^scale`; the scale is an `int`. -/
structure BigDecimal where
  unscaledValue : Int
  scale : Int
  scale_range : -2 ^ 31 ≤ scale ∧ scale < 2 ^ 31
  deriving DecidableEq

namespace BigDecimal

/-- The canonical text: plain notation for scales that are not negative and exponents not
below `-6`, scientific notation otherwise. -/
def toString (b : BigDecimal) : Utf16 :=
  let coeff := digits b.unscaledValue.natAbs
  let adjusted : Int := -b.scale + (coeff.length - 1)
  let body :=
    if b.scale = 0 then text coeff
    else if 0 ≤ b.scale ∧ -6 ≤ adjusted then
      let pad := b.scale - coeff.length
      if 0 ≤ pad then text [0] ++ point :: text (List.replicate pad.toNat 0 ++ coeff)
      else text (coeff.take (-pad).toNat) ++ point :: text (coeff.drop (-pad).toNat)
    else
      text (coeff.take 1) ++
        (if coeff.length > 1 then point :: text (coeff.drop 1) else []) ++
        (if adjusted = 0 then []
        else exponentMark :: (if 0 < adjusted then plus :: intText adjusted else intText adjusted))
  if b.unscaledValue < 0 then minus :: body else body

/-- The exponent part: nothing, or a mark followed by a signed run of digits. -/
def exponent : Utf16 → Option Int
  | [] => some 0
  | c :: cs => if c = 0x65 ∨ c = exponentMark then intOfText cs else none

/-- The fraction part, when a point follows the whole part. -/
def fraction : Utf16 → List Nat × Utf16
  | [] => ([], [])
  | c :: cs => if c = point then takeDigits cs else ([], c :: cs)

/-- `new BigDecimal(String)`, which throws `NumberFormatException` where this is `none`. The
exponent has to lie between `-Integer.MAX_VALUE` and `Integer.MAX_VALUE`. -/
def ofString (s : Utf16) : Option BigDecimal :=
  let (negative, s) := takeSign s
  let (whole, s) := takeDigits s
  let (frac, s) := fraction s
  if whole ++ frac = [] then none
  else
    match exponent s with
    | none => none
    | some exp =>
      if -2 ^ 31 < exp ∧ exp < 2 ^ 31 then
        if h : -2 ^ 31 ≤ frac.length - exp ∧ frac.length - exp < 2 ^ 31 then
          some ⟨signed negative (value (whole ++ frac)), frac.length - exp, h⟩
        else none
      else none

/-- The exponent in the canonical text is none beyond `Integer.MAX_VALUE`. Only scales below
zero can give one. -/
def Readable (b : BigDecimal) : Prop :=
  b.scale < 0 → -b.scale + ((digits b.unscaledValue.natAbs).length - 1) < 2 ^ 31

instance : DecidablePred Readable :=
  fun b => inferInstanceAs (Decidable (b.scale < 0 → _))

theorem readable_of_nonneg {b : BigDecimal} (h : 0 ≤ b.scale) : b.Readable :=
  fun hneg => absurd h (by omega)

/-- What the constructor makes of a text cut into its parts. -/
theorem ofString_of_parts {b : BigDecimal} {s mid tail : Utf16} {whole frac : List Nat} {exp : Int}
    (hsign : takeSign s = (decide (b.unscaledValue < 0), text whole ++ mid))
    (hwhole : IsDigits whole) (hne : whole ≠ [])
    (hmid : ∀ c ∈ mid.head?, digit? c = none) (hfrac : fraction mid = (frac, tail))
    (hexp : exponent tail = some exp) (hvalue : value (whole ++ frac) = b.unscaledValue.natAbs)
    (hscale : frac.length - exp = b.scale)
    (hreadable : -2 ^ 31 < exp ∧ exp < 2 ^ 31 ↔ b.Readable) :
    ofString s = if b.Readable then some b else none := by
  unfold ofString
  rw [hsign]
  simp only [takeDigits_text hwhole hmid, hfrac, hexp]
  rw [if_neg (by simp [hne]), dif_pos (by rw [hscale]; exact b.scale_range)]
  refine if_congr hreadable ?_ rfl
  congr 1
  cases b
  simp only [BigDecimal.mk.injEq] at *
  exact ⟨by rw [hvalue, signed_natAbs], hscale⟩

theorem exponent_intText (n : Int) :
    exponent (exponentMark :: (if 0 < n then plus :: intText n else intText n)) = some n := by
  rw [exponent, if_pos (Or.inr rfl)]
  by_cases hpos : 0 < n
  · rw [if_pos hpos]
    -- a plus sign leaves a number that has none
    have h := intOfText_intText n
    have hds := isDigits_digits n.natAbs
    have hsign := takeSign_of_text hds [] (digits_ne_nil _)
    rw [List.append_nil] at hsign
    unfold intOfText intText at h ⊢
    rw [if_neg (by omega), hsign] at h
    rw [if_neg (by omega)]
    exact h
  · rw [if_neg hpos]
    exact intOfText_intText n

theorem fraction_point {ds : List Nat} (hds : IsDigits ds) (rest : Utf16)
    (hrest : ∀ c ∈ rest.head?, digit? c = none) :
    fraction (point :: (text ds ++ rest)) = (ds, rest) := by
  rw [fraction, if_pos rfl, takeDigits_text hds hrest]

/-- The tail of scientific notation reads back as the exponent. -/
theorem exponent_tail (n : Int) :
    exponent (if n = 0 then []
      else exponentMark :: (if 0 < n then plus :: intText n else intText n)) = some n := by
  by_cases hn : n = 0
  · rw [if_pos hn, hn]
    rfl
  · rw [if_neg hn, exponent_intText]

/-- Without an exponent the text is always readable. -/
theorem plain_iff {b : BigDecimal} (h : 0 ≤ b.scale) :
    -2 ^ 31 < (0 : Int) ∧ (0 : Int) < 2 ^ 31 ↔ b.Readable :=
  iff_of_true (by decide) (readable_of_nonneg h)

theorem notDigit_point (rest : Utf16) : ∀ c ∈ (point :: rest).head?, digit? c = none := by
  intro c hc
  obtain rfl : point = c := by simpa using hc
  decide

/-- Plain notation with a point in it. -/
theorem ofString_pointed {b : BigDecimal} {whole frac : List Nat} (hwhole : IsDigits whole) (hne : whole ≠ [])
    (hfrac : IsDigits frac) (hvalue : value (whole ++ frac) = b.unscaledValue.natAbs)
    (hscale : (frac.length : Int) = b.scale) :
    ofString (if b.unscaledValue < 0 then minus :: (text whole ++ point :: text frac)
      else text whole ++ point :: text frac) = if b.Readable then some b else none := by
  have hmid := fraction_point hfrac [] (by simp)
  rw [List.append_nil] at hmid
  exact ofString_of_parts (takeSign_intSign _ hwhole hne _) hwhole hne (notDigit_point _) hmid rfl hvalue
    (by omega) (plain_iff (by omega))

/-- The exponent part starts with its mark. -/
theorem exponent_head (n : Int) :
    ∀ c ∈ (if n = 0 then []
      else exponentMark :: (if 0 < n then plus :: intText n else intText n)).head?,
      digit? c = none ∧ c ≠ point := by
  intro c hc
  by_cases hn : n = 0
  · simp [hn] at hc
  · obtain rfl : exponentMark = c := by simpa [hn] using hc
    decide

/-- Scientific notation: one digit in front of the point, if there is one, and the exponent part. -/
theorem ofString_scientific {b : BigDecimal} {d : Nat} {ds : List Nat} {tail : Utf16} {exp : Int}
    (hds : IsDigits (d :: ds)) (hvalue : value (d :: ds) = b.unscaledValue.natAbs)
    (htail : exponent tail = some exp) (hhead : ∀ c ∈ tail.head?, digit? c = none ∧ c ≠ point)
    (hscale : ds.length - exp = b.scale) (hreadable : -2 ^ 31 < exp ∧ exp < 2 ^ 31 ↔ b.Readable) :
    ofString (if b.unscaledValue < 0
      then minus :: (text [d] ++ ((if ds.length + 1 > 1 then point :: text ds else []) ++ tail))
      else text [d] ++ ((if ds.length + 1 > 1 then point :: text ds else []) ++ tail)) =
      if b.Readable then some b else none := by
  have hd : IsDigits [d] := fun x hx => hds x (by simp_all)
  have hds' : IsDigits ds := fun x hx => hds x (List.mem_cons_of_mem d hx)
  refine ofString_of_parts (takeSign_intSign _ hd (by simp) _) hd (by simp) ?_ ?_ htail hvalue hscale
    hreadable
  · cases ds with
    | nil => exact fun c hc => (hhead c (by simpa using hc)).1
    | cons x xs =>
      rw [if_pos (by simp)]
      exact notDigit_point _
  · cases ds with
    | nil =>
      cases tail with
      | nil => rfl
      | cons c cs =>
        show fraction (c :: cs) = _
        rw [fraction, if_neg (hhead c rfl).2]
    | cons x xs =>
      rw [if_pos (by simp)]
      exact fraction_point hds' _ fun c hc => (hhead c hc).1

/-- **The text of a decimal determines it**, scale included, if its exponent can be read. -/
theorem ofString_toString (b : BigDecimal) :
    ofString (toString b) = if b.Readable then some b else none := by
  have hds := isDigits_digits b.unscaledValue.natAbs
  have hne := digits_ne_nil b.unscaledValue.natAbs
  have hval := value_digits b.unscaledValue.natAbs
  have hreadable : b.Readable ↔ (b.scale < 0 →
      -b.scale + (((digits b.unscaledValue.natAbs).length : Int) - 1) < 2 ^ 31) := Iff.rfl
  have hrange := b.scale_range
  unfold toString
  simp only
  generalize digits b.unscaledValue.natAbs = coeff at hds hne hval hreadable ⊢
  by_cases hzero : b.scale = 0
  · rw [if_pos hzero]
    have hsign := takeSign_intSign b.unscaledValue hds hne []
    rw [List.append_nil] at hsign
    exact ofString_of_parts
      (by rw [List.append_nil]; exact hsign) hds hne (by simp) rfl rfl (by simpa using hval)
      (by rw [hzero]; rfl) (plain_iff (by omega))
  rw [if_neg hzero]
  by_cases hplain : 0 ≤ b.scale ∧ -6 ≤ -b.scale + ((coeff.length : Int) - 1)
  · rw [if_pos hplain]
    by_cases hpad : 0 ≤ b.scale - coeff.length
    · rw [if_pos hpad]
      refine ofString_pointed (by simp [IsDigits]) (by simp)
        (isDigits_append (isDigits_zeros (b.scale - coeff.length).toNat) hds) ?_ ?_
      · rw [value_append, value_append, value_replicate_zero, hval]
        simp [value]
      · rw [List.length_append, List.length_replicate]
        omega
    · rw [if_neg hpad]
      generalize hk : (-(b.scale - coeff.length)).toNat = k
      refine ofString_pointed (fun d hd => hds d (List.mem_of_mem_take hd)) ?_
        (fun d hd => hds d (List.mem_of_mem_drop hd)) ?_ ?_
      · intro h
        have hlength := congrArg List.length h
        rw [List.length_take, List.length_nil] at hlength
        omega
      · rw [List.take_append_drop, hval]
      · rw [List.length_drop]
        omega
  · rw [if_neg hplain]
    cases coeff with
    | nil => exact absurd rfl hne
    | cons d ds =>
      simp only [List.length_cons] at hplain hreadable
      simp only [List.take_succ_cons, List.take_zero, List.drop_succ_cons, List.drop_zero,
        List.length_cons, List.append_assoc]
      refine ofString_scientific hds hval (exponent_tail _) (exponent_head _) (by omega) ?_
      -- a positive scale gives an exponent below `-6`, which is not too small
      rw [hreadable]
      omega

/-- `1E+2147483648`, the text of a decimal with the smallest scale. -/
example : ¬ Readable ⟨1, -2 ^ 31, by decide⟩ := by
  intro h
  exact absurd (h (by decide)) (by simp [digits])

end BigDecimal

end Wson.Java
