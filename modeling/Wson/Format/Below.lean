import Wson.Format.Doc

/-!
# Encodings with types below a limit

A parser that has been told a length looks at it where it reads the type of a value, and
nowhere else. `EncodesBelow` says of an encoding that starts at an offset that all its types
stand below a limit; the text or number that comes last may end behind it.

- `EncodesBelow.encodes`, `EncodesBelow.lt`: what stands there, and that it starts below the limit.
- `Encodes.below`: an encoding that ends at the limit or in front of it.
-/

namespace Wson.Doc

open Wire

section EncodesBelow

variable (e : Endian) (limit : Nat)

mutual

/-- `bs` is an encoding of the tree; where it starts at offset `p`, its types stand below the limit. -/
def EncodesBelow : Doc → Nat → Bytes → Prop
  | .array ds, p, bs => p < limit ∧ ∃ h body, VarUInt ds.length h ∧
      EncodesItemsBelow ds (p + 1 + h.length) body ∧ bs = Tag.array :: (h ++ body)
  | .map es, p, bs => p < limit ∧ ∃ h body, VarUInt es.length h ∧
      EncodesEntriesBelow es (p + 1 + h.length) body ∧ bs = Tag.map :: (h ++ body)
  | d, p, bs => p < limit ∧ d.Encodes e bs

def EncodesItemsBelow : List Doc → Nat → Bytes → Prop
  | [], _, bs => bs = []
  | d :: ds, p, bs => ∃ b₁ b₂, EncodesBelow d p b₁ ∧ EncodesItemsBelow ds (p + b₁.length) b₂ ∧ bs = b₁ ++ b₂

def EncodesEntriesBelow : List (Utf16 × Doc) → Nat → Bytes → Prop
  | [], _, bs => bs = []
  | (k, d) :: es, p, bs => ∃ h b₁ b₂, VarUInt (2 * k.length) h ∧
      EncodesBelow d (p + (h ++ units e k).length) b₁ ∧
      EncodesEntriesBelow es (p + (h ++ units e k ++ b₁).length) b₂ ∧ bs = h ++ units e k ++ b₁ ++ b₂

end

end EncodesBelow

variable {e : Endian} {limit : Nat}

/-- The type of the value itself. -/
theorem EncodesBelow.lt {d : Doc} {p : Nat} {bs : Bytes} (h : EncodesBelow e limit d p bs) : p < limit := by
  cases d <;> exact h.1

mutual

theorem EncodesBelow.encodes : ∀ {d : Doc} {p : Nat} {bs : Bytes}, EncodesBelow e limit d p bs → Encodes e d bs
  | .array _, _, _, ⟨_, h, body, hc, hds, hbs⟩ => ⟨h, body, hc, EncodesItemsBelow.encodes hds, hbs⟩
  | .map _, _, _, ⟨_, h, body, hc, hes, hbs⟩ => ⟨h, body, hc, EncodesEntriesBelow.encodes hes, hbs⟩
  | .null, _, _, h | .boolean _, _, _, h | .int _, _, _, h | .long _, _, _, h | .float _, _, _, h
  | .double _, _, _, h | .text _ _, _, _, h | .uint8String _, _, _, h => h.2

theorem EncodesItemsBelow.encodes : ∀ {ds : List Doc} {p : Nat} {bs : Bytes},
    EncodesItemsBelow e limit ds p bs → EncodesItems e ds bs
  | [], _, _, h => h
  | _ :: _, _, _, ⟨b₁, b₂, h₁, h₂, hbs⟩ => ⟨b₁, b₂, EncodesBelow.encodes h₁, EncodesItemsBelow.encodes h₂, hbs⟩

theorem EncodesEntriesBelow.encodes : ∀ {es : List (Utf16 × Doc)} {p : Nat} {bs : Bytes},
    EncodesEntriesBelow e limit es p bs → EncodesEntries e es bs
  | [], _, _, h => h
  | (_, _) :: _, _, _, ⟨h, b₁, b₂, hk, h₁, h₂, hbs⟩ =>
    ⟨h, b₁, b₂, hk, EncodesBelow.encodes h₁, EncodesEntriesBelow.encodes h₂, hbs⟩

end

mutual

/-- No type stands behind the end. -/
theorem Encodes.below : ∀ {d : Doc} {p : Nat} {bs : Bytes}, Encodes e d bs → p + bs.length ≤ limit →
    EncodesBelow e limit d p bs
  | .array ds, p, _, ⟨h, body, hc, hds, hbs⟩, hend => by
    subst hbs
    rw [List.length_cons, List.length_append] at hend
    exact ⟨by omega, h, body, hc, EncodesItems.below hds (by omega), rfl⟩
  | .map es, p, _, ⟨h, body, hc, hes, hbs⟩, hend => by
    subst hbs
    rw [List.length_cons, List.length_append] at hend
    exact ⟨by omega, h, body, hc, EncodesEntries.below hes (by omega), rfl⟩
  | .null, p, _, h, hend | .boolean _, p, _, h, hend | .int _, p, _, h, hend | .long _, p, _, h, hend
  | .float _, p, _, h, hend | .double _, p, _, h, hend | .text _ _, p, _, h, hend
  | .uint8String _, p, _, h, hend => by
    have hpos := Encodes.length_pos h
    exact ⟨by omega, h⟩

theorem EncodesItems.below : ∀ {ds : List Doc} {p : Nat} {bs : Bytes}, EncodesItems e ds bs →
    p + bs.length ≤ limit → EncodesItemsBelow e limit ds p bs
  | [], _, _, h, _ => h
  | _ :: _, p, _, ⟨b₁, b₂, h₁, h₂, hbs⟩, hend => by
    subst hbs
    rw [List.length_append] at hend
    exact ⟨b₁, b₂, Encodes.below h₁ (by omega), EncodesItems.below h₂ (by omega), rfl⟩

theorem EncodesEntries.below : ∀ {es : List (Utf16 × Doc)} {p : Nat} {bs : Bytes}, EncodesEntries e es bs →
    p + bs.length ≤ limit → EncodesEntriesBelow e limit es p bs
  | [], _, _, h, _ => h
  | (k, _) :: _, p, _, ⟨h, b₁, b₂, hk, h₁, h₂, hbs⟩, hend => by
    subst hbs
    rw [List.length_append, List.length_append] at hend
    refine ⟨h, b₁, b₂, hk, Encodes.below h₁ (by omega), EncodesEntries.below h₂ ?_, rfl⟩
    rw [List.length_append]
    omega

end

end Wson.Doc
