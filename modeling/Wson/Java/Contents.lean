import Wson.Java.Bean
import Wson.Java.RoundTrip

/-!
# Arrays, collections and boxes

Trees of everything that the builder has a branch for and that has contents: lists,
arrays, collections, maps and the boxes of the eight primitive types. Arrays and
collections should come back as lists and a character as a string (`converted`).

- `unfold_tree`: without characters, and where `refs.contains` finds nothing, the builder
  writes the converted tree.
- `reads_unfold`: what is written otherwise is read as something else. A `Character` is
  none of the classes that `writeObject` asks for; it is written as a bean, and the class
  has no properties.
- `keepsContents_iff`: so the contents come back, whatever array the thread has, iff there
  is no character, nothing is cut and the buffer can grow.
-/

namespace Wson.Java

open Effect Wire

/-- What has elements: a list, an array, or a collection that is no list, in the order of its
iterator. -/
inductive Sequence where
  | list
  | array
  | collection

def Sequence.view {O : Type} : Sequence → List O → View O
  | .list => .list
  | .array => .array
  | .collection => .collection

inductive JTree where
  | null
  | boolean (b : Bool)
  | number (n : JNumber)
  | character (c : Char16)
  | string (s : Utf16)
  | sequence (kind : Sequence) (ts : List JTree)
  | map (entries : List (Utf16 × JTree))

/-- The boxes of the numeric primitive types. -/
def JNumber.IsBox : JNumber → Prop
  | .byte _ | .short _ | .integer _ | .long _ | .float _ | .double _ => True
  | _ => False

/-- Bytes and shorts become integers. -/
def JNumber.widened : JNumber → JNumber
  | .byte x => .integer (x.signExtend 32)
  | .short x => .integer (x.signExtend 32)
  | n => n

namespace JTree

def isNull : JTree → Bool
  | .null => true
  | _ => false

mutual

/-- How deep containers are nested. -/
def height : JTree → Nat
  | .sequence _ ts => heightItems ts + 1
  | .map entries => heightEntries entries + 1
  | _ => 0

def heightItems : List JTree → Nat
  | [] => 0
  | t :: ts => max (height t) (heightItems ts)

def heightEntries : List (Utf16 × JTree) → Nat
  | [] => 0
  | (_, t) :: entries => max (height t) (heightEntries entries)

end

mutual

/-- Numbers are boxes; no map has a key twice, or null as a value. -/
def Regular : JTree → Prop
  | .number n => n.IsBox
  | .sequence _ ts => RegularItems ts
  | .map entries => (entries.map Prod.fst).Nodup ∧ RegularEntries entries
  | _ => True

def RegularItems : List JTree → Prop
  | [] => True
  | t :: ts => Regular t ∧ RegularItems ts

def RegularEntries : List (Utf16 × JTree) → Prop
  | [] => True
  | (_, t) :: entries => (t.isNull = false ∧ Regular t) ∧ RegularEntries entries

end

mutual

/-- What should come back. -/
def converted : JTree → JValue
  | .null => .null
  | .boolean b => .boolean b
  | .number n => .number n.widened
  | .character c => .string [c]
  | .string s => .string s
  | .sequence _ ts => .list (convertedItems ts)
  | .map entries => .map (convertedEntries entries)

def convertedItems : List JTree → List JValue
  | [] => []
  | t :: ts => converted t :: convertedItems ts

def convertedEntries : List (Utf16 × JTree) → List (Utf16 × JValue)
  | [] => []
  | (k, t) :: entries => (k, converted t) :: convertedEntries entries

end

mutual

def NoCharacters : JTree → Prop
  | .character _ => False
  | .sequence _ ts => NoCharactersItems ts
  | .map entries => NoCharactersEntries entries
  | _ => True

def NoCharactersItems : List JTree → Prop
  | [] => True
  | t :: ts => NoCharacters t ∧ NoCharactersItems ts

def NoCharactersEntries : List (Utf16 × JTree) → Prop
  | [] => True
  | (_, t) :: entries => NoCharacters t ∧ NoCharactersEntries entries

end

end JTree

/-! ## Trees on the heap -/

/-- `java.lang.Character`. -/
def characterName : Utf16 :=
  "java.lang.Character".toList.map fun ch => BitVec.ofNat 16 ch.toNat

section Shows

variable {O : Type} (H : Heap O)

/-- The object is a `Character`: a class without getters and without fields of its instances. It
equals characters only, and `JSON.toJSON` makes a string of it. -/
structure IsCharacter (c : Char16) (o : O) : Prop where
  view_eq : ∃ (C : JClass) (toLowerCase : Char16 → Char16) (invoke : Method → Except Throwable O)
    (read : Field → Except Throwable O), C.name = characterName ∧ C.NoProperties ∧
      H.view o = .bean C.name (properties toLowerCase invoke read C)
  equals_eq : ∀ a, H.ownEquals o a = true → ∃ getters, H.view a = .bean characterName getters
  toJSON_eq : H.view (H.toJSON o) = .string [c]

mutual

/-- The object unfolds to the tree. -/
def Shows : JTree → O → Prop
  | .null, o => H.view o = .null
  | .boolean b, o => H.view o = .boolean b
  | .number n, o => H.view o = .number n
  | .character c, o => IsCharacter H c o
  | .string s, o => H.view o = .string s
  | .sequence kind ts, o => ∃ os, H.view o = kind.view os ∧ ShowsItems ts os
  | .map entries, o => ∃ os, H.view o = .map os ∧ ShowsEntries entries os

def ShowsItems : List JTree → List O → Prop
  | [], os => os = []
  | t :: ts, os => ∃ o os', os = o :: os' ∧ Shows t o ∧ ShowsItems ts os'

def ShowsEntries : List (Utf16 × JTree) → List (Key × O) → Prop
  | [], os => os = []
  | (k, t) :: entries, os => ∃ o os', os = (.string k, o) :: os' ∧ Shows t o ∧ ShowsEntries entries os'

end

variable [DecidableEq O]

mutual

/-- `refs.contains` ends and finds nothing at any container: no container equals one that is around
it. -/
def Uncut : Nat → List O → JTree → O → Prop
  | n, path, .sequence kind ts, o => H.contains (n - 1) path o = some false ∧
    ∀ os, H.view o = kind.view os → UncutItems (n - 1) (path ++ [o]) ts os
  | n, path, .map entries, o => H.contains (n - 1) path o = some false ∧
    ∀ os, H.view o = .map os → UncutEntries (n - 1) (path ++ [o]) entries os
  | _, _, _, _ => True

def UncutItems : Nat → List O → List JTree → List O → Prop
  | n, path, t :: ts, o :: os => Uncut n path t o ∧ UncutItems n path ts os
  | _, _, _, _ => True

def UncutEntries : Nat → List O → List (Utf16 × JTree) → List (Key × O) → Prop
  | n, path, (_, t) :: entries, (_, o) :: os => Uncut n path t o ∧ UncutEntries n path entries os
  | _, _, _, _ => True

end

end Shows

section Facts

variable {O : Type} {H : Heap O}

theorem Sequence.view_inj {kind : Sequence} {os os' : List O} (h : kind.view os = kind.view os') :
    os = os' := by
  cases kind with
  | list => exact View.list.inj h
  | array => exact View.array.inj h
  | collection => exact View.collection.inj h

theorem isNull_shows {t : JTree} {o : O} (h : Shows H t o) : H.isNull o = t.isNull := by
  unfold Heap.isNull
  cases t with
  | null | boolean b | number n | string s =>
    rw [show H.view o = _ from h]
    rfl
  | character c =>
    obtain ⟨C, toLowerCase, invoke, read, -, -, hview⟩ := IsCharacter.view_eq h
    rw [hview]
    rfl
  | sequence kind ts =>
    obtain ⟨os, hview, -⟩ := h
    rw [hview]
    cases kind <;> rfl
  | map entries =>
    obtain ⟨os, hview, -⟩ := h
    rw [hview]
    rfl

theorem converted_isNull {t : JTree} : t.converted.isNull = t.isNull := by
  cases t <;> rfl

namespace JTree

theorem map_fst_convertedEntries (entries : List (Utf16 × JTree)) :
    (convertedEntries entries).map Prod.fst = entries.map Prod.fst := by
  induction entries with
  | nil => rfl
  | cons entry entries ih => exact congrArg (entry.1 :: ·) ih

mutual

theorem regular_converted : ∀ {t : JTree}, t.Regular → t.converted.Regular
  | .null, _ | .boolean _, _ | .character _, _ | .string _, _ => trivial
  | .number n, h => by
    cases n with
    | byte _ | short _ | integer _ | long _ | float _ | double _ => exact trivial
    | bigInteger _ | bigDecimal _ | other _ => exact h.elim
  | .sequence _ ts, h => regularItems_converted (show RegularItems ts from h)
  | .map entries, h => by
    refine ⟨?_, regularEntries_converted h.2⟩
    rw [map_fst_convertedEntries]
    exact h.1

theorem regularItems_converted : ∀ {ts : List JTree}, RegularItems ts →
    JValue.RegularItems (convertedItems ts)
  | [], _ => trivial
  | _ :: _, h => ⟨regular_converted h.1, regularItems_converted h.2⟩

theorem regularEntries_converted : ∀ {entries : List (Utf16 × JTree)}, RegularEntries entries →
    JValue.RegularEntries (convertedEntries entries)
  | [], _ => trivial
  | (_, _) :: _, h => ⟨regular_converted h.1.2, regularEntries_converted h.2⟩

end

mutual

/-- There are no decimals in a tree. -/
theorem readable_converted (P : Platform) : ∀ {t : JTree}, t.Regular → t.converted.Readable P
  | .null, _ | .boolean _, _ | .character _, _ | .string _, _ => trivial
  | .number n, h => by
    cases n with
    | byte _ | short _ | integer _ | long _ | float _ | double _ => exact trivial
    | bigInteger _ | bigDecimal _ | other _ => exact h.elim
  | .sequence _ ts, h => readableItems_converted P (show RegularItems ts from h)
  | .map _, h => readableEntries_converted P h.2

theorem readableItems_converted (P : Platform) : ∀ {ts : List JTree}, RegularItems ts →
    JValue.ReadableItems P (convertedItems ts)
  | [], _ => trivial
  | _ :: _, h => ⟨readable_converted P h.1, readableItems_converted P h.2⟩

theorem readableEntries_converted (P : Platform) : ∀ {entries : List (Utf16 × JTree)},
    RegularEntries entries → JValue.ReadableEntries P (convertedEntries entries)
  | [], _ => trivial
  | (_, _) :: _, h => ⟨readable_converted P h.1.2, readableEntries_converted P h.2⟩

end

mutual

theorem height_converted : ∀ t : JTree, t.converted.height = t.height
  | .null | .boolean _ | .number _ | .character _ | .string _ => rfl
  | .sequence _ ts => congrArg Nat.succ (heightItems_converted ts)
  | .map entries => congrArg Nat.succ (heightEntries_converted entries)

theorem heightItems_converted : ∀ ts : List JTree,
    JValue.heightItems (convertedItems ts) = heightItems ts
  | [] => rfl
  | t :: ts => by
    rw [convertedItems, JValue.heightItems, heightItems, height_converted t, heightItems_converted ts]

theorem heightEntries_converted : ∀ entries : List (Utf16 × JTree),
    JValue.heightEntries (convertedEntries entries) = heightEntries entries
  | [] => rfl
  | (_, t) :: entries => by
    rw [convertedEntries, JValue.heightEntries, heightEntries, height_converted t,
      heightEntries_converted entries]

end

mutual

/-- The format keeps all of a converted tree. -/
theorem norm_converted (P : Platform) : ∀ {t : JTree}, t.Regular → t.converted.norm P = t.converted
  | .null, _ | .boolean _, _ | .character _, _ | .string _, _ => rfl
  | .number n, h => by
    cases n with
    | byte _ | short _ | integer _ | long _ | float _ | double _ => rfl
    | bigInteger _ | bigDecimal _ | other _ => exact h.elim
  | .sequence _ ts, h => congrArg JValue.list (normItems_converted P (show RegularItems ts from h))
  | .map entries, h => congrArg JValue.map (normEntries_converted P h.2)

theorem normItems_converted (P : Platform) : ∀ {ts : List JTree}, RegularItems ts →
    JValue.normItems P (convertedItems ts) = convertedItems ts
  | [], _ => rfl
  | _ :: _, h => by
    rw [convertedItems, JValue.normItems, norm_converted P h.1, normItems_converted P h.2]

theorem normEntries_converted (P : Platform) : ∀ {entries : List (Utf16 × JTree)},
    RegularEntries entries → JValue.normEntries P (convertedEntries entries) = convertedEntries entries
  | [], _ => rfl
  | (_, t) :: _, h => by
    have hnull : ¬ t.converted.isNull = true := by
      rw [converted_isNull, h.1.1]
      exact Bool.false_ne_true
    rw [convertedEntries, JValue.normEntries, if_neg hnull, norm_converted P h.1.2,
      normEntries_converted P h.2]

end

end JTree

end Facts

/-! ## What is written -/

section Unfold

variable {O : Type} {P : Platform} {H : Heap O} {special : Utf16 → Bool}
  {cut : Nat → List O → O → Option Bool}

theorem unfold_sequence {kind : Sequence} {os : List O} {o : O} (h : H.view o = kind.view os) (n : Nat)
    (path : List O) :
    unfold P H special cut (n + 1) path o = unfoldContainer cut n path o fun path =>
      (unfoldElements (unfold P H special cut n path) os).map .array := by
  rw [unfold, h]
  cases kind <;> rfl

variable [DecidableEq O]

mutual

/-- **Nothing cut, no characters**: the builder writes the converted tree. -/
theorem unfold_tree : ∀ {t : JTree} {o : O} {n : Nat} {path : List O}, Shows H t o → t.Regular →
    t.NoCharacters → t.height + 1 < n → Uncut H n path t o →
      unfold P H special H.contains n path o = some (t.converted.written P)
  | .null, _, n + 1, _, ho, _, _, _, _ | .boolean _, _, n + 1, _, ho, _, _, _, _
  | .string _, _, n + 1, _, ho, _, _, _, _ => by
    rw [unfold, show H.view _ = _ from ho]
    rfl
  | .number m, _, n + 1, _, ho, hr, _, _, _ => by
    rw [unfold, show H.view _ = _ from ho]
    cases m with
    | byte _ | short _ | integer _ | long _ | float _ | double _ => rfl
    | bigInteger _ | bigDecimal _ | other _ => exact hr.elim
  | .sequence kind ts, o, n + 1, path, ⟨os, ho, hts⟩, hr, hc, hn, ⟨hcontains, hitems⟩ => by
    rw [unfold_sequence ho, unfoldContainer, show H.contains n path o = _ from hcontains]
    dsimp only
    rw [unfoldElements_tree hts hr hc (Nat.lt_of_succ_lt_succ hn) (hitems os ho)]
    rfl
  | .map es, o, n + 1, path, ⟨os, ho, hes⟩, hr, hc, hn, ⟨hcontains, hentries⟩ => by
    rw [unfold, ho]
    dsimp only
    rw [unfoldContainer, show H.contains n path o = _ from hcontains]
    dsimp only
    rw [unfoldEntries_tree hes hr.2 hc (Nat.lt_of_succ_lt_succ hn) (hentries os ho)]
    rfl

theorem unfoldElements_tree : ∀ {ts : List JTree} {os : List O} {n : Nat} {path : List O},
    ShowsItems H ts os → JTree.RegularItems ts → JTree.NoCharactersItems ts →
      JTree.heightItems ts + 1 < n → UncutItems H n path ts os →
        unfoldElements (unfold P H special H.contains n path) os
          = some (JValue.writtenItems P (JTree.convertedItems ts))
  | [], _, _, _, h, _, _, _, _ => by
    rw [h]
    rfl
  | t :: ts, _, n, path, ⟨o, os, h, ht, hts⟩, hr, hc, hn, hp => by
    subst h
    rw [JTree.heightItems] at hn
    rw [unfoldElements, unfold_tree ht hr.1 hc.1 (by omega) hp.1,
      unfoldElements_tree hts hr.2 hc.2 (by omega) hp.2]
    rfl

theorem unfoldEntries_tree : ∀ {es : List (Utf16 × JTree)} {os : List (Key × O)} {n : Nat}
    {path : List O}, ShowsEntries H es os → JTree.RegularEntries es → JTree.NoCharactersEntries es →
      JTree.heightEntries es + 1 < n → UncutEntries H n path es os →
        unfoldEntries H (unfold P H special H.contains n path) os
          = some (JValue.writtenEntries P (JTree.convertedEntries es))
  | [], _, _, _, h, _, _, _, _ => by
    rw [h]
    rfl
  | (k, t) :: es, _, n, path, ⟨o, os, h, ht, hes⟩, hr, hc, hn, hp => by
    subst h
    rw [JTree.heightEntries] at hn
    have hnull : ¬ H.isNull o = true := by
      rw [isNull_shows ht, hr.1.1]
      exact Bool.false_ne_true
    have hnull' : ¬ t.converted.isNull = true := by
      rw [converted_isNull, hr.1.1]
      exact Bool.false_ne_true
    have hrest : unfoldEntries H (unfold P H special H.contains n path) os = _ :=
      unfoldEntries_tree hes hr.2 hc.2 (by omega) hp.2
    rw [unfoldEntries, if_neg hnull, unfold_tree ht hr.1.2 hc.1 (by omega) hp.1, hrest,
      JTree.convertedEntries, JValue.writtenEntries, if_neg hnull']
    rfl

end

/-! ## What is read -/

/-- The containers being written are no beans. -/
def NoBeans (H : Heap O) (path : List O) : Prop :=
  ∀ a ∈ path, ∀ key getters, H.view a ≠ .bean key getters

omit [DecidableEq O] in
theorem NoBeans.concat {path : List O} {o : O} (h : NoBeans H path)
    (ho : ∀ key getters, H.view o ≠ .bean key getters) : NoBeans H (path ++ [o]) := by
  intro a ha
  rcases List.mem_append.mp ha with ha | ha
  · exact h a ha
  · obtain rfl := List.mem_singleton.mp ha
    exact ho

omit [DecidableEq O] in
theorem Sequence.view_ne_bean (kind : Sequence) (os : List O) (key : Utf16)
    (getters : Except Throwable (List (Utf16 × Except Throwable O))) : kind.view os ≠ .bean key getters := by
  cases kind <;> exact nofun

omit [DecidableEq O] in
/-- A character is a bean without properties. -/
theorem IsCharacter.view_bean {c : Char16} {o : O} (h : IsCharacter H c o) :
    H.view o = .bean characterName (.ok []) := by
  obtain ⟨C, toLowerCase, invoke, read, hname, hnone, hview⟩ := h.view_eq
  rw [hview, properties_of_noProperties hnone, hname]

/-- It equals no container. -/
theorem IsCharacter.contains_eq {c : Char16} {o : O} (h : IsCharacter H c o) {n : Nat} {path : List O}
    (hp : NoBeans H path) : H.contains (n + 1) path o = some false := by
  induction path with
  | nil => rfl
  | cons a path ih =>
    obtain ⟨ha, hpath⟩ := List.forall_mem_cons.mp hp
    have hequals : H.equals (n + 1) o a = some false := by
      have hown : H.ownEquals o a = false := by
        by_contra heq
        obtain ⟨getters, hview⟩ := h.equals_eq a (by simpa using heq)
        exact ha _ _ hview
      rw [Heap.equals, h.view_bean]
      exact congrArg some hown
    rw [Heap.contains, hequals]
    exact ih hpath

/-- It is written as a map without entries. -/
theorem IsCharacter.unfold_eq {c : Char16} {o : O} (h : IsCharacter H c o)
    (hspecial : special characterName = false) {n : Nat} {path : List O} (hp : NoBeans H path) :
    unfold P H special H.contains (n + 2) path o = some (.map []) := by
  have hmap : (Builder.toMap H (.ok [])).toOption = some [] := rfl
  rw [unfold, h.view_bean]
  dsimp only
  rw [unfoldContainer, h.contains_eq hp]
  dsimp only
  rw [hspecial, if_neg Bool.false_ne_true, hmap]
  rfl

variable {decode : Bytes → Option Utf16}

/-- The document is read, as the converted tree only where there is no character and nothing was
cut. -/
structure ReadBack (decode : Bytes → Option Utf16) (t : JTree) (intact : Prop) (d : Doc) (v : JValue) : Prop where
  meaning_eq : d.meaning decode = some v
  height_le : d.height ≤ t.height + 1
  intact_of_equals : v.canonical = t.converted.canonical → t.NoCharacters ∧ intact

mutual

/-- **What is read** of what is written for a tree. -/
theorem reads_unfold (hspecial : special characterName = false) : ∀ {t : JTree} {o : O} {n : Nat}
    {path : List O} {w : Written P.endian}, Shows H t o → t.Regular → t.height + 1 < n →
      NoBeans H path → unfold P H special H.contains n path o = some w →
        ∃ v, ReadBack decode t (Uncut H n path t o) w.doc v
  | .null, _, n + 1, _, w, ho, _, _, _, hw | .boolean _, _, n + 1, _, w, ho, _, _, _, hw
  | .string _, _, n + 1, _, w, ho, _, _, _, hw => by
    rw [unfold, show H.view _ = _ from ho] at hw
    obtain rfl := Option.some.inj hw
    exact ⟨_, rfl, Nat.zero_le _, fun _ => ⟨trivial, trivial⟩⟩
  | .number m, o, n + 1, path, w, ho, hr, _, _, hw => by
    have hregular : JValue.Regular (.number m) := by
      cases m with
      | other _ => exact hr.elim
      | _ => exact trivial
    rw [unfold, show H.view _ = _ from ho] at hw
    obtain rfl := Option.some.inj hw
    have hreadable : m.Readable P := by
      cases m with
      | bigDecimal _ => exact hr.elim
      | _ => exact trivial
    exact ⟨_, JValue.meaning_number P hregular hreadable, (JValue.height_written P (.number m)).trans (Nat.zero_le _),
      fun _ => ⟨trivial, trivial⟩⟩
  | .character c, o, n + 2, path, w, ho, _, _, hp, hw => by
    rw [IsCharacter.unfold_eq ho hspecial hp] at hw
    obtain rfl := Option.some.inj hw
    exact ⟨.map [], rfl, Nat.le_refl _, fun h => nomatch h⟩
  | .sequence kind ts, o, n + 1, path, w, ⟨os, ho, hts⟩, hr, hn, hp, hw => by
    rw [unfold_sequence ho, unfoldContainer] at hw
    cases hcontains : H.contains n path o with
    | none =>
      rw [hcontains] at hw
      exact nomatch hw
    | some r =>
      rw [hcontains] at hw
      cases r with
      | true =>
        obtain rfl := Option.some.inj hw
        exact ⟨.null, rfl, Nat.zero_le _, fun h => nomatch h⟩
      | false =>
        obtain ⟨ws, hws, rfl⟩ := Option.map_eq_some_iff.mp hw
        have hbeans : NoBeans H (path ++ [o]) :=
          hp.concat fun key getters => by rw [ho]; exact kind.view_ne_bean os key getters
        obtain ⟨vs, hvs, hheight, hintact⟩ :=
          readsItems_unfold hspecial hts hr (Nat.lt_of_succ_lt_succ hn) hbeans hws
        refine ⟨.list vs, ?_, Nat.succ_le_succ hheight, fun h => ?_⟩
        · show (Doc.meaningItems decode (ws.map Written.doc)).map _ = _
          rw [hvs]
          rfl
        · obtain ⟨hc, hu⟩ := hintact (JValue.list.inj h)
          refine ⟨hc, hcontains, fun os' ho' => ?_⟩
          rwa [← Sequence.view_inj (ho.symm.trans ho')]
  | .map es, o, n + 1, path, w, ⟨os, ho, hes⟩, hr, hn, hp, hw => by
    rw [unfold, ho] at hw
    dsimp only at hw
    rw [unfoldContainer] at hw
    cases hcontains : H.contains n path o with
    | none =>
      rw [hcontains] at hw
      exact nomatch hw
    | some r =>
      rw [hcontains] at hw
      cases r with
      | true =>
        obtain rfl := Option.some.inj hw
        exact ⟨.null, rfl, Nat.zero_le _, fun h => nomatch h⟩
      | false =>
        obtain ⟨ws, hws, rfl⟩ := Option.map_eq_some_iff.mp hw
        have hbeans : NoBeans H (path ++ [o]) := hp.concat fun key getters => by rw [ho]; exact nofun
        obtain ⟨vs, hvs, hheight, hintact⟩ :=
          readsEntries_unfold hspecial hes
            (show (([] : List (Utf16 × JValue)).map Prod.fst ++ es.map Prod.fst).Nodup from hr.1) hr.2
            (Nat.lt_of_succ_lt_succ hn) hbeans hws
        refine ⟨.map vs, ?_, Nat.succ_le_succ hheight, fun h => ?_⟩
        · show (Doc.meaningEntries decode [] (ws.map fun entry => (entry.1, entry.2.doc))).map _ = _
          rw [hvs]
          rfl
        · obtain ⟨hc, hu⟩ := hintact (JValue.map.inj h)
          refine ⟨hc, hcontains, fun os' ho' => ?_⟩
          rwa [← View.map.inj (ho.symm.trans ho')]

theorem readsItems_unfold (hspecial : special characterName = false) : ∀ {ts : List JTree} {os : List O}
    {n : Nat} {path : List O} {ws : List (Written P.endian)}, ShowsItems H ts os →
      JTree.RegularItems ts → JTree.heightItems ts + 1 < n → NoBeans H path →
        unfoldElements (unfold P H special H.contains n path) os = some ws →
          ∃ vs, Doc.meaningItems decode (ws.map Written.doc) = some vs ∧
            Doc.heightItems (ws.map Written.doc) ≤ JTree.heightItems ts + 1 ∧
              (JValue.canonicalItems vs = JValue.canonicalItems (JTree.convertedItems ts) →
                JTree.NoCharactersItems ts ∧ UncutItems H n path ts os)
  | [], _, _, _, _, h, _, _, _, hw => by
    subst h
    obtain rfl := Option.some.inj hw
    exact ⟨[], rfl, Nat.zero_le _, fun _ => ⟨trivial, trivial⟩⟩
  | t :: ts, _, n, path, ws, ⟨o, os, h, ht, hts⟩, hr, hn, hp, hw => by
    subst h
    rw [JTree.heightItems] at hn
    rw [unfoldElements] at hw
    obtain ⟨w, hone, hw⟩ := Option.bind_eq_some_iff.mp hw
    obtain ⟨ws', hrest, hw⟩ := Option.bind_eq_some_iff.mp hw
    obtain rfl := Option.some.inj hw
    obtain ⟨v, hv⟩ := reads_unfold hspecial ht hr.1 (by omega) hp hone
    obtain ⟨vs, hvs, hheight, hintact⟩ := readsItems_unfold hspecial hts hr.2 (by omega) hp hrest
    have hfirst := hv.height_le
    refine ⟨v :: vs, ?_, ?_, fun h => ?_⟩
    · rw [List.map_cons, Doc.meaningItems, hv.meaning_eq, hvs]
      rfl
    · rw [List.map_cons, Doc.heightItems, JTree.heightItems]
      omega
    · rw [JValue.canonicalItems, JTree.convertedItems, JValue.canonicalItems] at h
      obtain ⟨hhead, htail⟩ := List.cons.inj h
      obtain ⟨hc, hu⟩ := hv.intact_of_equals hhead
      obtain ⟨hcs, hus⟩ := hintact htail
      exact ⟨⟨hc, hcs⟩, hu, hus⟩

theorem readsEntries_unfold (hspecial : special characterName = false) :
    ∀ {es : List (Utf16 × JTree)} {os : List (Key × O)} {n : Nat} {path : List O}
      {ws : List (Utf16 × Written P.endian)} {object : List (Utf16 × JValue)}, ShowsEntries H es os →
        (object.map Prod.fst ++ es.map Prod.fst).Nodup → JTree.RegularEntries es →
          JTree.heightEntries es + 1 < n → NoBeans H path →
            unfoldEntries H (unfold P H special H.contains n path) os = some ws →
              ∃ vs, Doc.meaningEntries decode object (ws.map fun entry => (entry.1, entry.2.doc))
                  = some (object ++ vs) ∧
                Doc.heightEntries (ws.map fun entry => (entry.1, entry.2.doc)) ≤ JTree.heightEntries es + 1 ∧
                  (JValue.canonicalEntries vs = JValue.canonicalEntries (JTree.convertedEntries es) →
                    JTree.NoCharactersEntries es ∧ UncutEntries H n path es os)
  | [], _, _, _, _, object, h, _, _, _, _, hw => by
    subst h
    obtain rfl := Option.some.inj hw
    refine ⟨[], ?_, Nat.zero_le _, fun _ => ⟨trivial, trivial⟩⟩
    rw [List.append_nil]
    rfl
  | (k, t) :: es, _, n, path, ws, object, ⟨o, os, h, ht, hes⟩, hkeys, hr, hn, hp, hw => by
    subst h
    rw [JTree.heightEntries] at hn
    have hnull : ¬ H.isNull o = true := by
      rw [isNull_shows ht, hr.1.1]
      exact Bool.false_ne_true
    rw [unfoldEntries, if_neg hnull] at hw
    obtain ⟨key, hkey, hw⟩ := Option.bind_eq_some_iff.mp hw
    obtain rfl : k = key := Option.some.inj hkey
    obtain ⟨w, hone, hw⟩ := Option.bind_eq_some_iff.mp hw
    obtain ⟨ws', hrest, hw⟩ := Option.bind_eq_some_iff.mp hw
    obtain rfl := Option.some.inj hw
    obtain ⟨v, hv⟩ := reads_unfold hspecial ht hr.1.2 (by omega) hp hone
    rw [List.map_cons] at hkeys
    have hk : k ∉ object.map Prod.fst := fun hmem =>
      (List.nodup_cons.mp (List.nodup_middle.mp hkeys)).1 (List.mem_append_left _ hmem)
    obtain ⟨vs, hvs, hheight, hintact⟩ := readsEntries_unfold hspecial hes
      (show ((object ++ [(k, v)]).map Prod.fst ++ es.map Prod.fst).Nodup by simpa using hkeys) hr.2
      (by omega) hp hrest
    have hfirst := hv.height_le
    refine ⟨(k, v) :: vs, ?_, ?_, fun h => ?_⟩
    · rw [List.map_cons, Doc.meaningEntries, hv.meaning_eq, Option.bind_eq_bind, Option.bind_some,
        JValue.mapPut_of_notMem _ hk, hvs, List.append_assoc]
      rfl
    · rw [List.map_cons, Doc.heightEntries, JTree.heightEntries]
      dsimp only
      omega
    · rw [JValue.canonicalEntries, JTree.convertedEntries, JValue.canonicalEntries] at h
      obtain ⟨hhead, htail⟩ := List.cons.inj h
      obtain ⟨hc, hu⟩ := hv.intact_of_equals (Prod.mk.inj hhead).2
      obtain ⟨hcs, hus⟩ := hintact htail
      exact ⟨⟨hc, hcs⟩, hu, hus⟩

end

end Unfold

/-! ## Runs that mark no class -/

namespace Builder

variable {O : Type}

/-- From an output with `Q`, where `m` returns, `Q` holds again and no class has been put into the
cache. -/
def Steadfast (Q : Output → Prop) (m : BuilderM O Unit) : Prop :=
  ∀ b b', Q b.output → m b = .ok () b' → Q b'.output ∧ Quiet m b b'

section Steadfast

variable {Q : Output → Prop}

theorem steadfast_pure : Steadfast Q (pure () : BuilderM O Unit) := by
  intro b b' hb h
  obtain ⟨-, rfl⟩ := EStateM.Result.ok.inj h
  exact ⟨hb, h, rfl⟩

theorem Steadfast.bind {m : BuilderM O Unit} {f : Unit → BuilderM O Unit} (hm : Steadfast Q m)
    (hf : Steadfast Q (f ())) : Steadfast Q (m >>= f) := by
  intro b b' hb h
  obtain ⟨_, b₁, h₁, h₂⟩ := bind_eq_ok.mp h
  obtain ⟨hb₁, -, hq₁⟩ := hm b b₁ hb h₁
  obtain ⟨hb', -, hq₂⟩ := hf b₁ b' hb₁ h₂
  exact ⟨hb', h, hq₂.trans hq₁⟩

theorem steadfast_forM {α : Type} {f : α → BuilderM O Unit} {xs : List α}
    (h : ∀ x ∈ xs, Steadfast Q (f x)) : Steadfast Q (xs.forM f) := by
  induction xs with
  | nil => exact steadfast_pure
  | cons x xs ih =>
    obtain ⟨hx, hxs⟩ := List.forall_mem_cons.mp h
    exact hx.bind (ih hxs)

theorem steadfast_popRef : Steadfast Q (popRef : BuilderM O Unit) := by
  intro b b' hb h
  have hb' := eq_of_popRef h
  subst hb'
  exact ⟨hb, h, rfl⟩

variable (hQ : ∀ {o o' : Output} {cs : List Output.Chunk}, Q o → Output.play o cs = some o' → Q o')
include hQ

/-- What only writes to the output. -/
theorem steadfast_onOutput {m : OutputM Unit} {chunks : List O → Option (List Output.Chunk)}
    (h : ∀ special, Emits special (onOutput m : BuilderM O Unit) chunks) :
    Steadfast Q (onOutput m : BuilderM O Unit) := by
  intro b b' hb hrun
  have hsame : SameSpecial b b' := (sameSpecial_onOutput m).of_ok hrun
  have hquiet : Quiet (onOutput m) b b' := ⟨hrun, congrArg LruCache.putCount hsame⟩
  obtain ⟨cs, -, hemitted⟩ := (h b.marked).sound b.specialIs_marked hquiet
  exact ⟨hQ hb hemitted.output, hquiet⟩

theorem steadfast_writeNull : Steadfast Q (writeNull : BuilderM O Unit) :=
  steadfast_onOutput hQ fun _ => emits_writeNull

theorem steadfast_writeUTF16String (e : Endian) (s : Utf16) :
    Steadfast Q (writeUTF16String e s : BuilderM O Unit) :=
  steadfast_onOutput hQ fun _ => emits_writeUTF16String e s

theorem steadfast_scalar {request : Int} {tag : Byte} {payload : OutputM Unit} {bytes : Bytes}
    (hgrows : Output.Advances payload) (h : Appends payload bytes) :
    Steadfast Q (writeScalar request tag payload : BuilderM O Unit) :=
  steadfast_onOutput hQ fun _ => emits_scalar hgrows h

theorem steadfast_writeNumber (P : Platform) {n : JNumber} (hn : n.IsBox) :
    Steadfast Q (writeNumber P.endian P.doubleValue P.doubleToString n : BuilderM O Unit) := by
  cases n with
  | byte x | short x | integer x =>
    exact steadfast_scalar hQ (Output.advances_writeUInt _) (Output.appends_writeVarInt _)
  | long x => exact steadfast_scalar hQ (Output.advances_writeLong _) (Output.appends_writeLong _)
  | double x => exact steadfast_scalar hQ (Output.advances_writeLong _) (Output.appends_writeDouble _)
  | float x => exact steadfast_scalar hQ (Output.advances_writeFloat _) (Output.appends_writeFloat _)
  | bigInteger _ | bigDecimal _ | other _ => exact hn.elim

variable {P : Platform} {H : Heap O}

theorem steadfast_writeElements {write : O → BuilderM O Unit} {os : List O}
    (h : ∀ o ∈ os, Steadfast Q (write o)) : Steadfast Q (writeElements write os) :=
  (steadfast_scalar hQ (Output.advances_writeUInt _) (Output.appends_writeUInt _)).bind (steadfast_forM h)

theorem steadfast_writeMap {write : O → BuilderM O Unit} {entries : List (Key × O)}
    (hkeys : StringKeys entries) (h : ∀ entry ∈ entries, Steadfast Q (write entry.2)) :
    Steadfast Q (writeMap P H write entries) := by
  refine (steadfast_scalar hQ (Output.advances_writeUInt _) (Output.appends_writeUInt _)).bind
    (steadfast_forM fun entry hentry => ?_)
  obtain ⟨s, hs⟩ := hkeys entry hentry
  unfold writeEntry
  split
  · exact steadfast_pure
  · rw [hs, Key.toString, liftExcept_ok_bind]
    exact (steadfast_writeUTF16String hQ _ _).bind (h entry hentry)

theorem steadfast_writeContainer [DecidableEq O] (n : Nat) (object : O) {body : BuilderM O Unit}
    (hbody : Steadfast Q body) : Steadfast Q (writeContainer H n object body) := by
  intro b b' hb h
  cases hcontains : H.contains n b.refs object with
  | none =>
    rw [writeContainer_of_stackOverflow hcontains] at h
    cases h
  | some r =>
    cases r with
    | true =>
      have hcases := h
      rw [writeContainer_of_contained hcontains] at hcases
      obtain ⟨hb', -, hquiet⟩ := steadfast_writeNull hQ b b' hb hcases
      exact ⟨hb', h, hquiet⟩
    | false =>
      have hcases := h
      rw [writeContainer_eq hcontains] at hcases
      obtain ⟨hb', -, hquiet⟩ := (hbody.bind steadfast_popRef)
        { b with refs := b.refs ++ [object] } b' hb hcases
      exact ⟨hb', h, hquiet⟩

end Steadfast

end Builder

open Builder

section Trees

variable {O : Type} {P : Platform} {H : Heap O} [DecidableEq O]

/-- Characters are written without an exception, or not at all. -/
def SteadfastCharacters (P : Platform) (H : Heap O) (Q : Output → Prop) : Prop :=
  ∀ (n : Nat) (o : O) (c : Char16), IsCharacter H c o →
    Steadfast Q (writeAdapterObject P H (writeObject P H n) o characterName (.ok []))

section Steadfast

variable {Q : Output → Prop}

mutual

/-- **No class is marked** while a tree is written: the only beans in it are characters. -/
theorem steadfast_writeObject
    (hQ : ∀ {o o' : Output} {cs : List Output.Chunk}, Q o → Output.play o cs = some o' → Q o') :
    ∀ {n : Nat} {t : JTree} {o : O}, Shows H t o → t.Regular →
    SteadfastCharacters P H Q ∨ t.NoCharacters → Steadfast Q (writeObject P H n o)
  | 0, _, _, _, _, _ => fun _ _ _ h => nomatch h
  | n + 1, t, o, ho, hr, hc => by
    rw [writeObject]
    cases t with
    | null =>
      rw [show H.view o = .null from ho]
      exact steadfast_writeNull hQ
    | boolean b =>
      rw [show H.view o = .boolean b from ho]
      exact steadfast_scalar hQ Output.advances_pure Output.appends_pure
    | string s =>
      rw [show H.view o = .string s from ho]
      exact (steadfast_scalar hQ Output.advances_pure Output.appends_pure).bind
        (steadfast_writeUTF16String hQ _ _)
    | number m =>
      rw [show H.view o = .number m from ho]
      exact steadfast_writeNumber hQ P hr
    | character c =>
      rw [IsCharacter.view_bean ho]
      obtain hc | hc := hc
      · exact steadfast_writeContainer hQ n o (hc n o c ho)
      · exact hc.elim
    | sequence kind ts =>
      obtain ⟨os, hos, hts⟩ := ho
      have hbody := steadfast_writeElements hQ (steadfast_items hQ (n := n) hts hr hc)
      rw [hos]
      cases kind <;> exact steadfast_writeContainer hQ n o hbody
    | map entries =>
      obtain ⟨os, hos, hes⟩ := ho
      obtain ⟨hkeys, hvalues⟩ := steadfast_entries hQ (n := n) hes hr.2 hc
      rw [hos]
      exact steadfast_writeContainer hQ n o (steadfast_writeMap hQ hkeys hvalues)

theorem steadfast_items
    (hQ : ∀ {o o' : Output} {cs : List Output.Chunk}, Q o → Output.play o cs = some o' → Q o') :
    ∀ {n : Nat} {ts : List JTree} {os : List O}, ShowsItems H ts os →
    JTree.RegularItems ts → SteadfastCharacters P H Q ∨ JTree.NoCharactersItems ts →
      ∀ o ∈ os, Steadfast Q (writeObject P H n o)
  | _, [], _, h, _, _ => by
    subst h
    exact nofun
  | n, t :: ts, _, ⟨o, os, h, ht, hts⟩, hr, hc => by
    subst h
    exact List.forall_mem_cons.mpr ⟨steadfast_writeObject hQ ht hr.1 (hc.imp id And.left),
      steadfast_items hQ hts hr.2 (hc.imp id And.right)⟩

theorem steadfast_entries
    (hQ : ∀ {o o' : Output} {cs : List Output.Chunk}, Q o → Output.play o cs = some o' → Q o') :
    ∀ {n : Nat} {es : List (Utf16 × JTree)} {os : List (Key × O)},
    ShowsEntries H es os → JTree.RegularEntries es →
      SteadfastCharacters P H Q ∨ JTree.NoCharactersEntries es →
        StringKeys os ∧ ∀ entry ∈ os, Steadfast Q (writeObject P H n entry.2)
  | _, [], _, h, _, _ => by
    subst h
    exact ⟨nofun, nofun⟩
  | n, (k, t) :: es, _, ⟨o, os, h, ht, hes⟩, hr, hc => by
    subst h
    obtain ⟨hkeys, hvalues⟩ := steadfast_entries hQ hes hr.2 (hc.imp id And.right)
    exact ⟨List.forall_mem_cons.mpr ⟨⟨k, rfl⟩, hkeys⟩,
      List.forall_mem_cons.mpr ⟨steadfast_writeObject hQ ht hr.1.2 (hc.imp id And.left), hvalues⟩⟩

end

end Steadfast

/-! ### Characters in the longest array -/

/-- The longest array that Java has. -/
def Output.Largest (o : Output) : Prop :=
  o.buffer.length = 2 ^ 31 - 1

theorem Output.largest_of_play {o o' : Output} {cs : List Output.Chunk} (h : o.Largest)
    (hplay : Output.play o cs = some o') : o'.Largest :=
  (Output.play_largest (Nat.le_of_eq h.symm) hplay).trans h

/-- A string of one character does not fit behind a place where an empty map has not fitted. -/
theorem string_after_map {n : Nat} {o : O} {c : Char16} (ho : H.view o = .string [c]) {b b' : Builder O}
    (hsmall : b.output.buffer.length < 2 ^ 31) (hlate : 2 ^ 31 - 2 ≤ b.output.position) :
    writeObject P H n o b ≠ .ok () b' := by
  intro h
  have hquiet := (steadfast_writeObject (P := P) (Q := fun _ => True) (fun _ _ => trivial)
    (t := .string [c]) ho trivial (.inr trivial) b b' trivial h).2
  cases n with
  | zero => exact nomatch h
  | succ n =>
    have hgrows : Grows b b' := (grows_writeObject P H (n + 1) o).of_ok h
    rw [writeObject, ho] at hquiet
    obtain ⟨cs, hcs, hemitted⟩ := (emits_text P.endian .string 2 [c] (by decide)).sound
      b.specialIs_marked hquiet
    obtain rfl := Option.some.inj hcs
    obtain ⟨hposition, hinside⟩ := Output.play_position hemitted.output
    have hroom := hinside (List.cons_ne_nil _ _)
    have hlimit := hgrows.output.small hsmall
    have hunits := length_le_textChunk P.endian [c]
    simp only [Written.text, Output.chunkBytes_cons, Output.chunkBytes_nil, List.append_nil,
      List.length_append, List.length_singleton] at hposition hunits
    omega

omit [DecidableEq O] in
/-- The longest array has room for an empty map, but for its last two places. -/
theorem writeMap_nil {write : O → BuilderM O Unit} {b : Builder O} (hb : b.output.Largest)
    (hposition : b.output.position < 2 ^ 31 - 2) : ∃ b', writeMap P H write [] b = .ok () b' := by
  have hlarge : b.output.buffer.length = 2 ^ 31 - 1 := hb
  have hplay : Output.play b.output [⟨8, [Tag.map, 0x00]⟩]
      = some (b.output.put [Tag.map, 0x00]) := by
    have hroom : b.output.position + [Tag.map, (0x00 : Byte)].length ≤ b.output.buffer.length := by
      rw [hlarge]
      show b.output.position + 2 ≤ _
      omega
    rw [Output.play_cons, Output.accept, Output.grow_largest (Nat.le_of_eq hlarge.symm), Option.bind_some,
      if_pos hroom]
    rfl
  have hemits : Emits b.marked (writeScalar 8 Tag.map (Output.writeUInt (0 : BitVec 32)) : BuilderM O Unit)
      fun _ => some [⟨8, [Tag.map, 0x00]⟩] :=
    emits_scalar (Output.advances_writeUInt _) (Output.appends_writeUInt _)
  obtain ⟨b', ⟨hrun, -⟩, -⟩ := hemits.complete b.specialIs_marked rfl hplay
  refine ⟨b', ?_⟩
  show (writeScalar 8 Tag.map (Output.writeUInt (BitVec.ofNat 32 0 - BitVec.ofNat 32 0)) >>=
    fun _ => pure ()) b = _
  rw [BitVec.sub_self]
  exact bind_eq_ok.mpr ⟨(), b', hrun, rfl⟩

/-- In that array a character is written without an exception, or not at all. -/
theorem steadfastCharacters_largest (P : Platform) (H : Heap O) : SteadfastCharacters P H Output.Largest := by
  intro n o c ho b b' hb h
  unfold writeAdapterObject at h
  obtain ⟨special, b₁, h₁, h₂⟩ := bind_eq_ok.mp h
  obtain ⟨-, hb₁⟩ := EStateM.Result.ok.inj h₁
  have hlarge : b₁.output.Largest := by
    rw [← hb₁]
    exact hb
  have hcount : b₁.specialClass.putCount = b.specialClass.putCount := by
    rw [← hb₁]
    exact LruCache.get_putCount _ _
  -- a class that is marked is written by `toJSON`, another one as the map of its properties
  cases special with
  | true =>
    obtain ⟨hb', -, hquiet⟩ := steadfast_writeObject Output.largest_of_play (t := .string [c]) ho.toJSON_eq
      trivial (.inr trivial) b₁ b' hlarge h₂
    exact ⟨hb', h, hquiet.trans hcount⟩
  | false =>
    have hmap : Builder.toMap H (.ok []) = .ok [] := rfl
    have hempty : Steadfast Output.Largest (writeMap P H (writeObject P H n) []) :=
      steadfast_writeMap Output.largest_of_play nofun nofun
    rw [if_neg Bool.false_ne_true, hmap, liftExcept_ok_bind] at h₂
    obtain hrun | ⟨err, b₂, hrun, hhandler⟩ := tryCatch_eq_ok.mp h₂
    · obtain ⟨hb', -, hquiet⟩ := hempty b₁ b' hlarge hrun
      exact ⟨hb', h, hquiet.trans hcount⟩
    · -- the array is full, so that nothing else is written either
      have hgrows : Grows b₁ b₂ := (grows_writeMap P H (grows_writeObject P H n) []).of_error hrun
      have hlate : 2 ^ 31 - 2 ≤ b₁.output.position := by
        by_contra hearly
        obtain ⟨b₃, h₃⟩ : ∃ b₃, writeMap P H (writeObject P H n) [] b₁ = .ok () b₃ :=
          writeMap_nil hlarge (by omega)
        exact nomatch hrun.symm.trans h₃
      have hsmall : b₂.output.buffer.length < 2 ^ 31 :=
        hgrows.output.small (by rw [show b₁.output.buffer.length = _ from hlarge]; decide)
      cases hexception : err.isException with
      | true =>
        simp only [hexception, if_true] at hhandler
        obtain ⟨_, b₃, h₃, h₄⟩ := bind_eq_ok.mp hhandler
        obtain ⟨-, rfl⟩ := EStateM.Result.ok.inj h₃
        exact absurd h₄ (string_after_map ho.toJSON_eq hsmall (hlate.trans hgrows.output.position))
      | false =>
        simp only [hexception] at hhandler
        exact nomatch hhandler

end Trees

/-! ## The contents -/

section KeepsContents

variable {O : Type} [DecidableEq O] (P : Platform) (H : Heap O)

/-- Whatever array the thread has and whatever classes are marked, `Wson.toWson` returns, and
wherever its bytes stand, `Wson.parse` makes of them a value that equals the converted tree. -/
def KeepsContents (n : Nat) (t : JTree) (o : O) : Prop :=
  ∀ b : Builder O, b.output.Valid → b.output.position = 0 → b.refs = [] →
    ∃ bytes b', toWson P H n o b = .ok bytes b' ∧
      ∀ (before after : Bytes) (cache : BitVec 11 → Option Utf16), ∃ w cache',
        parse P.endian n (before ++ bytes ++ after) before.length cache = .ok w cache' ∧
          w.Equals t.converted

variable {P H}

/-- A builder over an array of so many bytes, with no class marked. -/
def Builder.ofCapacity (O : Type) (capacity : Nat) : Builder O where
  refs := []
  output := ⟨List.replicate capacity 0, 0⟩
  specialClass := ⟨[], 16, 0⟩

omit [DecidableEq O] in
theorem Builder.valid_ofCapacity {capacity : Nat} (h : capacity < 2 ^ 31) :
    (Builder.ofCapacity O capacity).output.Valid where
  inside := Nat.zero_le _
  small := by
    rw [ofCapacity, List.length_replicate]
    exact h

/-- A quiet run of `writeObject`, and what `toWson` returns behind it. -/
theorem toWson_of_emitted {b b' : Builder O} {n : Nat} {o : O} {special : Utf16 → Bool}
    {w : Written P.endian} (hv : b.output.Valid) (hp : b.output.position = 0)
    (hrun : writeObject P H n o b = .ok () b') (he : Emitted special w.chunks b b') :
    toWson P H n o b = .ok (w.doc.encode P.endian) b' ∧ (w.doc.encode P.endian).length < 2 ^ 31 ∧
      w.doc.Sized := by
  obtain ⟨hv', hlen, hwritten⟩ := written_of_emitted hv he
  have hempty : b.output.written = [] := by
    rw [Output.written, hp, List.take_zero]
  rw [hempty, List.nil_append] at hwritten
  have hsized := w.sized (by omega)
  rw [w.bytes_eq hsized] at hlen
  refine ⟨bind_eq_ok.mpr ⟨(), b', hrun, ?_⟩, hlen, hsized⟩
  rw [toBytes_eq hv', hwritten]

section

variable {t : JTree} {o : O} {n : Nat} (ho : Shows H t o) (hr : t.Regular) (hn : t.height + 1 < n)
include ho hr hn

/-- What comes back has no characters in it and was not cut off. -/
theorem KeepsContents.intact (hkeeps : KeepsContents P H n t o) : t.NoCharacters ∧ Uncut H n [] t o := by
  -- on the longest array no exception is caught, so that the run shows what was written
  have hvalid : (Builder.ofCapacity O (2 ^ 31 - 1)).output.Valid := Builder.valid_ofCapacity (by decide)
  obtain ⟨bytes, b', hrun, hparse⟩ := hkeeps _ hvalid rfl rfl
  obtain ⟨_, b₁, h₁, h₂⟩ := bind_eq_ok.mp hrun
  have hlargest : (Builder.ofCapacity O (2 ^ 31 - 1)).output.Largest := List.length_replicate
  obtain ⟨-, hquiet⟩ := steadfast_writeObject Output.largest_of_play ho hr
    (.inl (steadfastCharacters_largest P H)) _ b₁ hlargest h₁
  obtain ⟨cs, hcs, he⟩ := (emits_writeObject H n o).sound (specialIs_marked _) hquiet
  obtain ⟨w, hw, rfl⟩ := Option.map_eq_some_iff.mp hcs
  obtain ⟨v, hv⟩ : ∃ v, ReadBack (fun _ => none) t (Uncut H n [] t o) w.doc v :=
    reads_unfold (show _ = false from rfl) ho hr hn (show NoBeans H [] from nofun) hw
  obtain ⟨hwson, hlen, hsized⟩ := toWson_of_emitted hvalid rfl h₁ he
  obtain ⟨rfl, rfl⟩ := EStateM.Result.ok.inj (hrun.symm.trans hwson)
  obtain ⟨u, cache', hu, hequals⟩ := hparse [] [] fun _ => none
  obtain ⟨cache'', hu'⟩ := parse_encodes (Doc.encodes_encode P.endian hsized) hv.meaning_eq
    (show w.doc.height < n by have := hv.height_le; omega) hlen [] [] fun _ => none
  obtain ⟨rfl, -⟩ := EStateM.Result.ok.inj (hu.symm.trans hu')
  exact hv.intact_of_equals hequals

/-- Without characters, no exception is caught on any array. -/
theorem KeepsContents.fits (hkeeps : KeepsContents P H n t o) (hc : t.NoCharacters)
    (huncut : Uncut H n [] t o) {capacity : Nat} (hcapacity : capacity < 2 ^ 31) :
    Output.fits (t.converted.written P).chunks capacity 0 := by
  have hvalid : (Builder.ofCapacity O capacity).output.Valid := Builder.valid_ofCapacity hcapacity
  obtain ⟨bytes, b', hrun, -⟩ := hkeeps _ hvalid rfl rfl
  obtain ⟨_, b₁, h₁, -⟩ := bind_eq_ok.mp hrun
  obtain ⟨-, hquiet⟩ := steadfast_writeObject (Q := fun _ => True) (fun _ _ => trivial) ho hr (.inr hc)
    _ b₁ trivial h₁
  obtain ⟨cs, hcs, he⟩ := (emits_writeObject H n o).sound (specialIs_marked _) hquiet
  have hunfold : unfold P H (Builder.ofCapacity O capacity).marked H.contains n [] o
      = some (t.converted.written P) := unfold_tree ho hr hc hn huncut
  rw [show (Builder.ofCapacity O capacity).refs = [] from rfl, hunfold] at hcs
  obtain rfl := Option.some.inj hcs
  have hplay : (Output.play (Builder.ofCapacity O capacity).output
      (t.converted.written P).chunks).isSome = _ := Output.play_isSome _
  rw [he.output, show (Builder.ofCapacity O capacity).output.buffer.length = capacity from
    List.length_replicate] at hplay
  exact hplay.symm

end

/-- **Contents**: they come back iff there is no character, `refs.contains` finds nothing, and no
`ensureCapacity` call asks for a negative length. -/
theorem keepsContents_iff {t : JTree} {o : O} {n : Nat} (ho : Shows H t o) (hr : t.Regular)
    (hn : t.height + 1 < n) :
    KeepsContents P H n t o ↔ t.NoCharacters ∧ Uncut H n [] t o ∧
      ∀ capacity : Nat, capacity < 2 ^ 31 → Output.fits (t.converted.written P).chunks capacity 0 := by
  constructor
  · intro hkeeps
    obtain ⟨hc, huncut⟩ := hkeeps.intact ho hr hn
    exact ⟨hc, huncut, fun _ hcapacity => hkeeps.fits ho hr hn hc huncut hcapacity⟩
  · rintro ⟨hc, huncut, hfits⟩ b hv hp hrefs
    -- nothing is cut, so that the builder writes the whole tree
    have hunfold : unfold P H b.marked H.contains n [] o = some (t.converted.written P) :=
      unfold_tree ho hr hc hn huncut
    have hplay : (Output.play b.output (t.converted.written P).chunks).isSome = _ := Output.play_isSome _
    rw [hp, show ((0 : Nat) : Int) = 0 from rfl, hfits _ hv.small] at hplay
    obtain ⟨out, hout⟩ := Option.isSome_iff_exists.mp hplay
    obtain ⟨b', hquiet, -, he⟩ := (emits_writeObject H n o).complete b.specialIs_marked
      (by rw [hrefs, hunfold]; rfl) hout
    obtain ⟨hwson, hlen, hsized⟩ := toWson_of_emitted hv hp hquiet.1 he
    refine ⟨_, b', hwson, fun before after cache => ?_⟩
    have hmeaning : (t.converted.written P).doc.meaning (fun _ => none) = _ :=
      JValue.meaning_written P (t.regular_converted hr) (t.readable_converted P hr)
    have hheight := JValue.height_written P t.converted
    rw [t.height_converted] at hheight
    obtain ⟨cache', hparse⟩ := parse_encodes (Doc.encodes_encode P.endian hsized) hmeaning
      (show _ < n by omega) hlen before after cache
    refine ⟨_, cache', hparse, ?_⟩
    rw [JTree.norm_converted P hr]
    exact JValue.equals_canonical _

end KeepsContents

/-! ### A byte in an array -/

/-- A map with an array of a byte and null. -/
def bytesHeap : Heap (Fin 4) where
  null := 0
  view o := match o with
    | 0 => .null
    | 1 => .number (.byte 0xFF)
    | 2 => .array [1, 0]
    | 3 => .map [(.string [0x6B], 2)]
  view_null := rfl
  view_map o es h := by
    match o, h with
    | 3, h => exact View.map.inj h ▸ List.nodup_singleton _
  ownEquals a b := a = b
  toJSON := id

theorem keepsContents_bytes_iff :
    KeepsContents Platform.plain bytesHeap 4
        (.map [([0x6B], .sequence .array [.number (.byte 0xFF), .null])]) 3 ↔
      JTree.NoCharacters (.map [([0x6B], .sequence .array [.number (.byte 0xFF), .null])]) ∧
        Uncut bytesHeap 4 [] (.map [([0x6B], .sequence .array [.number (.byte 0xFF), .null])]) 3 ∧
        ∀ capacity : Nat, capacity < 2 ^ 31 →
          Output.fits ((JTree.map [([0x6B], .sequence .array [.number (.byte 0xFF), .null])]).converted.written
            Platform.plain).chunks capacity 0 :=
  keepsContents_iff ⟨_, rfl, _, _, rfl, ⟨_, rfl, _, _, rfl, rfl, _, _, rfl, rfl, rfl⟩, rfl⟩
    ⟨List.nodup_singleton _, ⟨rfl, trivial, trivial, trivial⟩, trivial⟩ (by decide)

/-! ### A character -/

/-- The kinds of methods and fields that `java.lang.Character` has. -/
def characterClass : JClass where
  name := characterName
  methods := [
    { name := "charValue".toList.map fun ch => BitVec.ofNat 16 ch.toNat
      ofObject := false, isStatic := false, annotated := false },
    { name := "compareTo".toList.map fun ch => BitVec.ofNat 16 ch.toNat
      ofObject := false, isStatic := false, annotated := false },
    { name := "getNumericValue".toList.map fun ch => BitVec.ofNat 16 ch.toNat
      ofObject := false, isStatic := true, annotated := false },
    { name := "isDigit".toList.map fun ch => BitVec.ofNat 16 ch.toNat
      ofObject := false, isStatic := true, annotated := false },
    { name := "getClass".toList.map fun ch => BitVec.ofNat 16 ch.toNat
      ofObject := true, isStatic := false, annotated := false }]
  fields := [
    { name := "MAX_VALUE".toList.map fun ch => BitVec.ofNat 16 ch.toNat
      isStatic := true, annotated := false }]

theorem noProperties_characterClass : characterClass.NoProperties where
  methods := by decide
  fields := by decide

/-- The character `a`, and the string that `JSON.toJSON` makes of it. -/
def characterHeap : Heap (Fin 3) where
  null := 0
  view o := match o with
    | 0 => .null
    | 1 => .bean characterName
        (properties id (fun _ => .error .runtime) (fun _ => .error .runtime) characterClass)
    | 2 => .string [0x61]
  view_null := rfl
  view_map o es h := by
    match o, h with
    | 0, h | 1, h | 2, h => exact nomatch h
  ownEquals a b := a = b
  toJSON _ := 2

theorem isCharacter_characterHeap : IsCharacter characterHeap 0x61 1 where
  view_eq := ⟨characterClass, id, _, _, rfl, noProperties_characterClass, rfl⟩
  equals_eq a h := by
    obtain rfl : (1 : Fin 3) = a := of_decide_eq_true h
    exact ⟨_, rfl⟩
  toJSON_eq := rfl

/-- **A character does not come back.** -/
theorem not_keepsContents_character :
    ¬ KeepsContents Platform.plain characterHeap 2 (.character 0x61) 1 := by
  intro hkeeps
  have hintact := KeepsContents.intact (t := .character 0x61) isCharacter_characterHeap trivial (by decide) hkeeps
  exact hintact.1

end Wson.Java
