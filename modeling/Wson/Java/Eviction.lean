import Wson.Java.Builder
import Wson.Java.LruCache

/-!
# What stays in an `LruCache`

Calls that no other thread disturbs. `served` is what a least recently used map should do
with a call, and `completes` says that every call ends, with that result and that map: the
two levels of the cache. With the sizes that the class gives by default, one for each
entry, the map of the code is the `LruCache` of the builder (`perform_builderGet`,
`perform_builderPut`).

- `foundInLarger`: what a cache finds, a larger one finds after the same calls.
- `found_iff`: a value is found until `maxSize` other keys have been used.
-/

namespace Wson.Java.Cache

open Recency Effect

variable {K V : Type} [DecidableEq K]

/-! ## A call by itself -/

section Alone

variable (sizeOf : K → V → Int) (create : K → Option V)

/-- What `create` returns where the call computes it. -/
def Pc.creates : Pc K V → Option V
  | .create key => create key
  | _ => none

/-- The next `n` blocks of a call. -/
def finish : Nat → Pc K V → LruCache K V → Pc K V × LruCache K V
  | 0, pc, c => (pc, c)
  | n + 1, pc, c =>
    finish n (advance sizeOf (pc.creates create) pc c).1 (advance sizeOf (pc.creates create) pc c).2

/-- What a call makes of a map in the order of access: its result, and the map. -/
def served (maxSize : Int) : Call K V → List (K × V) → Option V × List (K × V)
  | .get key, l =>
    match lookup key l with
    | some value => (some value, touch key value l)
    | none =>
      match create key with
      | some value => (some value, trim sizeOf maxSize (touch key value l))
      | none => (none, l)
  | .put key value, l => (lookup key l, trim sizeOf maxSize (touch key value l))
  | .remove key, l => (lookup key l, Recency.remove key l)
  | .trimToSize bound, l => (none, trim sizeOf bound l)
  | .evictAll, _ => (none, [])

variable {sizeOf create} {M : Nat}

theorem finish_ended {pc : Pc K V} (h : pc.ended = true) (n : Nat) (c : LruCache K V) :
    finish sizeOf create n pc c = (pc, c) := by
  induction n with
  | zero => rfl
  | succ n ih =>
    have hsame : advance sizeOf (pc.creates create) pc c = (pc, c) := by
      cases pc <;> first | rfl | cases h
    rw [finish, hsame]
    exact ih

/-- `entryRemoved` does nothing. -/
theorem finish_entryRemoved (n : Nat) (evicted : Bool) (key : K) (oldValue : V)
    (newValue : Option V) (next : Pc K V) (c : LruCache K V) :
    finish sizeOf create (n + 1) (.entryRemoved evicted key oldValue newValue next) c =
      finish sizeOf create n next c := rfl

/-- A cache whose sizes add up, with this map and this capacity. -/
structure Shows (sizeOf : K → V → Int) (l : List (K × V)) (maxSize : Int) (c : LruCache K V) :
    Prop where
  consistent : Consistent sizeOf c
  map : c.map = l
  maxSize : c.maxSize = maxSize

variable (create) in
/-- **The loop** ends, and it has trimmed the map. -/
theorem finish_trimToSize (hsize : ∀ k v, 0 ≤ sizeOf k v ∧ sizeOf k v ≤ M) (bound : Int)
    (result : Option V) {l : List (K × V)} {maxSize : Int} {c : LruCache K V}
    (h : Shows sizeOf l maxSize c) (hmax : 0 < maxSize) (hroom : c.size < 2 ^ 31) {n : Nat}
    (hn : 2 * l.length < n) :
    ∃ c', finish sizeOf create n (.trimToSize bound result) c = (.returned result, c') ∧
      Shows sizeOf (trim sizeOf bound l) maxSize c' := by
  induction l generalizing c n with
  | nil =>
    obtain ⟨n, rfl⟩ : ∃ m, n = m + 1 := ⟨n - 1, by omega⟩
    -- an empty cache has the size 0 and is not trimmed
    have hzero : c.size = 0 := by
      rw [h.consistent.size, h.map, total_nil]
    have hblock : trimBlock sizeOf bound result c = (.returned result, c) := by
      rw [trimBlock, if_neg (by omega), h.map]
    refine ⟨c, ?_, h⟩
    show finish sizeOf create n (trimBlock sizeOf bound result c).1
      (trimBlock sizeOf bound result c).2 = _
    rw [hblock]
    exact finish_ended rfl n c
  | cons entry l ih =>
    obtain ⟨key, value⟩ := entry
    obtain ⟨n, rfl⟩ : ∃ m, n = m + 2 := ⟨n - 2, by rw [List.length_cons] at hn; omega⟩
    rw [List.length_cons] at hn
    have hnonneg := total_nonneg (fun k v => (hsize k v).1) c.map
    rw [← h.consistent.size] at hnonneg
    have hne : c.map ≠ [] := by
      rw [h.map]
      exact List.cons_ne_nil _ _
    -- the check that throws
    have hgood : ¬ (c.size < 0 ∨ (c.map = [] ∧ c.size ≠ 0)) := by
      rintro (hneg | ⟨hmap, -⟩)
      · omega
      · exact hne hmap
    have htotal : sizeOf key value + total sizeOf l = c.size := by
      rw [h.consistent.size, h.map]
      exact (total_cons sizeOf (key, value) l).symm
    by_cases hle : c.size ≤ bound
    · have hblock : trimBlock sizeOf bound result c = (.returned result, c) := by
        rw [trimBlock, if_neg hgood, h.map]
        exact if_pos hle
      have hsame : trim sizeOf bound ((key, value) :: l) = (key, value) :: l :=
        trim_of_le (by rw [total_cons sizeOf (key, value) l]; exact htotal.trans_le hle)
      refine ⟨c, ?_, ?_⟩
      · show finish sizeOf create (n + 1) (trimBlock sizeOf bound result c).1
          (trimBlock sizeOf bound result c).2 = _
        rw [hblock]
        exact finish_ended rfl _ c
      · rw [hsame]
        exact h
    -- the eldest entry goes, and the loop goes on with the others
    · have hnew : key ∉ keys l := by
        have hnodup := h.consistent.nodup
        rw [h.map] at hnodup
        exact (List.nodup_cons.mp hnodup).1
      have hout : Recency.remove key ((key, value) :: l) = l := by
        rw [Recency.remove, List.filter_cons_of_neg (by simp), ← Recency.remove]
        exact remove_of_notMem hnew
      have hadv := advances_trim h.consistent hsize hroom (h.maxSize ▸ hmax) bound result
      have htaken := hsize key value
      have hrest := total_nonneg (fun k v => (hsize k v).1) l
      have hblock : trimBlock sizeOf bound result c =
          (.entryRemoved true key value none (.trimToSize bound result),
            { c with
              map := l
              size := int (c.size - sizeOf key value)
              evictionCount := int (c.evictionCount + 1) }) := by
        rw [trimBlock, if_neg hgood, h.map]
        simp only [if_neg hle, safeSizeOf_eq hsize, hout]
      rw [hblock] at hadv
      have hint : int (c.size - sizeOf key value) = c.size - sizeOf key value :=
        int_of_fits (by omega) (by omega)
      obtain ⟨c', hfinish, hshows⟩ := ih (c := { c with
        map := l
        size := int (c.size - sizeOf key value)
        evictionCount := int (c.evictionCount + 1) })
        ⟨hadv.consistent, rfl, h.maxSize⟩ (by
          show int (c.size - sizeOf key value) < 2 ^ 31
          omega) (n := n) (by omega)
      refine ⟨c', ?_, ?_⟩
      · show finish sizeOf create (n + 1) (trimBlock sizeOf bound result c).1
          (trimBlock sizeOf bound result c).2 = _
        rw [hblock, finish_entryRemoved]
        exact hfinish
      · rw [trim, total_cons sizeOf (key, value) l, if_neg (by rw [htotal]; exact hle)]
        exact hshows

/-- A cache that no call is to trim. -/
structure Settled (sizeOf : K → V → Int) (M : Nat) (c : LruCache K V) : Prop where
  consistent : Consistent sizeOf c
  sizes : ∀ k v, 0 ≤ sizeOf k v ∧ sizeOf k v ≤ M
  positive : 0 < c.maxSize
  bound : c.size ≤ c.maxSize
  room : c.maxSize + M < 2 ^ 31

/-- The first block of a call, from a settled cache. -/
theorem Settled.advances {c : LruCache K V} (h : Settled sizeOf M c) (pc : Pc K V)
    (hsound : pc.Sound) (created : Option V) :
    Advances sizeOf M pc c (advance sizeOf created pc c) := by
  refine Cache.advances h.consistent h.sizes (Int.natCast_nonneg M) h.positive hsound ?_ created
  have hle : (M : Int) * (1 - pc.trims c.maxSize : Int) ≤ M * 1 :=
    Int.mul_le_mul_of_nonneg_left (by omega) (Int.natCast_nonneg M)
  have := h.bound
  have := h.room
  omega

variable (create) in
/-- What is put or created is trimmed at the end of the call. -/
theorem finish_trimming {c c' : LruCache K V} (h : Settled sizeOf M c)
    (hc' : Consistent sizeOf c') (hmax : c'.maxSize = c.maxSize) (hroom : c'.size < 2 ^ 31)
    (result : Option V) {n : Nat} (hn : 2 * c'.map.length < n) :
    ∃ d, finish sizeOf create n (.trimToSize c.maxSize result) c' = (.returned result, d) ∧
      d.map = trim sizeOf c.maxSize c'.map ∧ d.maxSize = c.maxSize ∧ Settled sizeOf M d := by
  obtain ⟨d, hfinish, hd⟩ := finish_trimToSize create h.sizes c.maxSize result
    ⟨hc', rfl, hmax⟩ h.positive hroom hn
  refine ⟨d, hfinish, hd.map, hd.maxSize, hd.consistent, h.sizes, ?_, ?_, ?_⟩
  · rw [hd.maxSize]
    exact h.positive
  · rw [hd.consistent.size, hd.map, hd.maxSize]
    rcases total_trim sizeOf c.maxSize c'.map with hle | hempty
    · exact hle
    · rw [hempty, total_nil]
      exact h.positive.le
  · rw [hd.maxSize]
    exact h.room

/-- The call ends within `n` blocks, with the result and the map that it should have, and leaves
a settled cache. -/
def Completes (sizeOf : K → V → Int) (create : K → Option V) (M : Nat) (c : LruCache K V)
    (call : Call K V) (n : Nat) : Prop :=
  ∃ d, finish sizeOf create n call.start c =
      (.returned (served sizeOf create c.maxSize call c.map).1, d) ∧
    d.map = (served sizeOf create c.maxSize call c.map).2 ∧ d.maxSize = c.maxSize ∧
    Settled sizeOf M d

theorem completes_get {c : LruCache K V} (h : Settled sizeOf M c) (key : K) {n : Nat}
    (hn : 2 * c.map.length + 2 < n) : Completes sizeOf create M c (.get key) (n + 3) := by
  cases hfound : lookup key c.map with
  | some value =>
    have hblock : getBlock key c = (.returned (some value),
        { c with map := touch key value c.map, hitCount := int (c.hitCount + 1) }) := by
      rw [getBlock, hfound]
    have hserved : served sizeOf create c.maxSize (.get key) c.map =
        (some value, touch key value c.map) := by
      rw [served, hfound]
    have hconsistent : Consistent sizeOf (getBlock key c).2 :=
      (h.advances (.get key) trivial none).consistent
    refine ⟨(getBlock key c).2, ?_, ?_, ?_, ?_⟩
    · show finish sizeOf create (n + 2) (getBlock key c).1 (getBlock key c).2 = _
      rw [hserved, hblock]
      exact finish_ended rfl _ _
    · rw [hserved, hblock]
    · rw [hblock]
    · rw [hblock] at hconsistent ⊢
      exact ⟨hconsistent, h.sizes, h.positive, h.bound, h.room⟩
  | none =>
    have hblock : getBlock key c =
        (.create key, { c with missCount := int (c.missCount + 1) }) := by
      rw [getBlock, hfound]
    have hmissed : Settled sizeOf M { c with missCount := int (c.missCount + 1) } :=
      ⟨⟨h.consistent.nodup, h.consistent.size⟩, h.sizes, h.positive, h.bound, h.room⟩
    -- what `create` gives is put as if by a call of its own
    cases hcreate : create key with
    | none =>
      have hserved : served sizeOf create c.maxSize (.get key) c.map = (none, c.map) := by
        rw [served, hfound, hcreate]
      refine ⟨{ c with missCount := int (c.missCount + 1) }, ?_, ?_, rfl, hmissed⟩
      · show finish sizeOf create (n + 2) (getBlock key c).1 (getBlock key c).2 = _
        rw [hblock, finish]
        simp only [Pc.creates, hcreate, advance]
        rw [hserved]
        exact finish_ended rfl _ _
      · rw [hserved]
    | some value =>
      have hserved : served sizeOf create c.maxSize (.get key) c.map =
          (some value, trim sizeOf c.maxSize (touch key value c.map)) := by
        rw [served, hfound, hcreate]
      have hput : createdBlock sizeOf key value { c with missCount := int (c.missCount + 1) } =
          (.trimToSize c.maxSize (some value), { c with
            missCount := int (c.missCount + 1)
            createCount := int (c.createCount + 1)
            map := touch key value c.map
            size := int (c.size + sizeOf key value) }) := by
        rw [createdBlock]
        simp only [hfound, safeSizeOf_eq h.sizes]
      have hconsistent := (hmissed.advances (.created key value) trivial none).consistent
      rw [advance, hput] at hconsistent
      obtain ⟨d, hfinish, hmap, hmax, hd⟩ := finish_trimming create h
        hconsistent rfl (int_range _).2 (some value) (n := n) (by
          show 2 * (touch key value c.map).length < n
          have := length_touch_le key value c.map
          omega)
      refine ⟨d, ?_, ?_, hmax, hd⟩
      · show finish sizeOf create (n + 2) (getBlock key c).1 (getBlock key c).2 = _
        rw [hblock, hserved]
        simp only [finish, Pc.creates, hcreate, advance]
        rw [hput]
        exact hfinish
      · rw [hserved]
        exact hmap

theorem completes_put {c : LruCache K V} (h : Settled sizeOf M c) (key : K) (value : V) {n : Nat}
    (hn : 2 * c.map.length + 2 < n) : Completes sizeOf create M c (.put key value) (n + 2) := by
  have hserved : served sizeOf create c.maxSize (.put key value) c.map =
    (lookup key c.map, trim sizeOf c.maxSize (touch key value c.map)) := rfl
  have hlength := length_touch_le key value c.map
  have hconsistent : Consistent sizeOf (putBlock sizeOf key value c).2 :=
    (h.advances (.put key value) trivial none).consistent
  cases hfound : lookup key c.map with
  | none =>
    have hblock : putBlock sizeOf key value c = (.trimToSize c.maxSize none, { c with
        putCount := int (c.putCount + 1)
        size := int (c.size + sizeOf key value)
        map := touch key value c.map }) := by
      rw [putBlock]
      simp only [hfound, safeSizeOf_eq h.sizes]
    rw [hblock] at hconsistent
    obtain ⟨d, hfinish, hmap, hmax, hd⟩ := finish_trimming create h
      hconsistent rfl (int_range _).2 none (n := n + 1) (by
        show 2 * (touch key value c.map).length < n + 1
        omega)
    refine ⟨d, ?_, ?_, hmax, hd⟩
    · show finish sizeOf create (n + 1) (putBlock sizeOf key value c).1
        (putBlock sizeOf key value c).2 = _
      rw [hblock, hserved, hfound]
      exact hfinish
    · rw [hserved]
      exact hmap
  | some previous =>
    have hblock : putBlock sizeOf key value c =
        (.entryRemoved false key previous (some value) (.trimToSize c.maxSize (some previous)),
          { c with
            putCount := int (c.putCount + 1)
            size := int (int (c.size + sizeOf key value) - sizeOf key previous)
            map := touch key value c.map }) := by
      rw [putBlock]
      simp only [hfound, safeSizeOf_eq h.sizes]
    rw [hblock] at hconsistent
    obtain ⟨d, hfinish, hmap, hmax, hd⟩ := finish_trimming create h
      hconsistent rfl (int_range _).2 (some previous) (n := n) (by
        show 2 * (touch key value c.map).length < n
        omega)
    refine ⟨d, ?_, ?_, hmax, hd⟩
    · show finish sizeOf create (n + 1) (putBlock sizeOf key value c).1
        (putBlock sizeOf key value c).2 = _
      rw [hblock, finish_entryRemoved, hserved, hfound]
      exact hfinish
    · rw [hserved]
      exact hmap

theorem completes_remove {c : LruCache K V} (h : Settled sizeOf M c) (key : K) (n : Nat) :
    Completes sizeOf create M c (.remove key) (n + 2) := by
  have hadv : Advances sizeOf M (.remove key) c (removeBlock sizeOf key c) :=
    h.advances (.remove key) trivial none
  have hserved : served sizeOf create c.maxSize (.remove key) c.map =
    (lookup key c.map, Recency.remove key c.map) := rfl
  have hsettled : (removeBlock sizeOf key c).1.trims c.maxSize = 0 →
      Settled sizeOf M (removeBlock sizeOf key c).2 := by
    intro htrims
    refine ⟨hadv.consistent, h.sizes, ?_, ?_, ?_⟩
    · rw [hadv.maxSize]
      exact h.positive
    · rw [hadv.maxSize]
      have hbound := h.bound
      rcases hadv.size with hle | hle
      · exact hle
      · rw [htrims] at hle
        simp only [Pc.trims, Nat.cast_zero, mul_zero, add_zero] at hle
        omega
    · rw [hadv.maxSize]
      exact h.room
  cases hfound : lookup key c.map with
  | none =>
    have hblock : removeBlock sizeOf key c =
        (.returned none, { c with map := Recency.remove key c.map }) := by
      rw [removeBlock, hfound]
    rw [hblock] at hsettled
    refine ⟨_, ?_, ?_, ?_, hsettled rfl⟩
    · show finish sizeOf create (n + 1) (removeBlock sizeOf key c).1
        (removeBlock sizeOf key c).2 = _
      rw [hblock, hserved, hfound]
      exact finish_ended rfl _ _
    · rw [hserved]
    · rfl
  | some previous =>
    have hblock : removeBlock sizeOf key c =
        (.entryRemoved false key previous none (.returned (some previous)), { c with
          map := Recency.remove key c.map
          size := int (c.size - sizeOf key previous) }) := by
      rw [removeBlock]
      simp only [hfound, safeSizeOf_eq h.sizes]
    rw [hblock] at hsettled
    refine ⟨_, ?_, ?_, ?_, hsettled rfl⟩
    · show finish sizeOf create (n + 1) (removeBlock sizeOf key c).1
        (removeBlock sizeOf key c).2 = _
      rw [hblock, finish_entryRemoved, hserved, hfound]
      exact finish_ended rfl _ _
    · rw [hserved]
    · rfl

variable (create) in
/-- Both `trimToSize` and `evictAll`. -/
theorem finish_bound {c : LruCache K V} (h : Settled sizeOf M c) (bound : Int) {n : Nat}
    (hn : 2 * c.map.length < n) :
    ∃ d, finish sizeOf create n (.trimToSize bound none) c = (.returned none, d) ∧
      d.map = trim sizeOf bound c.map ∧ d.maxSize = c.maxSize ∧ Settled sizeOf M d := by
  have hfits : c.size < 2 ^ 31 := by
    have := h.bound
    have := h.room
    omega
  obtain ⟨d, hfinish, hd⟩ := finish_trimToSize create h.sizes bound none
    ⟨h.consistent, rfl, rfl⟩ h.positive hfits hn
  refine ⟨d, hfinish, hd.map, hd.maxSize, hd.consistent, h.sizes, ?_, ?_, ?_⟩
  · rw [hd.maxSize]
    exact h.positive
  · rw [hd.consistent.size, hd.map, hd.maxSize]
    have hbound := h.bound
    rw [h.consistent.size] at hbound
    by_cases hle : total sizeOf c.map ≤ bound
    · rw [trim_of_le hle]
      exact hbound
    · rcases total_trim sizeOf bound c.map with htrim | hempty
      · omega
      · rw [hempty, total_nil]
        exact h.positive.le
  · rw [hd.maxSize]
    exact h.room

variable (create) in
/-- **Every call** by itself ends with what it should do. -/
theorem completes {c : LruCache K V} (h : Settled sizeOf M c) (call : Call K V) {n : Nat}
    (hn : 2 * c.map.length + 5 < n) : Completes sizeOf create M c call n := by
  cases call with
  | get key =>
    obtain ⟨m, rfl⟩ : ∃ m, n = m + 3 := ⟨n - 3, by omega⟩
    exact completes_get h key (by omega)
  | put key value =>
    obtain ⟨m, rfl⟩ : ∃ m, n = m + 2 := ⟨n - 2, by omega⟩
    exact completes_put h key value (by omega)
  | remove key =>
    obtain ⟨m, rfl⟩ : ∃ m, n = m + 2 := ⟨n - 2, by omega⟩
    exact completes_remove h key m
  | trimToSize bound => exact finish_bound create h bound (by omega)
  | evictAll =>
    have hempty : trim sizeOf (-1) c.map = [] := by
      rcases total_trim sizeOf (-1) c.map with htrim | hempty
      · have := total_nonneg (fun k v => (h.sizes k v).1) (trim sizeOf (-1) c.map)
        omega
      · exact hempty
    obtain ⟨d, hfinish, hmap, hmax, hd⟩ := finish_bound create h (-1) (show 2 * c.map.length < n by omega)
    exact ⟨d, hfinish, hmap.trans hempty, hmax, hd⟩

/-! ## One call after the other -/

variable (sizeOf create)

/-- A call, with as many blocks as it needs. -/
def perform (c : LruCache K V) (call : Call K V) : Pc K V × LruCache K V :=
  finish sizeOf create (2 * c.map.length + 6) call.start c

/-- The ends of the calls, and the cache after them. -/
def performAll : LruCache K V → List (Call K V) → List (Pc K V) × LruCache K V
  | c, [] => ([], c)
  | c, call :: calls =>
    ((perform sizeOf create c call).1 :: (performAll (perform sizeOf create c call).2 calls).1,
      (performAll (perform sizeOf create c call).2 calls).2)

/-- The results that the calls should have, and the map after them. -/
def serveAll (maxSize : Int) : List (K × V) → List (Call K V) → List (Option V) × List (K × V)
  | l, [] => ([], l)
  | l, call :: calls =>
    ((served sizeOf create maxSize call l).1 ::
        (serveAll maxSize (served sizeOf create maxSize call l).2 calls).1,
      (serveAll maxSize (served sizeOf create maxSize call l).2 calls).2)

variable {sizeOf create}

omit [DecidableEq K] in
theorem settled_fresh {maxSize : Int} (hsize : ∀ k v, 0 ≤ sizeOf k v ∧ sizeOf k v ≤ M)
    (hmax : 0 < maxSize) (hroom : maxSize + M < 2 ^ 31) :
    Settled sizeOf M (.fresh maxSize : LruCache K V) where
  consistent := ⟨List.nodup_nil, rfl⟩
  sizes := hsize
  positive := hmax
  bound := hmax.le
  room := hroom

variable (create) in
theorem perform_settled {c : LruCache K V} (h : Settled sizeOf M c) (call : Call K V) :
    (perform sizeOf create c call).1 = .returned (served sizeOf create c.maxSize call c.map).1 ∧
      (perform sizeOf create c call).2.map = (served sizeOf create c.maxSize call c.map).2 ∧
      (perform sizeOf create c call).2.maxSize = c.maxSize ∧
      Settled sizeOf M (perform sizeOf create c call).2 := by
  obtain ⟨d, hfinish, hmap, hmax, hd⟩ := completes create h call
    (show 2 * c.map.length + 5 < 2 * c.map.length + 6 by omega)
  rw [perform, hfinish]
  exact ⟨rfl, hmap, hmax, hd⟩

variable (create) in
theorem performAll_settled {c : LruCache K V} (h : Settled sizeOf M c) (calls : List (Call K V)) :
    (performAll sizeOf create c calls).1 =
        (serveAll sizeOf create c.maxSize c.map calls).1.map .returned ∧
      (performAll sizeOf create c calls).2.map = (serveAll sizeOf create c.maxSize c.map calls).2 ∧
      (performAll sizeOf create c calls).2.maxSize = c.maxSize ∧
      Settled sizeOf M (performAll sizeOf create c calls).2 := by
  induction calls generalizing c with
  | nil => exact ⟨rfl, rfl, rfl, h⟩
  | cons call calls ih =>
    obtain ⟨hresult, hmap, hmax, hd⟩ := perform_settled create h call
    obtain ⟨hresults, hmaps, hmaxs, hds⟩ := ih hd
    rw [hmap, hmax] at hresults hmaps
    refine ⟨?_, hmaps, hmaxs.trans hmax, hds⟩
    rw [performAll, serveAll, List.map_cons, hresult, hresults]

/-- **Refinement**: whatever calls come one after the other, a new cache returns what a least
recently used map of that size returns, and then holds the entries of that map in their order. -/
theorem performsLeastRecentlyUsed {maxSize : Int}
    (hsize : ∀ k v, 0 ≤ sizeOf k v ∧ sizeOf k v ≤ M) (hmax : 0 < maxSize)
    (hroom : maxSize + M < 2 ^ 31) (calls : List (Call K V)) :
    (performAll sizeOf create (.fresh maxSize) calls).1 =
        (serveAll sizeOf create maxSize [] calls).1.map .returned ∧
      (performAll sizeOf create (.fresh maxSize) calls).2.map =
        (serveAll sizeOf create maxSize [] calls).2 := by
  obtain ⟨hresults, hmap, -⟩ :=
    performAll_settled create (settled_fresh hsize hmax hroom) calls
  exact ⟨hresults, hmap⟩

/-- Entries of two sizes, in a cache for three, which creates what it does not find. -/
theorem performsLeastRecentlyUsed_weighted :
    (performAll (fun (_ : Nat) value => cond value 2 1) (fun _ => some false) (.fresh 3)
        [.put 7 true, .get 8, .get 7, .put 9 true]).1 =
        (serveAll (fun (_ : Nat) value => cond value 2 1) (fun _ => some false) 3 []
          [.put 7 true, .get 8, .get 7, .put 9 true]).1.map .returned ∧
      (performAll (fun (_ : Nat) value => cond value 2 1) (fun _ => some false) (.fresh 3)
          [.put 7 true, .get 8, .get 7, .put 9 true]).2.map =
        (serveAll (fun (_ : Nat) value => cond value 2 1) (fun _ => some false) 3 []
          [.put 7 true, .get 8, .get 7, .put 9 true]).2 :=
  performsLeastRecentlyUsed (M := 2) (fun _ value => by cases value <;> decide) (by decide)
    (by decide) _

end Alone

/-! ## Entries of size one -/

/-- The size that the class gives an entry. -/
def unit (_ : K) (_ : V) : Int :=
  1

/-- The class creates no value. -/
def nothing (_ : K) : Option V :=
  none

omit [DecidableEq K] in
theorem unit_bounds (key : K) (value : V) :
    0 ≤ unit key value ∧ unit key value ≤ (1 : Nat) :=
  ⟨Int.one_nonneg, le_refl _⟩

/-- Any call but `trimToSize`. -/
def Call.Usual : Call K V → Prop
  | .trimToSize _ => False
  | _ => True

theorem served_put {n : Nat} (key : K) (value : V) (l : List (K × V)) :
    served unit nothing n (.put key value) l =
      (lookup key l, (touch key value l).rtake n) := by
  show (lookup key l, trim (fun _ _ => 1) n (touch key value l)) = _
  rw [trim_one]

theorem served_get_of_some {maxSize : Int} {key : K} {value : V} {l : List (K × V)}
    (h : lookup key l = some value) :
    served unit nothing maxSize (.get key) l = (some value, touch key value l) := by
  rw [served, h]

theorem served_get_of_none {maxSize : Int} {key : K} {l : List (K × V)}
    (h : lookup key l = none) : served unit (nothing : K → Option V) maxSize (.get key) l = (none, l) := by
  rw [served, h]
  rfl

/-- One call on a small and on a large map. -/
theorem includes_served {n m : Nat} {small big : List (K × V)} (h : Includes m small big)
    (hnodup : (keys big).Nodup) {call : Call K V} (hcall : call.Usual) :
    Includes m (served unit nothing n call small).2 (served unit nothing (n + m : Nat) call big).2 ∧
      ∀ value, (served unit nothing n call small).1 = some value →
        (served unit nothing (n + m : Nat) call big).1 = some value := by
  cases call with
  | get key =>
    cases hsmall : lookup key small with
    | some value =>
      have hbig := h.lookup hnodup hsmall
      rw [served_get_of_some hsmall, served_get_of_some hbig]
      exact ⟨h.touch key value, fun _ hvalue => hvalue⟩
    | none =>
      rw [served_get_of_none hsmall]
      refine ⟨?_, by simp⟩
      cases hbig : lookup key big with
      | none =>
        rw [served_get_of_none hbig]
        exact h
      | some value =>
        rw [served_get_of_some hbig]
        refine h.touch_big value (lookup_eq_none.mp hsmall) ?_
        rw [← lookup_isSome, hbig]
        rfl
  | put key value =>
    rw [served_put, served_put]
    exact ⟨(h.touch key value).rtake n, fun _ hvalue => h.lookup hnodup hvalue⟩
  | remove key => exact ⟨h.remove key, fun _ hvalue => h.lookup hnodup hvalue⟩
  | trimToSize bound => exact hcall.elim
  | evictAll => exact ⟨⟨List.Sublist.refl _, Nat.zero_le _⟩, by simp [served]⟩

/-- The same calls on two caches of which the second has `m` more places. -/
theorem includes_performAll {n m : Nat} {small big : LruCache K V} (hsmall : Settled unit 1 small)
    (hbig : Settled unit 1 big) (hn : small.maxSize = n) (hm : big.maxSize = (n + m : Nat))
    (h : Includes m small.map big.map) {calls : List (Call K V)}
    (hcalls : ∀ call ∈ calls, call.Usual) :
    Includes m (performAll unit nothing small calls).2.map
      (performAll unit nothing big calls).2.map := by
  induction calls generalizing small big with
  | nil => exact h
  | cons call calls ih =>
    obtain ⟨hcall, hrest⟩ := List.forall_mem_cons.mp hcalls
    obtain ⟨-, hmap, hmax, hd⟩ := perform_settled nothing hsmall call
    obtain ⟨-, hmap', hmax', hd'⟩ := perform_settled nothing hbig call
    refine ih hd hd' (hmax.trans hn) (hmax'.trans hm) ?_ hrest
    rw [hmap, hmap', hn, hm]
    exact (includes_served h hbig.consistent.nodup hcall).1

/-- **Inclusion**: after the same calls, what a cache finds a larger one finds as well. -/
theorem foundInLarger {n m : Nat} (hn : 0 < n) (hroom : n + m + 1 < 2 ^ 31)
    {calls : List (Call K V)} (hcalls : ∀ call ∈ calls, call.Usual) {call : Call K V}
    (hcall : call.Usual) {value : V}
    (hfound : (perform unit nothing (performAll unit nothing (.fresh n) calls).2 call).1 =
      .returned (some value)) :
    (perform unit nothing (performAll unit nothing (.fresh (n + m : Nat)) calls).2 call).1 =
      .returned (some value) := by
  have hfresh : Settled unit 1 (.fresh n : LruCache K V) :=
    settled_fresh unit_bounds (by omega) (by omega)
  have hfresh' : Settled unit 1 (.fresh (n + m : Nat) : LruCache K V) :=
    settled_fresh unit_bounds (by omega) (by push_cast; omega)
  have hincludes := includes_performAll hfresh hfresh' rfl rfl
    ⟨List.Sublist.refl _, Nat.zero_le _⟩ hcalls
  obtain ⟨-, -, hmax, hsmall⟩ := performAll_settled nothing hfresh calls
  obtain ⟨-, -, hmax', hbig⟩ := performAll_settled nothing hfresh' calls
  rw [(perform_settled nothing hsmall call).1, hmax] at hfound
  rw [(perform_settled nothing hbig call).1, hmax']
  have hvalue := (includes_served (n := n) hincludes hbig.consistent.nodup hcall).2 value
    (Pc.returned.inj hfound)
  exact congrArg Pc.returned hvalue

theorem foundInLarger_two :
    (perform unit nothing (performAll unit nothing (.fresh (1 + 1 : Nat)) [.put 7 (3 : Nat)]).2
      (.get (7 : Nat))).1 = .returned (some 3) :=
  foundInLarger Nat.one_pos (by decide) (by simp [Call.Usual]) (by trivial) rfl

/-! ## When a value is evicted -/

/-- Looking for another key or putting one. -/
def Call.Other (key : K) : Call K V → Prop
  | .get k => k ≠ key
  | .put k _ => k ≠ key
  | _ => False

/-- The keys that a call uses: one that is put, or one that is found. -/
def used (l : List (K × V)) : Call K V → Finset K
  | .get k => if k ∈ keys l then {k} else ∅
  | .put k _ => {k}
  | _ => ∅

/-- The keys that calls use one after the other. -/
def usedAll : LruCache K V → List (Call K V) → Finset K
  | _, [] => ∅
  | c, call :: calls => used c.map call ∪ usedAll (perform unit nothing c call).2 calls

/-- What has become of the entry after the keys in `S` were used. -/
inductive Stage (key : K) (value : V) (n : Nat) (l : List (K × V)) (S : Finset K) : Prop where
  | kept (before behind : List (K × V)) (hmap : l = before ++ (key, value) :: behind)
    (hbehind : (keys behind).toFinset = S) (hcard : S.card < n)
  | evicted (hkey : key ∉ keys l) (hcard : n ≤ S.card)

omit [DecidableEq K] in
theorem total_unit (l : List (K × V)) : total unit l = l.length := by
  show (l.map fun _ => (1 : Int)).sum = l.length
  rw [List.map_const', List.sum_replicate, nsmul_eq_mul, mul_one]

section Stage

variable {key : K} {value : V} {n : Nat} {l : List (K × V)} {S : Finset K}

/-- The entries behind a key are as many as their keys. -/
theorem card_behind {behind : List (K × V)} (hnodup : (keys behind).Nodup)
    (hbehind : (keys behind).toFinset = S) : behind.length = S.card := by
  rw [← hbehind, List.toFinset_card_of_nodup hnodup, keys, List.length_map]

theorem toFinset_touch (k : K) (v : V) (l : List (K × V)) :
    (keys (touch k v l)).toFinset = insert k (keys l).toFinset := by
  ext x
  simp only [List.mem_toFinset, mem_keys_touch, Finset.mem_insert]

/-- One call that looks for another key or puts one. -/
theorem Stage.served (h : Stage key value n l S) (hnodup : (keys l).Nodup)
    (hlength : l.length ≤ n) {call : Call K V} (hcall : call.Other key) :
    Stage key value n (Cache.served unit nothing n call l).2 (S ∪ used l call) := by
  cases call with
  | get k =>
    have hne : k ≠ key := hcall
    cases hfound : lookup k l with
    | none =>
      have hunused : used l (.get k : Call K V) = ∅ := if_neg (lookup_eq_none.mp hfound)
      rw [served_get_of_none hfound, hunused, Finset.union_empty]
      exact h
    | some v =>
      have hmem : k ∈ keys l := by
        rw [← lookup_isSome, hfound]
        rfl
      have hused : used l (.get k : Call K V) = {k} := if_pos hmem
      rw [served_get_of_some hfound, hused, Finset.union_comm, ← Finset.insert_eq]
      cases h with
      | kept before behind hmap hbehind hcard =>
        have htouch : (keys (touch k v behind)).toFinset = insert k S := by
          rw [toFinset_touch, hbehind]
        have hsame := length_touch_of_mem v hmem
        have hnodup' : (keys (touch k v l)).Nodup := nodup_touch hnodup
        subst hmap
        rw [touch_behind hne] at hsame hnodup' ⊢
        refine .kept (Recency.remove k before) (touch k v behind) rfl htouch ?_
        -- the entries behind the key and that of the key itself are in the map
        rw [keys_append, keys_cons] at hnodup'
        have hbehind' := (List.nodup_cons.mp (List.nodup_append'.mp hnodup').2.1).2
        rw [← card_behind hbehind' htouch]
        rw [List.length_append, List.length_cons] at hsame
        omega
      | evicted hkey hcard =>
        refine .evicted ?_ (hcard.trans (Finset.card_le_card (Finset.subset_insert _ _)))
        rw [mem_keys_touch]
        rintro (heq | hmem')
        · exact hne heq.symm
        · exact hkey hmem'
  | put k v =>
    have hne : k ≠ key := hcall
    have hnodup' : (keys (touch k v l)).Nodup := nodup_touch hnodup
    rw [served_put, used, Finset.union_comm, ← Finset.insert_eq]
    cases h with
    | kept before behind hmap hbehind hcard =>
      have htouch : (keys (touch k v behind)).toFinset = insert k S := by
        rw [toFinset_touch, hbehind]
      subst hmap
      rw [touch_behind hne] at hnodup' ⊢
      rw [keys_append, keys_cons] at hnodup'
      obtain ⟨hnew, hbehind'⟩ := List.nodup_cons.mp (List.nodup_append'.mp hnodup').2.1
      have hcard' := card_behind hbehind' htouch
      by_cases hfull : (touch k v behind).length < n
      · obtain ⟨rest, hrest, -⟩ := rtake_behind key value (Recency.remove k before) hfull
        exact .kept rest (touch k v behind) hrest htouch (by omega)
      · refine .evicted ?_ (by omega)
        rw [rtake_of_le (by omega)]
        exact fun hmem => hnew ((List.drop_suffix _ _).sublist.map _ |>.subset hmem)
    | evicted hkey hcard =>
      refine .evicted (fun hmem => ?_) (hcard.trans (Finset.card_le_card (Finset.subset_insert _ _)))
      rcases mem_keys_touch.mp ((List.drop_suffix _ _).sublist.map _ |>.subset hmem) with heq | hmem'
      · exact hne heq.symm
      · exact hkey hmem'
  | remove k => exact hcall.elim
  | trimToSize bound => exact hcall.elim
  | evictAll => exact hcall.elim

/-- What is put last is there, with nothing behind it. -/
theorem Stage.put (hn : 0 < n) (l : List (K × V)) :
    Stage key value n (Cache.served unit nothing n (.put key value) l).2 ∅ := by
  rw [served_put]
  obtain ⟨rest, hrest, -⟩ := rtake_behind key value (Recency.remove key l)
    (show ([] : List (K × V)).length < n from hn)
  exact .kept rest [] hrest rfl hn

/-- Calls for other keys, one after the other. -/
theorem Stage.performAll {c : LruCache K V} (h : Stage key value n c.map S)
    (hc : Settled unit 1 c) (hmax : c.maxSize = n) {calls : List (Call K V)}
    (hcalls : ∀ call ∈ calls, call.Other key) :
    Stage key value n (performAll unit nothing c calls).2.map (S ∪ usedAll c calls) := by
  induction calls generalizing c S with
  | nil =>
    rw [usedAll, Finset.union_empty]
    exact h
  | cons call calls ih =>
    obtain ⟨hcall, hrest⟩ := List.forall_mem_cons.mp hcalls
    obtain ⟨-, hmap, hmax', hd⟩ := perform_settled nothing hc call
    have hlength : c.map.length ≤ n := by
      have hbound := hc.bound
      rw [hc.consistent.size, total_unit, hmax] at hbound
      exact_mod_cast hbound
    have hstage := h.served hc.consistent.nodup hlength hcall
    rw [← hmax, ← hmap] at hstage
    rw [usedAll, ← Finset.union_assoc]
    exact ih hstage hd (hmax'.trans hmax) hrest

end Stage

/-- **Eviction**: after a value was put, calls for other keys leave it in the cache iff they use
fewer than `maxSize` keys. -/
theorem found_iff {c : LruCache K V} (hc : Settled unit 1 c) {n : Nat} (hmax : c.maxSize = n)
    (key : K) (value : V) {calls : List (Call K V)} (hcalls : ∀ call ∈ calls, call.Other key) :
    (perform unit nothing (performAll unit nothing
        (perform unit nothing c (.put key value)).2 calls).2 (.get key)).1 =
      .returned (some value) ↔
    (usedAll (perform unit nothing c (.put key value)).2 calls).card < n := by
  have hn : 0 < n := by
    have := hc.positive
    omega
  obtain ⟨-, hmap, hmax', hput⟩ := perform_settled nothing hc (.put key value)
  -- behind the key stand those that have been used since
  have hstage : Stage key value n (perform unit nothing c (.put key value)).2.map ∅ := by
    rw [hmap, hmax]
    exact .put hn c.map
  have hafter := hstage.performAll hput (hmax'.trans hmax) hcalls
  rw [Finset.empty_union] at hafter
  obtain ⟨-, -, -, hd⟩ := performAll_settled nothing hput calls
  rw [(perform_settled nothing hd (.get key)).1]
  cases hafter with
  | kept before behind hmap' hbehind hcard =>
    have hfound : lookup key (performAll unit nothing
        (perform unit nothing c (.put key value)).2 calls).2.map = some value := by
      refine lookup_of_mem hd.consistent.nodup ?_
      rw [hmap']
      exact List.mem_append_right _ List.mem_cons_self
    rw [served_get_of_some hfound]
    exact iff_of_true rfl hcard
  | evicted hkey hcard =>
    rw [served_get_of_none (lookup_eq_none.mpr hkey)]
    refine iff_of_false ?_ (by omega)
    intro h
    cases h

theorem found_iff_two :
    (perform unit nothing (performAll unit nothing
        (perform unit nothing (.fresh 2) (.put 7 3)).2 [.put 8 4, .get (8 : Nat)]).2 (.get 7)).1 =
      .returned (some (3 : Nat)) ↔
    (usedAll (perform unit nothing (.fresh 2) (.put 7 3)).2
      [.put (8 : Nat) (4 : Nat), .get 8]).card < 2 :=
  found_iff (settled_fresh unit_bounds (by decide) (by decide)) rfl 7 3 (by simp [Call.Other])

/-! ## The caches of the builder -/

/-- The cache of the builder and the fields of the class. -/
structure Agrees (b : Java.LruCache K V) (c : LruCache K V) : Prop where
  entries : c.map = b.entries
  maxSize : c.maxSize = b.maxSize

/-- `specialClass.get` of the builder is `get` of the class. -/
theorem perform_builderGet {b : Java.LruCache K V} {c : LruCache K V} (h : Agrees b c)
    (hc : Settled unit 1 c) (key : K) :
    (perform unit nothing c (.get key)).1 = .returned (b.get key).1 ∧
      Agrees (b.get key).2 (perform unit nothing c (.get key)).2 := by
  obtain ⟨hresult, hmap, hmax, -⟩ := perform_settled nothing hc (.get key)
  have hfind : b.find? key = lookup key c.map := by
    rw [h.entries]
    rfl
  unfold Java.LruCache.get
  cases hfound : lookup key c.map with
  | none =>
    rw [served_get_of_none hfound] at hresult hmap
    rw [hfind, hfound]
    exact ⟨hresult, hmap.trans h.entries, hmax.trans h.maxSize⟩
  | some value =>
    rw [served_get_of_some hfound] at hresult hmap
    rw [hfind, hfound]
    refine ⟨hresult, ?_, hmax.trans h.maxSize⟩
    rw [hmap, h.entries]
    rfl

theorem perform_builderPut {b : Java.LruCache K V} {c : LruCache K V} (h : Agrees b c)
    (hc : Settled unit 1 c) (key : K) (value : V) :
    Agrees (b.put key value) (perform unit nothing c (.put key value)).2 := by
  obtain ⟨-, hmap, hmax, -⟩ := perform_settled nothing hc (.put key value)
  refine ⟨?_, hmax.trans h.maxSize⟩
  rw [hmap, h.maxSize, served_put, h.entries]
  rfl

end Wson.Java.Cache
