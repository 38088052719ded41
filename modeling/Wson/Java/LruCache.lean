import Mathlib.Algebra.BigOperators.Group.Finset.Basic
import Wson.Cache.Recency
import Wson.Effect.Run
import Wson.Java.Lang

/-!
# `cache/LruCache.java`

The class behind `specialClass` and `beanCache`, which all threads share. A call is a
sequence of `synchronized` blocks with `create` and `entryRemoved` between them, where
other threads run: `Pc` says before which of these a call stands, and `advance` runs one
of them. A `System` is a cache with the calls of all its threads, and a run of it any list
of events in which threads begin calls and go on with them in any order.

`System.Inv`: the sizes add up and no entry is there twice, and the cache is larger than
`maxSize` by no more than the calls may have added that have yet to trim it. Every event
keeps it (`inv_step`).
-/

namespace Wson.Java.Cache

open Recency Effect

variable {K V : Type} [DecidableEq K]

/-- The fields of the class, all counters being `int`; `map` is a `LinkedHashMap` in the
order of access. -/
structure LruCache (K V : Type) where
  map : List (K × V)
  size : Int
  maxSize : Int
  putCount : Int
  createCount : Int
  evictionCount : Int
  hitCount : Int
  missCount : Int

/-- What the class throws, with the messages of the two `IllegalStateException`s. -/
inductive Failure where
  /-- `maxSize <= 0` -/
  | illegalArgument
  /-- `.sizeOf() is reporting inconsistent results!` -/
  | inconsistent
  /-- `Negative size: ` -/
  | negativeSize
  deriving DecidableEq, Repr

/-- The fields as the constructor leaves them. -/
def LruCache.fresh (maxSize : Int) : LruCache K V :=
  ⟨[], 0, maxSize, 0, 0, 0, 0, 0⟩

/-- The constructor. -/
def LruCache.new (maxSize : Int) : Except Failure (LruCache K V) :=
  if maxSize ≤ 0 then .error .illegalArgument else .ok (.fresh maxSize)

/-! ## The methods, block by block -/

/-- Where a call stands. -/
inductive Pc (K V : Type) where
  /-- Before the first block of `get`. -/
  | get (key : K)
  /-- Before `create(key)`. -/
  | create (key : K)
  /-- Before the second block of `get`. -/
  | created (key : K) (createdValue : V)
  | put (key : K) (value : V)
  | remove (key : K)
  /-- At the head of the loop of `trimToSize`, after which the call returns the result. -/
  | trimToSize (maxSize : Int) (result : Option V)
  | entryRemoved (evicted : Bool) (key : K) (oldValue : V) (newValue : Option V) (next : Pc K V)
  | returned (result : Option V)
  | threw (failure : Failure)

inductive Call (K V : Type) where
  | get (key : K)
  | put (key : K) (value : V)
  | remove (key : K)
  | trimToSize (maxSize : Int)
  | evictAll

/-- A call before its first block; `evictAll` is `trimToSize(-1)`. -/
def Call.start : Call K V → Pc K V
  | .get key => .get key
  | .put key value => .put key value
  | .remove key => .remove key
  | .trimToSize maxSize => .trimToSize maxSize none
  | .evictAll => .trimToSize (-1) none

def Pc.ended : Pc K V → Bool
  | .returned _ => true
  | .threw _ => true
  | _ => false

section Blocks

variable (sizeOf : K → V → Int)

def safeSizeOf (key : K) (value : V) : Except Failure Int :=
  if sizeOf key value < 0 then .error .negativeSize else .ok (sizeOf key value)

def getBlock (key : K) (c : LruCache K V) : Pc K V × LruCache K V :=
  match lookup key c.map with
  | some mapValue =>
    (.returned (some mapValue),
      { c with map := touch key mapValue c.map, hitCount := int (c.hitCount + 1) })
  | none => (.create key, { c with missCount := int (c.missCount + 1) })

/-- The value of another thread stays; else the created one has been put. -/
def createdBlock (key : K) (createdValue : V) (c : LruCache K V) : Pc K V × LruCache K V :=
  let put := { c with
    createCount := int (c.createCount + 1)
    map := touch key createdValue c.map }
  match lookup key c.map with
  | some mapValue =>
    (.entryRemoved false key createdValue (some mapValue) (.returned (some mapValue)),
      { put with map := touch key mapValue put.map })
  | none =>
    match safeSizeOf sizeOf key createdValue with
    | .error failure => (.threw failure, put)
    | .ok added =>
      (.trimToSize c.maxSize (some createdValue), { put with size := int (c.size + added) })

def putBlock (key : K) (value : V) (c : LruCache K V) : Pc K V × LruCache K V :=
  let counted := { c with putCount := int (c.putCount + 1) }
  match safeSizeOf sizeOf key value with
  | .error failure => (.threw failure, counted)
  | .ok added =>
    let put := { counted with size := int (c.size + added), map := touch key value c.map }
    match lookup key c.map with
    | none => (.trimToSize c.maxSize none, put)
    | some previous =>
      match safeSizeOf sizeOf key previous with
      | .error failure => (.threw failure, put)
      | .ok taken =>
        (.entryRemoved false key previous (some value) (.trimToSize c.maxSize (some previous)),
          { put with size := int (put.size - taken) })

def removeBlock (key : K) (c : LruCache K V) : Pc K V × LruCache K V :=
  let removed := { c with map := Recency.remove key c.map }
  match lookup key c.map with
  | none => (.returned none, removed)
  | some previous =>
    match safeSizeOf sizeOf key previous with
    | .error failure => (.threw failure, removed)
    | .ok taken =>
      (.entryRemoved false key previous none (.returned (some previous)),
        { removed with size := int (c.size - taken) })

/-- One round of the loop. -/
def trimBlock (maxSize : Int) (result : Option V) (c : LruCache K V) : Pc K V × LruCache K V :=
  if c.size < 0 ∨ (c.map = [] ∧ c.size ≠ 0) then (.threw .inconsistent, c)
  else
    match c.map with
    | [] => (.returned result, c)
    | (key, value) :: _ =>
      if c.size ≤ maxSize then (.returned result, c)
      else
        let removed := { c with map := Recency.remove key c.map }
        match safeSizeOf sizeOf key value with
        | .error failure => (.threw failure, removed)
        | .ok taken =>
          (.entryRemoved true key value none (.trimToSize maxSize result),
            { removed with
              size := int (c.size - taken)
              evictionCount := int (c.evictionCount + 1) })

/-- The next block of a call, or what stands between two; `created` is what `create` returns.
`entryRemoved` does nothing. -/
def advance (created : Option V) : Pc K V → LruCache K V → Pc K V × LruCache K V
  | .get key, c => getBlock key c
  | .create key, c =>
    match created with
    | none => (.returned none, c)
    | some value => (.created key value, c)
  | .created key value, c => createdBlock sizeOf key value c
  | .put key value, c => putBlock sizeOf key value c
  | .remove key, c => removeBlock sizeOf key c
  | .trimToSize maxSize result, c => trimBlock sizeOf maxSize result c
  | .entryRemoved _ _ _ _ next, c => (next, c)
  | .returned result, c => (.returned result, c)
  | .threw failure, c => (.threw failure, c)

end Blocks

/-! ## Threads -/

variable {ι : Type} [DecidableEq ι]

/-- A cache and the call of each thread. -/
structure System (ι K V : Type) where
  cache : LruCache K V
  pc : ι → Pc K V

/-- A thread begins a call once the one before has ended, or goes on with it. -/
inductive Event (ι K V : Type) where
  | call (i : ι) (c : Call K V)
  | run (i : ι) (created : Option V)

def System.step (sizeOf : K → V → Int) (s : System ι K V) : Event ι K V → System ι K V
  | .call i c => if (s.pc i).ended then { s with pc := Function.update s.pc i c.start } else s
  | .run i created =>
    { cache := (advance sizeOf created (s.pc i) s.cache).2
      pc := Function.update s.pc i (advance sizeOf created (s.pc i) s.cache).1 }

theorem System.step_call {sizeOf : K → V → Int} {s : System ι K V} {i : ι} {c : Call K V}
    (h : (s.pc i).ended = true) :
    s.step sizeOf (.call i c) = { s with pc := Function.update s.pc i c.start } :=
  if_pos h

theorem System.step_busy {sizeOf : K → V → Int} {s : System ι K V} {i : ι} {c : Call K V}
    (h : ¬ (s.pc i).ended = true) : s.step sizeOf (.call i c) = s :=
  if_neg h

theorem System.step_run {sizeOf : K → V → Int} {s : System ι K V} {i : ι} {created : Option V} :
    s.step sizeOf (.run i created) =
      { cache := (advance sizeOf created (s.pc i) s.cache).2
        pc := Function.update s.pc i (advance sizeOf created (s.pc i) s.cache).1 } := rfl

/-- A new cache before the first call. -/
def System.initial (ι : Type) (maxSize : Int) : System ι K V where
  cache := .fresh maxSize
  pc _ := .returned none

/-- No call is under way. -/
def System.Quiet (s : System ι K V) : Prop :=
  ∀ i, (s.pc i).ended = true

/-! ## What a block keeps -/

/-- The sizes add up, and no entry is there twice. -/
structure Consistent (sizeOf : K → V → Int) (c : LruCache K V) : Prop where
  nodup : (keys c.map).Nodup
  size : c.size = total sizeOf c.map

/-- The call has not thrown. -/
def Pc.Sound : Pc K V → Prop
  | .threw _ => False
  | .entryRemoved _ _ _ _ next => next.Sound
  | _ => True

/-- One where the call has yet to trim the cache to `maxSize` or less. -/
def Pc.trims (maxSize : Int) : Pc K V → Nat
  | .trimToSize bound _ => if bound ≤ maxSize then 1 else 0
  | .entryRemoved _ _ _ _ next => next.trims maxSize
  | _ => 0

/-- The value the next block of a call brings into the cache. -/
def Pc.entered : Pc K V → Multiset (K × V)
  | .put key value => {(key, value)}
  | .created key value => {(key, value)}
  | _ => 0

/-- The value a call hands to `entryRemoved` now. -/
def Pc.released : Pc K V → Multiset (K × V)
  | .entryRemoved _ key oldValue _ _ => {(key, oldValue)}
  | _ => 0

/-- The values that left the cache and that a call has yet to hand to `entryRemoved`. -/
def Pc.releasing : Pc K V → Multiset (K × V)
  | .entryRemoved _ key oldValue _ next => (key, oldValue) ::ₘ next.releasing
  | _ => 0

/-- The entries of a map without their order. -/
def bag (l : List (K × V)) : Multiset (K × V) :=
  total (fun key value => {(key, value)}) l

omit [DecidableEq K] in
theorem bag_eq (l : List (K × V)) : bag l = ↑l := by
  induction l with
  | nil => rfl
  | cons entry l ih =>
    have ih' : total (fun key value => ({(key, value)} : Multiset (K × V))) l = ↑l := ih
    rw [bag, total_cons, ih', Multiset.singleton_add, Multiset.cons_coe]

omit [DecidableEq K] in
theorem Pc.trims_le (maxSize : Int) (pc : Pc K V) : pc.trims maxSize ≤ 1 := by
  induction pc with
  | trimToSize bound result =>
    rw [Pc.trims]
    split <;> omega
  | entryRemoved evicted key oldValue newValue next ih => exact ih
  | _ => exact Nat.zero_le 1

/-- What every block does, from a cache in a consistent state. -/
structure Advances (sizeOf : K → V → Int) (M : Int) (pc : Pc K V) (c : LruCache K V)
    (r : Pc K V × LruCache K V) : Prop where
  maxSize : r.2.maxSize = c.maxSize
  consistent : Consistent sizeOf r.2
  sound : r.1.Sound
  size : r.2.size ≤ c.maxSize ∨
    r.2.size + M * pc.trims c.maxSize ≤ c.size + M * r.1.trims c.maxSize
  bag : pc.entered + bag c.map + pc.releasing = bag r.2.map + pc.released + r.1.releasing

section Advances

variable {sizeOf : K → V → Int} {M : Int} {c : LruCache K V}

theorem bag_touch_of_none {key : K} {value : V} {l : List (K × V)} (h : lookup key l = none) :
    bag (touch key value l) = bag l + {(key, value)} := by
  rw [bag, total_touch, remove_of_notMem (lookup_eq_none.mp h), bag]

theorem bag_remove {key : K} {value : V} {l : List (K × V)} (hnodup : (keys l).Nodup)
    (h : lookup key l = some value) : bag (Recency.remove key l) + {(key, value)} = bag l :=
  total_remove _ hnodup h

/-- Used again, an entry stays the same. -/
theorem bag_touch_same {key : K} {value : V} {l : List (K × V)} (hnodup : (keys l).Nodup)
    (h : lookup key l = some value) : bag (touch key value l) = bag l := by
  rw [bag, total_touch]
  exact bag_remove hnodup h

omit [DecidableEq K] in
/-- A size that is no `Negative size`. -/
theorem safeSizeOf_eq (hsize : ∀ k v, 0 ≤ sizeOf k v ∧ sizeOf k v ≤ M) (key : K) (value : V) :
    safeSizeOf sizeOf key value = .ok (sizeOf key value) := by
  rw [safeSizeOf, if_neg (by have := (hsize key value).1; omega)]

theorem Consistent.touch_same (h : Consistent sizeOf c) {key : K} {value : V}
    (hfound : lookup key c.map = some value) :
    (keys (touch key value c.map)).Nodup ∧ c.size = total sizeOf (touch key value c.map) := by
  refine ⟨nodup_touch h.nodup, ?_⟩
  rw [total_touch, total_remove sizeOf h.nodup hfound]
  exact h.size

theorem advances_get (h : Consistent sizeOf c) (key : K) :
    Advances sizeOf M (.get key) c (getBlock key c) := by
  unfold getBlock
  cases hfound : lookup key c.map with
  | none =>
    constructor
    · rfl
    · exact ⟨h.nodup, h.size⟩
    · trivial
    · exact .inr (le_refl _)
    · show 0 + bag c.map + 0 = bag c.map + 0 + 0
      abel
  | some mapValue =>
    obtain ⟨hnodup, hsize⟩ := h.touch_same hfound
    constructor
    · rfl
    · exact ⟨hnodup, hsize⟩
    · trivial
    · exact .inr (le_refl _)
    · show 0 + bag c.map + 0 = bag (touch key mapValue c.map) + 0 + 0
      rw [bag_touch_same h.nodup hfound]
      abel

/-- The created value is put, or it is given back since another thread was first. -/
theorem advances_created (h : Consistent sizeOf c)
    (hsize : ∀ k v, 0 ≤ sizeOf k v ∧ sizeOf k v ≤ M) (hroom : c.size + M < 2 ^ 31)
    (key : K) (value : V) :
    Advances sizeOf M (.created key value) c (createdBlock sizeOf key value c) := by
  have hnonneg := total_nonneg (fun k v => (hsize k v).1) c.map
  rw [← h.size] at hnonneg
  unfold createdBlock
  cases hfound : lookup key c.map with
  | some mapValue =>
    have hremove : Recency.remove key (touch key value c.map) = Recency.remove key c.map := by
      rw [touch, Recency.remove, List.filter_append]
      simp [Recency.remove]
    have htouch : touch key mapValue (touch key value c.map) = touch key mapValue c.map := by
      rw [touch, hremove, ← touch]
    obtain ⟨hnodup, htotal⟩ := h.touch_same hfound
    constructor
    · rfl
    · refine ⟨?_, ?_⟩
      · show (keys (touch key mapValue (touch key value c.map))).Nodup
        rwa [htouch]
      · show c.size = total sizeOf (touch key mapValue (touch key value c.map))
        rwa [htouch]
    · trivial
    · exact .inr (le_refl _)
    · show {(key, value)} + bag c.map + 0 =
        bag (touch key mapValue (touch key value c.map)) + 0 + {(key, value)}
      rw [htouch, bag_touch_same h.nodup hfound]
      abel
  | none =>
    have hadded := hsize key value
    have hint : int (c.size + sizeOf key value) = c.size + sizeOf key value :=
      int_of_fits (by omega) (by omega)
    rw [safeSizeOf_eq hsize]
    constructor
    · rfl
    · refine ⟨nodup_touch h.nodup, ?_⟩
      show int (c.size + sizeOf key value) = total sizeOf (touch key value c.map)
      rw [hint, total_touch, remove_of_notMem (lookup_eq_none.mp hfound), h.size]
    · trivial
    · refine .inr ?_
      show int (c.size + sizeOf key value) + M * 0 ≤ c.size + M * (Pc.trims c.maxSize _ : Nat)
      rw [hint, Pc.trims, if_pos (le_refl _)]
      omega
    · show {(key, value)} + bag c.map + 0 = bag (touch key value c.map) + 0 + 0
      rw [bag_touch_of_none hfound]
      abel

theorem advances_put (h : Consistent sizeOf c)
    (hsize : ∀ k v, 0 ≤ sizeOf k v ∧ sizeOf k v ≤ M) (hroom : c.size + M < 2 ^ 31)
    (key : K) (value : V) : Advances sizeOf M (.put key value) c (putBlock sizeOf key value c) := by
  have hnonneg := total_nonneg (fun k v => (hsize k v).1) c.map
  rw [← h.size] at hnonneg
  have hadded := hsize key value
  have hint : int (c.size + sizeOf key value) = c.size + sizeOf key value :=
    int_of_fits (by omega) (by omega)
  unfold putBlock
  simp only [safeSizeOf_eq hsize]
  cases hfound : lookup key c.map with
  | none =>
    constructor
    · rfl
    · refine ⟨nodup_touch h.nodup, ?_⟩
      show int (c.size + sizeOf key value) = total sizeOf (touch key value c.map)
      rw [hint, total_touch, remove_of_notMem (lookup_eq_none.mp hfound), h.size]
    · trivial
    · refine .inr ?_
      show int (c.size + sizeOf key value) + M * 0 ≤ c.size + M * (Pc.trims c.maxSize _ : Nat)
      rw [hint, Pc.trims, if_pos (le_refl _)]
      omega
    · show {(key, value)} + bag c.map + 0 = bag (touch key value c.map) + 0 + 0
      rw [bag_touch_of_none hfound]
      abel
  | some previous =>
    have htaken := hsize key previous
    have htotal := total_remove sizeOf h.nodup hfound
    have hrest := total_nonneg (fun k v => (hsize k v).1) (Recency.remove key c.map)
    rw [← h.size] at htotal
    have hint' : int (c.size + sizeOf key value - sizeOf key previous) =
        c.size + sizeOf key value - sizeOf key previous := int_of_fits (by omega) (by omega)
    constructor
    · rfl
    · refine ⟨nodup_touch h.nodup, ?_⟩
      show int (int (c.size + sizeOf key value) - sizeOf key previous) =
        total sizeOf (touch key value c.map)
      rw [hint, hint', total_touch]
      omega
    · trivial
    · refine .inr ?_
      show int (int (c.size + sizeOf key value) - sizeOf key previous) + M * 0 ≤
        c.size + M * (Pc.trims c.maxSize (.trimToSize c.maxSize (some previous) : Pc K V) : Nat)
      rw [hint, hint', Pc.trims, if_pos (le_refl _)]
      omega
    · -- the new value takes the place of the one that is handed out
      show {(key, value)} + bag c.map + 0 =
        bag (touch key value c.map) + 0 + {(key, previous)}
      have hbag : bag (touch key value c.map) =
          bag (Recency.remove key c.map) + {(key, value)} := total_touch _ _ _ _
      rw [hbag, ← bag_remove h.nodup hfound]
      abel

theorem advances_remove (h : Consistent sizeOf c)
    (hsize : ∀ k v, 0 ≤ sizeOf k v ∧ sizeOf k v ≤ M) (hroom : c.size < 2 ^ 31)
    (key : K) : Advances sizeOf M (.remove key) c (removeBlock sizeOf key c) := by
  unfold removeBlock
  cases hfound : lookup key c.map with
  | none =>
    have hsame := remove_of_notMem (lookup_eq_none.mp hfound)
    constructor
    · rfl
    · refine ⟨nodup_remove h.nodup, ?_⟩
      show c.size = total sizeOf (Recency.remove key c.map)
      rw [hsame, h.size]
    · trivial
    · exact .inr (le_refl _)
    · show 0 + bag c.map + 0 = bag (Recency.remove key c.map) + 0 + 0
      rw [hsame]
      abel
  | some previous =>
    have htaken := hsize key previous
    have htotal := total_remove sizeOf h.nodup hfound
    have hrest := total_nonneg (fun k v => (hsize k v).1) (Recency.remove key c.map)
    rw [← h.size] at htotal
    have hint : int (c.size - sizeOf key previous) = c.size - sizeOf key previous :=
      int_of_fits (by omega) (by omega)
    simp only [safeSizeOf_eq hsize]
    constructor
    · rfl
    · refine ⟨nodup_remove h.nodup, ?_⟩
      show int (c.size - sizeOf key previous) = total sizeOf (Recency.remove key c.map)
      rw [hint]
      omega
    · trivial
    · refine .inr ?_
      show int (c.size - sizeOf key previous) + M * 0 ≤ c.size + M * 0
      rw [hint]
      omega
    · show 0 + bag c.map + 0 = bag (Recency.remove key c.map) + 0 + {(key, previous)}
      rw [← bag_remove h.nodup hfound]
      abel

/-- A round of the loop finds the sizes consistent; it ends with a cache of at most `maxSize`,
or it evicts the eldest entry. -/
theorem advances_trim (h : Consistent sizeOf c)
    (hsize : ∀ k v, 0 ≤ sizeOf k v ∧ sizeOf k v ≤ M) (hroom : c.size < 2 ^ 31)
    (hmax : 0 < c.maxSize) (bound : Int) (result : Option V) :
    Advances sizeOf M (.trimToSize bound result) c (trimBlock sizeOf bound result c) := by
  have hnonneg := total_nonneg (fun k v => (hsize k v).1) c.map
  rw [← h.size] at hnonneg
  have hempty : c.map = [] → c.size = 0 := by
    intro hmap
    rw [h.size, hmap, total_nil]
  have hgood : ¬ (c.size < 0 ∨ (c.map = [] ∧ c.size ≠ 0)) := by
    rintro (hneg | ⟨hmap, hne⟩)
    · omega
    · exact hne (hempty hmap)
  -- the loop ends: either nothing had to be trimmed, or the cache is small enough
  have hend : c.map = [] ∨ c.size ≤ bound →
      Advances sizeOf M (.trimToSize bound result) c (.returned result, c) := by
    intro hsmall
    refine ⟨rfl, h, trivial, ?_, ?_⟩
    · show c.size ≤ c.maxSize ∨
        c.size + M * ((if bound ≤ c.maxSize then 1 else 0 : Nat) : Int) ≤ c.size + M * 0
      rcases hsmall with hmap | hle
      · have := hempty hmap
        exact .inl (by omega)
      · split
        · exact .inl (by omega)
        · exact .inr (by simp)
    · show 0 + bag c.map + 0 = bag c.map + 0 + 0
      abel
  unfold trimBlock
  rw [if_neg hgood]
  cases hmap : c.map with
  | nil => exact hend (.inl hmap)
  | cons entry rest =>
    obtain ⟨key, value⟩ := entry
    by_cases hle : c.size ≤ bound
    · simp only [if_pos hle]
      exact hend (.inr hle)
    · have hfound : lookup key c.map = some value := by
        rw [hmap, lookup_cons, if_pos rfl]
      have htaken := hsize key value
      have htotal := total_remove sizeOf h.nodup hfound
      have hrest := total_nonneg (fun k v => (hsize k v).1) (Recency.remove key c.map)
      rw [← h.size] at htotal
      have hint : int (c.size - sizeOf key value) = c.size - sizeOf key value :=
        int_of_fits (by omega) (by omega)
      simp only [if_neg hle, safeSizeOf_eq hsize, ← hmap]
      refine ⟨rfl, ⟨nodup_remove h.nodup, ?_⟩, trivial, .inr ?_, ?_⟩
      · show int (c.size - sizeOf key value) = total sizeOf (Recency.remove key c.map)
        rw [hint]
        omega
      · show int (c.size - sizeOf key value) +
            M * (Pc.trims c.maxSize (.trimToSize bound result : Pc K V) : Nat) ≤
          c.size + M * (Pc.trims c.maxSize (.trimToSize bound result : Pc K V) : Nat)
        rw [hint]
        omega
      · show 0 + bag c.map + 0 = bag (Recency.remove key c.map) + 0 + {(key, value)}
        rw [← bag_remove h.nodup hfound]
        abel

omit [DecidableEq K] in
/-- Between the blocks nothing of the cache changes. -/
theorem advances_still (h : Consistent sizeOf c) {pc pc' : Pc K V} (hsound : pc'.Sound)
    (htrims : pc'.trims c.maxSize = pc.trims c.maxSize)
    (hbag : pc.entered + pc.releasing = pc.released + pc'.releasing) :
    Advances sizeOf M pc c (pc', c) := by
  constructor
  · rfl
  · exact h
  · exact hsound
  · exact .inr (by rw [htrims])
  · show pc.entered + bag c.map + pc.releasing = bag c.map + pc.released + pc'.releasing
    rw [add_right_comm, hbag]
    abel

/-- **Every block** of every method. Where a call has nothing to trim, the cache has room for
one more value. -/
theorem advances (h : Consistent sizeOf c) (hsize : ∀ k v, 0 ≤ sizeOf k v ∧ sizeOf k v ≤ M)
    (hM : 0 ≤ M) (hmax : 0 < c.maxSize) {pc : Pc K V} (hsound : pc.Sound)
    (hroom : c.size + M * (1 - pc.trims c.maxSize : Int) < 2 ^ 31) (created : Option V) :
    Advances sizeOf M pc c (advance sizeOf created pc c) := by
  have hfits : c.size < 2 ^ 31 := by
    have hle := pc.trims_le c.maxSize
    have := Int.mul_nonneg hM (by omega : 0 ≤ (1 - pc.trims c.maxSize : Int))
    omega
  cases pc with
  | get key => exact advances_get h key
  | create key =>
    cases created with
    | none => exact advances_still h trivial rfl rfl
    | some value => exact advances_still h trivial rfl rfl
  | created key value => exact advances_created h hsize (by simpa [Pc.trims] using hroom) key value
  | put key value => exact advances_put h hsize (by simpa [Pc.trims] using hroom) key value
  | remove key => exact advances_remove h hsize hfits key
  | trimToSize bound result => exact advances_trim h hsize hfits hmax bound result
  | entryRemoved evicted key oldValue newValue next =>
    refine advances_still h hsound rfl ?_
    show 0 + ((key, oldValue) ::ₘ next.releasing) = {(key, oldValue)} + next.releasing
    rw [zero_add, Multiset.singleton_add]
  | returned result => exact advances_still h trivial rfl rfl
  | threw failure => exact hsound.elim

end Advances

/-! ## What a run keeps -/

section Runs

variable [Fintype ι] {sizeOf : K → V → Int} {M : Nat} {maxSize : Int}

omit [DecidableEq K] in
/-- A sum over all calls where one of them goes on. -/
theorem sum_update {A : Type} [AddCommMonoid A] (f : Pc K V → A) (pc : ι → Pc K V) (i : ι)
    (next : Pc K V) :
    ∑ j, f (Function.update pc i next j) + f (pc i) = ∑ j, f (pc j) + f next := by
  have hothers : ∑ j ∈ Finset.univ.erase i, f (Function.update pc i next j) =
      ∑ j ∈ Finset.univ.erase i, f (pc j) := by
    refine Finset.sum_congr rfl fun j hj => ?_
    rw [Function.update_of_ne (Finset.ne_of_mem_erase hj)]
  rw [← Finset.add_sum_erase _ _ (Finset.mem_univ i), hothers, Function.update_self,
    ← Finset.add_sum_erase _ (fun j => f (pc j)) (Finset.mem_univ i)]
  abel

/-- The invariant of all interleavings. -/
structure System.Inv (sizeOf : K → V → Int) (M : Nat) (maxSize : Int) (s : System ι K V) : Prop where
  bound : s.cache.maxSize = maxSize
  consistent : Consistent sizeOf s.cache
  sound : ∀ i, (s.pc i).Sound
  size : s.cache.size ≤ maxSize + M * (∑ i, (s.pc i).trims maxSize : Nat)

omit [DecidableEq ι] [DecidableEq K] in
theorem inv_initial (hmax : 0 < maxSize) :
    System.Inv sizeOf M maxSize (System.initial ι maxSize : System ι K V) where
  bound := rfl
  consistent := ⟨List.nodup_nil, rfl⟩
  sound _ := trivial
  size := by
    show 0 ≤ maxSize + M * (∑ i : ι, (Pc.returned none : Pc K V).trims maxSize : Nat)
    positivity

omit [DecidableEq K] in
theorem Call.start_sound (c : Call K V) : c.start.Sound := by
  cases c <;> trivial

omit [DecidableEq K] in
theorem Pc.trims_of_ended {pc : Pc K V} (h : pc.ended = true) : pc.trims maxSize = 0 := by
  cases pc <;> first | rfl | cases h

/-- The block that a thread runs next, from a state that meets the invariant. -/
theorem System.Inv.advances {s : System ι K V} (h : s.Inv sizeOf M maxSize) (hmax : 0 < maxSize)
    (hsize : ∀ k v, 0 ≤ sizeOf k v ∧ sizeOf k v ≤ M)
    (hroom : maxSize + M * Fintype.card ι < 2 ^ 31) (i : ι) (created : Option V) :
    Advances sizeOf M (s.pc i) s.cache (advance sizeOf created (s.pc i) s.cache) := by
  have hcount : ∑ j, (s.pc j).trims maxSize + 1 ≤ Fintype.card ι + (s.pc i).trims maxSize := by
    rw [← Finset.add_sum_erase _ _ (Finset.mem_univ i)]
    have hothers : ∑ j ∈ Finset.univ.erase i, (s.pc j).trims maxSize ≤
        (Finset.univ.erase i).card • 1 :=
      Finset.sum_le_card_nsmul _ _ _ fun j _ => (s.pc j).trims_le maxSize
    rw [Finset.card_erase_of_mem (Finset.mem_univ i), Finset.card_univ] at hothers
    have hpos : 0 < Fintype.card ι := Fintype.card_pos_iff.mpr ⟨i⟩
    simp only [smul_eq_mul, mul_one] at hothers
    omega
  have hM : (0 : Int) ≤ M := Int.natCast_nonneg M
  refine Cache.advances h.consistent hsize hM (by rw [h.bound]; exact hmax) (h.sound i) ?_ created
  rw [h.bound]
  -- the calls that have yet to trim, and this one, are no more than the threads
  have hcalls : (M : Int) * ((∑ j, (s.pc j).trims maxSize : Nat) + (1 - (s.pc i).trims maxSize : Int)) ≤
      M * Fintype.card ι := Int.mul_le_mul_of_nonneg_left (by omega) hM
  have hsize' := h.size
  rw [mul_add] at hcalls
  omega

theorem inv_step (hmax : 0 < maxSize) (hsize : ∀ k v, 0 ≤ sizeOf k v ∧ sizeOf k v ≤ M)
    (hroom : maxSize + M * Fintype.card ι < 2 ^ 31) {s : System ι K V}
    (h : s.Inv sizeOf M maxSize) (e : Event ι K V) : (s.step sizeOf e).Inv sizeOf M maxSize := by
  have hold := h.size
  cases e with
  | call i c =>
    by_cases hended : (s.pc i).ended
    · rw [System.step_call hended]
      refine ⟨h.bound, h.consistent, fun j => ?_, ?_⟩
      · by_cases hj : j = i
        · subst hj
          simpa using c.start_sound
        · simpa [hj] using h.sound j
      · have hsum := sum_update (fun pc => pc.trims maxSize) s.pc i c.start
        rw [Pc.trims_of_ended hended, add_zero] at hsum
        have hmore : (0 : Int) ≤ M * (c.start.trims maxSize : Nat) := by positivity
        show s.cache.size ≤
          maxSize + M * (∑ j, (Function.update s.pc i c.start j).trims maxSize : Nat)
        rw [hsum, Nat.cast_add, mul_add]
        omega
    · rw [System.step_busy hended]
      exact h
  | run i created =>
    have hadv := h.advances hmax hsize hroom i created
    rw [System.step_run]
    generalize advance sizeOf created (s.pc i) s.cache = r at hadv ⊢
    refine ⟨hadv.maxSize.trans h.bound, hadv.consistent, fun j => ?_, ?_⟩
    -- the other calls are where they were
    · by_cases hj : j = i
      · subst hj
        simpa using hadv.sound
      · simpa [hj] using h.sound j
    · have hsum := congrArg (fun n : Nat => (M : Int) * n)
        (sum_update (fun pc => pc.trims maxSize) s.pc i r.1)
      simp only [Nat.cast_add, mul_add] at hsum
      have hgrow := hadv.size
      rw [h.bound] at hgrow
      show r.2.size ≤ maxSize + M * (∑ j, (Function.update s.pc i r.1 j).trims maxSize : Nat)
      -- the cache has not grown, or the call owes one trim more
      rcases hgrow with hle | hle
      · have hmore : (0 : Int) ≤
            M * (∑ j, (Function.update s.pc i r.1 j).trims maxSize : Nat) := by positivity
        omega
      · omega

/-- **The invariant** holds in every state that the threads reach. -/
theorem inv_run (hmax : 0 < maxSize) (hsize : ∀ k v, 0 ≤ sizeOf k v ∧ sizeOf k v ≤ M)
    (hroom : maxSize + M * Fintype.card ι < 2 ^ 31) {s : System ι K V}
    (h : s.Inv sizeOf M maxSize) (events : List (Event ι K V)) :
    (run (System.step sizeOf) s events).Inv sizeOf M maxSize := by
  induction events generalizing s with
  | nil => exact h
  | cons e events ih => exact ih (inv_step hmax hsize hroom h e)

/-- How many calls are under way. -/
def System.underWay (s : System ι K V) : Nat :=
  (Finset.univ.filter fun i => (s.pc i).ended = false).card

/-- What the class promises of its entries and its size. -/
structure System.WithinBounds (sizeOf : K → V → Int) (M : Nat) (maxSize : Int)
    (s : System ι K V) : Prop where
  unthrown : ∀ i failure, s.pc i ≠ .threw failure
  distinct : (keys s.cache.map).Nodup
  size : s.cache.size = total sizeOf s.cache.map
  bound : s.cache.size ≤ maxSize + M * s.underWay

/-- **Any interleaving**: with sizes from 0 to `M`, no call ever throws, the sizes add up, and
the cache exceeds `maxSize` by at most `M` for each call under way. -/
theorem withinBounds (hmax : 0 < maxSize) (hsize : ∀ k v, 0 ≤ sizeOf k v ∧ sizeOf k v ≤ M)
    (hroom : maxSize + M * Fintype.card ι < 2 ^ 31) (events : List (Event ι K V)) :
    (run (System.step sizeOf) (System.initial ι maxSize) events).WithinBounds sizeOf M maxSize := by
  have h := inv_run hmax hsize hroom (inv_initial hmax) events
  generalize run (System.step sizeOf) (System.initial ι maxSize) events = s at h
  -- only a call that is under way can still owe a trim
  have htrims : ∑ i, (s.pc i).trims maxSize ≤ s.underWay := by
    rw [System.underWay, Finset.card_filter]
    refine Finset.sum_le_sum fun i _ => ?_
    split
    · exact (s.pc i).trims_le maxSize
    · rename_i hended
      rw [Pc.trims_of_ended (by simpa using hended)]
  constructor
  · intro i failure hthrew
    have hsound := h.sound i
    rw [hthrew] at hsound
    exact hsound
  · exact h.consistent.nodup
  · exact h.consistent.size
  · have hmul : (M : Int) * (∑ i, (s.pc i).trims maxSize : Nat) ≤ M * s.underWay :=
      Int.mul_le_mul_of_nonneg_left (by exact_mod_cast htrims) (Int.natCast_nonneg M)
    have hbound := h.size
    omega

/-- Two threads have put a value each before one of them trims a cache for one. -/
theorem withinBounds_twoPuts :
    (run (System.step fun _ _ => 1) (System.initial Bool 1)
      [.call false (.put 7 1), .call true (.put 8 2), .run false none,
        .run true none, .run true none]).WithinBounds (fun (_ _ : Nat) => 1) 1 1 :=
  withinBounds Int.one_pos (fun _ _ => ⟨Int.one_nonneg, le_refl _⟩) (by decide) _

omit [DecidableEq K] [Fintype ι] in
theorem Pc.releasing_of_ended {pc : Pc K V} (h : pc.ended = true) : pc.releasing = 0 := by
  cases pc <;> first | rfl | cases h

/-- What `f` finds in the calls that the events of a run go on with. -/
def System.logged (sizeOf : K → V → Int) (f : Pc K V → Multiset (K × V)) :
    System ι K V → List (Event ι K V) → Multiset (K × V)
  | _, [] => 0
  | s, .call i c :: events => logged sizeOf f (s.step sizeOf (.call i c)) events
  | s, .run i created :: events =>
    f (s.pc i) + logged sizeOf f (s.step sizeOf (.run i created)) events

/-- No value is lost: from any state that meets the invariant. -/
theorem accounts_of_inv (hmax : 0 < maxSize) (hsize : ∀ k v, 0 ≤ sizeOf k v ∧ sizeOf k v ≤ M)
    (hroom : maxSize + M * Fintype.card ι < 2 ^ 31) {s : System ι K V}
    (h : s.Inv sizeOf M maxSize) (events : List (Event ι K V)) :
    s.logged sizeOf Pc.entered events + bag s.cache.map + ∑ i, (s.pc i).releasing =
      bag (run (System.step sizeOf) s events).cache.map + s.logged sizeOf Pc.released events +
        ∑ i, ((run (System.step sizeOf) s events).pc i).releasing := by
  induction events generalizing s with
  | nil =>
    show 0 + bag s.cache.map + _ = bag s.cache.map + 0 + _
    rw [zero_add, add_zero]
    rfl
  | cons e events ih =>
    have ih := ih (inv_step hmax hsize hroom h e)
    cases e with
    | call i c =>
      rw [run_cons, System.logged, System.logged, ← ih]
      by_cases hended : (s.pc i).ended
      · have hstart : c.start.releasing = 0 := by
          cases c <;> rfl
        have hsum := sum_update Pc.releasing s.pc i c.start
        rw [Pc.releasing_of_ended hended, hstart, add_zero, add_zero] at hsum
        rw [System.step_call hended]
        show _ = _ + bag s.cache.map + ∑ j, (Function.update s.pc i c.start j).releasing
        rw [hsum]
      · rw [System.step_busy hended]
    | run i created =>
      have hbag := (h.advances hmax hsize hroom i created).bag
      have hsum := sum_update Pc.releasing s.pc i (advance sizeOf created (s.pc i) s.cache).1
      rw [run_cons, System.logged, System.logged]
      rw [System.step_run] at ih ⊢
      generalize advance sizeOf created (s.pc i) s.cache = r at hbag hsum ih
      generalize run (System.step sizeOf) _ events = final at ih ⊢
      generalize System.logged sizeOf Pc.entered _ events = later at ih ⊢
      generalize System.logged sizeOf Pc.released _ events = freed at ih ⊢
      -- both sides may gain what this call still had and what it has now to release
      refine add_right_cancel (b := (s.pc i).releasing + r.1.releasing) ?_
      calc (s.pc i).entered + later + bag s.cache.map + ∑ j, (s.pc j).releasing +
            ((s.pc i).releasing + r.1.releasing)
          = (s.pc i).entered + bag s.cache.map + (s.pc i).releasing +
            (∑ j, (s.pc j).releasing + r.1.releasing) + later := by abel
        _ = bag r.2.map + (s.pc i).released + r.1.releasing +
            (∑ j, (Function.update s.pc i r.1 j).releasing + (s.pc i).releasing) + later := by
          rw [hbag, hsum]
        _ = (later + bag r.2.map + ∑ j, (Function.update s.pc i r.1 j).releasing) +
            ((s.pc i).released + ((s.pc i).releasing + r.1.releasing)) := by abel
        _ = bag final.cache.map + ((s.pc i).released + freed) + ∑ j, (final.pc j).releasing +
            ((s.pc i).releasing + r.1.releasing) := by
          rw [ih]
          abel

/-- **Every value** that was put or created is, exactly once, either still in the cache, or has
been handed to `entryRemoved`, or is about to be. -/
theorem accountsForValues (hmax : 0 < maxSize)
    (hsize : ∀ k v, 0 ≤ sizeOf k v ∧ sizeOf k v ≤ M)
    (hroom : maxSize + M * Fintype.card ι < 2 ^ 31) (events : List (Event ι K V)) :
    (System.initial ι maxSize).logged sizeOf Pc.entered events =
      ↑(run (System.step sizeOf) (System.initial ι maxSize) events).cache.map +
        (System.initial ι maxSize).logged sizeOf Pc.released events +
        ∑ i, ((run (System.step sizeOf) (System.initial ι maxSize) events).pc i).releasing := by
  have h := accounts_of_inv hmax hsize hroom (inv_initial hmax) events
  have hempty : bag (System.initial ι maxSize : System ι K V).cache.map = 0 := rfl
  have hquiet : ∑ i, ((System.initial ι maxSize : System ι K V).pc i).releasing = 0 :=
    Finset.sum_eq_zero fun i _ => rfl
  rw [hempty, hquiet, add_zero, add_zero, bag_eq] at h
  exact h

theorem accountsForValues_twoPuts :
    (System.initial Bool 1).logged (fun (_ _ : Nat) => 1) Pc.entered
        [.call false (.put 7 1), .call true (.put 8 2), .run false none, .run true none, .run true none] =
      ↑(run (System.step fun _ _ => 1) (System.initial Bool 1)
          [.call false (.put 7 1), .call true (.put 8 2), .run false none, .run true none,
            .run true none]).cache.map +
        (System.initial Bool 1).logged (fun (_ _ : Nat) => 1) Pc.released
          [.call false (.put 7 1), .call true (.put 8 2), .run false none, .run true none, .run true none] +
        ∑ i, ((run (System.step fun (_ _ : Nat) => 1) (System.initial Bool 1)
          [.call false (.put 7 1), .call true (.put 8 2), .run false none, .run true none,
            .run true none]).pc i).releasing :=
  accountsForValues Int.one_pos (M := 1) (fun _ _ => ⟨Int.one_nonneg, le_refl _⟩) (by decide) _

end Runs

end Wson.Java.Cache
