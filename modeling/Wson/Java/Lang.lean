import Mathlib.Data.List.Nodup
import Wson.Wire.Word

/-!
# Java integers and throwables

`int` wraps a mathematical integer into the range of a Java `int`, and
`Throwable` lists what the modelled code and the library calls in it throw.
`Throwable.isException` separates what `catch (Exception e)` catches from errors.
-/

namespace Wson.Java

/-- The value of an `int` expression whose exact result is `x`. -/
def int (x : Int) : Int :=
  x.bmod (2 ^ 32)

theorem int_of_fits {x : Int} (h₁ : -2 ^ 31 ≤ x) (h₂ : x < 2 ^ 31) : int x = x := by
  unfold int
  rw [Int.bmod_def]
  split <;> omega

theorem int_range (x : Int) : -2 ^ 31 ≤ int x ∧ int x < 2 ^ 31 := by
  unfold int
  rw [Int.bmod_def]
  split <;> omega

inductive Throwable where
  | arrayIndexOutOfBounds
  | stringIndexOutOfBounds
  | negativeArraySize
  | illegalArgument
  | numberFormat
  | nullPointer
  | unsupportedOperation
  /-- A `RuntimeException`: an unknown type byte, or a getter that threw. -/
  | runtime
  /-- `StackOverflowError`, which is no `Exception`. -/
  | stackOverflow
  deriving DecidableEq, Repr

/-- `instanceof Exception`. -/
def Throwable.isException : Throwable → Bool
  | .stackOverflow => false
  | _ => true

/-! ## Maps that keep the order of insertion -/

section Maps

variable {K V : Type} [DecidableEq K]

/-- `map.put(key, value)`: a key that is there keeps its place. -/
def mapPut (key : K) (value : V) : List (K × V) → List (K × V)
  | [] => [(key, value)]
  | (k, v) :: entries =>
    if k = key then (k, value) :: entries else (k, v) :: mapPut key value entries

/-- The value `map.get(key)` finds. -/
def mapGet (key : K) (entries : List (K × V)) : Option V :=
  (entries.find? fun entry => entry.1 = key).map Prod.snd

theorem mem_of_mapGet {key : K} {value : V} {entries : List (K × V)}
    (h : mapGet key entries = some value) : (key, value) ∈ entries := by
  obtain ⟨⟨k, v⟩, hfind, rfl⟩ := Option.map_eq_some_iff.mp h
  obtain rfl : k = key := by simpa using List.find?_some hfind
  exact List.mem_of_find?_eq_some hfind

/-- Where no key stands twice, every entry is found. -/
theorem mapGet_of_mem {key : K} {value : V} {entries : List (K × V)}
    (hnodup : (entries.map Prod.fst).Nodup) (h : (key, value) ∈ entries) :
    mapGet key entries = some value := by
  cases hget : mapGet key entries with
  | none =>
    rw [mapGet, Option.map_eq_none_iff, List.find?_eq_none] at hget
    exact absurd (decide_eq_true rfl) (hget _ h)
  | some v =>
    have := List.inj_on_of_nodup_map hnodup (mem_of_mapGet hget) h rfl
    rw [(Prod.mk.inj this).2]

end Maps

end Wson.Java
