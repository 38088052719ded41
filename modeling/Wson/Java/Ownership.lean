import Wson.Effect.Run
import Mathlib.Data.List.Nodup

/-!
# `io/Pool.java`: who holds what

Calls on one thread in any order and nesting, with arrays and lists as objects that have
an identity. The state records who holds what, which the code does not know: an object
is held from the call that hands it out to the one that returns it.

- `requireBuffer` takes the array out of the pool, but does not look at its length;
  `requireArrayList` leaves the list in the pool (it resets the reference of the buffer),
  so that it is handed out again while it is held.
- `fresh_iff`: along every run in which holders return what they hold, handing out is
  like fresh allocation iff neither of the two shows.
-/

namespace Wson.Java

open Effect

variable {O : Type}

/-- A thread's `PoolRef`, a reference that is null or cleared being `none`; the objects that
there are; and, for each holder, what it holds. -/
structure Ledger (O : Type) where
  bufferRef : Option Nat
  arrayListRef : Option Nat
  length : Nat → Nat
  elements : Nat → List O
  next : Nat
  heldBuffers : List Nat
  heldLists : List Nat
  /-- Whether the pooled list has been handed out since it was returned. -/
  handedOut : Bool

/-- What happens on the thread. -/
inductive PoolEvent (O : Type) where
  | requireBuffer (bufferSize : Int)
  /-- The holder of an array goes on with a new one. -/
  | replaceBuffer (buffer length : Nat)
  | returnBuffer (buffer : Nat) (maxCacheSize : Int)
  | requireArrayList
  /-- The holder of a list changes what is on it. -/
  | changeList (list : Nat) (elements : List O)
  | returnList (list : Option Nat)
  /-- The garbage collector clears a reference. -/
  | clearBuffer
  | clearArrayList

namespace Ledger

def init : Ledger O where
  bufferRef := none
  arrayListRef := none
  length _ := 0
  elements _ := []
  next := 0
  heldBuffers := []
  heldLists := []
  handedOut := false

/-- A new array, and its holder. -/
def newBuffer (length : Nat) (t : Ledger O) : Ledger O :=
  { t with
    length := Function.update t.length t.next length
    next := t.next + 1
    heldBuffers := t.next :: t.heldBuffers }

/-- `Pool.requireBuffer`: the array that is handed out, none if its length is negative. -/
def requireBuffer (bufferSize : Int) (t : Ledger O) : Option Nat × Ledger O :=
  match t.bufferRef with
  | some buffer => (some buffer, { t with bufferRef := none, heldBuffers := buffer :: t.heldBuffers })
  | none => if bufferSize < 0 then (none, t) else (some t.next, t.newBuffer bufferSize.toNat)

/-- `Pool.returnBuffer`. -/
def returnBuffer (buffer : Nat) (maxCacheSize : Int) (t : Ledger O) : Ledger O :=
  let t := { t with heldBuffers := t.heldBuffers.erase buffer }
  if t.length buffer ≤ maxCacheSize then { t with bufferRef := some buffer } else t

/-- `Pool.requireArrayList`: the reference that is reset is that of the buffer. -/
def requireArrayList (t : Ledger O) : Nat × Ledger O :=
  match t.arrayListRef with
  | some list =>
    (list, { t with bufferRef := none, heldLists := list :: t.heldLists, handedOut := true })
  | none =>
    (t.next, { t with
      elements := Function.update t.elements t.next []
      next := t.next + 1
      heldLists := t.next :: t.heldLists })

/-- `Pool.returnList`: the list is cleared. -/
def returnList (list : Option Nat) (t : Ledger O) : Ledger O :=
  match list with
  | some list =>
    { t with
      elements := Function.update t.elements list []
      heldLists := t.heldLists.erase list
      arrayListRef := some list
      handedOut := false }
  | none => t

def step (t : Ledger O) : PoolEvent O → Ledger O
  | .requireBuffer bufferSize => (t.requireBuffer bufferSize).2
  | .replaceBuffer buffer length =>
    newBuffer length { t with heldBuffers := t.heldBuffers.erase buffer }
  | .returnBuffer buffer maxCacheSize => t.returnBuffer buffer maxCacheSize
  | .requireArrayList => t.requireArrayList.2
  | .changeList list elements => { t with elements := Function.update t.elements list elements }
  | .returnList list => t.returnList list
  | .clearBuffer => { t with bufferRef := none }
  | .clearArrayList => { t with arrayListRef := none }

/-- Holders only use and return what they hold. -/
def Disciplined (t : Ledger O) : PoolEvent O → Prop
  | .replaceBuffer buffer _ | .returnBuffer buffer _ => buffer ∈ t.heldBuffers
  | .changeList list _ | .returnList (some list) => list ∈ t.heldLists
  | _ => True

/-- What is handed out might as well be new: an array of the length that is asked for, an empty
list, which nobody else holds. -/
def LikeFresh (t : Ledger O) : PoolEvent O → Prop
  | .requireBuffer bufferSize => ∀ buffer, (t.requireBuffer bufferSize).1 = some buffer →
      bufferSize ≤ (t.requireBuffer bufferSize).2.length buffer ∧ buffer ∉ t.heldBuffers
  | .requireArrayList =>
      t.requireArrayList.2.elements t.requireArrayList.1 = [] ∧ t.requireArrayList.1 ∉ t.heldLists
  | _ => True

/-- The pooled array is long enough; the pooled list has not been handed out since it was
returned. -/
def Harmless (t : Ledger O) : PoolEvent O → Prop
  | .requireBuffer bufferSize => ∀ buffer, t.bufferRef = some buffer → bufferSize ≤ t.length buffer
  | .requireArrayList => t.arrayListRef = none ∨ t.handedOut = false
  | _ => True

/-! ## Ownership -/

/-- Nobody holds what is in the pool, and nothing has two holders; but a list that has been
handed out is in the pool and held. -/
structure Owned (t : Ledger O) : Prop where
  buffers_nodup : t.heldBuffers.Nodup
  buffers_lt : ∀ buffer ∈ t.heldBuffers, buffer < t.next
  bufferRef_lt : ∀ buffer, t.bufferRef = some buffer → buffer < t.next
  bufferRef_free : ∀ buffer, t.bufferRef = some buffer → buffer ∉ t.heldBuffers
  lists_nodup : t.heldLists.Nodup
  lists_lt : ∀ list ∈ t.heldLists, list < t.next
  arrayListRef_lt : ∀ list, t.arrayListRef = some list → list < t.next
  arrayListRef_free : ∀ list, t.arrayListRef = some list → t.handedOut = false →
    list ∉ t.heldLists ∧ t.elements list = []
  arrayListRef_held : ∀ list, t.arrayListRef = some list → t.handedOut = true → list ∈ t.heldLists

theorem owned_init : Owned (init : Ledger O) where
  buffers_nodup := List.nodup_nil
  buffers_lt _ h := nomatch h
  bufferRef_lt _ h := nomatch h
  bufferRef_free _ h := nomatch h
  lists_nodup := List.nodup_nil
  lists_lt _ h := nomatch h
  arrayListRef_lt _ h := nomatch h
  arrayListRef_free _ h := nomatch h
  arrayListRef_held _ h := nomatch h

theorem Owned.next_not_mem_buffers {t : Ledger O} (h : Owned t) : t.next ∉ t.heldBuffers :=
  fun hmem => Nat.lt_irrefl _ (h.buffers_lt _ hmem)

theorem Owned.next_not_mem_lists {t : Ledger O} (h : Owned t) : t.next ∉ t.heldLists :=
  fun hmem => Nat.lt_irrefl _ (h.lists_lt _ hmem)

/-- A holder lets go of an array. -/
theorem Owned.dropBuffer {t : Ledger O} (h : Owned t) (buffer : Nat) :
    Owned { t with heldBuffers := t.heldBuffers.erase buffer } :=
  { h with
    buffers_nodup := h.buffers_nodup.erase buffer
    buffers_lt := fun b hb => h.buffers_lt b (List.mem_of_mem_erase hb)
    bufferRef_free := fun b hb hmem => h.bufferRef_free b hb (List.mem_of_mem_erase hmem) }

theorem Owned.newBuffer {t : Ledger O} (h : Owned t) (length : Nat) : Owned (t.newBuffer length) :=
  { h with
    buffers_nodup := List.nodup_cons.mpr ⟨h.next_not_mem_buffers, h.buffers_nodup⟩
    buffers_lt := by
      intro b hb
      obtain rfl | hb := List.mem_cons.mp hb
      · exact Nat.lt_succ_self _
      · exact Nat.lt_succ_of_lt (h.buffers_lt b hb)
    bufferRef_lt := fun b hb => Nat.lt_succ_of_lt (h.bufferRef_lt b hb)
    bufferRef_free := by
      intro b hb hmem
      obtain rfl | hmem := List.mem_cons.mp hmem
      · exact Nat.lt_irrefl _ (h.bufferRef_lt _ hb)
      · exact h.bufferRef_free b hb hmem
    lists_lt := fun l hl => Nat.lt_succ_of_lt (h.lists_lt l hl)
    arrayListRef_lt := fun l hl => Nat.lt_succ_of_lt (h.arrayListRef_lt l hl) }

theorem Owned.clearBuffer {t : Ledger O} (h : Owned t) : Owned { t with bufferRef := none } :=
  { h with
    bufferRef_lt := fun _ hb => nomatch hb
    bufferRef_free := fun _ hb => nomatch hb }

theorem Owned.clearArrayList {t : Ledger O} (h : Owned t) : Owned { t with arrayListRef := none } :=
  { h with
    arrayListRef_lt := fun _ hl => nomatch hl
    arrayListRef_free := fun _ hl => nomatch hl
    arrayListRef_held := fun _ hl => nomatch hl }

theorem Owned.requireBuffer {t : Ledger O} (h : Owned t) (bufferSize : Int) :
    Owned (t.requireBuffer bufferSize).2 := by
  unfold Ledger.requireBuffer
  cases href : t.bufferRef with
  | some buffer =>
    refine { h.clearBuffer with
      buffers_nodup := List.nodup_cons.mpr ⟨h.bufferRef_free buffer href, h.buffers_nodup⟩
      buffers_lt := ?_
      bufferRef_free := fun _ hb => nomatch hb }
    intro b hb
    obtain rfl | hb := List.mem_cons.mp hb
    · exact h.bufferRef_lt b href
    · exact h.buffers_lt b hb
  | none =>
    simp only
    split
    · exact h
    · exact h.newBuffer _

theorem Owned.returnBuffer {t : Ledger O} (h : Owned t) {buffer : Nat} (hbuffer : buffer ∈ t.heldBuffers)
    (maxCacheSize : Int) : Owned (t.returnBuffer buffer maxCacheSize) := by
  have hdropped := h.dropBuffer buffer
  unfold Ledger.returnBuffer
  simp only
  split
  · refine { hdropped with
      bufferRef_lt := ?_
      bufferRef_free := ?_ }
    · rintro _ ⟨⟩
      exact h.buffers_lt buffer hbuffer
    · rintro _ ⟨⟩
      exact h.buffers_nodup.not_mem_erase
  · exact hdropped

/-- A list that is handed out from the pool stays there, so the step keeps the invariant only
because the list has not been handed out before. -/
theorem Owned.requireArrayList {t : Ledger O} (h : Owned t)
    (hharmless : t.arrayListRef = none ∨ t.handedOut = false) : Owned t.requireArrayList.2 := by
  unfold Ledger.requireArrayList
  cases href : t.arrayListRef with
  | some list =>
    have hfree : t.handedOut = false := by
      obtain hnone | hfree := hharmless
      · exact nomatch href.symm.trans hnone
      · exact hfree
    refine { h.clearBuffer with
      lists_nodup := List.nodup_cons.mpr ⟨(h.arrayListRef_free list href hfree).1, h.lists_nodup⟩
      lists_lt := ?_
      arrayListRef_lt := ?_
      arrayListRef_free := fun _ _ hfalse => nomatch hfalse
      arrayListRef_held := ?_ }
    · intro l hl
      obtain rfl | hl := List.mem_cons.mp hl
      · exact h.arrayListRef_lt l href
      · exact h.lists_lt l hl
    · rintro _ ⟨⟩
      exact h.arrayListRef_lt list href
    · rintro _ ⟨⟩ _
      exact List.mem_cons_self
  | none =>
    refine { h with
      buffers_lt := fun b hb => Nat.lt_succ_of_lt (h.buffers_lt b hb)
      bufferRef_lt := fun b hb => Nat.lt_succ_of_lt (h.bufferRef_lt b hb)
      lists_nodup := List.nodup_cons.mpr ⟨h.next_not_mem_lists, h.lists_nodup⟩
      lists_lt := ?_
      arrayListRef_lt := fun _ hl => nomatch hl
      arrayListRef_free := fun _ hl => nomatch hl
      arrayListRef_held := fun _ hl => nomatch hl }
    intro l hl
    obtain rfl | hl := List.mem_cons.mp hl
    · exact Nat.lt_succ_self _
    · exact Nat.lt_succ_of_lt (h.lists_lt l hl)

theorem Owned.changeList {t : Ledger O} (h : Owned t) {list : Nat} (hlist : list ∈ t.heldLists)
    (elements : List O) : Owned { t with elements := Function.update t.elements list elements } := by
  refine { h with arrayListRef_free := fun l hl hfree => ?_ }
  obtain ⟨hnot, hempty⟩ := h.arrayListRef_free l hl hfree
  have hne : l ≠ list := by
    rintro rfl
    exact hnot hlist
  refine ⟨hnot, ?_⟩
  show Function.update t.elements list elements l = []
  rw [Function.update_of_ne hne, hempty]

theorem Owned.returnList {t : Ledger O} (h : Owned t) {list : Nat} (hlist : list ∈ t.heldLists) :
    Owned (t.returnList (some list)) := by
  unfold Ledger.returnList
  refine { h with
    lists_nodup := h.lists_nodup.erase list
    lists_lt := fun l hl => h.lists_lt l (List.mem_of_mem_erase hl)
    arrayListRef_lt := ?_
    arrayListRef_free := ?_
    arrayListRef_held := fun _ _ hfalse => nomatch hfalse }
  · rintro _ ⟨⟩
    exact h.lists_lt list hlist
  · rintro _ ⟨⟩ _
    exact ⟨h.lists_nodup.not_mem_erase, Function.update_self _ _ _⟩

/-! ## Steps and runs -/

/-- **A harmless step** keeps everything owned. -/
theorem Owned.step {t : Ledger O} (h : Owned t) (event : PoolEvent O) (hd : Disciplined t event)
    (hharmless : Harmless t event) : Owned (t.step event) := by
  cases event with
  | requireBuffer bufferSize => exact h.requireBuffer bufferSize
  | replaceBuffer buffer length => exact (h.dropBuffer buffer).newBuffer length
  | returnBuffer buffer maxCacheSize => exact h.returnBuffer hd maxCacheSize
  | requireArrayList => exact h.requireArrayList hharmless
  | changeList list elements => exact h.changeList hd elements
  | returnList list =>
    cases list with
    | some list => exact h.returnList hd
    | none => exact h
  | clearBuffer => exact h.clearBuffer
  | clearArrayList => exact h.clearArrayList

/-- Where everything is owned, the two faults are the only ones. -/
theorem Owned.likeFresh_iff {t : Ledger O} (h : Owned t) (event : PoolEvent O) :
    LikeFresh t event ↔ Harmless t event := by
  cases event with
  | requireBuffer bufferSize =>
    unfold LikeFresh Harmless Ledger.requireBuffer
    cases href : t.bufferRef with
    | some buffer =>
      constructor
      · rintro hfresh _ ⟨⟩
        exact (hfresh buffer rfl).1
      · rintro hlong _ ⟨⟩
        exact ⟨hlong buffer rfl, h.bufferRef_free buffer href⟩
    | none =>
      refine iff_of_true ?_ fun _ hb => nomatch hb
      by_cases hneg : bufferSize < 0
      · simp only [if_pos hneg]
        exact fun _ hb => nomatch hb
      · simp only [if_neg hneg]
        rintro _ ⟨⟩
        refine ⟨?_, h.next_not_mem_buffers⟩
        show bufferSize ≤ (Function.update t.length t.next bufferSize.toNat t.next : Nat)
        rw [Function.update_self]
        omega
  | requireArrayList =>
    unfold LikeFresh Harmless Ledger.requireArrayList
    cases href : t.arrayListRef with
    | some list =>
      cases hout : t.handedOut with
      | true =>
        refine iff_of_false (fun hfresh => hfresh.2 (h.arrayListRef_held list href hout)) ?_
        rintro (hnone | hfalse)
        · exact nomatch hnone
        · exact nomatch hfalse
      | false =>
        obtain ⟨hnot, hempty⟩ := h.arrayListRef_free list href hout
        exact iff_of_true ⟨hempty, hnot⟩ (.inr rfl)
    | none => exact iff_of_true ⟨Function.update_self _ _ _, h.next_not_mem_lists⟩ (.inl rfl)
  | replaceBuffer | returnBuffer | changeList | returnList | clearBuffer | clearArrayList => exact Iff.rfl

/-- **Every run** of disciplined holders: whatever is handed out is like new iff no array that is
too short and no list that has been handed out already is taken from the pool. -/
theorem fresh_iff {events : List (PoolEvent O)} (h : Along step Disciplined init events) :
    Along step LikeFresh init events ↔ Along step Harmless init events := by
  have hstep : ∀ (t : Ledger O) event, Disciplined t event → Harmless t event → Owned t →
      Owned (step t event) :=
    fun _ event hd hharmless howned => howned.step event hd hharmless
  have hiff : ∀ (t : Ledger O) event, Disciplined t event → Owned t →
      (LikeFresh t event ↔ Harmless t event) :=
    fun _ event _ howned => howned.likeFresh_iff event
  -- what is lent has one owner in every disciplined run
  exact h.iff_of_invariant hstep hiff owned_init

/-- A builder inside the call of another, behind a first one: it is given the list of the other
one. -/
def nestedRun : List (PoolEvent Nat) :=
  [.requireArrayList, .returnList (some 0), .requireArrayList, .changeList 0 [7], .requireArrayList]

theorem nestedRun_iff :
    Along step LikeFresh init nestedRun ↔ Along step Harmless init nestedRun := by
  refine fresh_iff ?_
  simp [nestedRun, Along, Disciplined, step, init, Ledger.requireArrayList, Ledger.returnList]

theorem not_fresh_nested :
    Along step Disciplined init nestedRun ∧ ¬ Along step LikeFresh init nestedRun := by
  refine ⟨by simp [nestedRun, Along, Disciplined, step, init, Ledger.requireArrayList, Ledger.returnList],
    ?_⟩
  simp [nestedRun, Along, LikeFresh, step, init, Ledger.requireArrayList, Ledger.returnList]

end Ledger

end Wson.Java
