import Wson.Effect.Run
import Wson.Java.RoundTrip

/-!
# `io/Pool.java`: calls on one thread

A thread keeps the buffer and the list of the last call behind weak references, and
`Wson.toWson` starts from them. When a call throws, its list is not cleared, and
since `requireArrayList` does not take the list out of the pool, the next call finds
what the failed one has left on it.

- `Thread.toWson`, `Thread.toWsonUtils`: one call, with what it leaves in the pool.
- `toWson_eq_fresh`: in every run whose failing calls started without a pooled list,
  the next call returns the same bytes as on a fresh thread.
-/

namespace Wson.Java

open Effect Wire

variable {O : Type}

/-- The thread's `PoolRef`, a reference that is null or cleared being `none`, and the static
cache of classes. -/
structure Thread (O : Type) where
  bufferRef : Option Bytes
  arrayListRef : Option (List O)
  specialClass : LruCache Utf16 Bool

namespace Thread

/-- A thread on which nothing has been written. -/
def fresh (specialClass : LruCache Utf16 Bool) : Thread O where
  bufferRef := none
  arrayListRef := none
  specialClass := specialClass

/-- `Pool.requireBuffer`. -/
def requireBuffer (bufferSize : Nat) (t : Thread O) : Bytes × Thread O :=
  match t.bufferRef with
  | some buffer => (buffer, { t with bufferRef := none })
  | none => (List.replicate bufferSize 0, t)

/-- `Pool.requireArrayList`: the reference that is reset is that of the buffer. -/
def requireArrayList (t : Thread O) : List O × Thread O :=
  match t.arrayListRef with
  | some list => (list, { t with bufferRef := none })
  | none => ([], t)

/-- `Pool.returnBuffer`. -/
def returnBuffer (buffer : Bytes) (maxCacheSize : Nat) (t : Thread O) : Thread O :=
  if buffer.length ≤ maxCacheSize then { t with bufferRef := some buffer } else t

/-- `Pool.returnList`: the list is cleared. -/
def returnList (t : Thread O) : Thread O :=
  { t with arrayListRef := some [] }

/-- The length of the buffer the next call starts with. -/
def capacity (t : Thread O) : Nat :=
  (t.requireBuffer 4096).1.length

/-- The builder the next call starts with. -/
def builder (t : Thread O) : Builder O where
  refs := (t.requireBuffer 4096).2.requireArrayList.1
  output := ⟨(t.requireBuffer 4096).1, 0⟩
  specialClass := t.specialClass

/-- What the next call relies on: the pooled list is empty, the pooled buffer not large. -/
structure Clean (t : Thread O) : Prop where
  list : ∀ refs, t.arrayListRef = some refs → refs = []
  buffer : ∀ buffer, t.bufferRef = some buffer → buffer.length ≤ 128 * 1024

theorem requireBuffer_bufferRef (t : Thread O) (n : Nat) :
    (t.requireBuffer n).2.bufferRef = none := by
  unfold requireBuffer
  cases h : t.bufferRef with
  | some buffer => rfl
  | none => exact h

theorem requireArrayList_bufferRef {t : Thread O} (h : t.bufferRef = none) :
    t.requireArrayList.2.bufferRef = none := by
  unfold requireArrayList
  cases t.arrayListRef with
  | some list => rfl
  | none => exact h

theorem requireArrayList_arrayListRef (t : Thread O) (n : Nat) :
    (t.requireBuffer n).2.requireArrayList.2.arrayListRef = t.arrayListRef := by
  have h : (t.requireBuffer n).2.arrayListRef = t.arrayListRef := by
    unfold requireBuffer
    cases t.bufferRef <;> rfl
  unfold requireArrayList
  cases hlist : (t.requireBuffer n).2.arrayListRef with
  | some list => exact hlist.symm.trans h
  | none => exact h

theorem builder_refs (t : Thread O) : t.builder.refs = t.arrayListRef.getD [] := by
  have h : (t.requireBuffer 4096).2.arrayListRef = t.arrayListRef := by
    unfold requireBuffer
    cases t.bufferRef <;> rfl
  unfold builder requireArrayList
  rw [h]
  cases t.arrayListRef <;> rfl

theorem Clean.refs {t : Thread O} (ht : Clean t) : t.builder.refs = [] := by
  rw [builder_refs]
  cases hlist : t.arrayListRef with
  | none => rfl
  | some refs => exact ht.list refs hlist

theorem builder_valid {t : Thread O}
    (ht : ∀ buffer, t.bufferRef = some buffer → buffer.length ≤ 128 * 1024) :
    t.builder.output.Valid where
  inside := Nat.zero_le _
  small := by
    show (t.requireBuffer 4096).1.length < 2 ^ 31
    unfold requireBuffer
    cases hbuffer : t.bufferRef with
    | some buffer =>
      have := ht buffer hbuffer
      simp only
      omega
    | none =>
      simp only [List.length_replicate]
      norm_num

theorem Clean.capacity_lt {t : Thread O} (ht : Clean t) : t.capacity < 2 ^ 31 :=
  (builder_valid ht.buffer).small

theorem clean_fresh (specialClass : LruCache Utf16 Bool) : Clean (fresh specialClass : Thread O) where
  list _ h := nomatch h
  buffer _ h := nomatch h

theorem fresh_capacity (specialClass : LruCache Utf16 Bool) :
    (fresh specialClass : Thread O).capacity = 4096 :=
  List.length_replicate

/-! ## Calls -/

variable [DecidableEq O]

/-- `Wson.toWson`. A call that throws does not close the builder: its buffer is lost, and a
list that came from the pool is still there with what is on it. -/
def toWson (P : Platform) (H : Heap O) (n : Nat) (object : O) :
    EStateM Throwable (Thread O) (Option Bytes) := fun t =>
  if H.isNull object then .ok none t
  else
    let pool := (t.requireBuffer 4096).2.requireArrayList.2
    match Builder.toWson P H n object t.builder with
    | .ok bytes b =>
      .ok (some bytes)
        (returnList (returnBuffer b.output.buffer (128 * 1024)
          { pool with specialClass := b.specialClass }))
    | .error err b =>
      .error err { pool with
        arrayListRef := pool.arrayListRef.map fun _ => b.refs
        specialClass := b.specialClass }

/-- `WsonUtils.toWson`: an exception becomes null. -/
def toWsonUtils (P : Platform) (H : Heap O) (n : Nat) (object : O) :
    EStateM Throwable (Thread O) (Option Bytes) :=
  tryCatch (toWson P H n object) fun err => if err.isException then pure none else throw err

/-- What can happen on a thread: a call, on objects as they are at that moment, or the
clearing of a weak reference. -/
inductive Event (O : Type) where
  | toWson (H : Heap O) (n : Nat) (object : O)
  | toWsonUtils (H : Heap O) (n : Nat) (object : O)
  | clearBuffer
  | clearList

def step (P : Platform) (t : Thread O) : Event O → Thread O
  | .toWson H n object => final (toWson P H n object) t
  | .toWsonUtils H n object => final (toWsonUtils P H n object) t
  | .clearBuffer => { t with bufferRef := none }
  | .clearList => { t with arrayListRef := none }

/-- A call that finds a list in the pool does not throw out of `Wson.toWson`. -/
def Harmless (P : Platform) (t : Thread O) : Event O → Prop
  | .toWson H n object | .toWsonUtils H n object =>
    t.arrayListRef = none ∨ ∃ r t', toWson P H n object t = .ok r t'
  | _ => True

section

variable {P : Platform}

/-- A call leaves the pool clean when it returns, and also when it throws without having
found a list there. -/
theorem clean_toWson {t : Thread O} (ht : Clean t) {H : Heap O} {n : Nat} {object : O}
    (h : t.arrayListRef = none ∨ ∃ r t', toWson P H n object t = .ok r t') :
    Clean (final (toWson P H n object) t) := by
  have hbuffer := requireArrayList_bufferRef (requireBuffer_bufferRef t 4096)
  have hlist := requireArrayList_arrayListRef t 4096
  unfold final
  unfold toWson at *
  by_cases hnull : H.isNull object
  · simpa only [if_pos hnull] using ht
  · simp only [if_neg hnull] at h ⊢
    cases hrun : Builder.toWson P H n object t.builder with
    | ok bytes b =>
      refine ⟨fun refs hrefs => (Option.some.inj hrefs).symm, fun buffer hb => ?_⟩
      simp only [returnList, returnBuffer] at hb
      split at hb
      · next hsize =>
        obtain rfl := Option.some.inj hb
        exact hsize
      · exact nomatch hbuffer.symm.trans hb
    | error err b =>
      rcases h with hnone | ⟨r, t', h⟩
      · refine ⟨fun refs hrefs => ?_, fun buffer hb => nomatch hbuffer.symm.trans hb⟩
        simp [hlist, hnone] at hrefs
      · rw [hrun] at h
        exact nomatch h

/-- Catching the exception changes nothing in the pool. -/
theorem final_toWsonUtils (t : Thread O) (H : Heap O) (n : Nat) (object : O) :
    final (toWsonUtils P H n object) t = final (toWson P H n object) t := by
  show final (EStateM.tryCatch (toWson P H n object) _) t = _
  unfold final EStateM.tryCatch
  cases toWson P H n object t with
  | ok r t' => rfl
  | error err t' =>
    simp only
    cases err.isException <;> rfl

theorem clean_step (t : Thread O) (e : Event O) (h : Harmless P t e) (ht : Clean t) :
    Clean (step P t e) := by
  cases e with
  | toWson H n object => exact clean_toWson ht h
  | toWsonUtils H n object =>
    rw [step, final_toWsonUtils]
    exact clean_toWson ht h
  | clearBuffer => exact ⟨ht.list, fun _ h => nomatch h⟩
  | clearList => exact ⟨fun _ h => (nomatch h), ht.buffer⟩

/-- **A call on a clean thread** returns the encoding of the value, unless the buffer cannot
grow as needed. -/
theorem toWson_clean {t : Thread O} (ht : Clean t) {H : Heap O} {v : JValue} {o : O} {n : Nat}
    (ho : Represents H v o) (hr : v.Regular) (hn : v.height + 1 < n) (r : Option Bytes) :
    (∃ t', toWson P H n o t = .ok r t') ↔
      if v.isNull then r = none
      else r = some ((v.written P).doc.encode P.endian) ∧
        Output.fits (v.written P).chunks t.capacity 0 := by
  obtain ⟨hiff, hspec⟩ := toWson_represents (P := P) ho hr hn (builder_valid ht.buffer)
    rfl ht.refs
  unfold toWson
  rw [isNull_represents ho]
  by_cases hnull : v.isNull
  · simp only [if_pos hnull]
    exact ⟨fun ⟨_, h⟩ => (EStateM.Result.ok.inj h).1.symm, fun h => ⟨t, by rw [h]⟩⟩
  · simp only [if_neg hnull]
    rw [show t.capacity = t.builder.output.buffer.length from rfl, ← hiff]
    constructor
    · rintro ⟨t', h⟩
      cases hrun : Builder.toWson P H n o t.builder with
      | ok bytes b =>
        rw [hrun] at h
        obtain ⟨rfl, -⟩ := EStateM.Result.ok.inj h
        exact ⟨by rw [(hspec bytes b hrun).1], bytes, b, rfl⟩
      | error err b =>
        rw [hrun] at h
        exact nomatch h
    · rintro ⟨rfl, bytes, b, hrun⟩
      rw [hrun, (hspec bytes b hrun).1]
      exact ⟨_, rfl⟩

end

/-- **Calls are independent of earlier ones**: on a thread on which no failing call found a
list in the pool, a tree is written as on a fresh thread, provided that the buffer in the
pool can grow as needed just when a new one can. -/
theorem toWson_eq_fresh {P : Platform} {specialClass specialClass' : LruCache Utf16 Bool}
    {events : List (Event O)} (hevents : Along (step P) (Harmless P) (fresh specialClass) events)
    {H : Heap O} {v : JValue} {o : O} {n : Nat} (ho : Represents H v o) (hr : v.Regular)
    (hn : v.height + 1 < n)
    (hfits : Output.fits (v.written P).chunks (run (step P) (fresh specialClass) events).capacity 0
      = Output.fits (v.written P).chunks 4096 0) (r : Option Bytes) :
    (∃ t', toWson P H n o (run (step P) (fresh specialClass) events) = .ok r t') ↔
      ∃ t', toWson P H n o (fresh specialClass') = .ok r t' := by
  have hclean := hevents.invariant clean_step (clean_fresh specialClass)
  -- on a clean thread the result depends on the capacity of the buffer only
  rw [toWson_clean hclean ho hr hn, toWson_clean (clean_fresh specialClass') ho hr hn,
    fresh_capacity, hfits, Nat.cast_ofNat]

/-! ## A map that is repaired after a failed call -/

/-- A map under construction: the object `2` has at most one key, with the number `1`. -/
def mapHeap (key : Option Key) : Heap (Fin 3) where
  null := 0
  view o := if o = 0 then .null else if o = 1 then .number (.integer 1) else
    .map (key.toList.map fun k => (k, 1))
  view_null := rfl
  view_map o entries h := by
    cases key <;> fin_cases o <;> cases h <;> simp
  ownEquals a b := a = b
  toJSON := id

theorem represents_mapHeap : Represents (mapHeap (some (.string [0x61])))
    (.map [([0x61], .number (.integer 1))]) 2 :=
  ⟨_, rfl, _, _, rfl, rfl, rfl⟩

/-- A call that returns, and a call that fails after the list has been collected. -/
def harmlessRun : List (Event (Fin 3)) :=
  [.toWson (mapHeap none) 9 2, .clearList, .toWsonUtils (mapHeap (some .null)) 9 2]

theorem along_harmlessRun (specialClass : LruCache Utf16 Bool) :
    Along (step Platform.plain) (Harmless Platform.plain) (fresh specialClass) harmlessRun :=
  ⟨.inl rfl, trivial, .inl rfl, trivial⟩

theorem toWson_eq_fresh_harmlessRun :
    (∃ t', toWson Platform.plain (mapHeap (some (.string [0x61]))) 9 2
        (run (step Platform.plain) (fresh ⟨[], 16, 0⟩) harmlessRun)
          = .ok (some [0x7B, 1, 2, 0x61, 0, 0x69, 2]) t') ↔
      ∃ t', toWson Platform.plain (mapHeap (some (.string [0x61]))) 9 2 (fresh ⟨[], 16, 0⟩)
        = .ok (some [0x7B, 1, 2, 0x61, 0, 0x69, 2]) t' := by
  have hclean := (along_harmlessRun ⟨[], 16, 0⟩).invariant clean_step (clean_fresh _)
  have hpooled := fits_written (P := Platform.plain)
    (v := .map [([0x61], .number (.integer 1))]) hclean.capacity_lt (by decide)
  have hnew := fits_written (P := Platform.plain)
    (v := .map [([0x61], .number (.integer 1))]) (show 4096 < 2 ^ 31 by norm_num) (by decide)
  exact toWson_eq_fresh (along_harmlessRun _) represents_mapHeap
    ⟨List.nodup_singleton _, trivial, trivial⟩ (by decide) (hpooled.trans hnew.symm) _

/-- First the empty map, then the map with a null key. -/
def failingRun : List (Event (Fin 3)) :=
  [.toWson (mapHeap none) 9 2, .toWson (mapHeap (some .null)) 9 2]

/-- A call that returns leaves an empty list in the pool. -/
theorem arrayListRef_of_ok {P : Platform} {H : Heap O} {n : Nat} {o : O}
    {t t' : Thread O} {bytes : Bytes} (h : toWson P H n o t = .ok (some bytes) t') :
    t'.arrayListRef = some [] := by
  unfold toWson at h
  by_cases hnull : H.isNull o
  · rw [if_pos hnull] at h
    exact nomatch h
  · rw [if_neg hnull] at h
    simp only at h
    split at h
    · obtain ⟨-, rfl⟩ := EStateM.Result.ok.inj h
      rfl
    · exact nomatch h

omit [DecidableEq O] in
/-- Writing an entry whose key is null throws. -/
theorem writeMap_null_key {P : Platform} {H : Heap O} {write : O → BuilderM O Unit} {value : O}
    (hvalue : ¬ H.isNull value) {b b' : Builder O} :
    Builder.writeMap P H write [(.null, value)] b ≠ .ok () b' := by
  intro h
  obtain ⟨_, b₁, -, h⟩ := Builder.bind_eq_ok.mp h
  obtain ⟨_, b₂, h, -⟩ := Builder.bind_eq_ok.mp h
  unfold Builder.writeEntry at h
  rw [if_neg hvalue] at h
  exact nomatch h

/-- A container whose body throws stays on the stack. -/
theorem writeContainer_error {H : Heap O} {n : Nat} (object : O) {body : BuilderM O Unit}
    (hgrows : Preserves Builder.Grows body) (hbody : ∀ b b', body b ≠ .ok () b') {b : Builder O}
    (hb : H.contains n b.refs object = some false) :
    ∃ err b', Builder.writeContainer H n object body b = .error err b' ∧
      b.refs ++ [object] <+: b'.refs := by
  rw [Builder.writeContainer_eq hb]
  show ∃ err b', EStateM.bind body _ _ = _ ∧ _
  unfold EStateM.bind
  cases h : body { b with refs := b.refs ++ [object] } with
  | ok u b' => exact absurd h (hbody _ _)
  | error err b' => exact ⟨err, b', rfl, (hgrows.of_error h).refs⟩

/-- The failing call loses the buffer and leaves the map on the pooled list. -/
theorem after_failingRun (specialClass : LruCache Utf16 Bool) :
    (run (step Platform.plain) (fresh specialClass) failingRun).bufferRef = none ∧
      ∃ rest, (run (step Platform.plain) (fresh specialClass) failingRun).arrayListRef
        = some (2 :: rest) := by
  have hclean := clean_fresh (O := Fin 3) specialClass
  obtain ⟨t₁, h₁⟩ : ∃ t₁, toWson Platform.plain (mapHeap none) 9 2 (fresh specialClass)
      = .ok (some (((JValue.map []).written Platform.plain).doc.encode .little)) t₁ := by
    refine (toWson_clean hclean (v := .map []) ⟨_, rfl, rfl⟩ ⟨List.nodup_nil, trivial⟩
      (by decide) _).mpr ?_
    rw [if_neg (by decide)]
    exact ⟨rfl, fits_written (by rw [fresh_capacity]; norm_num) (by decide)⟩
  have hlist := arrayListRef_of_ok h₁
  have hrun : run (step Platform.plain) (fresh specialClass) failingRun
      = final (toWson Platform.plain (mapHeap (some .null)) 9 2) t₁ := by
    rw [failingRun, run_cons, run_cons, run_nil, step, step, final_of_ok h₁]
  have hclean₁ : Clean t₁ := by
    rw [← final_of_ok h₁]
    exact clean_toWson hclean (.inl rfl)
  have hrefs := hclean₁.refs
  obtain ⟨err, b', hthrow, hshared⟩ := writeContainer_error (H := mapHeap (some .null)) (n := 8)
    2 (b := t₁.builder)
    (Builder.grows_writeMap Platform.plain _
      (Builder.grows_writeObject Platform.plain (mapHeap (some .null)) 8) [(.null, 1)])
    (fun _ _ => writeMap_null_key (H := mapHeap (some .null)) (by decide)) (by rw [hrefs]; rfl)
  rw [hrefs] at hshared
  obtain ⟨rest, hrest⟩ := hshared
  have hwrite : Builder.toWson Platform.plain (mapHeap (some .null)) 9 2 t₁.builder
      = .error err b' := by
    show EStateM.bind (Builder.writeObject Platform.plain (mapHeap (some .null)) 9 2) _ _ = _
    rw [Builder.writeObject, EStateM.bind]
    simp only [show (mapHeap (some .null)).view 2 = .map [(.null, 1)] from rfl, hthrow]
  have hcall : ∃ t₂, toWson Platform.plain (mapHeap (some .null)) 9 2 t₁ = .error err t₂ ∧
      t₂.bufferRef = none ∧ t₂.arrayListRef = some (2 :: rest) := by
    unfold toWson
    rw [if_neg (by decide)]
    simp only [hwrite]
    refine ⟨_, rfl, requireArrayList_bufferRef (requireBuffer_bufferRef t₁ 4096), ?_⟩
    rw [requireArrayList_arrayListRef, hlist, ← hrest]
    rfl
  obtain ⟨t₂, h₂, hbuffer₂, hlist₂⟩ := hcall
  rw [hrun, final_of_error h₂]
  exact ⟨hbuffer₂, rest, hlist₂⟩

/-- The same map with a string key: its reference is still on the list, so null is written. -/
theorem toWson_after_failingRun (specialClass : LruCache Utf16 Bool) {r : Option Bytes}
    {t' : Thread (Fin 3)} (h : toWson Platform.plain (mapHeap (some (.string [0x61]))) 9 2
      (run (step Platform.plain) (fresh specialClass) failingRun) = .ok r t') :
    r = some [Tag.null] := by
  obtain ⟨hbuffer, rest, hlist⟩ := after_failingRun specialClass
  generalize run (step Platform.plain) (fresh specialClass) failingRun = t at h hbuffer hlist
  have hrefs : t.builder.refs = 2 :: rest := by rw [builder_refs, hlist]; rfl
  have hunfold : (unfold Platform.plain (mapHeap (some (.string [0x61]))) t.builder.marked
      (mapHeap (some (.string [0x61]))).contains 9 t.builder.refs 2).map Written.chunks
        = some (Written.null (e := .little)).chunks := by
    rw [hrefs]
    rfl
  unfold toWson at h
  rw [if_neg (by decide)] at h
  cases hrun : Builder.toWson Platform.plain (mapHeap (some (.string [0x61]))) 9 2 t.builder with
  | error err b =>
    rw [hrun] at h
    exact nomatch h
  | ok bytes b =>
    rw [hrun] at h
    obtain ⟨rfl, -⟩ := EStateM.Result.ok.inj h
    obtain ⟨_, b₁, h₁, h₂⟩ := Builder.bind_eq_ok.mp hrun
    have hsame := (sameSpecial_writeObject (P := Platform.plain) (n := 9)
      represents_mapHeap).of_ok h₁
    obtain ⟨cs, hcs, he⟩ := (Builder.emits_writeObject _ 9 2).sound t.builder.specialIs_marked
      ⟨h₁, by rw [hsame]⟩
    obtain rfl := Option.some.inj (hunfold.symm.trans hcs)
    obtain ⟨hv, -, hwritten⟩ := Builder.written_of_emitted
      (builder_valid fun _ hb => nomatch hbuffer.symm.trans hb) he
    rw [toBytes_eq hv] at h₂
    obtain ⟨rfl, -⟩ := EStateM.Result.ok.inj h₂
    rw [hwritten]
    rfl

theorem not_toWson_eq_fresh :
    ¬ ((∃ t', toWson Platform.plain (mapHeap (some (.string [0x61]))) 9 2
          (run (step Platform.plain) (fresh ⟨[], 16, 0⟩) failingRun)
            = .ok (some [0x7B, 1, 2, 0x61, 0, 0x69, 2]) t') ↔
        ∃ t', toWson Platform.plain (mapHeap (some (.string [0x61]))) 9 2 (fresh ⟨[], 16, 0⟩)
            = .ok (some [0x7B, 1, 2, 0x61, 0, 0x69, 2]) t') := by
  rw [toWson_clean (clean_fresh _) represents_mapHeap
    ⟨List.nodup_singleton _, trivial, trivial⟩ (by decide), if_neg (by decide)]
  intro hiff
  obtain ⟨t', h⟩ := hiff.mpr ⟨rfl, fits_written (by rw [fresh_capacity]; norm_num) (by decide)⟩
  exact absurd (toWson_after_failingRun _ h) (by decide)

end Thread

end Wson.Java
