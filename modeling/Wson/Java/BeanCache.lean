import Wson.Java.Bean
import Wson.Java.LruCache

/-!
# `getBean` and `beanCache`

`getBean` looks its class up in `beanCache` under the name of the class, and computes and
puts the bean where it is not there. The cache is static, so that the threads of a program
share it; a `BeanSystem` is the cache with what each thread is doing in `getBean`.

`answersAsFresh`: as long as a name stands for one class, every thread gets what reflection
gives for its class, however the threads interleave.
-/

namespace Wson.Java.Cache

open Recency Effect Wire

/-! ## Values stay with their keys -/

section Within

variable {K V : Type} [DecidableEq K]

/-- Every entry is as `P` says. -/
def Holds (P : K → V → Prop) (l : List (K × V)) : Prop :=
  ∀ entry ∈ l, P entry.1 entry.2

/-- A call about `key`, all of whose values are as `P` says. -/
def Pc.Within (P : K → V → Prop) (key : K) : Pc K V → Prop
  | .get k | .create k | .remove k => k = key
  | .created k value | .put k value => k = key ∧ P key value
  | .trimToSize _ result => ∀ value, result = some value → P key value
  | .entryRemoved _ _ _ _ next => next.Within P key
  | .returned result => ∀ value, result = some value → P key value
  | .threw _ => True

variable {P : K → V → Prop} {sizeOf : K → V → Int}

theorem Holds.remove {l : List (K × V)} (h : Holds P l) (key : K) :
    Holds P (Recency.remove key l) :=
  fun entry hentry => h entry (List.mem_of_mem_filter hentry)

theorem Holds.touch {l : List (K × V)} (h : Holds P l) {key : K} {value : V} (hvalue : P key value) :
    Holds P (touch key value l) := by
  intro entry hentry
  rcases List.mem_append.mp hentry with hmem | hmem
  · exact h.remove key entry hmem
  · obtain rfl := List.mem_singleton.mp hmem
    exact hvalue

theorem Holds.lookup {l : List (K × V)} (h : Holds P l) {key : K} {value : V}
    (hfound : lookup key l = some value) : P key value :=
  h _ (mem_of_lookup hfound)

/-- What a block leaves: the values of the cache and those of the call. -/
def Leaves (P : K → V → Prop) (key : K) (r : Pc K V × LruCache K V) : Prop :=
  Holds P r.2.map ∧ r.1.Within P key

theorem leaves_get {c : LruCache K V} (h : Holds P c.map) (key : K) :
    Leaves P key (getBlock key c) := by
  unfold getBlock
  cases hfound : lookup key c.map with
  | none => exact ⟨h, rfl⟩
  | some mapValue =>
    have hvalue := h.lookup hfound
    exact ⟨h.touch hvalue, fun _ heq => Option.some.inj heq ▸ hvalue⟩

theorem leaves_created {c : LruCache K V} (h : Holds P c.map) {key : K} {value : V}
    (hvalue : P key value) : Leaves P key (createdBlock sizeOf key value c) := by
  unfold createdBlock
  cases hfound : lookup key c.map with
  | some mapValue =>
    have hmapValue := h.lookup hfound
    exact ⟨(h.touch hvalue).touch hmapValue, fun _ heq => Option.some.inj heq ▸ hmapValue⟩
  | none =>
    cases hsize : safeSizeOf sizeOf key value with
    | error failure => exact ⟨h.touch hvalue, trivial⟩
    | ok added => exact ⟨h.touch hvalue, fun _ heq => Option.some.inj heq ▸ hvalue⟩

theorem leaves_put {c : LruCache K V} (h : Holds P c.map) {key : K} {value : V}
    (hvalue : P key value) : Leaves P key (putBlock sizeOf key value c) := by
  unfold putBlock
  cases hsize : safeSizeOf sizeOf key value with
  | error failure => exact ⟨h, trivial⟩
  | ok added =>
    cases hfound : lookup key c.map with
    | none => exact ⟨h.touch hvalue, by simp [Pc.Within]⟩
    | some previous =>
      have hprevious := h.lookup hfound
      cases hsize' : safeSizeOf sizeOf key previous with
      | error failure =>
        simp only [hsize']
        exact ⟨h.touch hvalue, trivial⟩
      | ok taken =>
        simp only [hsize']
        exact ⟨h.touch hvalue, fun _ heq => Option.some.inj heq ▸ hprevious⟩

theorem leaves_remove {c : LruCache K V} (h : Holds P c.map) (key : K) :
    Leaves P key (removeBlock sizeOf key c) := by
  unfold removeBlock
  cases hfound : lookup key c.map with
  | none => exact ⟨h.remove key, by simp [Pc.Within]⟩
  | some previous =>
    have hprevious := h.lookup hfound
    cases hsize : safeSizeOf sizeOf key previous with
    | error failure =>
      simp only [hsize]
      exact ⟨h.remove key, trivial⟩
    | ok taken =>
      simp only [hsize]
      exact ⟨h.remove key, fun _ heq => Option.some.inj heq ▸ hprevious⟩

theorem leaves_trim {c : LruCache K V} (h : Holds P c.map) {key : K} (bound : Int)
    {result : Option V} (hresult : ∀ value, result = some value → P key value) :
    Leaves P key (trimBlock sizeOf bound result c) := by
  unfold trimBlock
  by_cases hbad : c.size < 0 ∨ (c.map = [] ∧ c.size ≠ 0)
  · rw [if_pos hbad]
    exact ⟨h, trivial⟩
  · rw [if_neg hbad]
    cases hmap : c.map with
    | nil => exact ⟨h, hresult⟩
    | cons entry rest =>
      obtain ⟨k, value⟩ := entry
      by_cases hle : c.size ≤ bound
      · simp only [if_pos hle]
        exact ⟨h, hresult⟩
      · simp only [if_neg hle, ← hmap]
        cases hsize : safeSizeOf sizeOf k value with
        | error failure => exact ⟨h.remove _, trivial⟩
        | ok taken => exact ⟨h.remove _, hresult⟩

variable (sizeOf) in
/-- **Every block** keeps the values of the cache and of its call. -/
theorem leaves_advance (created : Option V) {c : LruCache K V} (h : Holds P c.map) {key : K}
    {pc : Pc K V} (hpc : pc.Within P key)
    (hcreated : ∀ value, created = some value → P key value) :
    Leaves P key (advance sizeOf created pc c) := by
  cases pc with
  | get k =>
    obtain rfl : k = key := hpc
    exact leaves_get h k
  | create k =>
    obtain rfl : k = key := hpc
    cases created with
    | none => exact ⟨h, by simp [advance, Pc.Within]⟩
    | some value => exact ⟨h, rfl, hcreated value rfl⟩
  | created k value =>
    obtain ⟨rfl, hvalue⟩ := hpc
    exact leaves_created h hvalue
  | put k value =>
    obtain ⟨rfl, hvalue⟩ := hpc
    exact leaves_put h hvalue
  | remove k =>
    obtain rfl : k = key := hpc
    exact leaves_remove h k
  | trimToSize bound result => exact leaves_trim h bound hpc
  | entryRemoved evicted k oldValue newValue next => exact ⟨h, hpc⟩
  | returned result => exact ⟨h, hpc⟩
  | threw failure => exact ⟨h, trivial⟩

end Within

/-! ## Threads in `getBean` -/

/-- Where a thread stands in `getBean`; after the call it has the bean, or what was thrown. -/
inductive BeanPc where
  | looking (targetClass : JClass) (pc : Pc Utf16 ObjectBean)
  | computing (targetClass : JClass)
  | storing (targetClass : JClass) (bean : ObjectBean) (pc : Pc Utf16 ObjectBean)
  | answered (targetClass : JClass) (answer : Except Throwable ObjectBean)
  | failed (failure : Failure)

/-- A thread outside `getBean` calls it, or a thread goes on in it. -/
inductive BeanEvent (ι : Type) where
  | call (i : ι) (targetClass : JClass)
  | run (i : ι)

/-- `beanCache` and the threads; one that has not called `getBean` stands nowhere. -/
structure BeanSystem (ι : Type) where
  cache : LruCache Utf16 ObjectBean
  pc : ι → Option BeanPc

section GetBean

variable {ι : Type} [DecidableEq ι] (toLowerCase : Char16 → Char16)

/-- `beanCache.get(key)` goes on, or its result decides how `getBean` does. -/
def afterLooking (targetClass : JClass) : Pc Utf16 ObjectBean → BeanPc
  | .returned (some bean) => .answered targetClass (.ok bean)
  | .returned none => .computing targetClass
  | .threw failure => .failed failure
  | pc => .looking targetClass pc

def afterStoring (targetClass : JClass) (bean : ObjectBean) : Pc Utf16 ObjectBean → BeanPc
  | .returned _ => .answered targetClass (.ok bean)
  | .threw failure => .failed failure
  | pc => .storing targetClass bean pc

/-- The next block of `beanCache`, or the computation between two of its calls. -/
def advanceBean (c : LruCache Utf16 ObjectBean) : BeanPc → BeanPc × LruCache Utf16 ObjectBean
  | .looking targetClass pc =>
    (afterLooking targetClass (advance (fun _ _ => 1) none pc c).1,
      (advance (fun _ _ => 1) none pc c).2)
  | .computing targetClass =>
    match getBean toLowerCase targetClass with
    | .error err => (.answered targetClass (.error err), c)
    | .ok bean => (.storing targetClass bean (.put targetClass.name bean), c)
  | .storing targetClass bean pc =>
    (afterStoring targetClass bean (advance (fun _ _ => 1) none pc c).1,
      (advance (fun _ _ => 1) none pc c).2)
  | pc => (pc, c)

def BeanPc.ended : BeanPc → Bool
  | .answered _ _ => true
  | .failed _ => true
  | _ => false

def BeanSystem.step (s : BeanSystem ι) : BeanEvent ι → BeanSystem ι
  | .call i targetClass =>
    if (s.pc i).all BeanPc.ended then
      { s with pc := Function.update s.pc i (some (.looking targetClass (.get targetClass.name))) }
    else s
  | .run i =>
    match s.pc i with
    | none => s
    | some pc =>
      { cache := (advanceBean toLowerCase s.cache pc).2
        pc := Function.update s.pc i (some (advanceBean toLowerCase s.cache pc).1) }

theorem BeanSystem.step_run {s : BeanSystem ι} {i : ι} {pc : BeanPc} (h : s.pc i = some pc) :
    s.step toLowerCase (.run i) =
      { cache := (advanceBean toLowerCase s.cache pc).2
        pc := Function.update s.pc i (some (advanceBean toLowerCase s.cache pc).1) } := by
  simp only [BeanSystem.step, h]

def BeanSystem.initial (ι : Type) : BeanSystem ι where
  cache := .fresh 256
  pc _ := none

/-- The call of `beanCache` in which a thread is. -/
def BeanPc.call : Option BeanPc → Pc Utf16 ObjectBean
  | some (.looking _ pc) => pc
  | some (.storing _ _ pc) => pc
  | _ => .returned none

/-- The threads as `beanCache` sees them. -/
def BeanSystem.calls (s : BeanSystem ι) : System ι Utf16 ObjectBean where
  cache := s.cache
  pc i := BeanPc.call (s.pc i)

variable (classes : JClass → Prop)

/-- What may stand in `beanCache` under a name. -/
def IsBean (key : Utf16) (bean : ObjectBean) : Prop :=
  ∃ targetClass, classes targetClass ∧ targetClass.name = key ∧
    getBean toLowerCase targetClass = .ok bean

/-- What a thread knows in each place. -/
def BeanPc.Good : BeanPc → Prop
  | .looking targetClass pc =>
    classes targetClass ∧ pc.Within (IsBean toLowerCase classes) targetClass.name
  | .computing targetClass => classes targetClass
  | .storing targetClass bean pc =>
    getBean toLowerCase targetClass = .ok bean ∧
      pc.Within (IsBean toLowerCase classes) targetClass.name
  | .answered targetClass answer => answer = getBean toLowerCase targetClass
  | .failed _ => False

structure BeanSystem.Inv [Fintype ι] (s : BeanSystem ι) : Prop where
  calls : s.calls.Inv (fun _ _ => 1) 1 256
  entries : Holds (IsBean toLowerCase classes) s.cache.map
  good : ∀ i pc, s.pc i = some pc → pc.Good toLowerCase classes

variable {toLowerCase classes}

/-- A name stands for one class. -/
def NamesDiffer (classes : JClass → Prop) : Prop :=
  ∀ C C', classes C → classes C' → C.name = C'.name → C = C'

/-- The bean under the name of a class is the bean of the class. -/
theorem NamesDiffer.getBean_eq (h : NamesDiffer classes) {C : JClass} (hC : classes C)
    {bean : ObjectBean} (hbean : IsBean toLowerCase classes C.name bean) :
    getBean toLowerCase C = .ok bean := by
  obtain ⟨C', hC', hname, hbean⟩ := hbean
  rwa [h C C' hC hC' hname.symm]

theorem good_afterLooking (h : NamesDiffer classes) {C : JClass} (hC : classes C)
    {pc : Pc Utf16 ObjectBean} (hsound : pc.Sound)
    (hpc : pc.Within (IsBean toLowerCase classes) C.name) :
    (afterLooking C pc).Good toLowerCase classes := by
  cases pc with
  | returned result =>
    cases result with
    | none => exact hC
    | some bean => exact (h.getBean_eq hC (hpc bean rfl)).symm
  | threw failure => exact hsound
  | _ => exact ⟨hC, hpc⟩

omit [DecidableEq ι] in
theorem good_afterStoring {C : JClass} {bean : ObjectBean}
    (hbean : getBean toLowerCase C = .ok bean) {pc : Pc Utf16 ObjectBean} (hsound : pc.Sound)
    (hpc : pc.Within (IsBean toLowerCase classes) C.name) :
    (afterStoring C bean pc).Good toLowerCase classes := by
  cases pc with
  | returned result => exact hbean.symm
  | threw failure => exact hsound
  | _ => exact ⟨hbean, hpc⟩

/-- For the cache an ended call is like no call. -/
theorem call_afterLooking (C : JClass) {pc : Pc Utf16 ObjectBean} (hsound : pc.Sound)
    (maxSize : Int) : (BeanPc.call (some (afterLooking C pc))).Sound ∧
      (BeanPc.call (some (afterLooking C pc))).trims maxSize = pc.trims maxSize := by
  cases pc with
  | returned result => cases result <;> exact ⟨trivial, rfl⟩
  | threw failure => exact hsound.elim
  | _ => exact ⟨hsound, rfl⟩

theorem call_afterStoring (C : JClass) (bean : ObjectBean) {pc : Pc Utf16 ObjectBean}
    (hsound : pc.Sound) (maxSize : Int) : (BeanPc.call (some (afterStoring C bean pc))).Sound ∧
      (BeanPc.call (some (afterStoring C bean pc))).trims maxSize = pc.trims maxSize := by
  cases pc with
  | returned result => exact ⟨trivial, rfl⟩
  | threw failure => exact hsound.elim
  | _ => exact ⟨hsound, rfl⟩

section Runs

variable [Fintype ι]

omit [DecidableEq ι] in
/-- The invariant sees of a call only whether it throws and whether it trims. -/
theorem System.Inv.of_same {K V : Type} {sizeOf : K → V → Int} {M : Nat} {maxSize : Int}
    {s s' : System ι K V} (h : s.Inv sizeOf M maxSize) (hcache : s'.cache = s.cache)
    (hpc : ∀ i, (s'.pc i).Sound ∧ (s'.pc i).trims maxSize = (s.pc i).trims maxSize) :
    s'.Inv sizeOf M maxSize where
  bound := hcache ▸ h.bound
  consistent := hcache ▸ h.consistent
  sound i := (hpc i).1
  size := by
    rw [hcache, Finset.sum_congr rfl fun i _ => (hpc i).2]
    exact h.size

theorem inv_callRun (hroom : 256 + Fintype.card ι < 2 ^ 31) {s : BeanSystem ι}
    (h : s.calls.Inv (fun _ _ => 1) 1 256) (i : ι) :
    (s.calls.step (fun _ _ => 1) (.run i none)).Inv (fun _ _ => 1) 1 256 :=
  inv_step (by decide) (fun _ _ => ⟨Int.one_nonneg, le_refl _⟩) (by push_cast; omega) h (.run i none)

/-- A call of `beanCache` does not throw. -/
theorem sound_goesOn (hroom : 256 + Fintype.card ι < 2 ^ 31) {s : BeanSystem ι}
    (h : s.calls.Inv (fun _ _ => 1) 1 256) {i : ι} {pc : Pc Utf16 ObjectBean}
    (hpc : BeanPc.call (s.pc i) = pc) : (advance (fun _ _ => 1) none pc s.cache).1.Sound := by
  subst hpc
  have hsound := (inv_callRun hroom h i).sound i
  rw [System.step_run] at hsound
  simpa only [BeanSystem.calls, Function.update_self] using hsound

/-- A thread goes on with its call of `beanCache`, and in `getBean` accordingly. -/
theorem inv_goesOn (hroom : 256 + Fintype.card ι < 2 ^ 31) {s : BeanSystem ι}
    (h : s.calls.Inv (fun _ _ => 1) 1 256) {i : ι} {pc : Pc Utf16 ObjectBean}
    (hpc : BeanPc.call (s.pc i) = pc) {next : BeanPc}
    (hnext : (BeanPc.call (some next)).Sound ∧ (BeanPc.call (some next)).trims 256 =
      (advance (fun _ _ => 1) none pc s.cache).1.trims 256) :
    System.Inv (fun _ _ => 1) 1 256 (BeanSystem.calls
      { cache := (advance (fun _ _ => 1) none pc s.cache).2
        pc := Function.update s.pc i (some next) }) := by
  subst hpc
  have hrun := inv_callRun hroom h i
  refine hrun.of_same rfl fun j => ?_
  by_cases hj : j = i
  · subst hj
    rw [System.step_run]
    simp only [BeanSystem.calls, Function.update_self]
    exact hnext
  · have hsound := hrun.sound j
    rw [System.step_run] at hsound ⊢
    simp only [BeanSystem.calls, Function.update_of_ne hj] at hsound ⊢
    exact ⟨hsound, trivial⟩

omit [DecidableEq ι] in
/-- A thread goes on in `getBean` between two calls of `beanCache`. -/
theorem inv_between [DecidableEq ι] {s : BeanSystem ι} (h : s.calls.Inv (fun _ _ => 1) 1 256) {i : ι}
    {next : BeanPc} (hcall : (BeanPc.call (s.pc i)).trims 256 = 0)
    (hsound : (BeanPc.call (some next)).Sound) (htrims : (BeanPc.call (some next)).trims 256 = 0) :
    (BeanSystem.calls { s with pc := Function.update s.pc i (some next) }).Inv
      (fun _ _ => 1) 1 256 := by
  refine h.of_same rfl fun j => ?_
  by_cases hj : j = i
  · subst hj
    simp only [BeanSystem.calls, Function.update_self]
    exact ⟨hsound, htrims.trans hcall.symm⟩
  · simp only [BeanSystem.calls, Function.update_of_ne hj]
    exact ⟨h.sound j, trivial⟩

/-- Every event keeps the invariant, as long as a name stands for one class. -/
theorem beanInv_step (hnames : NamesDiffer classes) (hroom : 256 + Fintype.card ι < 2 ^ 31)
    {s : BeanSystem ι} (h : s.Inv toLowerCase classes) {e : BeanEvent ι}
    (he : ∀ i targetClass, e = .call i targetClass → classes targetClass) :
    (s.step toLowerCase e).Inv toLowerCase classes := by
  -- one thread's place changes, those of the others stay
  have hgood : ∀ {i : ι} {next : BeanPc}, next.Good toLowerCase classes →
      ∀ j pc, Function.update s.pc i (some next) j = some pc → pc.Good toLowerCase classes := by
    intro i next hnext j pc hpc
    by_cases hj : j = i
    · subst hj
      rw [Function.update_self] at hpc
      exact Option.some.inj hpc ▸ hnext
    · rw [Function.update_of_ne hj] at hpc
      exact h.good j pc hpc
  cases e with
  | call i targetClass =>
    have hclass := he i targetClass rfl
    by_cases hended : (s.pc i).all BeanPc.ended
    · have hstep : s.step toLowerCase (.call i targetClass) = { s with
          pc := Function.update s.pc i (some (.looking targetClass (.get targetClass.name))) } :=
        if_pos hended
      have hidle : (BeanPc.call (s.pc i)).trims 256 = 0 := by
        cases hpc : s.pc i with
        | none => rfl
        | some pc =>
          rw [hpc] at hended
          cases pc <;> first | rfl | cases hended
      rw [hstep]
      exact ⟨inv_between h.calls hidle trivial rfl, h.entries, hgood ⟨hclass, rfl⟩⟩
    · have hstep : s.step toLowerCase (.call i targetClass) = s := if_neg hended
      rw [hstep]
      exact h
  | run i =>
    cases hpc : s.pc i with
    | none =>
      have hstep : s.step toLowerCase (.run i) = s := by
        simp only [BeanSystem.step, hpc]
      rw [hstep]
      exact h
    | some pc =>
      have hknown := h.good i pc hpc
      have hcall : BeanPc.call (s.pc i) = BeanPc.call (some pc) := by
        rw [hpc]
      rw [BeanSystem.step_run toLowerCase hpc]
      cases pc with
      | looking targetClass pc =>
        obtain ⟨hclass, hwithin⟩ := hknown
        obtain ⟨hentries, hwithin'⟩ := leaves_advance (fun _ _ => 1) none
          h.entries hwithin (by simp)
        have hsound := sound_goesOn hroom h.calls hcall
        exact ⟨inv_goesOn hroom h.calls hcall (call_afterLooking targetClass hsound 256),
          hentries, hgood (good_afterLooking hnames hclass hsound hwithin')⟩
      | computing targetClass =>
        have hclass : classes targetClass := hknown
        have hidle : (BeanPc.call (s.pc i)).trims 256 = 0 := by
          rw [hcall]
          rfl
        cases hbean : getBean toLowerCase targetClass with
        | error err =>
          have hadvance : advanceBean toLowerCase s.cache (.computing targetClass) =
              (.answered targetClass (.error err), s.cache) := by
            simp only [advanceBean, hbean]
          rw [hadvance]
          refine ⟨inv_between h.calls hidle trivial rfl, h.entries, hgood ?_⟩
          exact hbean.symm
        | ok bean =>
          have hadvance : advanceBean toLowerCase s.cache (.computing targetClass) =
              (.storing targetClass bean (.put targetClass.name bean), s.cache) := by
            simp only [advanceBean, hbean]
          rw [hadvance]
          refine ⟨inv_between h.calls hidle trivial rfl, h.entries, hgood ?_⟩
          exact ⟨hbean, rfl, targetClass, hclass, rfl, hbean⟩
      | storing targetClass bean pc =>
        obtain ⟨hbean, hwithin⟩ := hknown
        obtain ⟨hentries, hwithin'⟩ := leaves_advance (fun _ _ => 1) none
          h.entries hwithin (by simp)
        have hsound := sound_goesOn hroom h.calls hcall
        exact ⟨inv_goesOn hroom h.calls hcall (call_afterStoring targetClass bean hsound 256),
          hentries, hgood (good_afterStoring hbean hsound hwithin')⟩
      | answered targetClass answer =>
        refine ⟨inv_between h.calls ?_ trivial rfl, h.entries, hgood hknown⟩
        rw [hcall]
        rfl
      | failed failure => exact hknown.elim

/-- **Every answer** of `getBean` is what reflection gives for the class, however the threads
interleave, and `beanCache` never throws. -/
theorem answersAsFresh (hnames : NamesDiffer classes) (hroom : 256 + Fintype.card ι < 2 ^ 31)
    {events : List (BeanEvent ι)}
    (hevents : ∀ i targetClass, .call i targetClass ∈ events → classes targetClass) (i : ι) :
    (∀ failure, (run (BeanSystem.step toLowerCase) (BeanSystem.initial ι) events).pc i ≠
      some (.failed failure)) ∧
    ∀ targetClass answer,
      (run (BeanSystem.step toLowerCase) (BeanSystem.initial ι) events).pc i =
        some (.answered targetClass answer) →
      answer = getBean toLowerCase targetClass := by
  have hinitial : (BeanSystem.initial ι).Inv toLowerCase classes := by
    refine ⟨inv_initial (by decide), ?_, ?_⟩
    · exact fun entry hentry => absurd hentry List.not_mem_nil
    · intro j pc hpc
      cases hpc
  have hrun : ∀ (events : List (BeanEvent ι)) (s : BeanSystem ι), s.Inv toLowerCase classes →
      (∀ i targetClass, .call i targetClass ∈ events → classes targetClass) →
      (run (BeanSystem.step toLowerCase) s events).Inv toLowerCase classes := by
    intro events
    induction events with
    | nil => exact fun s hs _ => hs
    | cons e events ih =>
      intro s hs hevents
      refine ih _ (beanInv_step hnames hroom hs fun i targetClass he => ?_) fun i targetClass he => ?_
      · exact hevents i targetClass (he ▸ List.mem_cons_self)
      · exact hevents i targetClass (List.mem_cons_of_mem _ he)
  have h := hrun events _ hinitial hevents
  constructor
  · intro failure hpc
    exact h.good i _ hpc
  · intro targetClass answer hpc
    exact h.good i _ hpc

/-- Two threads ask for the bean of the same class at once. -/
theorem answersAsFresh_twoThreads :
    let s := run (BeanSystem.step id) (BeanSystem.initial Bool)
      [.call false ⟨[0x43], [], []⟩, .call true ⟨[0x43], [], []⟩, .run false, .run true,
        .run false, .run true, .run true]
    (∀ failure, s.pc true ≠ some (.failed failure)) ∧
      ∀ targetClass answer, s.pc true = some (.answered targetClass answer) →
        answer = getBean id targetClass :=
  answersAsFresh
    (show NamesDiffer (fun C => C = ⟨[0x43], [], []⟩) from fun _ _ hC hC' _ => hC.trans hC'.symm)
    (by decide) (by simp) true

end Runs

end GetBean

end Wson.Java.Cache
