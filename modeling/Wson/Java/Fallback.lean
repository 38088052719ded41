import Wson.Java.RoundTrip

/-!
# The fallback for beans

When writing the properties of a bean throws, `writeAdapterObject` writes
`JSON.toJSON` of the bean instead. It neither takes back the bytes of the abandoned
attempt nor pops the containers it has pushed.

- `not_treeLike_of_enclosed`: an object that holds a bean equals no tree, so the
  containers around a bean do not cut what `JSON.toJSON` returns for it.
- `allOrNothing_iff`: the bytes and the stack are right after a fallback iff the
  attempt threw before it had written anything.
-/

namespace Wson.Java

open Effect Wire Builder

variable {O : Type} [DecidableEq O] {P : Platform} {H : Heap O}

/-! ## Objects that equal no tree -/

mutual

/-- Comparing a tree with any object ends. -/
theorem equals_ends : ∀ {u : JValue} {x : O} {n : Nat} (a : O), Represents H u x → u.height < n →
    ∃ r, H.equals n x a = some r
  | .null, _, _ + 1, a, hx, _ | .boolean _, _, _ + 1, a, hx, _ | .number _, _, _ + 1, a, hx, _
  | .string _, _, _ + 1, a, hx, _ => by
    rw [Heap.equals, show H.view _ = _ from hx]
    cases H.view a <;> exact ⟨_, rfl⟩
  | .list us, x, n + 1, a, ⟨xs, hx, hus⟩, hn => by
    rw [Heap.equals, hx]
    cases H.view a with
    | list ys =>
      simp only
      split
      · exact ⟨_, rfl⟩
      · exact equalsElements_ends hus (Nat.lt_of_succ_lt_succ hn) ys
    | _ => exact ⟨_, rfl⟩
  | .map es, x, n + 1, a, ⟨xs, hx, hes⟩, hn => by
    rw [Heap.equals, hx]
    cases H.view a with
    | map ys =>
      simp only
      split
      · exact ⟨_, rfl⟩
      · split
        · exact equalsEntries_ends hes (Nat.lt_of_succ_lt_succ hn) ys
        · exact ⟨_, rfl⟩
    | _ => exact ⟨_, rfl⟩

theorem equalsElements_ends : ∀ {us : List JValue} {xs : List O} {n : Nat},
    RepresentsItems H us xs → JValue.heightItems us < n →
      ∀ ys, ∃ r, Heap.equalsElements (H.equals n) xs ys = some r
  | [], _, _, h, _, ys => by
    rw [h]
    cases ys <;> exact ⟨_, rfl⟩
  | u :: us, _, n, ⟨x, xs, h, hu, hus⟩, hn, ys => by
    subst h
    rw [JValue.heightItems, Nat.max_lt] at hn
    cases ys with
    | nil => exact ⟨_, rfl⟩
    | cons y ys =>
      obtain ⟨r, hr⟩ := equals_ends y hu hn.1
      rw [Heap.equalsElements, hr]
      cases r with
      | true => exact equalsElements_ends hus hn.2 ys
      | false => exact ⟨_, rfl⟩

theorem equalsEntries_ends : ∀ {es : List (Utf16 × JValue)} {xs : List (Key × O)} {n : Nat},
    RepresentsEntries H es xs → JValue.heightEntries es < n →
      ∀ other, ∃ r, H.equalsEntries (H.equals n) other xs = some r
  | [], _, _, h, _, other => by
    rw [h]
    exact ⟨_, rfl⟩
  | (k, u) :: es, _, n, ⟨x, xs, h, hu, hes⟩, hn, other => by
    subst h
    rw [JValue.heightEntries, Nat.max_lt] at hn
    rw [Heap.equalsEntries]
    split
    · split
      · exact equalsEntries_ends hes hn.2 other
      · exact ⟨_, rfl⟩
    · obtain ⟨r, hr⟩ := equals_ends ((mapGet (.string k) other).getD H.null) hu hn.1
      rw [hr]
      cases r with
      | true => exact equalsEntries_ends hes hn.2 other
      | false => exact ⟨_, rfl⟩

end

/-- Some tree equals the object. -/
def TreeLike (H : Heap O) (a : O) : Prop :=
  ∃ u x n, Represents H u x ∧ u.Regular ∧ H.equals n x a = some true

/-- Trees equal themselves. -/
theorem equals_refl {u : JValue} {x : O} (hx : Represents H u x) (n : Nat) :
    H.equals (n + 1) x x = some true := by
  rw [Heap.equals]
  cases u with
  | list us =>
    obtain ⟨xs, hx, -⟩ := hx
    simp [hx]
  | map es =>
    obtain ⟨xs, hx, -⟩ := hx
    simp [hx]
  | null | boolean b | number m | string s =>
    rw [show H.view x = _ from hx]
    simp [Heap.isNull, show H.view x = _ from hx]

/-- The object `c` is written inside the container `a`, for some set of marked classes. -/
def Inside (H : Heap O) (c a : O) : Prop :=
  H.isContainer a ∧ ∃ special, c ∈ H.children special a

/-- A scalar equals no container. -/
theorem not_equals_container {u : JValue} {x a : O} {n : Nat} (hx : Represents H u x)
    (hu : u.height = 0) (ha : H.isContainer a) : H.equals n x a ≠ some true := by
  cases n with
  | zero => exact fun h => nomatch h
  | succ n =>
    rw [Heap.equals]
    unfold Heap.isContainer at ha
    cases u with
    | list us | map es => exact absurd hu (Nat.succ_ne_zero _)
    | null | boolean b | number m | string s =>
      rw [show H.view x = _ from hx]
      cases hview : H.view a <;> simp_all [Heap.isNull]

omit [DecidableEq O] in
theorem exists_of_equalsElements {eq : O → O → Option Bool} :
    ∀ {us : List JValue} {xs ys : List O}, RepresentsItems H us xs → JValue.RegularItems us →
      Heap.equalsElements eq xs ys = some true →
        ∀ y ∈ ys, ∃ u x, Represents H u x ∧ u.Regular ∧ eq x y = some true
  | [], _, [], _, _, _ => fun _ h => absurd h List.not_mem_nil
  | [], _, _ :: _, h, _, heq => by
    rw [h] at heq
    exact nomatch heq
  | _ :: _, _, [], ⟨_, _, h, _, _⟩, _, heq => by
    rw [h] at heq
    exact nomatch heq
  | u :: us, _, y :: ys, ⟨x, xs, h, hu, hus⟩, hr, heq => by
    subst h
    rw [Heap.equalsElements] at heq
    obtain ⟨b, hb, heq⟩ := Option.bind_eq_some_iff.mp heq
    cases b with
    | false => exact nomatch heq
    | true =>
      intro z hz
      rcases List.mem_cons.mp hz with rfl | hz
      · exact ⟨u, x, hu, hr.1, hb⟩
      · exact exists_of_equalsElements hus hr.2 heq z hz

/-- Only null equals null. -/
theorem not_equals_null {u : JValue} {x : O} {n : Nat} (hx : Represents H u x)
    (hu : ¬ H.isNull x) : H.equals n x H.null ≠ some true := by
  cases n with
  | zero => exact fun h => nomatch h
  | succ n =>
    rw [isNull_represents hx] at hu
    rw [Heap.equals, H.view_null]
    cases u with
    | null => exact absurd rfl hu
    | list us | map es =>
      obtain ⟨xs, hx, -⟩ := hx
      simp [hx]
    | boolean b | number m | string s =>
      rw [show H.view x = _ from hx]
      simp

/-- Every key of a map that equals another one has an entry there, and the values are equal
unless they are null. -/
theorem exists_of_equalsEntries {n : Nat} {other : List (Key × O)} :
    ∀ {es : List (Utf16 × JValue)} {xs : List (Key × O)}, RepresentsEntries H es xs →
      JValue.RegularEntries es → H.equalsEntries (H.equals n) other xs = some true →
        ∀ k ∈ es.map Prod.fst, ∃ y, mapGet (.string k) other = some y ∧
          (H.isNull y ∨ ∃ u x, Represents H u x ∧ u.Regular ∧ H.equals n x y = some true)
  | [], _, _, _, _ => fun _ h => absurd h List.not_mem_nil
  | (k, u) :: es, _, ⟨x, xs, h, hu, hes⟩, hr, heq => by
    subst h
    rw [Heap.equalsEntries] at heq
    intro k' hk'
    rw [List.map_cons, List.mem_cons] at hk'
    split at heq
    · split at heq
      · next hany =>
        rcases hk' with rfl | hk'
        · obtain ⟨y, hy, hnull⟩ := (Option.any_eq_true _ _).mp hany
          exact ⟨y, hy, .inl hnull⟩
        · exact exists_of_equalsEntries hes hr.2 heq k' hk'
      · exact nomatch heq
    · next hnull =>
      obtain ⟨b, hb, heq⟩ := Option.bind_eq_some_iff.mp heq
      cases b with
      | false => exact nomatch heq
      | true =>
        rcases hk' with rfl | hk'
        · cases hget : mapGet (.string k') other with
          | none =>
            rw [hget] at hb
            exact absurd hb (not_equals_null hu hnull)
          | some y =>
            rw [hget] at hb
            exact ⟨y, rfl, .inr ⟨u, x, hu, hr.1, hb⟩⟩
        · exact exists_of_equalsEntries hes hr.2 heq k' hk'

omit [DecidableEq O] in
/-- The keys of a represented map. -/
theorem keys_represents : ∀ {es : List (Utf16 × JValue)} {xs : List (Key × O)},
    RepresentsEntries H es xs → xs.map Prod.fst = es.map fun e => Key.string e.1
  | [], _, h => by rw [h]; rfl
  | (k, u) :: es, _, ⟨x, xs, h, _, hes⟩ => by
    rw [h, List.map_cons, List.map_cons, keys_represents hes]

/-- What stands in a container that equals a tree equals a tree too. -/
theorem TreeLike.inside {a c : O} (ha : TreeLike H a) (hc : Inside H c a) : TreeLike H c := by
  obtain ⟨u, x, n, hx, hu, heq⟩ := ha
  obtain ⟨hcontainer, special, hc⟩ := hc
  cases n with
  | zero => exact nomatch heq
  | succ n =>
    cases u with
    | null | boolean b | number m | string s =>
      exact absurd heq (not_equals_container hx rfl hcontainer)
    | list us =>
      obtain ⟨xs, hview, hus⟩ := hx
      rw [Heap.equals, hview] at heq
      cases ha : H.view a with
      | list ys =>
        have hc : c ∈ ys := by rwa [Heap.children, ha] at hc
        simp only [ha] at heq
        split at heq
        · next hxa =>
          obtain rfl : xs = ys := View.list.inj (hview.symm.trans (hxa ▸ ha))
          obtain ⟨w, hw, hwc⟩ := exists_of_mem_items hus c hc
          exact ⟨w, c, 1, hwc, JValue.regular_of_mem_items hu w hw, equals_refl hwc 0⟩
        · obtain ⟨w, y, hy, hw, heq⟩ := exists_of_equalsElements hus hu heq c hc
          exact ⟨w, y, n, hy, hw, heq⟩
      | _ =>
        rw [ha] at heq
        exact nomatch heq
    | map es =>
      obtain ⟨xs, hview, hes⟩ := hx
      rw [Heap.equals, hview] at heq
      cases ha : H.view a with
      | map ys =>
        have hc : c ∈ H.writtenValues ys := by rwa [Heap.children, ha] at hc
        obtain ⟨hc, hnull⟩ := List.mem_filter.mp hc
        obtain ⟨⟨key, c⟩, hmem, rfl⟩ := List.mem_map.mp hc
        simp only [ha] at heq
        split at heq
        · next hxa =>
          obtain rfl : xs = ys := View.map.inj (hview.symm.trans (hxa ▸ ha))
          obtain ⟨e, he, hec⟩ := exists_of_mem_entries hes _ hmem
          exact ⟨e.2, c, 1, hec, JValue.regular_of_mem_entries hu.2 e he, equals_refl hec 0⟩
        · split at heq
          · next hlen =>
            have hys := H.view_map a ys ha
            have hfound := exists_of_equalsEntries hes hu.2 heq
            -- as many keys, so every key of `a` is one of the tree's
            have hkeys : key ∈ xs.map Prod.fst := by
              have hnodup : (xs.map Prod.fst).Nodup := H.view_map x xs hview
              have hsub : xs.map Prod.fst ⊆ ys.map Prod.fst := by
                rw [keys_represents hes]
                intro k hk
                obtain ⟨⟨k, v⟩, hv, rfl⟩ := List.mem_map.mp hk
                obtain ⟨y, hy, -⟩ := hfound k (List.mem_map.mpr ⟨_, hv, rfl⟩)
                exact List.mem_map.mpr ⟨_, mem_of_mapGet hy, rfl⟩
              exact ((hnodup.subperm hsub).perm_of_length_le (by simp [hlen])).mem_iff.mpr
                (List.mem_map.mpr ⟨_, hmem, rfl⟩)
            rw [keys_represents hes] at hkeys
            obtain ⟨⟨k, v⟩, hv, rfl⟩ := List.mem_map.mp hkeys
            obtain ⟨y, hy, hor⟩ := hfound k (List.mem_map.mpr ⟨_, hv, rfl⟩)
            obtain rfl := Option.some.inj ((mapGet_of_mem hys hmem).symm.trans hy)
            rcases hor with hnull' | ⟨w, z, hz, hw, heq⟩
            · simp [hnull'] at hnull
            · exact ⟨w, z, n, hz, hw, heq⟩
          · exact nomatch heq
      | _ =>
        rw [ha] at heq
        exact nomatch heq

theorem not_treeLike_bean {o : O} {key : Utf16}
    {getters : Except Throwable (List (Utf16 × Except Throwable O))}
    (ho : H.view o = .bean key getters) : ¬ TreeLike H o := by
  rintro ⟨u, x, n, hx, -, heq⟩
  cases n with
  | zero => exact nomatch heq
  | succ n =>
    rw [Heap.equals, ho] at heq
    cases u with
    | list us | map es =>
      obtain ⟨xs, hx, -⟩ := hx
      simp [hx] at heq
    | null | boolean b | number m | string s =>
      rw [show H.view x = _ from hx] at heq
      simp [Heap.isNull, ho] at heq

/-- The objects of the path are containers, each written inside the one before, and the object
inside the last. -/
inductive Enclosed (H : Heap O) : List O → O → Prop where
  | root (o : O) : Enclosed H [] o
  | inside {path : List O} {a c : O} : Enclosed H path a → Inside H c a →
      Enclosed H (path ++ [a]) c

theorem not_treeLike_of_enclosed {path : List O} {o : O} (h : Enclosed H path o)
    (ho : ¬ TreeLike H o) : ∀ a ∈ path, ¬ TreeLike H a := by
  induction h with
  | root => exact fun _ h => absurd h List.not_mem_nil
  | inside _ hc ih =>
    have ha := fun ha : TreeLike H _ => ho (ha.inside hc)
    intro x hx
    rcases List.mem_append.mp hx with hx | hx
    · exact ih ha x hx
    · obtain rfl := List.mem_singleton.mp hx
      exact ha

theorem unmatched_of_not_treeLike {path : List O} (h : ∀ a ∈ path, ¬ TreeLike H a) (k : Nat) :
    Unmatched H k path := by
  intro a ha u x n hx hu _ hn
  obtain ⟨r, hr⟩ := equals_ends a hx hn
  cases r with
  | true => exact absurd ⟨u, x, n, hx, hu, hr⟩ (h a ha)
  | false => exact hr

/-- Neither a bean nor the containers around it equal a tree. -/
theorem unmatched_bean {path : List O} {o : O} {key : Utf16} {k : Nat}
    {getters : Except Throwable (List (Utf16 × Except Throwable O))}
    (ho : H.view o = .bean key getters) (hpath : Enclosed H path o) :
    Unmatched H k (path ++ [o]) := by
  refine unmatched_of_not_treeLike (fun a ha => ?_) k
  rcases List.mem_append.mp ha with ha | ha
  · exact not_treeLike_of_enclosed hpath (not_treeLike_bean ho) a ha
  · obtain rfl := List.mem_singleton.mp ha
    exact not_treeLike_bean ho

/-! ## Abandoned attempts -/

/-- The attempt to write the properties of a bean. -/
def attempt (P : Platform) (H : Heap O) (n : Nat)
    (getters : Except Throwable (List (Utf16 × Except Throwable O))) : BuilderM O Unit := do
  writeMap P H (writeObject P H n) (← Builder.liftExcept (toMap H getters))

/-- A run of `writeObject` on a bean that returns although the attempt to write its properties
has thrown. -/
structure Abandoned (P : Platform) (H : Heap O) (n : Nat) (object : O) (b b' : Builder O)
    (key : Utf16) (getters : Except Throwable (List (Utf16 × Except Throwable O))) : Prop where
  view : H.view object = .bean key getters
  entered : H.contains n b.refs object = some false
  unmarked : b.marked key = false
  threw : ∀ b₁, attempt P H n getters { b with refs := b.refs ++ [object] } ≠ .ok () b₁
  returned : writeObject P H (n + 1) object b = .ok () b'

variable {n : Nat} {object : O} {b b' : Builder O} {key : Utf16}
  {getters : Except Throwable (List (Utf16 × Except Throwable O))}

/-- The run of the fallback: it starts in the state in which the attempt ended, with the class
marked. -/
theorem Abandoned.fallback (h : Abandoned P H n object b b' key getters) :
    ∃ err b₁ b₂, attempt P H n getters { b with refs := b.refs ++ [object] } = .error err b₁ ∧
      writeObject P H n (H.toJSON object)
        { b₁ with specialClass := b₁.specialClass.put key true } = .ok () b₂ ∧
      b' = { b₂ with refs := b₂.refs.dropLast } := by
  have hrun := h.returned
  rw [writeObject] at hrun
  simp only [h.view, writeContainer_eq h.entered] at hrun
  obtain ⟨_, b₂, hadapter, hpop⟩ := bind_eq_ok.mp hrun
  unfold writeAdapterObject at hadapter
  obtain ⟨s, b₀, hspecial, hadapter⟩ := bind_eq_ok.mp hadapter
  have hnot := isSpecial_of_unmarked (b := { b with refs := b.refs ++ [object] }) h.unmarked
  obtain ⟨rfl, rfl⟩ := EStateM.Result.ok.inj (hnot.symm.trans hspecial)
  have hadapter : EStateM.tryCatch (attempt P H n getters) _ _ = _ := hadapter
  unfold EStateM.tryCatch at hadapter
  cases hattempt : attempt P H n getters { b with refs := b.refs ++ [object] } with
  | ok u b₁ => exact absurd hattempt (h.threw b₁)
  | error err b₁ =>
    rw [hattempt] at hadapter
    refine ⟨err, b₁, b₂, rfl, ?_, eq_of_popRef hpop⟩
    simp only at hadapter
    split at hadapter
    · obtain ⟨_, b₁', hmark, hwrite⟩ := bind_eq_ok.mp hadapter
      obtain rfl : _ = b₁' := (EStateM.Result.ok.inj hmark).2
      exact hwrite
    · exact nomatch hadapter

/-- The attempt ends before it has written anything: the properties cannot be read, or growing
the buffer for the header fails. -/
def EndsAtOnce (H : Heap O) (getters : Except Throwable (List (Utf16 × Except Throwable O)))
    (o : Output) : Prop :=
  (∃ err, toMap H getters = .error err) ∨ Output.grown o.buffer.length o.position 8 < 0

omit [DecidableEq O] in
/-- A type byte and what follows it, once the buffer has grown. -/
theorem writeScalar_bind {request : Int} {tag : Byte} {payload : OutputM Unit}
    {rest : BuilderM O Unit} (b : Builder O) :
    (writeScalar request tag payload >>= fun _ => rest) b =
      match Output.grow request b.output with
      | some o => (onOutput (Output.writeByte tag >>= fun _ => payload) >>= fun _ => rest)
          { b with output := o }
      | none => .error .negativeArraySize b := by
  have hcap := Output.ensureCapacity_eq request b.output
  show EStateM.bind (zoom _ _ (EStateM.bind (Output.ensureCapacity request) _)) _ b = _
  unfold EStateM.bind zoom
  cases hgrow : Output.grow request b.output with
  | none =>
    rw [hgrow] at hcap
    simp only [hcap]
  | some o =>
    rw [hgrow] at hcap
    simp only [hcap]
    rfl

/-- Then it leaves the state as it was. -/
theorem attempt_endsAtOnce (h : EndsAtOnce H getters b.output) {err : Throwable} {b₁ : Builder O}
    (ha : attempt P H n getters b = .error err b₁) : b₁ = b := by
  unfold attempt at ha
  cases hmap : toMap H getters with
  | error err' =>
    rw [hmap, liftExcept_error_bind] at ha
    exact (EStateM.Result.error.inj ha).2.symm
  | ok entries =>
    rw [hmap, liftExcept_ok_bind] at ha
    rcases h with ⟨err', h⟩ | h
    · exact nomatch hmap.symm.trans h
    · unfold writeMap at ha
      rw [writeScalar_bind, Output.grow_of_neg h] at ha
      exact (EStateM.Result.error.inj ha).2.symm

/-- The position has moved. -/
def Moved (b b' : Builder O) : Prop :=
  b.output.position < b'.output.position

omit [DecidableEq O] in
/-- Writing a byte moves the position, also when the store throws. -/
theorem moved_writeByte (tag : Byte) {payload : OutputM Unit} (h : Output.Advances payload) :
    Preserves Moved (onOutput (Output.writeByte tag >>= fun _ => payload) : BuilderM O Unit) := by
  have hbyte : Preserves (fun o o' : Output => o.position < o'.position) (Output.writeByte tag) :=
    fun o => (Output.advances_store o.position tag { o with position := o.position + 1 }).position
  have hall : Preserves (fun o o' : Output => o.position < o'.position)
      (Output.writeByte tag >>= fun _ => payload) :=
    Preserves.seq (S := Output.Ahead) (T := fun o o' : Output => o.position < o'.position)
      (fun _ _ h => h) (fun _ _ _ h h' => lt_of_lt_of_le h h'.position) hbyte fun _ => h
  exact preserves_zoom hall fun _ _ h => h

omit [DecidableEq O] in
/-- Once the buffer has grown for a type byte, the position moves, however the rest ends. -/
theorem moved_writeScalar_bind {request : Int} {tag : Byte} {payload : OutputM Unit}
    {rest : BuilderM O Unit} {err : Throwable} {b₁ : Builder O}
    (hgrown : ¬ Output.grown b.output.buffer.length b.output.position request < 0)
    (hpayload : Output.Advances payload) (hrest : Preserves Grows rest)
    (h : (writeScalar request tag payload >>= fun _ => rest) b = .error err b₁) : Moved b b₁ := by
  have hmoved : Preserves Moved
      (onOutput (Output.writeByte tag >>= fun _ => payload) >>= fun _ => rest) :=
    Preserves.seq (S := Grows) (T := Moved) (fun _ _ h => h)
      (fun _ _ _ h h' => lt_of_lt_of_le h h'.output.position)
      (moved_writeByte tag hpayload) fun _ => hrest
  rw [writeScalar_bind, Output.grow_of_not_neg hgrown] at h
  have hposition := hmoved.of_error h
  simpa only [Moved] using hposition

/-- Otherwise the position has moved. -/
theorem attempt_moved (h : ¬ EndsAtOnce H getters b.output) {err : Throwable} {b₁ : Builder O}
    (ha : attempt P H n getters b = .error err b₁) : Moved b b₁ := by
  obtain ⟨hmap, hgrown⟩ := not_or.mp h
  unfold attempt at ha
  cases hentries : toMap H getters with
  | error err' => exact absurd ⟨err', hentries⟩ hmap
  | ok entries =>
    rw [hentries, liftExcept_ok_bind] at ha
    exact moved_writeScalar_bind hgrown (Output.advances_writeUInt _)
      (Preserves.forM Grows.refl Grows.trans fun entry _ =>
        grows_writeEntry P H (grows_writeObject P H n) entry) ha

/-! ## All or nothing -/

/-- After the fallback exactly the encoding of `v` has been appended and the stack is as it
was. -/
def AllOrNothing (P : Platform) (v : JValue) (b b' : Builder O) : Prop :=
  b'.output.written = b.output.written ++ (v.written P).doc.encode P.endian ∧ b'.refs = b.refs

variable {v : JValue}

/-- An attempt that ended at once leaves nothing behind. -/
theorem allOrNothing_of_endsAtOnce (ha : Abandoned P H n object b b' key getters)
    (hv : b.output.Valid) (hpath : Enclosed H b.refs object) (ho : Represents H v (H.toJSON object))
    (hr : v.Regular) (hn : v.height + 1 < n) (h : EndsAtOnce H getters b.output) :
    AllOrNothing P v b b' := by
  obtain ⟨err, b₁, b₂, hattempt, hfallback, rfl⟩ := ha.fallback
  obtain rfl := attempt_endsAtOnce (b := { b with refs := b.refs ++ [object] }) h hattempt
  have hunmatched := unmatched_bean (k := v.height) ha.view hpath
  obtain ⟨hrefs, -, -, -, hwritten⟩ := (writeObject_represents (P := P)
    (b := ⟨b.refs ++ [object], b.output, b.specialClass.put key true⟩) ho hr hn hv
    hunmatched).2 b₂ hfallback
  refine ⟨hwritten, ?_⟩
  show b₂.refs.dropLast = b.refs
  rw [hrefs, List.dropLast_concat]

/-- An attempt that has written something leaves its bytes, or containers on the stack. -/
theorem endsAtOnce_of_allOrNothing (ha : Abandoned P H n object b b' key getters)
    (hv : b.output.Valid) (hpath : Enclosed H b.refs object) (ho : Represents H v (H.toJSON object))
    (hr : v.Regular) (hn : v.height + 1 < n) (h : AllOrNothing P v b b') :
    EndsAtOnce H getters b.output := by
  by_contra hnot
  obtain ⟨err, b₁, b₂, hattempt, hfallback, rfl⟩ := ha.fallback
  have hmoved := attempt_moved (b := { b with refs := b.refs ++ [object] }) hnot hattempt
  have hgrows : Grows { b with refs := b.refs ++ [object] } b₁ :=
    Preserves.of_error (m := attempt P H n getters) (grows_bind (grows_liftExcept _) fun _ =>
      grows_writeMap P H (grows_writeObject P H n) _) hattempt
  have hfallgrows := (grows_writeObject P H n (H.toJSON object)).of_ok hfallback
  obtain ⟨hwritten, hrefs⟩ := h
  -- one object is popped in the end, so no other one was left on the stack
  have hrefs₁ : b₁.refs = b.refs ++ [object] := by
    have h₁ := hgrows.refs.length_le
    have h₂ := hfallgrows.refs.length_le
    have hdrop : b₂.refs.dropLast.length = b.refs.length := congrArg List.length hrefs
    rw [List.length_dropLast] at hdrop
    simp only [List.length_append, List.length_singleton] at h₁ h₂
    exact (hgrows.refs.eq_of_length (by
      simp only [List.length_append, List.length_singleton]
      omega)).symm
  obtain ⟨-, he⟩ := emitted_represents (P := P) ho hr hn
    (by simpa only [hrefs₁] using unmatched_bean ha.view hpath) hfallback
  obtain ⟨hposition, hinside⟩ := Output.play_position he.output
  have hinside := hinside fun hnil => by
    have := (v.written P).chunkBytes_ne_nil
    rw [hnil] at this
    simp at this
  have hsmall := hfallgrows.output.small (hgrows.output.small hv.small)
  have hbytes := (v.written P).bytes_eq_of_lt (by omega)
  have hlen := congrArg List.length hwritten
  rw [List.length_append, hv.written_length, Output.written, List.length_take, ← hbytes] at hlen
  simp only [Moved] at hmoved
  simp only at hposition hlen
  omega

/-- **All or nothing**: after a fallback that succeeds, exactly the encoding of what
`JSON.toJSON` returned has been appended and the stack is as before, iff the attempt ended
before it had written anything. -/
theorem allOrNothing_iff (ha : Abandoned P H n object b b' key getters)
    (hv : b.output.Valid) (hpath : Enclosed H b.refs object) (ho : Represents H v (H.toJSON object))
    (hr : v.Regular) (hn : v.height + 1 < n) :
    AllOrNothing P v b b' ↔ EndsAtOnce H getters b.output :=
  ⟨endsAtOnce_of_allOrNothing ha hv hpath ho hr hn,
    allOrNothing_of_endsAtOnce ha hv hpath ho hr hn⟩

/-! ## A bean -/

/-- A bean with one property, which `JSON.toJSON` turns into the number 1. -/
def beanHeap (property : Except Throwable (Fin 4)) : Heap (Fin 4) where
  null := 0
  view o := match o with
    | 0 => .null
    | 1 => .number (.integer 1)
    | 2 => .map [(.null, 1)]
    | 3 => .bean [0x42] (.ok [([0x70], property)])
  view_null := rfl
  view_map o es h := by
    match o, h with
    | 2, h => exact View.map.inj h ▸ List.nodup_singleton _
    | 0, h | 1, h | 3, h => exact nomatch h
  ownEquals a b := a = b
  toJSON _ := 1

theorem abandoned_beanHeap (property : Except Throwable (Fin 4))
    (hthrow : (returns (attempt Platform.plain (beanHeap property) 3 (.ok [([0x70], property)]))
      { Builder.fresh (Fin 4) with refs := (Builder.fresh (Fin 4)).refs ++ [3] }).isNone)
    (hreturn : (returns (writeObject Platform.plain (beanHeap property) 4 3)
      (Builder.fresh (Fin 4))).isSome) :
    ∃ b', Abandoned Platform.plain (beanHeap property) 3 3 (Builder.fresh (Fin 4)) b' [0x42]
      (.ok [([0x70], property)]) := by
  obtain ⟨⟨⟨⟩, b'⟩, h⟩ := Option.isSome_iff_exists.mp hreturn
  refine ⟨b', rfl, rfl, rfl, fun b₁ h₁ => ?_, returns_eq_some.mp h⟩
  rw [returns_eq_some.mpr h₁] at hthrow
  exact nomatch hthrow

/-- The property cannot be read. -/
theorem allOrNothing_beanHeap_iff :
    ∃ b', Abandoned Platform.plain (beanHeap (.error .runtime)) 3 3 (Builder.fresh (Fin 4)) b'
        [0x42] (.ok [([0x70], .error .runtime)]) ∧
      (AllOrNothing Platform.plain (.number (.integer 1)) (Builder.fresh (Fin 4)) b' ↔
        EndsAtOnce (beanHeap (.error .runtime)) (.ok [([0x70], .error .runtime)])
          (Builder.fresh (Fin 4)).output) := by
  obtain ⟨b', h⟩ := abandoned_beanHeap (.error .runtime) (by decide +kernel) (by decide +kernel)
  exact ⟨b', h, allOrNothing_iff h (Builder.fresh_valid _) (.root 3) (v := .number (.integer 1))
    rfl trivial (by decide)⟩

/-- The property is a map with a null key: the header, the key and the inner header are left. -/
theorem not_allOrNothing_beanHeap :
    ∃ b', Abandoned Platform.plain (beanHeap (.ok 2)) 3 3 (Builder.fresh (Fin 4)) b' [0x42]
        (.ok [([0x70], .ok 2)]) ∧
      Represents (beanHeap (.ok 2)) (.number (.integer 1)) ((beanHeap (.ok 2)).toJSON 3) ∧
      ¬ AllOrNothing Platform.plain (.number (.integer 1)) (Builder.fresh (Fin 4)) b' := by
  obtain ⟨b', h⟩ := abandoned_beanHeap (.ok 2) (by decide +kernel) (by decide +kernel)
  refine ⟨b', h, rfl, fun hall => ?_⟩
  rcases endsAtOnce_of_allOrNothing h (Builder.fresh_valid _) (.root 3) (v := .number (.integer 1))
    rfl trivial (by decide) hall with ⟨err, herr⟩ | hgrown
  · exact nomatch herr
  · rw [Builder.fresh_capacity] at hgrown
    exact absurd hgrown (by decide)

end Wson.Java
