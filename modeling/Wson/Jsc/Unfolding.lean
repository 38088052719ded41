import Wson.Jsc.ObjectStack
import Wson.Jsc.RoundTrip

/-!
# Heaps of data

A heap of arrays, plain objects and functions, with arbitrary sharing and cycles. Along
a path of objects it unfolds to a tree: an object is cut off where it is already on the
path, and where more than `WSON_MAX_DEEP` objects are (`unfolding`). The encoder
terminates on every heap, keeps `objectStack` within its bound and restores it, and what
it has written is the encoding of the unfolding, as long as the buffer can grow
(`cutsCycles_iff`).
-/

namespace Wson.Jsc

open Effect Wire Native

/-- The elements of an array, all of them present, or the properties of an object, which are data
under different names. -/
inductive Node (O : Type) where
  | array (items : {items : List (JSValue O) // items.length < 2 ^ 32})
  | object (properties : {properties : List (JsString × JSValue O) //
      properties.length < 2 ^ 32 ∧ (properties.map (·.1.units)).Nodup})
  | function

abbrev JsHeap (O : Type) := O → Node O

namespace JsHeap

variable {O W : Type} (h : JsHeap O)

/-- The value of the property of that name. -/
def lookup (properties : List (JsString × JSValue O)) (name : JsString) : Option (JSValue O) :=
  (properties.find? (·.1.units = name.units)).map (·.2)

/-- The engine that answers from the heap, where no object has a `toJSON`. -/
def engine (E : Engine O W) : Engine O W :=
  { E with
    kind := fun o =>
      match h o with
      | .array _ => .array
      | .object _ => .plain
      | .function => .function
    length := fun o =>
      match h o with
      | .array items => pure (BitVec.ofNat 32 items.val.length)
      | _ => pure 0
    getIndex := fun o index =>
      match h o with
      | .array items => pure (items.val[index.toNat]?.getD .undefined)
      | _ => pure .undefined
    getOwnPropertyNames := fun o =>
      match h o with
      | .object properties =>
        pure ⟨properties.val.map (·.1), by rw [List.length_map]; exact properties.property.1⟩
      | _ => pure ⟨[], length_noNames_lt⟩
    getOwnProperty := fun o name =>
      match h o with
      | .object properties => pure (lookup properties.val name)
      | _ => pure none
    getToJSON := fun _ => pure none }

/-- An object has no entry for a property that is undefined or a function. -/
def omits : JSValue O → Bool
  | .undefined => true
  | .object o =>
    match h o with
    | .function => true
    | _ => false
  | _ => false

variable [DecidableEq O]

/-- The tree of a value with these objects around it. -/
def unfolding (path : List O) : JSValue O → JsTree
  | .empty | .null | .undefined | .symbol => .null
  | .boolean value => .boolean value
  | .int32 num => .int32 num
  | .double bits => .double bits
  | .string s => .string s
  | .object o =>
    if _hcut : o ∈ path ∨ maxDeep < path.length then .null
    else
      match h o with
      | .array items => .array (items.val.map fun ele => unfolding (path ++ [o]) ele)
      | .object properties =>
        .object ((properties.val.filter fun p => !h.omits p.2).map fun p =>
          (p.1, unfolding (path ++ [o]) p.2))
      | .function => .null
termination_by maxDeep + 1 - path.length
decreasing_by
  all_goals
    rw [not_or] at _hcut
    rw [List.length_append, List.length_singleton]
    omega

/-! ## What the engine answers -/

section Answers

variable {h} {E : Engine O W} {o : O}

omit [DecidableEq O] in
theorem skipped_engine (val : JSValue O) : skipped (h.engine E) (some val) = h.omits val := by
  cases val with
  | object o =>
    cases hnode : h o <;> simp [skipped, JSValue.isUndefined, JSValue.isFunction, engine, omits, hnode]
  | _ => rfl

omit [DecidableEq O] in
/-- No `toJSON` is called. -/
theorem toJson_engine (identifier : Utf16) (val : JSValue O) :
    toJson (h.engine E) identifier val = pure val := by
  cases val <;> rfl

omit [DecidableEq O] in
/-- Under each of its names an object has one property. -/
theorem lookup_of_mem {properties : List (JsString × JSValue O)}
    (hnodup : (properties.map (·.1.units)).Nodup) {p : JsString × JSValue O} (hp : p ∈ properties) :
    lookup properties p.1 = some p.2 := by
  induction properties with
  | nil => exact nomatch hp
  | cons q properties ih =>
    obtain ⟨hnew, hnodup⟩ := List.nodup_cons.mp hnodup
    unfold lookup
    rw [List.find?_cons]
    rcases List.mem_cons.mp hp with rfl | hp
    · simp
    · have hne : ¬ q.1.units = p.1.units := fun heq =>
        hnew (List.mem_map.mpr ⟨p, hp, heq.symm⟩)
      simp only [hne, decide_false]
      exact ih hnodup hp

omit [DecidableEq O] in
/-- The first pass over some of the properties. -/
theorem readProperties_engine {properties rest : List (JsString × JSValue O)}
    {hproperties : properties.length < 2 ^ 32 ∧ (properties.map (·.1.units)).Nodup}
    (ho : h o = .object ⟨properties, hproperties⟩) (hrest : ∀ p ∈ rest, p ∈ properties) :
    readProperties (h.engine E) o (rest.map (·.1)) = pure (rest.map fun p => some p.2) := by
  induction rest with
  | nil => rfl
  | cons p rest ih =>
    rw [List.forall_mem_cons] at hrest
    have hanswer : (h.engine E).getOwnProperty o p.1 = pure (some p.2) := by
      simp only [engine, ho, lookup_of_mem hproperties.2 hrest.1]
    rw [List.map_cons, readProperties, hanswer, ih hrest.2]
    rfl

omit [DecidableEq O] in
/-- The number of the entries, as both passes find it. -/
theorem countP_answers (properties : List (JsString × JSValue O)) :
    (properties.map fun p => some p.2).countP (fun answer => !skipped (h.engine E) answer)
      = (properties.filter fun p => !h.omits p.2).length := by
  rw [List.countP_map, List.countP_eq_length_filter]
  simp only [Function.comp_def, skipped_engine]

end Answers

/-! ## The encoder on a heap -/

section Push

variable {h} {E : Engine O W} {e : Endian} {o : O}

/-- What a call of the encoder returns where it writes the tree: it asks the engine for data only. -/
def Pushes (h : JsHeap O) (E : Engine O W) (e : Endian) (m : StateM W (List Store × Visit O))
    (t : JsTree) : Prop :=
  ∃ visit : Visit O, m = pure (t.stores E.asAnyInt e, visit) ∧ visit.doc = t.doc E.asAnyInt ∧
    visit.Steady (h.engine E)

variable {push : JSValue O → StateM W (List Store × Visit O)} {tree : JSValue O → JsTree}

omit [DecidableEq O] in
/-- The loop over the elements that are left. -/
theorem pushElements_engine (hpush : ∀ val, Pushes h E e (push val) (tree val)) {items : List (JSValue O)}
    {hitems : items.length < 2 ^ 32} (ho : h o = .array ⟨items, hitems⟩) (done rest : List (JSValue O))
    (hsplit : items = done ++ rest) :
    ∃ visits : List (Visit O),
      pushElements (h.engine E) push o rest.length (BitVec.ofNat 32 done.length)
          = pure (JsTree.storesItems E.asAnyInt e (rest.map tree), visits) ∧
        Visit.docItems visits = JsTree.docItems E.asAnyInt (rest.map tree) ∧
          Visit.SteadyItems (h.engine E) visits := by
  induction rest generalizing done with
  | nil => exact ⟨[], rfl, rfl, trivial⟩
  | cons ele rest ih =>
    obtain ⟨visit, hvisit, hdoc, hsteady⟩ := hpush ele
    obtain ⟨visits, hvisits, hdocs, hsteadys⟩ := ih (done ++ [ele]) (by rw [hsplit, List.append_assoc]; rfl)
    have hdone : done.length < 2 ^ 32 := by
      rw [hsplit, List.length_append, List.length_cons] at hitems
      omega
    have hele : (h.engine E).getIndex o (BitVec.ofNat 32 done.length) = pure ele := by
      simp only [engine, ho, BitVec.toNat_ofNat, Nat.mod_eq_of_lt hdone, hsplit]
      rw [List.getElem?_append_right (Nat.le_refl _), Nat.sub_self]
      rfl
    have hindex : BitVec.ofNat 32 done.length + 1 = BitVec.ofNat 32 (done ++ [ele]).length := by
      rw [List.length_append]
      exact (BitVec.ofNat_add _ _).symm
    refine ⟨visit :: visits, ?_, ?_, hsteady, hsteadys⟩
    · rw [List.length_cons, pushElements, hele, pure_bind, toJson_engine, pure_bind, hvisit, hindex, hvisits]
      rfl
    · rw [Visit.docItems, hdoc, hdocs]
      rfl

omit [DecidableEq O] in
/-- The second pass over some of the properties. -/
theorem pushProperties_engine (hpush : ∀ val, Pushes h E e (push val) (tree val))
    {properties rest : List (JsString × JSValue O)}
    {hproperties : properties.length < 2 ^ 32 ∧ (properties.map (·.1.units)).Nodup}
    (ho : h o = .object ⟨properties, hproperties⟩) (hrest : ∀ p ∈ rest, p ∈ properties) :
    ∃ entries : List (Utf16 × Visit O),
      pushProperties (h.engine E) e push o (rest.map (·.1))
          = pure (JsTree.storesEntries E.asAnyInt e
              ((rest.filter fun p => !h.omits p.2).map fun p => (p.1, tree p.2)),
            rest.map fun p => some p.2, entries) ∧
        Visit.docEntries entries = JsTree.docEntries E.asAnyInt
          ((rest.filter fun p => !h.omits p.2).map fun p => (p.1, tree p.2)) ∧
          Visit.SteadyEntries (h.engine E) entries := by
  induction rest with
  | nil => exact ⟨[], rfl, rfl, trivial⟩
  | cons p rest ih =>
    rw [List.forall_mem_cons] at hrest
    obtain ⟨entries, hentries, hdocs, hsteadys⟩ := ih hrest.2
    have hanswer : (h.engine E).getOwnProperty o p.1 = pure (some p.2) := by
      simp only [engine, ho, lookup_of_mem hproperties.2 hrest.1]
    have hskip : (p.2.isUndefined || p.2.isFunction (h.engine E)) = h.omits p.2 := skipped_engine p.2
    rw [List.map_cons, pushProperties, hanswer, pure_bind]
    dsimp only
    rw [hskip, hentries]
    by_cases homits : h.omits p.2
    · rw [if_pos homits, List.filter_cons_of_neg (by simp [homits])]
      exact ⟨entries, rfl, hdocs, hsteadys⟩
    · obtain ⟨visit, hvisit, hdoc, hsteady⟩ := hpush p.2
      rw [if_neg homits, List.filter_cons_of_pos (by simp [homits]), toJson_engine, pure_bind, hvisit]
      refine ⟨(p.1.units, visit) :: entries, rfl, ?_, hsteady, hsteadys⟩
      rw [Visit.docEntries, hdoc, hdocs]
      rfl

/-- **The encoder on a heap** writes the unfolding. -/
theorem pushes_unfolding (h : JsHeap O) (E : Engine O W) (e : Endian) :
    ∀ (k : Nat) (path : List O), maxDeep + 1 - path.length = k → ∀ val,
      Pushes h E e (pushJsValue (h.engine E) e path val) (h.unfolding path val) := by
  intro k
  induction k using Nat.strong_induction_on with
  | _ k ih =>
    intro path hk val
    have hnull : Pushes h E e (pure pushNull) .null := ⟨.scalar .null, rfl, rfl, trivial⟩
    cases val with
    | empty | null | undefined | symbol | string _ | int32 _ | boolean _ =>
      rw [pushJsValue, unfolding]
      exact ⟨_, rfl, rfl, trivial⟩
    | double bits =>
      rw [pushJsValue, unfolding]
      show Pushes h E e (pure (pushDouble E bits)) _
      unfold Pushes pushDouble JsTree.doc JsTree.stores
      cases E.asAnyInt bits <;> exact ⟨_, rfl, rfl, trivial⟩
    | object o =>
      rw [unfolding]
      by_cases hcut : o ∈ path ∨ maxDeep < path.length
      · rw [dif_pos hcut, pushJsValue]
        cases hnode : h o <;> simp only [engine, hnode, dif_pos hcut] <;> exact hnull
      · have hnested : ∀ val, Pushes h E e (pushJsValue (h.engine E) e (path ++ [o]) val)
            (h.unfolding (path ++ [o]) val) := by
          rw [not_or] at hcut
          refine ih _ ?_ _ rfl
          rw [List.length_append, List.length_singleton]
          omega
        rw [dif_neg hcut, pushJsValue]
        cases hnode : h o with
        | function =>
          have hkind : (h.engine E).kind o = .function := by simp only [engine, hnode]
          rw [hkind]
          exact hnull
        | array items =>
          have hkind : (h.engine E).kind o = .array := by simp only [engine, hnode]
          have hlength : (h.engine E).length o = pure (BitVec.ofNat 32 items.val.length) := by
            simp only [engine, hnode]
          obtain ⟨visits, hvisits, hdoc, hsteady⟩ := pushElements_engine hnested hnode [] items.val rfl
          rw [show BitVec.ofNat 32 ([] : List (JSValue O)).length = 0 from rfl] at hvisits
          rw [hkind]
          dsimp only
          rw [dif_neg hcut, hlength, pure_bind, BitVec.toNat_ofNat, Nat.mod_eq_of_lt items.property]
          refine ⟨.array visits, ?_, ?_, hsteady⟩
          · rw [hvisits, JsTree.stores, List.length_map]
            rfl
          · rw [Visit.doc, hdoc]
            rfl
        | object properties =>
          obtain ⟨properties, hproperties⟩ := properties
          have hkind : (h.engine E).kind o = .plain := by simp only [engine, hnode]
          have hnames : (h.engine E).getOwnPropertyNames o
              = pure ⟨properties.map (·.1), by rw [List.length_map]; exact hproperties.1⟩ := by
            simp only [engine, hnode]
          have hfirst := readProperties_engine (E := E) hnode fun p (hp : p ∈ properties) => hp
          obtain ⟨entries, hentries, hdoc, hsteady⟩ :=
            pushProperties_engine hnested hnode fun p (hp : p ∈ properties) => hp
          -- the header has the number of the entries
          have hheader : headerSize (h.engine E) (properties.map fun p => some p.2)
              = BitVec.ofNat 32 (properties.filter fun p => !h.omits p.2).length := by
            have hlt : (properties.map fun p => some p.2).length < 2 ^ 32 := by
              rw [List.length_map]
              exact hproperties.1
            apply BitVec.eq_of_toNat_eq
            rw [Visit.toNat_headerSize hlt, countP_answers, BitVec.toNat_ofNat, Nat.mod_eq_of_lt]
            exact (List.length_filter_le _ _).trans_lt hproperties.1
          rw [hkind]
          dsimp only
          rw [dif_neg hcut, hnames, pure_bind, hfirst, pure_bind, hentries, pure_bind, hheader]
          refine ⟨.object (properties.map fun p => some p.2) (properties.map fun p => some p.2) entries,
            ?_, ?_, rfl, hsteady⟩
          · rw [JsTree.stores, List.length_map]
          · rw [Visit.doc, hdoc]
            rfl

end Push

/-! ## Termination, depth and output -/

section CutsCycles

variable (h : JsHeap O) (E : Engine O W) (e : Endian)

/-- With room for enough nested calls the encoder returns; `objectStack` is what it was, it has had
no more than `WSON_MAX_DEEP + 1` entries unless it began with more, and the encoding of the
unfolding stands behind what was in the buffer. -/
def CutsCycles (b : Buffer) (objectStack : List O) (val : JSValue O) (w : W) : Prop :=
  ∃ (calls : Nat) (b' : Buffer),
    b'.written = b.written ++ ((h.unfolding objectStack val).doc E.asAnyInt).encode e ∧
      ∀ n, calls ≤ n → ∃ most, most ≤ max objectStack.length (maxDeep + 1) ∧
        runJsValue (h.engine E) e n val ⟨b, objectStack, objectStack.length, w⟩
          = .ok () ⟨b', objectStack, most, w⟩

variable {h E e}

/-- The stores of the unfolding hold its encoding. -/
theorem stored_unfolding (path : List O) (val : JSValue O) (w : W) :
    Buffer.stored ((h.unfolding path val).stores E.asAnyInt e)
      = ((h.unfolding path val).doc E.asAnyInt).encode e := by
  obtain ⟨visit, hpush, hdoc, hsteady⟩ := pushes_unfolding h E e _ path rfl val
  obtain ⟨hstored, hcomplete, -⟩ := agrees_pushJsValue (E := h.engine E) (e := e) _ path rfl val w
  rw [hpush] at hstored hcomplete
  exact hstored.trans ((Visit.bytes_of_steady hcomplete hsteady).trans (congrArg (Doc.encode e) hdoc))

/-- **Every run** with room for the nested calls that the depth allows ends, by returning or with a
store outside the block, and `objectStack` has kept to its bound. -/
theorem runJsValue_ends (objectStack : List O) (val : JSValue O) (w : W) (b : Buffer) {n : Nat}
    (hn : maxDeep + 1 < n) :
    Ends (max objectStack.length (maxDeep + 1)) objectStack w
      (Buffer.storeAll .c ((h.unfolding objectStack val).stores E.asAnyInt e) b)
      (runJsValue (h.engine E) e n val ⟨b, objectStack, objectStack.length, w⟩) := by
  obtain ⟨visit, hpush, -⟩ := pushes_unfolding h E e _ objectStack rfl val
  have hperforms := performs_runJsValue (E := h.engine E) (e := e) (Nat.le_max_right objectStack.length _) n
    objectStack (by omega) val b objectStack.length w (Nat.le_max_left _ _)
  rw [hpush] at hperforms
  exact hperforms

/-- The encoder returns only where every store is inside the block. -/
theorem CutsCycles.fits {b : Buffer} (hv : b.Valid) (hb : b.length < 2 ^ 32) {objectStack : List O}
    {val : JSValue O} {w : W} (h' : h.CutsCycles E e b objectStack val w) :
    Buffer.fits .c ((h.unfolding objectStack val).stores E.asAnyInt e) b.length b.position := by
  have hb : b.length < 2 ^ Library.bits .c := hb
  obtain ⟨calls, b', -, hrun⟩ := h'
  obtain ⟨most, -, hrun⟩ := hrun (max calls (maxDeep + 2)) (Nat.le_max_left _ _)
  have hends := runJsValue_ends (h := h) (E := E) (e := e) objectStack val w b
    (n := max calls (maxDeep + 2)) (by omega)
  rw [hrun] at hends
  generalize hstores : Buffer.storeAll .c ((h.unfolding objectStack val).stores E.asAnyInt e) b = r at hends
  cases hends with
  | ok hmost => exact Buffer.fits_of_storeAll hv hb hstores

/-- **Cycles and depth**: on every heap the encoder terminates, keeps `objectStack` within its bound
and writes the unfolding iff the buffer can grow. -/
theorem cutsCycles_iff {b : Buffer} (hv : b.Valid) (hb : b.length < 2 ^ 32) (objectStack : List O)
    (val : JSValue O) (w : W) :
    h.CutsCycles E e b objectStack val w ↔
      Buffer.fits .c ((h.unfolding objectStack val).stores E.asAnyInt e) b.length b.position := by
  constructor
  · exact CutsCycles.fits hv hb
  · intro hfits
    have hb : b.length < 2 ^ Library.bits .c := hb
    obtain ⟨b', hstores, -, hwritten⟩ := Buffer.storeAll_of_fits hv hb hfits
    refine ⟨maxDeep + 2, b', by rw [hwritten, stored_unfolding objectStack val w], fun n hn => ?_⟩
    -- the limit on the depth ends the recursion, with cycles and without
    have hends := runJsValue_ends (h := h) (E := E) (e := e) objectStack val w b (n := n) (by omega)
    rw [hstores] at hends
    generalize hrun : runJsValue (h.engine E) e n val ⟨b, objectStack, objectStack.length, w⟩ = r at hends
    cases hends with
    | ok hmost => exact ⟨_, hmost, rfl⟩

end CutsCycles

end JsHeap

/-! ## An array that contains itself -/

/-- The array `a = [a, s]`. -/
def cyclicHeap (s : JsString) : JsHeap Unit :=
  fun _ => .array ⟨[.object (), .string s], show 2 < 2 ^ 32 by decide⟩

/-- An engine whose objects come from the heap. -/
def heapEngine : Engine Unit Unit where
  kind _ := .plain
  length _ := pure 0
  getIndex _ _ := pure .undefined
  getOwnPropertyNames _ := pure ⟨[], length_noNames_lt⟩
  getOwnProperty _ _ := pure none
  getToJSON _ := pure none
  isCallable _ := false
  call _ _ _ := pure .undefined
  toString _ := pure ⟨[], true, length_nil_lt⟩
  toNumber _ := pure (.inl 0)
  toPrimitive _ := pure .undefined
  asAnyInt _ := none
  numberText _ := ⟨[], true, length_nil_lt⟩

/-- The array in itself is cut off. -/
theorem unfolding_cyclic (s : JsString) :
    (cyclicHeap s).unfolding [] (.object ()) = .array [.null, .string s] := by
  have hroom : ¬(() ∈ ([] : List Unit) ∨ maxDeep < ([] : List Unit).length) := by simp
  have hcut : () ∈ [] ++ [()] ∨ maxDeep < ([] ++ [()]).length := .inl List.mem_cons_self
  rw [JsHeap.unfolding, dif_neg hroom]
  have hself : (cyclicHeap s).unfolding ([] ++ [()]) (.object ()) = .null := by
    rw [JsHeap.unfolding, dif_pos hcut]
  have hstring : (cyclicHeap s).unfolding ([] ++ [()]) (.string s) = .string s := by
    rw [JsHeap.unfolding]
  exact congrArg JsTree.array (congrArg₂ (fun t u => [t, u]) hself hstring)

theorem cutsCycles_cyclic_iff :
    (cyclicHeap sampleString).CutsCycles heapEngine .little (Buffer.new (List.replicate 1024 0)) []
        (.object ()) () ↔
      Buffer.fits .c (((cyclicHeap sampleString).unfolding [] (.object ())).stores heapEngine.asAnyInt .little)
        (Buffer.new (List.replicate 1024 0)).length (Buffer.new (List.replicate 1024 0)).position :=
  JsHeap.cutsCycles_iff (Buffer.valid_new _) new_lt [] _ ()

/-- With the longest string as its second element, the array is not written. -/
theorem not_cutsCycles_longString :
    ¬ (cyclicHeap longString).CutsCycles heapEngine .little (Buffer.new (List.replicate 1024 0)) []
      (.object ()) () := by
  intro hcuts
  have hfits := hcuts.fits (Buffer.valid_new _) new_lt
  rw [unfolding_cyclic, show (Buffer.new (List.replicate 1024 0)).length = 1024 from List.length_replicate]
    at hfits
  simp only [JsTree.stores, JsTree.storesItems, pushJsString_longString] at hfits
  obtain ⟨-, -, -, -, -, hrest⟩ := hfits
  exact not_fits_longUnits .little (by decide) [] hrest

end Wson.Jsc
