import Wson.Jsc.Counts

/-!
# The stack of objects

`wson_push_js_value` as the source runs it: one `objectStack` that every call changes and
hands to the next one, a buffer that every store changes, and the engine. A run records
the largest size that `objectStack` has had.

A run with room for enough nested calls does what `pushJsValue` says, whatever the engine
does (`performs_runJsValue`): it makes the same stores, and it returns where these are
made; then `objectStack` is what it was, and it has never had more than
`WSON_MAX_DEEP + 1` entries (or as many as it started with).
-/

namespace Wson.Jsc

open Effect Wire Native

structure EncoderState (O W : Type) where
  buffer : Buffer
  objectStack : List O
  /-- The largest size that `objectStack` has had. -/
  most : Nat
  world : W

abbrev EncoderM (O W : Type) := EStateM Fault (EncoderState O W)

section Encoder

variable {O W : Type}

/-- What the engine is asked. -/
def ask {α : Type} (m : StateM W α) : EncoderM O W α := fun s =>
  .ok (m s.world).1 { s with world := (m s.world).2 }

def emit (stores : List Store) : EncoderM O W Unit :=
  zoom EncoderState.buffer (fun buffer s => { s with buffer := buffer }) (Buffer.storeAll .c stores)

/-- The stores of a value that is written at once. -/
def put (p : List Store × Visit O) : EncoderM O W Unit :=
  emit p.1

/-- `objectStack.append`. -/
def append (object : O) : EncoderM O W Unit :=
  modify fun s => { s with
    objectStack := s.objectStack ++ [object]
    most := max s.most (s.objectStack.length + 1) }

/-- `objectStack.removeLast`. -/
def removeLast : EncoderM O W Unit :=
  modify fun s => { s with objectStack := s.objectStack.dropLast }

variable [DecidableEq O]

def checkJsDeepAndCircleReference (object : O) : EncoderM O W Bool := do
  let s ← get
  return decide (object ∈ s.objectStack ∨ maxDeep < s.objectStack.length)

variable (E : Engine O W) (e : Endian)

section Loops

variable (run : JSValue O → EncoderM O W Unit)

/-- The loop over the elements, from `index` on. -/
def runElements (array : O) : Nat → BitVec 32 → EncoderM O W Unit
  | 0, _ => pure ()
  | k + 1, index => do
    let ele ← ask (E.getIndex array index)
    let ele ← ask (toJson E (indexString index) ele)
    run ele
    runElements array k (index + 1)

/-- The second loop over the properties. -/
def runProperties (object : O) : List JsString → EncoderM O W Unit
  | [] => pure ()
  | propertyName :: names => do
    match ← ask (E.getOwnProperty object propertyName) with
    | some propertyValue =>
      if propertyValue.isUndefined || propertyValue.isFunction E then
        runProperties object names
      else
        let value ← ask (toJson E propertyName.units propertyValue)
        emit (pushJsIdentifier e propertyName)
        run value
        runProperties object names
    | none => runProperties object names

end Loops

/-- `wson_push_js_value`, with room for so many nested calls. -/
def runJsValue : Nat → JSValue O → EncoderM O W Unit
  | 0, _ => throw .stackOverflow
  | n + 1, val =>
    match val with
    | .empty | .null | .undefined => put pushNull
    | .string s => put (pushString e s)
    | .int32 num => put (pushInt num)
    | .double bits => put (pushDouble E bits)
    | .boolean value => put (pushBoolean value)
    | .symbol => put pushNull
    | .object o =>
      match E.kind o with
      | .array => do
        if ← checkJsDeepAndCircleReference o then put pushNull
        else do
          let length ← ask (E.length o)
          emit ((Call.typeArray length).stores .c)
          append o
          runElements E (runJsValue n) o length.toNat 0
          removeLast
      | .stringObject => do put (pushString e (← ask (E.toString o)))
      | .numberObject => do
        match ← ask (E.toNumber o) with
        | .inl num => put (pushInt num)
        | .inr bits =>
          match E.asAnyInt bits with
          | some num => put (pushLong num)
          | none => put (pushString e (E.numberText bits))
      | .booleanObject => do
        match ← ask (E.toPrimitive o) with
        | .boolean true => put (pushBoolean true)
        | _ => put (pushBoolean false)
      | .function => put pushNull
      | .plain => do
        if ← checkJsDeepAndCircleReference o then put pushNull
        else do
          let names ← ask (E.getOwnPropertyNames o)
          let first ← ask (readProperties E o names)
          emit ((Call.typeMap (headerSize E first)).stores .c)
          append o
          runProperties E e (runJsValue n) o names
          removeLast

end Encoder

/-! ## Runs and stores -/

section Performs

variable {O W : Type}

/-- How a run ends whose stores end with the first result: `objectStack` is what it was before where
they are made, and it has not had more entries than `bound`. -/
inductive Ends (bound : Nat) (objectStack : List O) (w : W) :
    EStateM.Result Fault Buffer Unit → EStateM.Result Fault (EncoderState O W) Unit → Prop
  | ok {b : Buffer} {most : Nat} (hmost : most ≤ bound) :
    Ends bound objectStack w (.ok () b) (.ok () ⟨b, objectStack, most, w⟩)
  | error {f : Fault} {b : Buffer} {s : EncoderState O W} (hbuffer : s.buffer = b) (hmost : s.most ≤ bound) :
    Ends bound objectStack w (.error f b) (.error f s)

/-- With this `objectStack`, the run makes the stores that `p` says, and asks the engine as `p` does. -/
def Performs {β : Type} (bound : Nat) (objectStack : List O) (m : EncoderM O W Unit)
    (p : StateM W (List Store × β)) : Prop :=
  ∀ (b : Buffer) (most : Nat) (w : W), most ≤ bound →
    Ends bound objectStack (p w).2 (Buffer.storeAll .c (p w).1.1 b) (m ⟨b, objectStack, most, w⟩)

variable {α β γ : Type} {bound : Nat} {objectStack : List O}

theorem performs_emit (stores : List Store) (x : β) :
    Performs bound objectStack (emit stores : EncoderM O W Unit) (pure (stores, x)) := by
  intro b most w hmost
  show Ends bound objectStack w (Buffer.storeAll .c stores b) (zoom _ _ _ _)
  unfold zoom
  dsimp only
  cases Buffer.storeAll .c stores b with
  | ok u b' => exact .ok hmost
  | error f b' => exact .error rfl hmost

/-- Nothing is stored. -/
theorem performs_nil (x : β) :
    Performs bound objectStack (pure () : EncoderM O W Unit) (pure ([], x)) :=
  fun _ _ _ hmost => .ok hmost

theorem Performs.ask {m : StateM W α} {f : α → EncoderM O W Unit} {g : α → StateM W (List Store × β)}
    (h : ∀ a, Performs bound objectStack (f a) (g a)) :
    Performs bound objectStack (Jsc.ask m >>= f) (m >>= g) :=
  fun b most w hmost => h (m w).1 b most (m w).2 hmost

/-- Only the stores and the engine count. -/
theorem Performs.congr {m : EncoderM O W Unit} {p : StateM W (List Store × β)}
    {p' : StateM W (List Store × γ)} (hm : Performs bound objectStack m p)
    (hp : ∀ w, (p' w).1.1 = (p w).1.1 ∧ (p' w).2 = (p w).2) : Performs bound objectStack m p' := by
  intro b most w hmost
  rw [(hp w).1, (hp w).2]
  exact hm b most w hmost

/-- **Sequencing**: the stores of the second part stand behind those of the first. -/
theorem Performs.seq {m m' : EncoderM O W Unit} {p : StateM W (List Store × β)}
    {p' : StateM W (List Store × γ)} (hm : Performs bound objectStack m p)
    (hm' : Performs bound objectStack m' p') {δ : Type} (f : β → γ → δ) :
    Performs bound objectStack (do m; m') (do
      let a ← p
      let a' ← p'
      return (a.1 ++ a'.1, f a.2 a'.2)) := by
  intro b most w hmost
  show Ends bound objectStack _ (Buffer.storeAll .c ((p w).1.1 ++ (p' (p w).2).1.1) b) _
  rw [Buffer.storeAll_append]
  have h := hm b most w hmost
  generalize hrun : m ⟨b, objectStack, most, w⟩ = r at h
  generalize hstores : Buffer.storeAll .c (p w).1.1 b = r' at h
  cases h with
  | @ok b' most' hmost' =>
    rw [bind_of_ok hrun, bind_of_ok hstores]
    exact hm' b' most' (p w).2 hmost'
  | error hbuffer hmost' =>
    rw [bind_of_error hrun, bind_of_error hstores]
    exact .error hbuffer hmost'

/-- Between `append` and `removeLast`. -/
theorem Performs.within {m : EncoderM O W Unit} {p : StateM W (List Store × β)} {object : O}
    (hm : Performs bound (objectStack ++ [object]) m p) (hdeep : objectStack.length < bound) :
    Performs bound objectStack (do append object; m; removeLast) p := by
  intro b most w hmost
  have h := hm b (max most (objectStack.length + 1)) w (by omega)
  have happend : (append object : EncoderM O W Unit) ⟨b, objectStack, most, w⟩
      = .ok () ⟨b, objectStack ++ [object], max most (objectStack.length + 1), w⟩ := rfl
  rw [bind_of_ok happend]
  generalize hrun : m ⟨b, objectStack ++ [object], max most (objectStack.length + 1), w⟩ = r at h
  generalize Buffer.storeAll .c (p w).1.1 b = r' at h ⊢
  cases h with
  | @ok b' most' hmost' =>
    have hremove : (removeLast : EncoderM O W Unit) ⟨b', objectStack ++ [object], most', (p w).2⟩
        = .ok () ⟨b', objectStack, most', (p w).2⟩ := by
      show EStateM.Result.ok () (EncoderState.mk b' (objectStack ++ [object]).dropLast most' (p w).2) = _
      rw [List.dropLast_concat]
    rw [bind_of_ok hrun, hremove]
    exact .ok hmost'
  | error hbuffer hmost' =>
    rw [bind_of_error hrun]
    exact .error hbuffer hmost'

end Performs

/-! ## The recursion -/

section Encoder

variable {O W : Type} {E : Engine O W} {e : Endian} {bound : Nat} {objectStack : List O}

theorem performs_put (p : List Store × Visit O) :
    Performs bound objectStack (put p : EncoderM O W Unit) (pure p) :=
  performs_emit p.1 p.2

section Loops

variable {run : JSValue O → EncoderM O W Unit} {push : JSValue O → StateM W (List Store × Visit O)}

theorem performs_runElements (hrun : ∀ val, Performs bound objectStack (run val) (push val)) (array : O)
    (k : Nat) (index : BitVec 32) :
    Performs bound objectStack (runElements E run array k index) (pushElements E push array k index) := by
  induction k generalizing index with
  | zero => exact performs_nil _
  | succ k ih =>
    unfold runElements pushElements
    refine .ask fun ele => .ask fun ele => ?_
    exact (hrun ele).seq (ih (index + 1)) (· :: ·)

theorem performs_runProperties (hrun : ∀ val, Performs bound objectStack (run val) (push val)) (object : O)
    (names : List JsString) :
    Performs bound objectStack (runProperties E e run object names)
      (pushProperties E e push object names) := by
  induction names with
  | nil => exact performs_nil _
  | cons propertyName names ih =>
    unfold runProperties pushProperties
    refine .ask fun answer => ?_
    cases answer with
    | none => exact ih.congr fun w => ⟨rfl, rfl⟩
    | some propertyValue =>
      dsimp only
      split
      · exact ih.congr fun w => ⟨rfl, rfl⟩
      · refine .ask fun value => ?_
        have hname : Performs bound objectStack (emit (pushJsIdentifier e propertyName))
            (pure (pushJsIdentifier e propertyName, ()) : StateM W _) := performs_emit _ _
        have htail := (hrun value).seq ih Prod.mk
        refine (hname.seq htail Prod.mk).congr fun w => ⟨?_, rfl⟩
        exact List.append_assoc _ _ _

end Loops

variable [DecidableEq O]

/-- The test for circles and depth comes first. -/
theorem Performs.check {m m' : EncoderM O W Unit} {β : Type} {p : StateM W (List Store × β)} {object : O}
    (hcut : object ∈ objectStack ∨ maxDeep < objectStack.length → Performs bound objectStack m p)
    (hroom : ¬(object ∈ objectStack ∨ maxDeep < objectStack.length) → Performs bound objectStack m' p) :
    Performs bound objectStack (do if ← checkJsDeepAndCircleReference object then m else m') p := by
  intro b most w hmost
  show Ends _ _ _ _ ((if decide (object ∈ objectStack ∨ maxDeep < objectStack.length) = true then m else m') _)
  by_cases h : object ∈ objectStack ∨ maxDeep < objectStack.length
  · rw [if_pos (decide_eq_true h)]
    exact hcut h b most w hmost
  · rw [if_neg (by simp [h])]
    exact hroom h b most w hmost

/-- **The encoder**, with room for the nested calls that the depth allows, makes the stores of
`pushJsValue`, leaves `objectStack` as it was and keeps to the bound. -/
theorem performs_runJsValue (hbound : maxDeep + 1 ≤ bound) (n : Nat) (objectStack : List O)
    (hn : maxDeep + 1 - objectStack.length < n) (val : JSValue O) :
    Performs bound objectStack (runJsValue E e n val) (pushJsValue E e objectStack val) := by
  induction n generalizing objectStack val with
  | zero => exact absurd hn (Nat.not_lt_zero _)
  | succ n ih =>
    -- a nested call has one object more on the stack, and one call less to go
    have hnested (o : O) (hroom : ¬(o ∈ objectStack ∨ maxDeep < objectStack.length)) (val : JSValue O) :
        Performs bound (objectStack ++ [o]) (runJsValue E e n val)
          (pushJsValue E e (objectStack ++ [o]) val) := by
      rw [not_or] at hroom
      refine ih _ ?_ val
      rw [List.length_append, List.length_singleton]
      omega
    have hlt (o : O) (hroom : ¬(o ∈ objectStack ∨ maxDeep < objectStack.length)) :
        objectStack.length < bound := by
      rw [not_or] at hroom
      omega
    cases val with
    | empty | null | undefined | symbol | string _ | int32 _ | double _ | boolean _ =>
      rw [pushJsValue, runJsValue]
      exact performs_put _
    | object o =>
      rw [pushJsValue, runJsValue]
      cases E.kind o with
      | function => exact performs_put _
      | stringObject => exact .ask fun s => performs_put _
      | booleanObject =>
        refine .ask fun value => ?_
        cases value with
        | boolean value => cases value <;> exact performs_put _
        | _ => exact performs_put _
      | numberObject =>
        refine .ask fun number => ?_
        cases number with
        | inl num => exact performs_put _
        | inr bits =>
          dsimp only
          cases E.asAnyInt bits <;> exact performs_put _
      | array =>
        refine .check (fun hcut => ?_) fun hroom => ?_
        · dsimp only
          rw [dif_pos hcut]
          exact performs_put _
        · dsimp only
          rw [dif_neg hroom]
          refine .ask fun length => ?_
          have helements := performs_runElements (E := E) (hnested o hroom) o length.toNat 0
          have hheader : Performs bound objectStack (emit ((Call.typeArray length).stores .c))
              (pure ((Call.typeArray length).stores .c, ()) : StateM W _) := performs_emit _ _
          exact hheader.seq (helements.within (hlt o hroom)) fun _ visits => Visit.array visits
      | plain =>
        refine .check (fun hcut => ?_) fun hroom => ?_
        · dsimp only
          rw [dif_pos hcut]
          exact performs_put _
        · dsimp only
          rw [dif_neg hroom]
          refine .ask fun names => .ask fun first => ?_
          have hproperties := performs_runProperties (E := E) (e := e) (hnested o hroom) o names
          have hheader : Performs bound objectStack (emit ((Call.typeMap (headerSize E first)).stores .c))
              (pure ((Call.typeMap (headerSize E first)).stores .c, ()) : StateM W _) := performs_emit _ _
          exact hheader.seq (hproperties.within (hlt o hroom)) fun _ p => Visit.object first p.1 p.2

end Encoder

end Wson.Jsc
