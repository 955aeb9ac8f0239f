import Monadize.Proofs.Store

/-! Stores under any sequence of operations. The constants and the index of their names agree at any
time. Constants are added at the end and filled in once, each under a name of its own, and an
operation that is refused leaves no trace.
-/

namespace Monadize

/-- The entry has been filled in: its name is the same, and a body or a theorem that it had is too. -/
structure Definition.Extends (d d' : Definition) : Prop where
  name : d'.name = d.name
  body : ∀ body, d.body = some body → d'.body = some body
  thm : ∀ thm, d.thm = some thm → d'.thm = some thm

/-- A theorem is recorded at the constant it is about, and after its body. -/
def Definition.Supported (k : ConstId) (d : Definition) : Prop :=
  ∀ thm, d.thm = some thm → (∃ proc, thm.judgement = .fnCorres k proc) ∧ d.body.isSome = true

namespace Store

-----------------------------------------------------------------------------------------
-- Filling in entries
-----------------------------------------------------------------------------------------

variable {store store' : Store} {k : ConstId}

theorem get?_put_self {d : Definition} (found : store.get? k = some d) (d' : Definition)
    : (store.put k d').get? k = some d' := by
  obtain ⟨inside, _⟩ := List.getElem?_eq_some_iff.mp found
  exact List.getElem?_set_self inside

theorem get?_put_ne {j : ConstId} (other : j ≠ k) (d' : Definition)
    : (store.put k d').get? j = store.get? j :=
  List.getElem?_set_ne (Ne.symm other)

theorem define_eq_ok_iff {body : Term}
    : store.define k body = .ok store'
      ↔ ∃ d,
          store.get? k = some d
          ∧ d.body = none
          ∧ store' = store.put k { d with body := some body } := by
  cases found : store.get? k with
  | none => simp [define, found]
  | some d =>
      cases known : d.body with
      | none => simp [define, found, known, eq_comm]
      | some _ => simp [define, found, known]

theorem attach_eq_ok_iff {thm : Theorem}
    : store.attach thm = .ok store'
      ↔ ∃ k proc d,
          thm.judgement = .fnCorres k proc
          ∧ store.get? k = some d
          ∧ d.body.isSome = true
          ∧ d.thm = none
          ∧ store' = store.put k { d with thm := some thm } := by
  cases judged : thm.judgement with
  | fnCorres k proc =>
      cases found : store.get? k with
      | none => simp [attach, judged, found]
      | some d =>
          cases body : d.body with
          | none => simp [attach, judged, found, body]
          | some _ =>
              cases recorded : d.thm with
              | none => simp [attach, judged, found, body, recorded, @eq_comm _ store']
              | some _ => simp [attach, judged, found, body, recorded]
  | _ => simp [attach, judged]

/-- Every constant is still there, with its name and all that was recorded of it. -/
def Extends (store store' : Store) : Prop :=
  ∀ k d, store.get? k = some d → ∃ d', store'.get? k = some d' ∧ d.Extends d'

theorem Extends.refl (store : Store) : store.Extends store :=
  fun _ d found => ⟨d, found, rfl, fun _ => id, fun _ => id⟩

theorem Extends.trans {store'' : Store} (first : store.Extends store')
    (second : store'.Extends store'')
    : store.Extends store'' := by
  intro k d found
  obtain ⟨d', found', more⟩ := first k d found
  obtain ⟨d'', found'', evenMore⟩ := second k d' found'
  exact ⟨d'', found'', evenMore.name.trans more.name,
    fun body known => evenMore.body body (more.body body known),
    fun thm known => evenMore.thm thm (more.thm thm known)⟩

/-- No constant has been added or renamed, and those that are there have been filled in. -/
structure Fills (store store' : Store) : Prop where
  names : store'.names = store.names
  byName : store'.byName = store.byName
  extended : store.Extends store'
  supported
    : (∀ k d, store.get? k = some d → d.Supported k)
      → ∀ k d, store'.get? k = some d → d.Supported k

theorem Fills.refl (store : Store) : store.Fills store :=
  ⟨rfl, rfl, .refl store, id⟩

theorem Fills.trans {store'' : Store} (first : store.Fills store') (second : store'.Fills store'')
    : store.Fills store'' :=
  ⟨second.names.trans first.names, second.byName.trans first.byName,
    first.extended.trans second.extended, second.supported ∘ first.supported⟩

theorem Fills.size_eq (fills : store.Fills store') : store'.size = store.size := by
  simpa [Store.names, size] using congrArg List.length fills.names

/-- One entry that is replaced by an extended one. -/
theorem fills_put {d d' : Definition} (found : store.get? k = some d) (more : d.Extends d')
    (supported : d.Supported k → d'.Supported k)
    : store.Fills (store.put k d') := by
  have atK := get?_put_self found d'
  have elsewhere : ∀ j, j ≠ k → (store.put k d').get? j = store.get? j :=
    fun j other => get?_put_ne other d'
  refine ⟨?_, rfl, ?_, ?_⟩
  · apply List.ext_getElem?
    intro j
    rw [getElem?_names, getElem?_names, name?, name?]
    by_cases same : j = k
    · rw [same, atK, found]
      exact congrArg some more.name
    · rw [elsewhere j same]
  · intro j other found'
    by_cases same : j = k
    · subst same
      cases found.symm.trans found'
      exact ⟨d', atK, more⟩
    · exact ⟨other, (elsewhere j same).trans found', rfl, fun _ => id, fun _ => id⟩
  · intro each j other found'
    by_cases same : j = k
    · subst same
      cases atK.symm.trans found'
      exact supported (each j d found)
    · exact each j other ((elsewhere j same).symm.trans found')

theorem fills_of_define {body : Term} (defined : store.define k body = .ok store')
    : store.Fills store' := by
  obtain ⟨d, found, undefined, rfl⟩ := define_eq_ok_iff.mp defined
  refine fills_put found ⟨rfl, fun body known => ?_, fun _ => id⟩ fun before thm recorded => ?_
  · cases undefined.symm.trans known
  · exact ⟨(before thm recorded).1, rfl⟩

theorem fills_of_attach {thm : Theorem} (attached : store.attach thm = .ok store')
    : store.Fills store' := by
  obtain ⟨k, proc, d, judged, found, defined, unproved, rfl⟩ := attach_eq_ok_iff.mp attached
  refine fills_put found ⟨rfl, fun _ => id, fun thm known => ?_⟩ fun _ thm' recorded => ?_
  · cases unproved.symm.trans known
  · cases recorded
    exact ⟨⟨proc, judged⟩, defined⟩

/-- A commit defines and attaches one after the other. -/
theorem fills_of_commit {defs : List (ConstId × Term)} {thms : List Theorem}
    (committed : store.commit defs thms = .ok store')
    : store.Fills store' := by
  obtain ⟨defined, first, second⟩ := bind_eq_ok_iff.mp committed
  have filled : store.Fills defined :=
    related_of_foldlM Fills.refl Fills.trans (fun _ _ _ => fills_of_define) first
  exact filled.trans
    (related_of_foldlM Fills.refl Fills.trans (fun _ _ _ => fills_of_attach) second)

-----------------------------------------------------------------------------------------
-- Operations
-----------------------------------------------------------------------------------------

inductive Operation where
  | reserve (name : Name)
  | commit (defs : List (ConstId × Term)) (thms : List Theorem)

def Operation.isReserve : Operation → Bool
  | .reserve _ => true
  | .commit _ _ => false

/-- The store that an operation makes, with the constant that it hands out. -/
def Operation.make (store : Store) : Operation → Except StoreError (Store × Option ConstId)
  | .reserve name => (store.reserve name).map fun made => (made.1, some made.2)
  | .commit defs thms => (store.commit defs thms).map fun next => (next, none)

/-- A program that changes a store in place. What it has changed before an error stays changed. -/
abbrev InPlace := ExceptT StoreError (StateM Store)

/-- The operation in place. The new store is made on the side and put in the place of the old one at
the end.
-/
def Operation.run (op : Operation) : InPlace (Option ConstId) := do
  let made ← MonadExcept.ofExcept (op.make (← get))
  set made.1
  return made.2

/-- The answer to an operation, and the store after it. -/
def perform (store : Store) (op : Operation) : Except StoreError (Option ConstId) × Store :=
  op.run.run store

/-- The store after a sequence of operations, some of which may have been refused. -/
def after (store : Store) (ops : List Operation) : Store :=
  ops.foldl (fun store op => (store.perform op).2) store

/-- The constants handed out by a sequence of operations. -/
def handedOut (store : Store) : List Operation → List ConstId
  | [] => []
  | op :: ops =>
      (store.perform op).1.toOption.join.toList ++ (store.perform op).2.handedOut ops

theorem perform_of_ok {op : Operation} {made : Store × Option ConstId}
    (done : op.make store = .ok made)
    : store.perform op = (.ok made.2, made.1) := by
  have step : store.perform op
      = (do
          let made ← MonadExcept.ofExcept (op.make store)
          set made.1
          return made.2 : InPlace (Option ConstId)).run store := rfl
  rw [step, done]
  rfl

theorem perform_of_error {op : Operation} {e : StoreError} (refused : op.make store = .error e)
    : store.perform op = (.error e, store) := by
  have step : store.perform op
      = (do
          let made ← MonadExcept.ofExcept (op.make store)
          set made.1
          return made.2 : InPlace (Option ConstId)).run store := rfl
  rw [step, refused]
  rfl

/-- All that an operation can do: it is refused without a trace, adds a constant under a new name,
or fills in constants.
-/
theorem perform_cases (store : Store) (op : Operation)
    : (∃ e, store.perform op = (.error e, store))
      ∨ (∃ name,
          op = .reserve name
          ∧ store.lookup name = none
          ∧ store.perform op = (.ok (some store.size), store.push name))
      ∨ ∃ next, store.Fills next ∧ store.perform op = (.ok none, next) := by
  cases op with
  | reserve name =>
      cases found : store.lookup name with
      | some k =>
          have refused : (Operation.reserve name).make store = .error (.duplicate name) := by
            simp [Operation.make, reserve_of_taken found, Except.map]
          exact .inl ⟨_, perform_of_error refused⟩
      | none =>
          have done : (Operation.reserve name).make store
              = .ok (store.push name, some store.size) := by
            simp [Operation.make, reserve_of_fresh found, Except.map]
          exact .inr (.inl ⟨name, rfl, found, perform_of_ok done⟩)
  | commit defs thms =>
      cases made : store.commit defs thms with
      | error e =>
          have refused : (Operation.commit defs thms).make store = .error e := by
            simp [Operation.make, made, Except.map]
          exact .inl ⟨e, perform_of_error refused⟩
      | ok next =>
          have done : (Operation.commit defs thms).make store = .ok (next, none) := by
            simp [Operation.make, made, Except.map]
          exact .inr (.inr ⟨next, fills_of_commit made, perform_of_ok done⟩)

/-- An operation changes the store only when nothing can be refused any more. -/
theorem eq_of_perform_eq_error {op : Operation} {e : StoreError} {left : Store}
    (refused : store.perform op = (.error e, left))
    : left = store := by
  cases made : op.make store with
  | error e' => cases (perform_of_error made).symm.trans refused; rfl
  | ok made' => cases (perform_of_ok made).symm.trans refused

-----------------------------------------------------------------------------------------
-- Sequences of operations
-----------------------------------------------------------------------------------------

theorem get?_push (store : Store) (name : Name) {d : Definition}
    : (store.push name).get? k = some d
      ↔ store.get? k = some d ∨ k = store.size ∧ d = reserved name := by
  rw [get?, get?, size, push, List.getElem?_append]
  grind [reserved]

/-- The indexes agree, and theorems are recorded where they belong. -/
structure Coherent (store : Store) : Prop where
  indexed : store.Indexed
  supported : ∀ k d, store.get? k = some d → d.Supported k

theorem coherent_empty : empty.Coherent :=
  ⟨indexed_empty, nofun⟩

/-- What one operation keeps of a store. -/
theorem Coherent.perform (coherent : store.Coherent) (op : Operation)
    : (store.perform op).2.Coherent := by
  rcases store.perform_cases op with ⟨e, done⟩ | ⟨name, _, fresh, done⟩ | ⟨next, fills, done⟩
  · rw [done]
    exact coherent
  · rw [done]
    refine ⟨coherent.indexed.push fresh, fun k d found => ?_⟩
    rcases (get?_push store name).mp found with before | ⟨_, rfl⟩
    · exact coherent.supported k d before
    · intro thm attached
      cases attached
  · rw [done]
    exact ⟨coherent.indexed.of_eq fills.names fills.byName, fills.supported coherent.supported⟩

theorem extends_perform (store : Store) (op : Operation) : store.Extends (store.perform op).2 := by
  rcases store.perform_cases op with ⟨e, done⟩ | ⟨name, _, _, done⟩ | ⟨next, fills, done⟩
  · rw [done]
    exact .refl store
  · rw [done]
    intro k d found
    exact ⟨d, (get?_push store name).mpr (.inl found), rfl, fun _ => id, fun _ => id⟩
  · rw [done]
    exact fills.extended

/-- A constant that is handed out is the next one, and no other constant is added. -/
theorem range_perform (store : Store) (op : Operation)
    : List.range store.size ++ (store.perform op).1.toOption.join.toList
      = List.range (store.perform op).2.size := by
  rcases store.perform_cases op with ⟨e, done⟩ | ⟨name, _, _, done⟩ | ⟨next, fills, done⟩
  · simp [done, Except.toOption]
  · simp [done, Except.toOption, size, push, List.range_succ]
  · simp [done, Except.toOption, fills.size_eq]

theorem after_cons (store : Store) (op : Operation) (ops : List Operation)
    : store.after (op :: ops) = (store.perform op).2.after ops := rfl

theorem Coherent.after (coherent : store.Coherent) (ops : List Operation)
    : (store.after ops).Coherent := by
  induction ops generalizing store with
  | nil => exact coherent
  | cons op ops ih => exact ih (coherent.perform op)

theorem extends_after (store : Store) (ops : List Operation) : store.Extends (store.after ops) := by
  induction ops generalizing store with
  | nil => exact .refl store
  | cons op ops ih => exact (store.extends_perform op).trans (ih (store.perform op).2)

theorem range_after (store : Store) (ops : List Operation)
    : List.range store.size ++ store.handedOut ops = List.range (store.after ops).size := by
  induction ops generalizing store with
  | nil => exact List.append_nil _
  | cons op ops ih =>
      rw [handedOut, ← List.append_assoc, range_perform, ih]
      rfl

/-- Only a reservation adds a constant. -/
theorem size_perform_le (store : Store) (op : Operation)
    : (store.perform op).2.size ≤ store.size + if op.isReserve then 1 else 0 := by
  rcases store.perform_cases op with ⟨e, done⟩ | ⟨name, rfl, _, done⟩ | ⟨next, fills, done⟩
  · rw [done]
    exact Nat.le_add_right _ _
  · simp [done, size, push, Operation.isReserve]
  · rw [done, fills.size_eq]
    exact Nat.le_add_right _ _

theorem size_after_le (store : Store) (ops : List Operation)
    : (store.after ops).size ≤ store.size + ops.countP Operation.isReserve := by
  induction ops generalizing store with
  | nil => exact Nat.le_refl _
  | cons op ops ih =>
      have first := store.size_perform_le op
      have others := ih (store.perform op).2
      rw [List.countP_cons, after_cons]
      omega

/-- A definition that is refused after others were accepted has the whole commit refused. -/
theorem commit_append_define {valid rest : List (ConstId × Term)} {thms : List Theorem}
    {next : Store} {body : Term} {e : StoreError} (accepted : store.commit valid [] = .ok next)
    (refused : next.define k body = .error e)
    : store.commit (valid ++ (k, body) :: rest) thms = .error e := by
  obtain ⟨defined, first, second⟩ := bind_eq_ok_iff.mp accepted
  cases second
  refine bind_eq_error_iff.mpr (.inl ?_)
  rw [List.foldlM_append, first]
  exact bind_eq_error_iff.mpr (.inr ⟨_, rfl, bind_eq_error_iff.mpr (.inl refused)⟩)

/-- A theorem that is refused after others were accepted has the whole commit refused. -/
theorem commit_append_attach {defs : List (ConstId × Term)} {valid rest : List Theorem}
    {next : Store} {thm : Theorem} {e : StoreError} (accepted : store.commit defs valid = .ok next)
    (refused : next.attach thm = .error e)
    : store.commit defs (valid ++ thm :: rest) = .error e := by
  obtain ⟨defined, first, second⟩ := bind_eq_ok_iff.mp accepted
  refine bind_eq_error_iff.mpr (.inr ⟨defined, first, ?_⟩)
  rw [List.foldlM_append, second]
  exact bind_eq_error_iff.mpr (.inr ⟨next, rfl, bind_eq_error_iff.mpr (.inl refused)⟩)

/-- After any operations on an empty store, the two indexes agree: names and constants determine one
another. Constants were handed out one after the other, no more of them than there were
reservations, so that they stay within the limit as long as these do, and have different names; a
theorem is recorded where it belongs. Whatever follows, a body or a theorem that is there stays, and
an operation that is refused leaves the store as it was, also where it is refused for a definition
or a theorem after others that were accepted.
-/
theorem appendOnly_and_atomic (ops : List Operation)
    : (∀ name k,
        (empty.after ops).lookup name = some k
        ↔ ∃ d, (empty.after ops).get? k = some d ∧ d.name = name)
      ∧ (empty.handedOut ops = List.range (empty.after ops).size
        ∧ (empty.after ops).size ≤ ops.countP Operation.isReserve
        ∧ (ops.countP Operation.isReserve ≤ indexLimit
          → ∀ k ∈ empty.handedOut ops, k < indexLimit))
      ∧ (empty.after ops).names.Nodup
      ∧ (∀ k d thm,
          (empty.after ops).get? k = some d
          → d.thm = some thm
          → (∃ proc, thm.judgement = .fnCorres k proc) ∧ d.body.isSome = true)
      ∧ (∀ later k d,
          (empty.after ops).get? k = some d
          → ∃ d',
              (empty.after (ops ++ later)).get? k = some d'
              ∧ d'.name = d.name
              ∧ (∀ body, d.body = some body → d'.body = some body)
              ∧ ∀ thm, d.thm = some thm → d'.thm = some thm)
      ∧ (∀ op e left, (empty.after ops).perform op = (.error e, left) → left = empty.after ops)
      ∧ (∀ valid k body rest thms next e,
          (empty.after ops).commit valid [] = .ok next
          → next.define k body = .error e
          → (empty.after ops).perform (.commit (valid ++ (k, body) :: rest) thms)
            = (.error e, empty.after ops))
      ∧ ∀ defs valid thm rest next e,
          (empty.after ops).commit defs valid = .ok next
          → next.attach thm = .error e
          → (empty.after ops).perform (.commit defs (valid ++ thm :: rest))
            = (.error e, empty.after ops) := by
  have coherent := coherent_empty.after ops
  have handed : empty.handedOut ops = List.range (empty.after ops).size := empty.range_after ops
  have few : (empty.after ops).size ≤ ops.countP Operation.isReserve :=
    Nat.le_trans (empty.size_after_le ops) (Nat.le_of_eq (Nat.zero_add _))
  refine ⟨fun name k => (coherent.indexed name k).trans Option.map_eq_some_iff,
    ⟨handed, few, ?_⟩, coherent.indexed.nodup_names,
    fun k d thm found => coherent.supported k d found thm, ?_, ?_, ?_, ?_⟩
  · intro within k among
    rw [handed, List.mem_range] at among
    exact Nat.lt_of_lt_of_le among (Nat.le_trans few within)
  · intro later k d found
    obtain ⟨d', found', more⟩ := (empty.after ops).extends_after later k d found
    rw [after, List.foldl_append]
    exact ⟨d', found', more.name, more.body, more.thm⟩
  · intro op e left refused
    exact eq_of_perform_eq_error refused
  · intro valid k body rest thms next e accepted refused
    have whole := @commit_append_define _ _ _ rest thms _ _ _ accepted refused
    exact perform_of_error (by simp [Operation.make, whole, Except.map])
  · intro defs valid thm rest next e accepted refused
    have whole := @commit_append_attach _ _ _ rest _ _ _ accepted refused
    exact perform_of_error (by simp [Operation.make, whole, Except.map])

/-- The second of three definitions is of a constant that was never reserved. -/
theorem appendOnly_and_atomic_unreserved
    : (empty.after [.reserve "f", .reserve "g"]).perform
        (.commit [(0, .skip), (7, .skip), (1, .fail)] [])
      = (.error (.notReserved 7),
          ⟨[⟨"f", none, none⟩, ⟨"g", none, none⟩], ⟨[("f", 0), ("g", 1)]⟩⟩) :=
  (appendOnly_and_atomic [.reserve "f", .reserve "g"]).2.2.2.2.2.2.1 [(0, .skip)] 7 .skip
    [(1, .fail)] [] ⟨[⟨"f", some .skip, none⟩, ⟨"g", none, none⟩], ⟨[("f", 0), ("g", 1)]⟩⟩ _ rfl rfl

end Store

end Monadize
