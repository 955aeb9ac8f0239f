import Monadize.Proof.Cluster
import Monadize.Proof.Derive
import Monadize.Proofs.Store.Operations

/-! Which commits a store accepts, and what it records of them. Both rounds of a commit, the one
over the definitions and the one over the theorems, look at a store that has been filled in already,
and come to the same as a look at the lists: each entry is filled in once.
-/

namespace Monadize

/-- The theorem is about the constant. -/
def Theorem.IsAbout (thm : Theorem) (k : ConstId) : Prop :=
  ∃ proc, thm.judgement = .fnCorres k proc

namespace Store

-----------------------------------------------------------------------------------------
-- Filling in entries one after the other
-----------------------------------------------------------------------------------------

/-- A way to fill in entries. An item belongs to at most one entry, which has to be ready for it and
is not ready for another item afterwards.
-/
structure Filling (β : Type) where
  step : Store → β → Except StoreError Store
  belongs : β → ConstId → Prop
  ready : Definition → Prop
  put : β → Definition → Definition
  unique : ∀ {item j k}, belongs item j → belongs item k → j = k
  step_eq_ok_iff
    : ∀ {store store' item},
        step store item = .ok store'
        ↔ ∃ k d,
            belongs item k
            ∧ store.get? k = some d
            ∧ ready d
            ∧ store' = store.put k (put item d)
  once : ∀ item d, ¬ ready (put item d)

namespace Filling

variable {β : Type} {filling : Filling β} {store next : Store} {items : List β}

/-- The items belong to these entries, which are different and ready. -/
structure Fits (filling : Filling β) (store : Store) (items : List β) (ks : List ConstId)
    : Prop where
  belong : List.Forall₂ filling.belongs items ks
  distinct : ks.Nodup
  ready : ∀ k ∈ ks, ∃ d, store.get? k = some d ∧ filling.ready d

/-- Each item has been put into the entry it belongs to, and the other entries are as before. -/
structure Filled (filling : Filling β) (store next : Store) (items : List β) : Prop where
  put
    : ∀ item ∈ items, ∀ k,
        filling.belongs item k
        → ∃ d, store.get? k = some d ∧ next.get? k = some (filling.put item d)
  kept : ∀ k, (∀ item ∈ items, ¬ filling.belongs item k) → next.get? k = store.get? k

/-- Items that are accepted one after the other fit together, by induction on them. -/
theorem fits_and_filled_of_foldlM (done : items.foldlM filling.step store = .ok next)
    : (∃ ks, filling.Fits store items ks) ∧ filling.Filled store next items := by
  induction items generalizing store with
  | nil =>
      cases done
      exact ⟨⟨[], .nil, .nil, by simp⟩, by simp, fun _ _ => rfl⟩
  | cons item rest ih =>
      rw [List.foldlM_cons, bind_eq_ok_iff] at done
      obtain ⟨middle, first, others⟩ := done
      obtain ⟨k, d, belongs, found, ready, rfl⟩ := filling.step_eq_ok_iff.mp first
      obtain ⟨⟨ks, fits⟩, filled⟩ := ih others
      have here := get?_put_self found (filling.put item d)
      have elsewhere (j : ConstId) (other : j ≠ k)
          : (store.put k (filling.put item d)).get? j = store.get? j :=
        get?_put_ne other _
      -- the entry is not ready a second time, so that no later item belongs to it
      have fresh : k ∉ ks := by
        intro again
        obtain ⟨d', found', ready'⟩ := fits.ready k again
        cases here.symm.trans found'
        exact filling.once item d ready'
      have apart (other : β) (among : other ∈ rest) : ¬ filling.belongs other k := by
        intro same
        obtain ⟨j, later, belongsToo⟩ := exists_right_of_mem fits.belong among
        exact fresh (filling.unique belongsToo same ▸ later)
      refine ⟨⟨k :: ks, .cons belongs fits.belong, List.nodup_cons.mpr ⟨fresh, fits.distinct⟩, ?_⟩,
        ?_, ?_⟩
      · intro j among
        rcases List.mem_cons.mp among with rfl | later
        · exact ⟨d, found, ready⟩
        · have other : j ≠ k := fun same => fresh (same ▸ later)
          rw [← elsewhere j other]
          exact fits.ready j later
      · intro other among j belongsToo
        rcases List.mem_cons.mp among with rfl | later
        · cases filling.unique belongsToo belongs
          exact ⟨d, found, (filled.kept k apart).trans here⟩
        · have differ : j ≠ k := fun same => apart other later (same ▸ belongsToo)
          rw [← elsewhere j differ]
          exact filled.put other later j belongsToo
      · intro j none
        have differ : j ≠ k := fun same => none item List.mem_cons_self (same ▸ belongs)
        rw [← elsewhere j differ]
        exact filled.kept j fun other later => none other (List.mem_cons_of_mem item later)

/-- Items that fit together are accepted one after the other, by induction on them. -/
theorem exists_foldlM_of_fits {ks : List ConstId} (fits : filling.Fits store items ks)
    : ∃ next, items.foldlM filling.step store = .ok next := by
  obtain ⟨belong, distinct, ready⟩ := fits
  induction belong generalizing store with
  | nil => exact ⟨store, rfl⟩
  | @cons item k rest ks belongs _ ih =>
      obtain ⟨fresh, distinctRest⟩ := List.nodup_cons.mp distinct
      obtain ⟨d, found, readyFirst⟩ := ready k List.mem_cons_self
      have readyRest : ∀ j ∈ ks, ∃ d',
          (store.put k (filling.put item d)).get? j = some d' ∧ filling.ready d' := by
        intro j later
        have other : j ≠ k := fun same => fresh (same ▸ later)
        rw [get?_put_ne other]
        exact ready j (List.mem_cons_of_mem k later)
      obtain ⟨next, others⟩ := ih distinctRest readyRest
      refine ⟨next, ?_⟩
      rw [List.foldlM_cons, bind_eq_ok_iff]
      exact ⟨_, filling.step_eq_ok_iff.mpr ⟨k, d, belongs, found, readyFirst, rfl⟩, others⟩

/-- What no item changes is as before, in every entry. -/
theorem Filled.bind_eq (filled : filling.Filled store next items) {γ : Type}
    {read : Definition → Option γ} (keeps : ∀ item d, read (filling.put item d) = read d)
    (k : ConstId)
    : (next.get? k).bind read = (store.get? k).bind read := by
  by_cases given : ∃ item ∈ items, filling.belongs item k
  · obtain ⟨item, among, belongs⟩ := given
    obtain ⟨d, before, after⟩ := filled.put item among k belongs
    rw [before, after]
    exact keeps item d
  · rw [filled.kept k fun item among belongs => given ⟨item, among, belongs⟩]

end Filling

/-- Definitions give bodies to constants that have none. -/
def fillBodies : Filling (ConstId × Term) where
  step store row := store.define row.1 row.2
  belongs row k := row.1 = k
  ready d := d.body = none
  put row d := { d with body := some row.2 }
  unique first second := first.symm.trans second
  step_eq_ok_iff := by
    intro store store' row
    rw [define_eq_ok_iff]
    constructor
    · intro ⟨d, found, undefined, same⟩
      exact ⟨row.1, d, rfl, found, undefined, same⟩
    · intro ⟨k, d, here, found, undefined, same⟩
      subst here
      exact ⟨d, found, undefined, same⟩
  once row d again := by cases again

/-- Theorems are recorded at defined constants that have none. -/
def fillTheorems : Filling Theorem where
  step := attach
  belongs := Theorem.IsAbout
  ready d := d.body.isSome = true ∧ d.thm = none
  put thm d := { d with thm := some thm }
  unique := by
    intro thm j k ⟨proc, first⟩ ⟨proc', second⟩
    cases first.symm.trans second
    rfl
  step_eq_ok_iff := by
    intro store store' thm
    rw [attach_eq_ok_iff]
    constructor
    · intro ⟨k, proc, d, judged, found, defined, unproved, same⟩
      exact ⟨k, d, ⟨proc, judged⟩, found, ⟨defined, unproved⟩, same⟩
    · intro ⟨k, d, ⟨proc, judged⟩, found, ⟨defined, unproved⟩, same⟩
      exact ⟨k, proc, d, judged, found, defined, unproved, same⟩
  once thm d again := by cases again.2

-----------------------------------------------------------------------------------------
-- Commits
-----------------------------------------------------------------------------------------

def body? (store : Store) (k : ConstId) : Option Term := (store.get? k).bind (·.body)

def theorem? (store : Store) (k : ConstId) : Option Theorem := (store.get? k).bind (·.thm)

/-- The constant has been defined, but no theorem is recorded about it. -/
def Unproved (store : Store) (k : ConstId) : Prop :=
  ∃ d, store.get? k = some d ∧ d.body.isSome = true ∧ d.thm = none

/-- Different constants are defined, which are reserved and not defined yet, and the theorems are
about different constants that are eligible.
-/
structure Registrable (store : Store) (defs : List (ConstId × Term)) (thms : List Theorem)
    (eligible : ConstId → Prop) : Prop where
  once : (defs.map Prod.fst).Nodup
  reserved : ∀ k ∈ defs.map Prod.fst, ∃ d, store.get? k = some d ∧ d.body = none
  about : ∃ ks, List.Forall₂ Theorem.IsAbout thms ks ∧ ks.Nodup ∧ ∀ k ∈ ks, eligible k

/-- The bodies and theorems are in the new store, and all else is as it was. -/
structure Records (store next : Store) (defs : List (ConstId × Term)) (thms : List Theorem)
    : Prop where
  names : next.names = store.names
  byName : next.byName = store.byName
  bodies : ∀ k body, (k, body) ∈ defs → next.body? k = some body
  otherBodies : ∀ k, k ∉ defs.map Prod.fst → next.body? k = store.body? k
  theorems : ∀ thm ∈ thms, ∀ k, thm.IsAbout k → next.theorem? k = some thm
  otherTheorems
    : ∀ k, (∀ thm ∈ thms, ¬ thm.IsAbout k) → next.theorem? k = store.theorem? k

variable {store next : Store} {defs : List (ConstId × Term)} {thms : List Theorem}

theorem fits_fillBodies_iff
    : (∃ ks, fillBodies.Fits store defs ks)
      ↔ (defs.map Prod.fst).Nodup
        ∧ ∀ k ∈ defs.map Prod.fst, ∃ d, store.get? k = some d ∧ d.body = none := by
  constructor
  · intro ⟨ks, belong, distinct, ready⟩
    have same : ks = defs.map Prod.fst :=
      eq_map_of_related (belong.flip.imp fun _ _ here => here.symm)
    exact same ▸ ⟨distinct, ready⟩
  · intro ⟨distinct, ready⟩
    refine ⟨defs.map Prod.fst, ?_, distinct, ready⟩
    exact List.forall₂_map_right_iff.mpr (List.forall₂_same.mpr fun _ _ => rfl)

/-- After the definitions, a constant can be given a theorem if it has just been defined, or was
defined before and has no theorem.
-/
theorem ready_iff_of_filled {defined : Store} (coherent : store.Coherent)
    (undefined : ∀ k ∈ defs.map Prod.fst, ∃ d, store.get? k = some d ∧ d.body = none)
    (filled : fillBodies.Filled store defined defs) (k : ConstId)
    : (∃ d, defined.get? k = some d ∧ fillTheorems.ready d)
      ↔ k ∈ defs.map Prod.fst ∨ store.Unproved k := by
  by_cases among : k ∈ defs.map Prod.fst
  · obtain ⟨d, found, bare⟩ := undefined k among
    obtain ⟨row, member, rfl⟩ := List.mem_map.mp among
    have unproved : d.thm = none := by
      cases recorded : d.thm with
      | none => rfl
      | some thm =>
          have body := (coherent.supported row.1 d found thm recorded).2
          rw [bare] at body
          cases body
    obtain ⟨d', found', after⟩ := filled.put row member row.1 rfl
    cases found.symm.trans found'
    exact iff_of_true ⟨_, after, rfl, unproved⟩ (.inl among)
  · have kept : defined.get? k = store.get? k :=
      filled.kept k fun row member here => among (here ▸ List.mem_map_of_mem member)
    rw [kept]
    exact (or_iff_right among).symm

theorem exists_commit_iff (coherent : store.Coherent)
    : (∃ next, store.commit defs thms = .ok next)
      ↔ store.Registrable defs thms fun k => k ∈ defs.map Prod.fst ∨ store.Unproved k := by
  constructor
  · intro ⟨next, committed⟩
    obtain ⟨defined, first, second⟩ := bind_eq_ok_iff.mp committed
    obtain ⟨fits, filled⟩ := fillBodies.fits_and_filled_of_foldlM first
    obtain ⟨once, undefined⟩ := fits_fillBodies_iff.mp fits
    obtain ⟨⟨ks, about, distinct, ready⟩, _⟩ := fillTheorems.fits_and_filled_of_foldlM second
    refine ⟨once, undefined, ks, about, distinct, ?_⟩
    intro k among
    exact (ready_iff_of_filled coherent undefined filled k).mp (ready k among)
  · intro ⟨once, undefined, ks, about, distinct, eligible⟩
    obtain ⟨_, fits⟩ := fits_fillBodies_iff.mpr ⟨once, undefined⟩
    obtain ⟨defined, first⟩ := fillBodies.exists_foldlM_of_fits fits
    obtain ⟨_, filled⟩ := fillBodies.fits_and_filled_of_foldlM first
    have ready : ∀ k ∈ ks, ∃ d, defined.get? k = some d ∧ fillTheorems.ready d := by
      intro k among
      exact (ready_iff_of_filled coherent undefined filled k).mpr (eligible k among)
    obtain ⟨next, second⟩ := fillTheorems.exists_foldlM_of_fits ⟨about, distinct, ready⟩
    exact ⟨next, bind_eq_ok_iff.mpr ⟨defined, first, second⟩⟩

/-- What a commit does to a store that it is accepted by. -/
theorem records_of_commit (committed : store.commit defs thms = .ok next)
    : store.Records next defs thms := by
  obtain ⟨defined, first, second⟩ := bind_eq_ok_iff.mp committed
  obtain ⟨_, given⟩ := fillBodies.fits_and_filled_of_foldlM first
  obtain ⟨_, proved⟩ := fillTheorems.fits_and_filled_of_foldlM second
  have sameBodies (k : ConstId) : next.body? k = defined.body? k :=
    proved.bind_eq (fun _ _ => rfl) k
  have sameTheorems (k : ConstId) : defined.theorem? k = store.theorem? k :=
    given.bind_eq (fun _ _ => rfl) k
  have fills := fills_of_commit committed
  refine ⟨fills.names, fills.byName, ?_, ?_, ?_, ?_⟩
  · intro k body among
    obtain ⟨d, _, after⟩ := given.put (k, body) among k rfl
    rw [sameBodies, body?, after]
    rfl
  · intro k outside
    have kept : defined.get? k = store.get? k :=
      given.kept k fun row among here => outside (here ▸ List.mem_map_of_mem among)
    rw [sameBodies, body?, kept, body?]
  · intro thm among k about
    obtain ⟨d, _, after⟩ := proved.put thm among k about
    rw [theorem?, after]
    rfl
  · intro k none
    rw [← sameTheorems, theorem?, proved.kept k none, theorem?]

/-- After any operations, a commit is accepted exactly if it defines different constants that are
reserved and not defined yet, and its theorems are about different constants, each of which is
defined by this commit, or by an earlier one that recorded no theorem about it. Then these constants
have the given bodies and theorems, and nothing else has changed. If none of the theorems is about a
constant that an earlier commit left without one, the constants have to be defined by this commit.
-/
theorem commit_accepted_iff (ops : List Operation) (defs : List (ConstId × Term))
    (thms : List Theorem)
    : ((∃ next, (empty.after ops).commit defs thms = .ok next)
        ↔ (empty.after ops).Registrable defs thms fun k =>
            k ∈ defs.map Prod.fst ∨ (empty.after ops).Unproved k)
      ∧ (∀ next,
          (empty.after ops).commit defs thms = .ok next
          → (empty.after ops).Records next defs thms)
      ∧ ((∀ thm ∈ thms, ∀ k, thm.IsAbout k → ¬ (empty.after ops).Unproved k)
          → ((∃ next, (empty.after ops).commit defs thms = .ok next)
            ↔ (empty.after ops).Registrable defs thms fun k => k ∈ defs.map Prod.fst)) := by
  have accepted : (∃ next, (empty.after ops).commit defs thms = .ok next) ↔ _ :=
    exists_commit_iff (coherent_empty.after ops)
  refine ⟨accepted, fun next => records_of_commit, ?_⟩
  intro settled
  rw [accepted]
  constructor
  · intro ⟨once, reserved, ks, about, distinct, eligible⟩
    refine ⟨once, reserved, ks, about, distinct, fun k among => ?_⟩
    obtain ⟨thm, member, tells⟩ := exists_left_of_mem about among
    exact (eligible k among).resolve_right (settled thm member k tells)
  · intro ⟨once, reserved, ks, about, distinct, eligible⟩
    exact ⟨once, reserved, ks, about, distinct, fun k among => .inl (eligible k among)⟩

/-- What the kernel proves about a constant that stands for a procedure without implementation. -/
def undefinedTheorem (k : ConstId) (proc : Name) : Theorem :=
  ⟨true, ⟨0, "w", .empty⟩, .fnCorres k proc, .empty, none⟩

/-- Two constants are defined together, in another order than they were reserved, and with their
theorems in yet another order.
-/
theorem commit_accepted_crosswise
    : ∃ next,
        (empty.after [.reserve "f", .reserve "g"]).commit [(1, .fail), (0, .skip)]
            [undefinedTheorem 0 "p", undefinedTheorem 1 "q"]
          = .ok next
        ∧ next.names = ["f", "g"]
        ∧ next.body? 1 = some .fail
        ∧ next.theorem? 0 = some (undefinedTheorem 0 "p") := by
  obtain ⟨_, recorded, settled⟩ := commit_accepted_iff [.reserve "f", .reserve "g"]
    [(1, .fail), (0, .skip)] [undefinedTheorem 0 "p", undefinedTheorem 1 "q"]
  have bare (k : ConstId) : ¬ (empty.after [.reserve "f", .reserve "g"]).Unproved k := by
    intro ⟨d, found, defined, _⟩
    have among : d ∈ [reserved "f", reserved "g"] := List.mem_of_getElem? found
    rcases List.mem_cons.mp among with rfl | second
    · cases defined
    · cases List.mem_singleton.mp second
      cases defined
  obtain ⟨next, committed⟩ := (settled fun _ _ k _ => bare k).mpr
    ⟨by decide, by decide, [0, 1], .cons ⟨"p", rfl⟩ (.cons ⟨"q", rfl⟩ .nil), by decide, by decide⟩
  have records := recorded next committed
  exact ⟨next, committed, records.names, records.bodies 1 .fail List.mem_cons_self,
    records.theorems _ List.mem_cons_self 0 ⟨"p", rfl⟩⟩

/-- A theorem is accepted that is about no constant of its commit: an earlier one has defined the
constant.
-/
theorem commit_accepts_belated
    : (∃ call cluster,
        Theorem.ofUndefined true ⟨0, "w", .empty⟩ "p" = .ok call
        ∧ closeCluster [⟨call, 0, .empty⟩] = .ok cluster
        ∧ cluster.thms = [undefinedTheorem 0 "p"])
      ∧ (empty.after [.reserve "f", .commit [(0, .fail)] []]).commit [] [undefinedTheorem 0 "p"]
        = .ok ⟨[⟨"f", some .fail, some (undefinedTheorem 0 "p")⟩], ⟨[("f", 0)]⟩⟩
      ∧ ¬ (empty.after [.reserve "f", .commit [(0, .fail)] []]).Registrable []
          [undefinedTheorem 0 "p"] fun k => k ∈ ([] : List (ConstId × Term)).map Prod.fst := by
  refine ⟨⟨_, _, rfl, rfl, rfl⟩, rfl, ?_⟩
  intro ⟨_, _, ks, about, _, eligible⟩
  obtain ⟨k, among, _⟩ := exists_right_of_mem about List.mem_cons_self
  cases eligible k among

end Store

end Monadize
