import Monadize.Proofs.Graph.Calls
import Monadize.Proofs.Run.Course

/-! Store and functions stay consistent over any number of runs: what a function is registered as is
what the store defines its constant to be, with a theorem that nothing is assumed in, and terms call
defined constants only.
-/

namespace Monadize

namespace Store

/-- The store has grown at its end. -/
def Grows (store store' : Store) : Prop := store.consts <+: store'.consts

/-- The constant has a body and a theorem of its own, which assumes nothing. -/
def Defines (store : Store) (k : ConstId) : Prop :=
  ∃ name body total env proc,
    store.get? k = some ⟨name, some body, some ⟨total, env, .fnCorres k proc, .empty, none⟩⟩

/-- The term has no placeholders, and all constants that it calls are defined. -/
def Closes (store : Store) (term : Term) : Prop :=
  ∀ callee ∈ term.callees, ∃ k, callee.target = .const k ∧ store.Defines k

/-- The constant is only reserved, or defined by a term that is closed in the store. -/
def Holds (store : Store) (k : ConstId) (d : Definition) : Prop :=
  d = reserved d.name ∨ ∃ body, d.body = some body ∧ store.Closes body ∧ store.Defines k

variable {store store' : Store} {k : ConstId}

theorem Grows.get? (grows : store.Grows store') {d : Definition} (found : store.get? k = some d)
    : store'.get? k = some d := by
  obtain ⟨added, whole⟩ := grows
  rw [Store.get?, ← whole, List.getElem?_append_left (List.getElem?_eq_some_iff.mp found).1]
  exact found

theorem Grows.names_subset (grows : store.Grows store') : store.names ⊆ store'.names :=
  List.map_subset _ (List.IsPrefix.subset grows)

theorem Grows.defines (grows : store.Grows store') (defined : store.Defines k)
    : store'.Defines k := by
  obtain ⟨name, body, total, env, proc, found⟩ := defined
  exact ⟨name, body, total, env, proc, grows.get? found⟩

theorem Grows.closes (grows : store.Grows store') {term : Term} (closed : store.Closes term)
    : store'.Closes term := by
  intro callee called
  obtain ⟨k, target, defined⟩ := closed callee called
  exact ⟨k, target, grows.defines defined⟩

theorem Grows.holds (grows : store.Grows store') {d : Definition} (holds : store.Holds k d)
    : store'.Holds k d := by
  refine holds.imp_right ?_
  rintro ⟨body, same, closed, defined⟩
  exact ⟨body, same, grows.closes closed, grows.defines defined⟩

end Store

/-- A registration of the function that the store holds. -/
structure Registration.Held (store : Store) (f : Function) (r : Registration) : Prop where
  named : store.lookup r.constName = some r.const
  defined : store.get? r.const = some r.definition
  about : ∃ total env, r.thm = ⟨total, env, .fnCorres r.const f.proc, .empty, none⟩
  closed : store.Closes r.term
  calleeConsts : ∀ name k, (name, k) ∈ r.calleeConsts.entries → store.Defines k
  mono : ∀ thm, r.mono = some thm → ∃ total env, thm = ⟨total, env, .mono r.const, .empty, none⟩
  measured : f.measured = true → r.mono.isSome = true

theorem Registration.Held.grows {store store' : Store} {f : Function} {r : Registration}
    (held : r.Held store f) (grows : store.Grows store') (indexed : store'.Indexed)
    : r.Held store' f where
  named := indexed.lookup_eq_some (grows.get? held.defined)
  defined := grows.get? held.defined
  about := held.about
  closed := grows.closes held.closed
  calleeConsts name k among := grows.defines (held.calleeConsts name k among)
  mono := held.mono
  measured := held.measured

/-- What of a function stays as it is in a run. -/
def Function.outline (f : Function) : Function :=
  { f with recCallees := .empty, registration := none }

namespace Run

/-- Constants and functions are listed under their names, and what functions are registered as is
held by the store.
-/
structure Consistent (state : RunState) : Prop where
  indexed : state.store.Indexed
  closed : ∀ k d, state.store.get? k = some d → state.store.Holds k d
  sorted : state.functions.Sorted
  named : ∀ name f, state.functions.find? name = some f → f.name = name
  held
    : ∀ name f r,
        state.functions.find? name = some f
        → f.registration = some r
        → r.Held state.store f

variable {plan : Plan} {settings : Settings}

-----------------------------------------------------------------------------------------
-- One cluster
-----------------------------------------------------------------------------------------

namespace Settled

variable {input state next : RunState} {compiled : List Compiled}
  (settled : Settled plan settings input.functions state compiled next)

include settled

theorem grows : state.store.Grows next.store := by
  rw [settled.store]
  exact ⟨_, rfl⟩

theorem get? {pair : Compiled × ConstId} (paired : pair ∈ Cluster.numbered state.store compiled)
    : next.store.get? pair.2
      = some (Cluster.registrationOf plan settings input.functions state.store compiled
          pair).definition := by
  rw [settled.store]
  exact Cluster.get?_extended paired

theorem defines {pair : Compiled × ConstId} (paired : pair ∈ Cluster.numbered state.store compiled)
    : next.store.Defines pair.2 :=
  ⟨_, _, _, _, _, settled.get? paired⟩

variable (fromInput : Consistent input) (before : Consistent state)
  (older : input.store.Grows state.store)

include before in
/-- The constants of the cluster have names that were not taken. -/
theorem not_mem_names {c : Compiled} (among : c ∈ compiled)
    : settings.constName c.name ∉ state.store.names :=
  before.indexed.lookup_eq_none_iff.mp (settled.registrable.fresh c among)

include before in
theorem indexed : next.store.Indexed := by
  rw [settled.store]
  exact Cluster.indexed_extended before.indexed settled.registrable

include fromInput older

/-- The constants that take the place of callees are defined, with the cluster or before. -/
theorem defines_callee {entry : CalleeEntry} {k : ConstId}
    (const : Cluster.calleeConst? input.functions state.store compiled entry = some k)
    : next.store.Defines k := by
  rcases Cluster.constOf?_eq_some_iff.mp const with
    ⟨_, sibling⟩ | ⟨_, g, r, found, registered, rfl⟩
  · obtain ⟨c, paired, _⟩ :=
      (Cluster.find?_siblings settled.registrable.distinct List.length_range').mp sibling
    exact settled.defines paired
  · have held := fromInput.held entry.func g r found registered
    obtain ⟨total, env, thm⟩ := held.about
    refine settled.grows.defines (older.defines ⟨r.constName, r.term, total, env, g.proc, ?_⟩)
    rw [held.defined, Registration.definition, thm]

/-- The registered terms are closed. -/
theorem closes {pair : Compiled × ConstId} (paired : pair ∈ Cluster.numbered state.store compiled)
    : next.store.Closes
        (Cluster.registrationOf plan settings input.functions state.store compiled pair).term := by
  intro callee called
  obtain ⟨_, entry, target, _, _, _, const, isConst, _⟩ :=
    settled.built.exists_callee settled.registrable.distinct List.nodup_range' List.length_range'
      paired (settled.registrable.dischargeable pair.1 (List.of_mem_zip paired).1) called
  exact ⟨target, isConst, settled.defines_callee fromInput older const⟩

include before

/-- The store holds the new registrations. -/
theorem held {pair : Compiled × ConstId} (paired : pair ∈ Cluster.numbered state.store compiled)
    {f : Function} (found : input.functions.find? pair.1.name = some f)
    : (Cluster.registrationOf plan settings input.functions state.store compiled pair).Held
        next.store
        { f with
          recCallees := pair.1.recCallees
          registration := some
            (Cluster.registrationOf plan settings input.functions state.store compiled pair) } := by
  have among := (List.of_mem_zip paired).1
  obtain ⟨term, builds⟩ := settled.built.builds_of_find? among found
  constructor
  · exact (settled.indexed before).lookup_eq_some (settled.get? paired)
  · exact settled.get? paired
  · exact ⟨settings.total, plan.env, by rw [← builds.proc_eq]; rfl⟩
  · exact settled.closes fromInput older paired
  · intro name k listed
    obtain ⟨p, _, bound⟩ := List.mem_filterMap.mp (FiniteMap.mem_entries_ofList listed)
    obtain ⟨entry, _, bound⟩ := Option.bind_eq_some_iff.mp bound
    obtain ⟨_, const, same⟩ := Option.map_eq_some_iff.mp bound
    cases same
    exact settled.defines_callee fromInput older const
  · intro thm proved
    obtain ⟨_, same⟩ := Option.ite_none_right_eq_some.mp proved
    exact ⟨settings.total, plan.env, (Option.some.inj same).symm⟩
  · intro measured
    have some : Cluster.isMeasured input.functions compiled = true :=
      List.any_eq_true.mpr ⟨pair.1, among, by rw [found]; exact measured⟩
    exact congrArg Option.isSome (if_pos some)

/-- Registering a cluster keeps store and functions consistent. -/
theorem consistent : Consistent next where
  indexed := settled.indexed before
  closed := by
    intro k d found
    rw [settled.store] at found
    rcases Cluster.get?_of_get?_extended found with old | ⟨pair, paired, rfl, rfl⟩
    · exact settled.grows.holds (before.closed k d old)
    · exact .inr ⟨_, rfl, settled.closes fromInput older paired, settled.defines paired⟩
  sorted := settled.sorted before.sorted
  named := settled.named fromInput.named before.named
  held := by
    intro name f r found registered
    rcases settled.of_find? found with old | ⟨pair, paired, rfl, g, foundInput, rfl⟩
    · exact (before.held name f r old registered).grows settled.grows (settled.indexed before)
    · cases registered
      exact settled.held fromInput before older paired foundInput

end Settled

-----------------------------------------------------------------------------------------
-- One run
-----------------------------------------------------------------------------------------

/-- A state of a run from `start`: it is consistent, and functions are registered at most. -/
structure Stage (start state : RunState) : Prop where
  consistent : Consistent state
  grows : start.store.Grows state.store
  outlines
    : ∀ name,
        (state.functions.find? name).map Function.outline
        = (start.functions.find? name).map Function.outline

namespace Stage

variable {start state : RunState} (stage : Stage start state) {name : Name}

include stage

theorem exists_start {f : Function} (found : state.functions.find? name = some f)
    : ∃ f₀, start.functions.find? name = some f₀ ∧ f₀.outline = f.outline := by
  have same := stage.outlines name
  rw [found] at same
  exact Option.map_eq_some_iff.mp same.symm

theorem exists_find? {f₀ : Function} (found : start.functions.find? name = some f₀)
    : ∃ f, state.functions.find? name = some f ∧ f.outline = f₀.outline := by
  have same := stage.outlines name
  rw [found] at same
  exact Option.map_eq_some_iff.mp same

theorem usable
    (known
      : ∀ members ∈ plan.graph.clusters, ∀ name ∈ members,
          ∃ f, start.functions.find? name = some f)
    : Usable plan state.functions where
  known := by
    intro members cluster name member
    obtain ⟨f₀, found⟩ := known members cluster name member
    obtain ⟨f, foundToo, _⟩ := stage.exists_find? found
    exact ⟨f, foundToo⟩
  named := stage.consistent.named
  about name g r found registered := (stage.consistent.held name g r found registered).about

end Stage

/-- Registering a cluster leads from a state of a run to another one. -/
theorem Settled.stage {start input state next : RunState} {compiled : List Compiled}
    (settled : Settled plan settings input.functions state compiled next)
    (fromInput : Stage start input) (before : Stage start state)
    (older : input.store.Grows state.store)
    : Stage start next := by
  refine ⟨settled.consistent fromInput.consistent before.consistent older,
    List.IsPrefix.trans before.grows settled.grows, ?_⟩
  intro name
  rcases settled.functions name with ⟨_, same⟩ | ⟨_, _, rfl, f, found, changed⟩
  · rw [same]
    exact before.outlines name
  · rw [changed, ← fromInput.outlines, found]
    rfl

/-- All states of a run from a consistent one are. -/
theorem Course.stage {start state : RunState} {states : List RunState}
    (course : Course plan settings start (state :: states)) (consistent : Consistent start)
    (known
      : ∀ members ∈ plan.graph.clusters, ∀ name ∈ members,
          ∃ f, start.functions.find? name = some f)
    : ∀ s ∈ state :: states, Stage start s ∧ s.store.Grows state.store := by
  refine course.forall (P := Stage start) (R := fun a b => a.store.Grows b.store)
    (fun s => List.prefix_rfl) List.IsPrefix.trans ⟨consistent, List.prefix_rfl, fun _ => rfl⟩ ?_
  intro input state next id fromInput before older result
  obtain ⟨_, _, _, _, settled⟩ := (fromInput.usable known).settled result
  exact ⟨settled.stage fromInput before older, settled.grows⟩

/-- What a run of a program starts with. -/
def opening (program : Program) (state : RunState) : RunState :=
  ⟨state.store, (Plan.ofProgram program state.functions).2.union state.functions⟩

end Run

end Monadize
