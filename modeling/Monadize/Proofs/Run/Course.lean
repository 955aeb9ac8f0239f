import Monadize.Proofs.Cluster.Commit
import Monadize.Proofs.Cluster.Compile
import Monadize.Proofs.FiniteMap.Sorted
import Monadize.Proofs.Schedule.History
import Monadize.Run.Parallel

/-! The course of a run, one cluster after the other or many at a time. Either way the state changes
only when a cluster is registered, and the cluster was compiled from the functions of some earlier
state.
-/

namespace Monadize

namespace Run

/-- Compile a cluster from the functions `input` and register it on top of the state. -/
def settle (plan : Plan) (settings : Settings) (input : FunctionTable) (state : RunState)
    (id : ClusterId)
    : Except CompileError RunState := do
  let compiled ← (Cluster.compile (plan.scope settings input) id
    (plan.graph.clusters[id]?.getD [])).result
  let (store, committed) ← Cluster.commit settings state.store input compiled
  return Cluster.advance state.functions store committed

variable {plan : Plan} {settings : Settings}

theorem outcome_item (plan : Plan) (settings : Settings) (state : RunState) (id : ClusterId)
    : (item plan settings state id).outcome = (cluster plan settings state id).result := by
  unfold item
  cases result : (cluster plan settings state id).result with
  | ok next => simp only [result]
  | error e => simp only [result]

theorem settle_eq_error (plan : Plan) {input : FunctionTable} {state : RunState} {id : ClusterId}
    {members : List Name} (here : plan.graph.clusters[id]? = some members) {e : CompileError}
    (refused : (Cluster.compile (plan.scope settings input) id members).result = .error e)
    : settle plan settings input state id = .error e := by
  rw [settle, here, Option.getD_some, refused]
  rfl

/-- One after the other, clusters are compiled from the functions as they are. -/
theorem outcome_item_eq_settle (plan : Plan) (settings : Settings) (state : RunState)
    (id : ClusterId)
    : (item plan settings state id).outcome
      = settle plan settings state.functions state id := by
  rw [outcome_item]
  simp only [cluster, settle, Reported.result_bind, Reported.result_ofExcept, Reported.result_tell,
    Reported.result_pure]
  rfl

/-- The state of a run without the records of the workers. -/
def Shared.runState (shared : Shared) : RunState := ⟨shared.store, shared.functions⟩

/-- Many at a time, a cluster is compiled from the functions of the time it was admitted. If it is
not registered the error is kept, and a fatal one stops the run.
-/
theorem commit_task (shared : Shared) {id : ClusterId} {input : FunctionTable} {output : Output}
    (works : (task plan settings).work id input = some output)
    : (∃ next journal,
        settle plan settings input shared.runState id = .ok next
        ∧ (task plan settings).commit shared id output
          = (⟨next.store, next.functions, shared.errors, journal⟩, .proceed))
      ∨ ∃ e journal,
          settle plan settings input shared.runState id = .error e
          ∧ (task plan settings).commit shared id output
            = (⟨shared.store, shared.functions, shared.errors ++ [(id, e)], journal⟩,
                if e.isFatal then .stop else .proceed) := by
  obtain ⟨members, here, rfl⟩ := Option.map_eq_some_iff.mp works
  simp only [task, commitOutput, settle, Shared.runState, here, Option.getD_some, bind]
  cases (Cluster.compile (plan.scope settings input) id members).result with
  | error e => exact .inr ⟨e, _, rfl, rfl⟩
  | ok compiled =>
      simp only [Except.bind]
      cases Cluster.commit settings shared.store input compiled with
      | error e => exact .inr ⟨e, _, rfl, rfl⟩
      | ok committed => exact .inl ⟨_, _, rfl, rfl⟩

-----------------------------------------------------------------------------------------
-- Courses
-----------------------------------------------------------------------------------------

/-- The states that a run has gone through, the latest one first. -/
inductive Course (plan : Plan) (settings : Settings) (start : RunState) : List RunState → Prop
  | start : Course plan settings start [start]
  | settle {state input next : RunState} {states : List RunState} {id : ClusterId}
      (before : Course plan settings start (state :: states)) (known : input ∈ state :: states)
      (settled : settle plan settings input.functions state id = .ok next)
      : Course plan settings start (next :: state :: states)

/-- A point of a run of a plan, whose functions `current` are new, on top of the functions `prior`:
after any number of clusters, or at any time with any number of workers.
-/
inductive Point (plan : Plan) (settings : Settings) (current prior : FunctionTable) (store : Store)
    : RunState → Prop
  | sequential (limit : Option Nat)
      : Point plan settings current prior store
          (Run.sequential plan settings current prior store limit).2
  | parallel {pool : Schedule.Pool Shared FunctionTable Output}
      (reachable
        : pool.Reachable (task plan settings) plan.graph.deps
            ⟨store, current.union prior, [], []⟩)
      : Point plan settings current prior store pool.state.runState

/-- What a settled cluster keeps holds of all states on a course, by induction on it. Of two states
the later one is related to the earlier one.
-/
theorem Course.forall {start state : RunState} {states : List RunState}
    (course : Course plan settings start (state :: states)) {P : RunState → Prop}
    {R : RunState → RunState → Prop} (same : ∀ s, R s s)
    (onward : ∀ {a b c}, R a b → R b c → R a c) (first : P start)
    (step
      : ∀ {input state next id},
          P input
          → P state
          → R input state
          → Run.settle plan settings input.functions state id = .ok next
          → P next ∧ R state next)
    : ∀ s ∈ state :: states, P s ∧ R s state := by
  generalize whole : state :: states = course' at course
  induction course generalizing state states with
  | start =>
      cases whole
      intro s among
      cases List.mem_singleton.mp among
      exact ⟨first, same start⟩
  | @settle before input next earlier id _ known settled ih =>
      cases whole
      have each := ih rfl
      obtain ⟨fromInput, sinceInput⟩ := each input known
      obtain ⟨fromBefore, _⟩ := each before List.mem_cons_self
      obtain ⟨holds, since⟩ := step fromInput fromBefore sinceInput settled
      intro s among
      rcases List.mem_cons.mp among with rfl | older
      · exact ⟨holds, same s⟩
      · exact ⟨(each s older).1, onward (each s older).2 since⟩

/-- Clusters that are compiled in turn continue a course, by induction on them. -/
theorem Course.clusters {start state : RunState} {states : List RunState}
    (course : Course plan settings start (state :: states)) (ids : List ClusterId)
    : ∃ states',
        Course plan settings start ((Run.clusters plan settings state ids).2 :: states') := by
  induction ids generalizing state states with
  | nil => exact ⟨states, course⟩
  | cons id ids ih =>
      simp only [Run.clusters]
      split
      · next next outcome =>
          rw [outcome_item_eq_settle] at outcome
          exact ih (course.settle List.mem_cons_self outcome)
      · split
        · exact ⟨states, course⟩
        · exact ih course

-----------------------------------------------------------------------------------------
-- What a settled cluster adds
-----------------------------------------------------------------------------------------

/-- Functions from which the clusters of a plan can be compiled: the table has all of their members,
and theorems of registered functions are about their own constants and procedures.
-/
structure Usable (plan : Plan) (functions : FunctionTable) : Prop where
  known
    : ∀ members ∈ plan.graph.clusters, ∀ name ∈ members, ∃ f, functions.find? name = some f
  named : ∀ name f, functions.find? name = some f → f.name = name
  about
    : ∀ name g r,
        functions.find? name = some g
        → g.registration = some r
        → ∃ total env, r.thm = ⟨total, env, .fnCorres r.const g.proc, .empty, none⟩

/-- A cluster compiled from `input` is registered: the store gets its definitions, and its functions
their registrations. All other functions stay as they are.
-/
structure Settled (plan : Plan) (settings : Settings) (input : FunctionTable) (state : RunState)
    (compiled : List Compiled) (next : RunState) : Prop where
  cluster : compiled.map (·.name) ∈ plan.graph.clusters
  built : Cluster.Built (plan.scope settings input) compiled
  registrable : Cluster.Registrable (plan.scope settings input) settings state.store compiled
  store : next.store = Cluster.extended plan settings input state.store compiled
  functions
    : ∀ name,
        (name ∉ compiled.map (·.name)
          ∧ next.functions.find? name = state.functions.find? name)
        ∨ ∃ pair ∈ Cluster.numbered state.store compiled,
            pair.1.name = name
            ∧ ∃ f,
                input.find? name = some f
                ∧ next.functions.find? name
                  = some
                      { f with
                        recCallees := pair.1.recCallees
                        registration := some
                          (Cluster.registrationOf plan settings input state.store compiled pair) }
  sorted : state.functions.Sorted → next.functions.Sorted

namespace Settled

variable {input : FunctionTable} {state next : RunState} {compiled : List Compiled}
  (settled : Settled plan settings input state compiled next)

include settled

/-- A function that is listed after a cluster was so before, or is one of the cluster. -/
theorem of_find? {name : Name} {f : Function} (found : next.functions.find? name = some f)
    : state.functions.find? name = some f
      ∨ ∃ pair ∈ Cluster.numbered state.store compiled,
          pair.1.name = name
          ∧ ∃ g,
              input.find? name = some g
              ∧ f
                = { g with
                    recCallees := pair.1.recCallees
                    registration := some
                      (Cluster.registrationOf plan settings input state.store compiled pair) } := by
  rcases settled.functions name with ⟨_, same⟩ | ⟨pair, paired, own, g, foundInput, changed⟩
  · exact .inl (same ▸ found)
  · exact .inr ⟨pair, paired, own, g, foundInput, Option.some.inj (found.symm.trans changed)⟩

/-- Registering a cluster changes no other function. -/
theorem find?_of_not_mem {name : Name} (outside : name ∉ compiled.map (·.name))
    : next.functions.find? name = state.functions.find? name := by
  rcases settled.functions name with ⟨_, same⟩ | ⟨pair, paired, rfl, _⟩
  · exact same
  · exact absurd (List.mem_map_of_mem (List.of_mem_zip paired).1) outside

/-- Functions stay listed under their names. -/
theorem named (fromInput : ∀ name f, input.find? name = some f → f.name = name)
    (before : ∀ name f, state.functions.find? name = some f → f.name = name) (name : Name)
    (f : Function) (found : next.functions.find? name = some f)
    : f.name = name := by
  rcases settled.of_find? found with old | ⟨_, _, _, g, foundInput, rfl⟩
  · exact before name f old
  · exact fromInput name g foundInput

/-- The functions of a registered cluster have their registrations. -/
theorem find?_of_paired {pair : Compiled × ConstId}
    (paired : pair ∈ Cluster.numbered state.store compiled)
    : ∃ f,
        input.find? pair.1.name = some f
        ∧ next.functions.find? pair.1.name
          = some
              { f with
                recCallees := pair.1.recCallees
                registration := some
                  (Cluster.registrationOf plan settings input state.store compiled pair) } := by
  rcases settled.functions pair.1.name with ⟨outside, _⟩ | ⟨other, pairedToo, same, changed⟩
  · exact absurd (List.mem_map_of_mem (List.of_mem_zip paired).1) outside
  · obtain rfl := List.inj_on_of_nodup_map (Cluster.nodup_numbered settled.registrable.distinct)
      pairedToo paired same
    exact changed

end Settled

section Settle

variable {input : FunctionTable} {state next : RunState} {id : ClusterId} {members : List Name}
  {compiled : List Compiled} (usable : Usable plan input)

include usable

/-- A compiled cluster has one function for each member. -/
theorem Usable.built (cluster : members ∈ plan.graph.clusters)
    (result : (Cluster.compile (plan.scope settings input) id members).result = .ok compiled)
    : compiled.map (·.name) = members ∧ Cluster.Built (plan.scope settings input) compiled := by
  have compiles := (Cluster.compiles_of_compile (usable.known members cluster) result).2
  have own : ∀ name c,
      (∃ f term, input.find? name = some f ∧ (plan.scope settings input).Builds f c term)
      → name = c.name := by
    intro name c h
    obtain ⟨f, term, found, builds⟩ := h
    exact (builds.name.trans (usable.named name f found)).symm
  refine ⟨(eq_map_of_related (List.Forall₂.imp own compiles)).symm, ?_, usable.about⟩
  intro c among
  obtain ⟨name, _, h⟩ := exists_left_of_mem compiles among
  obtain rfl := own name c h
  exact h

/-- Whatever is registered was compiled from the members of a cluster. -/
theorem Usable.settled (result : settle plan settings input state id = .ok next)
    : ∃ compiled members,
        plan.graph.clusters[id]? = some members
        ∧ (Cluster.compile (plan.scope settings input) id members).result = .ok compiled
        ∧ Settled plan settings input state compiled next := by
  simp only [settle, bind_eq_ok_iff, Prod.exists] at result
  obtain ⟨compiled, result, store, committed, commits, advanced⟩ := result
  obtain rfl := Except.ok.inj advanced
  cases here : plan.graph.clusters[id]? with
  | none =>
      rw [here] at result
      cases result
      have built : Cluster.Built (plan.scope settings input) [] := ⟨nofun, usable.about⟩
      exact absurd rfl (built.commit_eq_ok_iff.mp commits).1.nonempty
  | some members =>
      rw [here] at result
      have cluster := List.mem_of_getElem? here
      obtain ⟨names, built⟩ := usable.built cluster result
      obtain ⟨registrable, rfl, registers⟩ := built.commit_eq_ok_iff.mp commits
      refine ⟨compiled, members, rfl, result, names ▸ cluster, built, registrable, rfl, ?_, ?_⟩
      · refine Cluster.find?_advance ?_ registers registrable.distinct
        exact fun c _ f found => usable.named c.name f found
      · exact fun sorted => sorted.insertAll _

/-- A compiled cluster that can be registered is. -/
theorem Usable.exists_settle (here : plan.graph.clusters[id]? = some members)
    (result : (Cluster.compile (plan.scope settings input) id members).result = .ok compiled)
    (registrable : Cluster.Registrable (plan.scope settings input) settings state.store compiled)
    : ∃ next,
        settle plan settings input state id = .ok next
        ∧ Settled plan settings input state compiled next := by
  obtain ⟨names, built⟩ := usable.built (List.mem_of_getElem? here) result
  obtain ⟨committed, commits, _⟩ := built.exists_commit registrable
  have done : settle plan settings input state id
      = .ok (Cluster.advance state.functions
          (Cluster.extended plan settings input state.store compiled) committed) := by
    simp only [settle, bind_eq_ok_iff, Prod.exists, here]
    exact ⟨compiled, result, _, committed, commits, rfl⟩
  obtain ⟨compiled', _, hereToo, resultToo, settled⟩ := usable.settled done
  cases here.symm.trans hereToo
  cases result.symm.trans resultToo
  exact ⟨_, done, settled⟩

end Settle

end Run

end Monadize
