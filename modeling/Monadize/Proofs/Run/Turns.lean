import Monadize.Proofs.Compile.Locality
import Monadize.Proofs.Run.Agreement

/-! A run one cluster after the other, turn by turn. What compiling a cluster gives depends on the
clusters it depends on and no others, so that it is the same whenever these are done.
-/

namespace Monadize

/-- The plan of a program on top of what has been compiled so far. -/
abbrev Program.planOn (program : Program) (base : RunState) : Plan :=
  (Plan.ofProgram program base.functions).1

namespace Run

/-- The error of a cluster that is not registered. -/
def failure? (id : ClusterId) : Except CompileError RunState → Option (ClusterId × CompileError)
  | .ok _ => none
  | .error e => some (id, e)

/-- The clusters that are not registered, with their errors. -/
def failures (items : List Item) : List (ClusterId × CompileError) :=
  items.zipIdx.filterMap fun entry => failure? entry.2 entry.1.outcome

theorem mem_failures {items : List Item} {id : ClusterId} {item : Item}
    (present : items[id]? = some item) {e : CompileError} (failed : item.outcome = .error e)
    : (id, e) ∈ failures items := by
  refine List.mem_filterMap.mpr ⟨(item, id), List.mem_zipIdx_iff_getElem?.mpr present, ?_⟩
  rw [failed]
  rfl

-----------------------------------------------------------------------------------------
-- Turns
-----------------------------------------------------------------------------------------

section Turns

variable (program : Program) (settings : Settings) (base : RunState)

/-- The state in which the turn of a cluster comes. -/
def stateAt : ClusterId → RunState
  | 0 => opening program base
  | id + 1 =>
      match settle (program.planOn base) settings (stateAt id).functions (stateAt id) id with
      | .ok next => next
      | .error _ => stateAt id

/-- What becomes of a cluster in its turn. -/
def turn (id : ClusterId) : Except CompileError RunState :=
  settle (program.planOn base) settings (stateAt program settings base id).functions
    (stateAt program settings base id) id

/-- What compiling a cluster gives in its turn. -/
def compileAt (id : ClusterId) : Except CompileError (List Compiled) :=
  (Cluster.compile
    ((program.planOn base).scope settings (stateAt program settings base id).functions) id
    ((program.planOn base).graph.clusters[id]?.getD [])).result

/-- The functions of a cluster, as they are compiled in its turn. -/
def compiledAt (id : ClusterId) : List Compiled :=
  (compileAt program settings base id).toOption.getD []

/-- No cluster ends its turn with a fatal error. -/
def Calm : Prop :=
  ∀ id < (program.planOn base).graph.clusters.length, ∀ e,
    turn program settings base id = .error e → e.isFatal = false

variable {program settings base} {id : ClusterId}

theorem stateAt_succ_of_ok {next : RunState} (done : turn program settings base id = .ok next)
    : stateAt program settings base (id + 1) = next := by
  rw [stateAt, show settle _ _ _ _ id = _ from done]

theorem stateAt_succ_of_error {e : CompileError} (failed : turn program settings base id = .error e)
    : stateAt program settings base (id + 1) = stateAt program settings base id := by
  rw [stateAt, show settle _ _ _ _ id = _ from failed]

theorem outcome_item_stateAt
    : (item (program.planOn base) settings (stateAt program settings base id) id).outcome
      = turn program settings base id :=
  outcome_item_eq_settle ..

/-- What becomes of the first cluster comes first. -/
theorem head?_clusters (ids : List ClusterId)
    : (clusters (program.planOn base) settings (stateAt program settings base id)
        (id :: ids)).1.head?
      = some (item (program.planOn base) settings (stateAt program settings base id) id) := by
  rw [clusters]
  cases (item (program.planOn base) settings (stateAt program settings base id) id).outcome with
  | ok next => rfl
  | error e =>
      simp only
      split <;> rfl

/-- Unless its turn ends with a fatal error, the next cluster has its turn. -/
theorem clusters_cons
    (mild : ∀ e, turn program settings base id = .error e → e.isFatal = false)
    (ids : List ClusterId)
    : clusters (program.planOn base) settings (stateAt program settings base id) (id :: ids)
      = (item (program.planOn base) settings (stateAt program settings base id) id
          :: (clusters (program.planOn base) settings (stateAt program settings base (id + 1))
            ids).1,
        (clusters (program.planOn base) settings (stateAt program settings base (id + 1))
          ids).2) := by
  have outcome
      : (item (program.planOn base) settings (stateAt program settings base id) id).outcome
        = turn program settings base id :=
    outcome_item_stateAt
  cases result : turn program settings base id with
  | ok next =>
      rw [result] at outcome
      simp only [clusters, outcome, stateAt_succ_of_ok result]
  | error e =>
      rw [result] at outcome
      simp only [clusters, outcome, mild e result, Bool.false_eq_true, if_false,
        stateAt_succ_of_error result]

/-- A run without fatal errors gives every cluster its turn, by induction on their number. -/
theorem clusters_eq (count : Nat)
    (calm
      : ∀ item ∈ (clusters (program.planOn base) settings (stateAt program settings base id)
            (List.range' id count)).1, ∀ e,
          item.outcome = .error e → e.isFatal = false)
    : clusters (program.planOn base) settings (stateAt program settings base id)
        (List.range' id count)
      = ((List.range' id count).map fun j =>
            item (program.planOn base) settings (stateAt program settings base j) j,
          stateAt program settings base (id + count)) := by
  induction count generalizing id with
  | zero => rfl
  | succ count ih =>
      rw [List.range'_succ] at calm ⊢
      have mild : ∀ e, turn program settings base id = .error e → e.isFatal = false := by
        intro e failed
        exact calm _ (List.mem_of_head? (head?_clusters _)) e (outcome_item_stateAt.trans failed)
      rw [clusters_cons mild] at calm ⊢
      rw [ih fun item among => calm item (List.mem_cons_of_mem _ among), List.map_cons,
        Nat.add_assoc, Nat.add_comm 1 count]

/-- A cluster has its turn unless one before it ends with a fatal error, by induction on their
number.
-/
theorem getElem?_clusters {i count : Nat} (inside : i < count)
    (calm
      : ∀ j < i, ∀ item,
          (clusters (program.planOn base) settings (stateAt program settings base id)
              (List.range' id count)).1[j]?
            = some item
          → ∀ e, item.outcome = .error e → e.isFatal = false)
    : (clusters (program.planOn base) settings (stateAt program settings base id)
          (List.range' id count)).1[i]?
        = some
            (item (program.planOn base) settings (stateAt program settings base (id + i)) (id + i))
      ∧ ∀ j < i, ∀ e, turn program settings base (id + j) = .error e → e.isFatal = false := by
  induction count generalizing id i with
  | zero => cases inside
  | succ count ih =>
      rw [List.range'_succ] at calm ⊢
      cases i with
      | zero =>
          rw [← List.head?_eq_getElem?, head?_clusters]
          exact ⟨rfl, nofun⟩
      | succ i =>
          have mild : ∀ e, turn program settings base id = .error e → e.isFatal = false := by
            intro e failed
            refine calm 0 (Nat.succ_pos i) _ ?_ e (outcome_item_stateAt.trans failed)
            rw [← List.head?_eq_getElem?, head?_clusters]
          rw [clusters_cons mild] at calm ⊢
          obtain ⟨here, earlier⟩ := ih (Nat.lt_of_succ_lt_succ inside) fun j before item present =>
            calm (j + 1) (Nat.succ_lt_succ before) item present
          have next : id + 1 + i = id + (i + 1) := Nat.add_right_comm id 1 i
          rw [List.getElem?_cons_succ, here, next]
          refine ⟨rfl, fun j before => ?_⟩
          cases j with
          | zero => exact mild
          | succ j =>
              have shifted := earlier j (Nat.lt_of_succ_lt_succ before)
              rwa [Nat.add_right_comm] at shifted

theorem inTurn_eq_clusters
    : inTurn program settings base
      = clusters (program.planOn base) settings (stateAt program settings base 0)
          (List.range' 0 (program.planOn base).graph.clusters.length) := by
  rw [inTurn, sequential, Option.getD_none, List.take_length, List.range_eq_range']
  rfl

variable
  (calm : ∀ failure ∈ failures (inTurn program settings base).1, failure.2.isFatal = false)

include calm

/-- A run without fatal errors gives every cluster its turn. -/
theorem inTurn_eq
    : inTurn program settings base
      = ((List.range (program.planOn base).graph.clusters.length).map fun j =>
            item (program.planOn base) settings (stateAt program settings base j) j,
          stateAt program settings base (program.planOn base).graph.clusters.length) := by
  rw [inTurn_eq_clusters] at calm ⊢
  rw [clusters_eq _ fun item among e failed => ?_, List.range_eq_range', Nat.zero_add]
  obtain ⟨i, here⟩ := List.mem_iff_getElem?.mp among
  refine calm (i, e) (List.mem_filterMap.mpr
    ⟨(item, i), List.mk_mem_zipIdx_iff_getElem?.mpr here, ?_⟩)
  rw [failed]
  rfl

theorem failures_inTurn
    : failures (inTurn program settings base).1
      = (List.range (program.planOn base).graph.clusters.length).filterMap fun id =>
          failure? id (turn program settings base id) := by
  have indexed (n : Nat) (read : ClusterId → Item)
      : ((List.range n).map read).zipIdx = (List.range n).map fun id => (read id, id) := by
    apply List.ext_getElem
    · simp
    · intro i _ _
      simp
  rw [inTurn_eq calm, failures, indexed, List.filterMap_map]
  refine List.filterMap_congr fun id _ => ?_
  exact congrArg (failure? id) outcome_item_stateAt

theorem calm_of_inTurn : Calm program settings base := by
  intro id inside e failed
  rw [failures_inTurn calm] at calm
  refine calm (id, e) (List.mem_filterMap.mpr ⟨id, List.mem_range.mpr inside, ?_⟩)
  rw [failed]
  rfl

end Turns

-----------------------------------------------------------------------------------------
-- The clusters of a run without fatal errors
-----------------------------------------------------------------------------------------

/-- The program is run from a consistent state, its functions take the place of older ones, and no
cluster ends with a fatal error.
-/
structure Orderly (program : Program) (settings : Settings) (base : RunState) : Prop where
  consistent : Consistent base
  distinct : program.Distinct
  supersedes : program.Supersedes base.functions
  calm : Calm program settings base

/-- The turn of a cluster: it is registered as it was compiled, or it could not be compiled. -/
inductive Turn (program : Program) (settings : Settings) (base : RunState) (id : ClusterId) : Prop
  | registered {compiled : List Compiled}
      (names
        : (program.planOn base).graph.clusters[id]? = some (compiled.map (·.name)))
      (result : compileAt program settings base id = .ok compiled)
      (same : compiledAt program settings base id = compiled)
      (done : turn program settings base id = .ok (stateAt program settings base (id + 1)))
      (settled
        : Settled (program.planOn base) settings (stateAt program settings base id).functions
            (stateAt program settings base id) compiled (stateAt program settings base (id + 1)))
      : Turn program settings base id
  | refused {e : CompileError}
      (result : compileAt program settings base id = .error e)
      (none : compiledAt program settings base id = [])
      (failed : turn program settings base id = .error e)
      (mild : e.isFatal = false)
      : Turn program settings base id

/-- The compiled functions of some clusters. -/
def compiledOf (program : Program) (settings : Settings) (base : RunState) (ids : List ClusterId)
    : List Compiled :=
  ids.flatMap (compiledAt program settings base)

namespace Orderly

variable {program : Program} {settings : Settings} {base : RunState}
  (orderly : Orderly program settings base)

include orderly

theorem turn_of_stage {id : ClusterId} (inside : id < (program.planOn base).graph.clusters.length)
    (stage : Stage (opening program base) (stateAt program settings base id))
    : Turn program settings base id := by
  have usable : Usable (program.planOn base) (stateAt program settings base id).functions :=
    stage.usable known_opening
  cases result : turn program settings base id with
  | ok next =>
      obtain ⟨compiled, members, here, compiles, settled⟩ := usable.settled result
      obtain ⟨names, _⟩ := usable.built (List.mem_of_getElem? here) compiles
      have compileAt : compileAt program settings base id = .ok compiled := by
        rw [compileAt, here]
        exact compiles
      have next := stateAt_succ_of_ok result
      refine .registered (here.trans (congrArg some names.symm)) compileAt ?_ ?_ ?_
      · rw [compiledAt, compileAt]
        rfl
      · rw [result, next]
      · exact next ▸ settled
  | error e =>
      have mild := orderly.calm id inside e result
      have steps := result
      rw [turn, settle, bind_eq_error_iff] at steps
      rcases steps with failed | ⟨compiled, compiles, failed⟩
      · refine .refused failed ?_ result mild
        rw [compiledAt, show compileAt program settings base id = _ from failed]
        rfl
      · rw [bind_eq_error_iff] at failed
        obtain ⟨_, built⟩ := usable.built (List.getElem_mem inside) (by
          rw [List.getElem?_eq_getElem inside] at compiles
          exact compiles)
        rcases failed with failed | ⟨_, _, failed⟩
        · cases (built.isFatal_of_commit failed).symm.trans mild
        · cases failed

/-- Before its turn, what the earlier clusters were compiled to is registered, by induction on the
turns.
-/
theorem describes_stateAt {id : ClusterId}
    (inside : id ≤ (program.planOn base).graph.clusters.length)
    : Describes program settings base (compiledOf program settings base (List.range id))
        (stateAt program settings base id) := by
  induction id with
  | zero => exact describes_opening settings orderly.consistent orderly.distinct
  | succ id ih =>
      have before := ih (Nat.le_of_succ_le inside)
      rw [compiledOf, List.range_succ, List.flatMap_append, List.flatMap_singleton]
      cases orderly.turn_of_stage inside before.stage with
      | registered _ _ same _ settled =>
          rw [same]
          exact settled.describes orderly.distinct orderly.supersedes before before List.prefix_rfl
            (fun _ _ found _ => found)
      | refused _ none failed _ =>
          rw [none, List.append_nil, stateAt_succ_of_error failed]
          exact before

theorem turn_of_lt {id : ClusterId} (inside : id < (program.planOn base).graph.clusters.length)
    : Turn program settings base id :=
  orderly.turn_of_stage inside (orderly.describes_stateAt (Nat.le_of_lt inside)).stage

end Orderly

-----------------------------------------------------------------------------------------
-- What a cluster sees
-----------------------------------------------------------------------------------------

section Faces

variable {program : Program} {settings : Settings} {base : RunState}
  {compiled compiled' : List Compiled} {state state' : RunState}
  (first : Describes program settings base compiled state)
  (second : Describes program settings base compiled' state') {name : Name}
  (same : name ∈ compiled.map (·.name) ↔ name ∈ compiled'.map (·.name))

include first second same

/-- What is seen of a function depends on whether it is registered. -/
theorem Describes.face_eq
    : (state.functions.find? name).map Function.face
      = (state'.functions.find? name).map Function.face := by
  by_cases listed : name ∈ compiled.map (·.name)
  · obtain ⟨c, among, rfl⟩ := List.mem_map.mp listed
    obtain ⟨c', amongToo, sameName⟩ := List.mem_map.mp (same.mp listed)
    obtain ⟨f, k, _, atStart, found⟩ := first.registered c among
    obtain ⟨f', k', _, atStartToo, foundToo⟩ := second.registered c' amongToo
    rw [sameName] at atStartToo foundToo
    obtain rfl : f = f' := Option.some.inj (atStart.symm.trans atStartToo)
    rw [found, foundToo]
    rfl
  · rw [first.others name listed, second.others name (same.not.mp listed)]

/-- A registered function has the same kind of theorem in both states. -/
theorem Describes.exists_thm {g : Function} {r : Registration}
    (found : state.functions.find? name = some g) (registered : g.registration = some r)
    : ∃ g' r',
        state'.functions.find? name = some g'
        ∧ g'.registration = some r'
        ∧ r'.thm.total = r.thm.total
        ∧ r'.thm.env = r.thm.env := by
  by_cases listed : name ∈ compiled.map (·.name)
  · obtain ⟨c, among, rfl⟩ := List.mem_map.mp listed
    obtain ⟨c', amongToo, sameName⟩ := List.mem_map.mp (same.mp listed)
    obtain ⟨f, k, _, _, foundAs⟩ := first.registered c among
    obtain ⟨f', k', _, _, foundToo⟩ := second.registered c' amongToo
    obtain rfl := Option.some.inj (foundAs.symm.trans found)
    obtain rfl := Option.some.inj registered
    refine ⟨_, _, sameName ▸ foundToo, rfl, ?_⟩
    exact ⟨rfl, rfl⟩
  · rw [first.others name listed] at found
    exact ⟨g, r, (second.others name (same.not.mp listed)).trans found, registered, rfl, rfl⟩

end Faces

/-- The clusters `ids` are done when the cluster is compiled: those it depends on, but not itself.
-/
structure Sees (program : Program) (base : RunState) (id : ClusterId) (ids : List ClusterId)
    : Prop where
  inRange : ∀ j ∈ ids, j < (program.planOn base).graph.clusters.length
  fresh : id ∉ ids
  deps : ∀ ds, (program.planOn base).graph.deps[id]? = some ds → ∀ j ∈ ds, j ∈ ids

namespace Orderly

variable {program : Program} {settings : Settings} {base : RunState}
  (orderly : Orderly program settings base) {id : ClusterId}

omit orderly in
/-- In its turn a cluster sees the earlier ones. -/
theorem sees_range (inside : id ≤ (program.planOn base).graph.clusters.length)
    : Sees program base id (List.range id) where
  inRange _ among := Nat.lt_of_lt_of_le (List.mem_range.mp among) inside
  fresh among := Nat.lt_irrefl id (List.mem_range.mp among)
  deps _ here _ listed := List.mem_range.mpr (CallGraph.lt_of_mem_deps here listed)

include orderly

/-- The functions that some clusters were compiled to are members of these. -/
theorem exists_cluster {ids : List ClusterId}
    (inRange : ∀ j ∈ ids, j < (program.planOn base).graph.clusters.length) {c : Compiled}
    (among : c ∈ compiledOf program settings base ids)
    : ∃ j ∈ ids, ∃ members,
        (program.planOn base).graph.clusters[j]? = some members
        ∧ c.name ∈ members
        ∧ c ∈ compiledAt program settings base j := by
  obtain ⟨j, listed, member⟩ := List.mem_flatMap.mp among
  cases orderly.turn_of_lt (inRange j listed) with
  | registered names _ same _ _ =>
      exact ⟨j, listed, _, names, List.mem_map_of_mem (same ▸ member), member⟩
  | refused _ none _ _ =>
      rw [none] at member
      cases member

variable {ids ids' : List ClusterId} (sees : Sees program base id ids) {members : List Name}
  (here : (program.planOn base).graph.clusters[id]? = some members) {name : Name}
  (member : name ∈ members)

include sees here member

/-- The members of the cluster are not registered yet. -/
theorem not_mem_names : name ∉ (compiledOf program settings base ids).map (·.name) := by
  intro listed
  obtain ⟨c, among, rfl⟩ := List.mem_map.mp listed
  obtain ⟨j, done, others, there, itsMember, _⟩ := orderly.exists_cluster sees.inRange among
  obtain rfl := CallGraph.cluster_unique _ _ _ orderly.distinct.names here there member itsMember
  exact sees.fresh done

/-- Of the callees of its members, a cluster sees the same ones registered whenever it is compiled.
-/
theorem mem_names_of_sees (sees' : Sees program base id ids') {f : Function}
    (atStart : (opening program base).functions.find? name = some f) {callee : Name}
    (called : callee ∈ f.callees.elems)
    (registered : callee ∈ (compiledOf program settings base ids).map (·.name))
    : callee ∈ (compiledOf program settings base ids').map (·.name) := by
  obtain ⟨c, among, rfl⟩ := List.mem_map.mp registered
  obtain ⟨j, done, others, there, itsMember, compiled⟩ :=
    orderly.exists_cluster sees.inRange among
  obtain ⟨d, declared, rfl⟩ := exists_declaration (List.mem_of_getElem? here) member
  obtain ⟨e, calleeDeclared, same⟩ := exists_declaration (List.mem_of_getElem? there) itsMember
  have analyzed := analyzed_opening orderly.distinct orderly.supersedes declared atStart
  rcases analyzed.callee_earlier orderly.distinct.names declared calleeDeclared (same ▸ called) here
    member there (same ▸ itsMember) with rfl | ⟨_, ds, depends, listed⟩
  · exact absurd done sees.fresh
  · refine List.mem_map_of_mem (List.mem_flatMap.mpr ⟨j, ?_, compiled⟩)
    exact sees'.deps ds depends j listed

theorem mem_names_iff_of_sees (sees' : Sees program base id ids') {f : Function}
    (atStart : (opening program base).functions.find? name = some f) {callee : Name}
    (called : callee ∈ f.callees.elems)
    : callee ∈ (compiledOf program settings base ids).map (·.name)
      ↔ callee ∈ (compiledOf program settings base ids').map (·.name) :=
  ⟨orderly.mem_names_of_sees sees here member sees' atStart called,
    orderly.mem_names_of_sees sees' here member sees atStart called⟩

end Orderly

-----------------------------------------------------------------------------------------
-- Out of turn
-----------------------------------------------------------------------------------------

namespace Orderly

variable {program : Program} {settings : Settings} {base : RunState}
  (orderly : Orderly program settings base) {id : ClusterId}
  (inside : id < (program.planOn base).graph.clusters.length) {ids done : List ClusterId}
  {input state : RunState} (sees : Sees program base id ids)
  (fromInput : Describes program settings base (compiledOf program settings base ids) input)
  (seesDone : Sees program base id done)
  (before : Describes program settings base (compiledOf program settings base done) state)

include orderly inside sees fromInput

/-- A cluster is compiled as in its turn. -/
theorem compile_eq
    : (Cluster.compile ((program.planOn base).scope settings input.functions) id
        ((program.planOn base).graph.clusters[id]?.getD [])).result
      = compileAt program settings base id := by
  have here := List.getElem?_eq_getElem inside
  have seesTurn := sees_range (Nat.le_of_lt inside)
  have atTurn := orderly.describes_stateAt (Nat.le_of_lt inside)
  rw [compileAt, here, Option.getD_some]
  refine Cluster.compile_congr _ settings (fun name member => ?_) id
  obtain ⟨f, found⟩ := known_opening _ (List.mem_of_getElem? here) name member
  refine ⟨f, ?_, ?_, fun callee called => ?_⟩
  · rw [fromInput.others name (orderly.not_mem_names sees here member), found]
  · rw [atTurn.others name (orderly.not_mem_names seesTurn here member), found]
  · exact fromInput.face_eq atTurn
      (orderly.mem_names_iff_of_sees sees here member seesTurn found called)

include seesDone before

/-- A cluster that is registered in its turn can be registered. -/
theorem registrable {compiled : List Compiled}
    (names : (program.planOn base).graph.clusters[id]? = some (compiled.map (·.name)))
    (settled
      : Settled (program.planOn base) settings (stateAt program settings base id).functions
          (stateAt program settings base id) compiled (stateAt program settings base (id + 1)))
    : Cluster.Registrable ((program.planOn base).scope settings input.functions) settings
        state.store compiled := by
  have seesTurn := sees_range (Nat.le_of_lt inside)
  have atTurn := orderly.describes_stateAt (Nat.le_of_lt inside)
  refine ⟨settled.registrable.nonempty, settled.registrable.distinct, ?_, ?_⟩
  · intro c among
    refine before.stage.consistent.indexed.lookup_eq_none_iff.mpr fun taken => ?_
    rcases before.mem_names.mp taken with old | ⟨c', registered, same⟩
    · exact settled.not_mem_names atTurn.stage.consistent among
        (atTurn.stage.grows.names_subset old)
    · refine orderly.not_mem_names seesDone names (List.mem_map_of_mem among) ?_
      exact settings.constName_injective same ▸ List.mem_map_of_mem registered
  · intro c among
    have inItsTurn := settled.registrable.dischargeable c among
    refine ⟨inItsTurn.recursive, ?_⟩
    intro entry assumed external g r found registered
    obtain ⟨f, term, foundOwn, builds⟩ := settled.built.builds c among
    obtain ⟨_, called, _⟩ := Scope.mem_calleeTable.mp (builds.mem_calleeTable assumed)
    have atStart := (settled.find?_input atTurn atTurn List.prefix_rfl among).symm.trans foundOwn
    obtain ⟨g', r', foundTurn, registeredTurn, total, env⟩ :=
      fromInput.exists_thm atTurn
        (orderly.mem_names_iff_of_sees sees names (List.mem_map_of_mem among) seesTurn atStart
          called)
        found registered
    obtain ⟨itsTotal, itsEnv⟩ :=
      inItsTurn.external entry assumed external g' r' foundTurn registeredTurn
    exact ⟨total.symm.trans itsTotal, env.symm.trans itsEnv⟩

/-- What becomes of a cluster is what becomes of it in its turn. -/
theorem settle_cases (older : input.store.Grows state.store) (since : Persists input state)
    : (∃ next,
        settle (program.planOn base) settings input.functions state id = .ok next
        ∧ failure? id (turn program settings base id) = none
        ∧ Describes program settings base (compiledOf program settings base (done ++ [id])) next
        ∧ state.store.Grows next.store
        ∧ Persists state next)
      ∨ ∃ e,
          settle (program.planOn base) settings input.functions state id = .error e
          ∧ failure? id (turn program settings base id) = some (id, e)
          ∧ e.isFatal = false
          ∧ Describes program settings base (compiledOf program settings base (done ++ [id]))
              state := by
  have compiles := orderly.compile_eq inside sees fromInput
  have added : compiledOf program settings base (done ++ [id])
      = compiledOf program settings base done ++ compiledAt program settings base id := by
    rw [compiledOf, List.flatMap_append, List.flatMap_singleton, compiledOf]
  rw [added]
  cases orderly.turn_of_lt inside with
  | @registered compiled names result same finished settled =>
      have registrable := orderly.registrable inside sees fromInput seesDone before names settled
      rw [result, names, Option.getD_some] at compiles
      obtain ⟨next, advanced, settledNow⟩ :=
        (fromInput.stage.usable known_opening).exists_settle names compiles registrable
      refine .inl ⟨next, advanced, by rw [finished]; rfl, ?_, settledNow.grows,
        settledNow.persists orderly.distinct orderly.supersedes before⟩
      rw [same]
      exact settledNow.describes orderly.distinct orderly.supersedes fromInput before older since
  | @refused e result none failed mild =>
      refine .inr ⟨e, ?_, by rw [failed]; rfl, mild, ?_⟩
      · rw [settle, compiles, result]
        rfl
      · rw [none, List.append_nil]
        exact before

end Orderly

end Run

end Monadize
