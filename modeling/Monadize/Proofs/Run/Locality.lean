import Monadize.Proofs.Compile.Locality
import Monadize.Proofs.Graph.Locality
import Monadize.Proofs.Run.Agreement
import Monadize.Proofs.Run.Measures
import Monadize.Proofs.Run.Outcomes
import Monadize.Proofs.Run.Turns

/-! What becomes of a function depends on what it can reach. Two programs that share this may number
their clusters and constants in their own ways, and other functions may fail in one of them; but the
cluster of the function is registered in both or refused in both, for the same reason, and the
registered terms are the same up to the numbers of the constants.
-/

namespace Monadize

/-- The terms are the same if every constant is replaced by the name that it is registered under. -/
def Term.SameByName (store store' : Store) (t t' : Term) : Prop :=
  ∃ ρ : ConstId → ConstId,
    t' = t.rename ρ
    ∧ ∀ callee ∈ t.callees,
        ∃ k name,
          callee.target = .const k
          ∧ store.name? k = some name
          ∧ store'.name? (ρ k) = some name

namespace Run

/-- The cluster of the function is refused for the same reason, or the function is registered as the
same: with the same term up to the numbers of constants, the same warnings and traces, and a measure
in both or in neither.
-/
inductive SameOutcome (name : Name)
    : Except CompileError RunState → Except CompileError RunState → Prop
  | refused (e : CompileError) : SameOutcome name (.error e) (.error e)
  | registered {state state' : RunState} {f f' : Function} {r r' : Registration}
      (found : state.functions.find? name = some f) (registered : f.registration = some r)
      (found' : state'.functions.find? name = some f') (registered' : f'.registration = some r')
      (term : Term.SameByName state.store state'.store r.term r'.term)
      (warnings : r'.warnings = r.warnings) (traces : r'.traces = r.traces)
      (measured : f'.measured = f.measured)
      : SameOutcome name (.ok state) (.ok state')

end Run

namespace Program

-----------------------------------------------------------------------------------------
-- What is registered before
-----------------------------------------------------------------------------------------

variable {program other : Program} (distinct : program.Distinct) (distinctToo : other.Distinct)
  {d : Declaration} (shares : program.Shares other d)

namespace Shares

include distinct distinctToo shares

/-- The functions of the cluster of a shared function are supported in both programs. -/
theorem supports_of_supports {id : ClusterId} {members : List Name}
    (here : program.clusters[id]? = some members) (own : d.name ∈ members)
    (supports : program.Supports members)
    : other.Supports members := by
  intro e declared its body defined
  obtain ⟨e', member, named, reached, _⟩ :=
    canReach_of_cluster distinct shares.here here own its
  obtain rfl := distinctToo.eq_of_name (shares.declared e' member (named ▸ reached)) declared named
  exact supports e' member its body ((shares.body e' member reached).symm.trans defined)

section Callees

variable {i j : ClusterId} {members others : List Name}
  (here : program.clusters[i]? = some members) (own : d.name ∈ members)
  (there : other.clusters[j]? = some others) (its : d.name ∈ others) {e : Declaration}
  (callee : e ∈ program.functions)
  (call : CallGraph.Calls program.env program.functions .empty d.name e.name)

include here own there its callee call

/-- A callee that is registered before the cluster of its caller is so in the other program. Its
cluster there is the same one, and an earlier one since it is not that of the caller.
-/
theorem registersBefore_of_registersBefore (before : program.RegistersBefore i e.name)
    : other.RegistersBefore j e.name := by
  obtain ⟨i', earlier, joint, place, member, supports⟩ := before
  have sharesCallee := shares.of_canReach callee (.single call)
  obtain ⟨j', joint', placeToo, memberToo⟩ := exists_cluster sharesCallee.there
  obtain rfl := sharesCallee.cluster_eq distinct distinctToo place member placeToo memberToo
  refine ⟨j', ?_, joint, placeToo, memberToo,
    sharesCallee.supports_of_supports distinct distinctToo place member supports⟩
  obtain ⟨f, _, analyzed⟩ :=
    CallGraph.exists_analyzed other.env .empty distinctToo.names shares.there
  have called : e.name ∈ f.callees.elems :=
    (analyzed.mem_callees_iff_calls distinctToo.names distinctToo.procs shares.there).mpr
      ((shares.calls_iff distinct distinctToo shares.here .refl).mp call)
  rcases analyzed.callee_earlier distinctToo.names shares.there sharesCallee.there called there its
    placeToo memberToo with rfl | ⟨less, _⟩
  · cases there.symm.trans placeToo
    exact absurd (distinct.cluster_unique place here its own) (Nat.ne_of_lt earlier)
  · exact less

theorem registersBefore_iff
    : program.RegistersBefore i e.name ↔ other.RegistersBefore j e.name :=
  ⟨shares.registersBefore_of_registersBefore distinct distinctToo here own there its callee call,
    (shares.symm distinct distinctToo).registersBefore_of_registersBefore distinctToo distinct there
      its here own (shares.declared e callee (.single call))
      ((shares.calls_iff distinct distinctToo shares.here .refl).mp call)⟩

end Callees

/-- A run of either program starts with the same record of a shared function. -/
theorem find?_opening
    : (Run.opening program ⟨.empty, .empty⟩).functions.find? d.name
      = (Run.opening other ⟨.empty, .empty⟩).functions.find? d.name :=
  (supersedes_empty program d shares.here).trans
    ((shares.find?_functions distinct distinctToo).trans
      (supersedes_empty other d shares.there).symm)

end Shares

end Program

namespace Run

variable {program other : Program} {settings : Settings}

-----------------------------------------------------------------------------------------
-- The state before a cluster
-----------------------------------------------------------------------------------------

/-- Whatever comes of the clusters before it, the turn of a cluster comes in a state of the run. -/
theorem exists_describes_stateAt (distinct : program.Distinct) (settings : Settings)
    (id : ClusterId)
    : ∃ known,
        Describes program settings ⟨.empty, .empty⟩ known
          (stateAt program settings ⟨.empty, .empty⟩ id) := by
  induction id with
  | zero => exact ⟨[], describes_opening settings consistent_empty distinct⟩
  | succ id ih =>
      obtain ⟨known, before⟩ := ih
      cases result : turn program settings ⟨.empty, .empty⟩ id with
      | error e =>
          rw [stateAt_succ_of_error result]
          exact ⟨known, before⟩
      | ok next =>
          obtain ⟨compiled, _, _, _, settled⟩ := (before.stage.usable known_opening).settled result
          rw [stateAt_succ_of_ok result]
          exact ⟨known ++ compiled, settled.describes distinct (Program.supersedes_empty program)
            before before List.prefix_rfl fun _ _ found _ => found⟩

/-- If no cluster before it ends with a fatal error, a run reaches the cluster. -/
theorem reaches_stateAt (distinct : program.Distinct) {id : ClusterId}
    (inside : id ≤ program.clusters.length)
    (calm
      : ∀ j < id, ∀ e,
          turn program settings ⟨.empty, .empty⟩ j = .error e → e.isFatal = false)
    : Reaches program settings id (stateAt program settings ⟨.empty, .empty⟩ id) := by
  induction id with
  | zero => exact reaches_start distinct settings
  | succ id ih =>
      have before := ih (Nat.le_of_succ_le inside) fun j earlier =>
        calm j (Nat.lt_succ_of_lt earlier)
      have here : program.clusters[id]? = some program.clusters[id] :=
        List.getElem?_eq_getElem inside
      obtain ⟨settles, registered, skipped⟩ := before.step distinct here
      have outcome
          : (item (Plan.ofProgram program .empty).1 settings
              (stateAt program settings ⟨.empty, .empty⟩ id) id).outcome
            = turn program settings ⟨.empty, .empty⟩ id :=
        outcome_item_eq_settle ..
      rw [outcome] at settles registered skipped
      have mild := calm id (Nat.lt_succ_self id)
      generalize result : turn program settings ⟨.empty, .empty⟩ id = done
        at settles registered skipped mild
      cases settles with
      | registered _ _ next =>
          rw [stateAt_succ_of_ok result]
          exact registered next rfl
      | unsupported _ _ what =>
          rw [stateAt_succ_of_error result]
          exact skipped what rfl
      | broken _ func e => cases mild _ rfl

-----------------------------------------------------------------------------------------
-- One cluster in two runs
-----------------------------------------------------------------------------------------

/-- A function of the cluster at hand is as the run started with it. -/
theorem Reaches.find?_of_member {id : ClusterId} {state : RunState} {known : List Compiled}
    (reaches : Reaches program settings id state) (distinct : program.Distinct)
    (describes : Describes program settings ⟨.empty, .empty⟩ known state) {members : List Name}
    (here : program.clusters[id]? = some members) {d : Declaration}
    (declared : d ∈ program.functions) (own : d.name ∈ members)
    : state.functions.find? d.name
      = (opening program ⟨.empty, .empty⟩).functions.find? d.name := by
  refine describes.others d.name fun listed => ?_
  obtain ⟨c, among, same⟩ := List.mem_map.mp listed
  obtain ⟨f, k, _, _, found⟩ := describes.registered c among
  cases (reaches.analyzed distinct here declared own (same ▸ found)).unregistered

section TwoRuns

variable (distinct : program.Distinct) (distinctToo : other.Distinct) {i j : ClusterId}
  {state state' : RunState} (reaches : Reaches program settings i state)
  (reachesToo : Reaches other settings j state') {known known' : List Compiled}
  (describes : Describes program settings ⟨.empty, .empty⟩ known state)
  (describesToo : Describes other settings ⟨.empty, .empty⟩ known' state') {d : Declaration}
  (shares : program.Shares other d) {members : List Name}
  (here : program.clusters[i]? = some members) (there : other.clusters[j]? = some members)
  (own : d.name ∈ members)

include distinct distinctToo reaches reachesToo describes describesToo shares here there own

/-- A function of the cluster sees the same of its callees in both runs. -/
theorem face_eq_of_calls {e : Declaration} (callee : e ∈ program.functions)
    (call : CallGraph.Calls program.env program.functions .empty d.name e.name)
    : (state.functions.find? e.name).map Function.face
      = (state'.functions.find? e.name).map Function.face := by
  have sharesCallee := shares.of_canReach callee (.single call)
  obtain ⟨f, found⟩ := reaches.declared e callee
  obtain ⟨f', found'⟩ := reachesToo.declared e sharesCallee.there
  obtain ⟨f₀, atStart, outline⟩ := describes.stage.exists_start found
  obtain ⟨f₀', atStart', outline'⟩ := describesToo.stage.exists_start found'
  rw [sharesCallee.find?_opening distinct distinctToo] at atStart
  cases atStart.symm.trans atStart'
  have same : f.outline = f'.outline := outline.symm.trans outline'
  have registered : f.registration.isSome = f'.registration.isSome := by
    rw [Bool.eq_iff_iff, (reaches.tracks distinct callee found).registered,
      (reachesToo.tracks distinctToo sharesCallee.there found').registered]
    exact shares.registersBefore_iff distinct distinctToo here own there own callee call
  rw [found, found', Option.map_some, Option.map_some, Function.face, Function.face, registered,
    show f.proc = f'.proc from (congrArg Function.proc same :),
    show f.measured = f'.measured from (congrArg Function.measured same :)]

/-- A function of the cluster is compiled from the same in both runs. -/
theorem exists_alike
    : ∃ f,
        state.functions.find? d.name = some f
        ∧ state'.functions.find? d.name = some f
        ∧ (program.scope settings state.functions).Alike
            (other.scope settings state'.functions) f := by
  obtain ⟨f, found⟩ := reaches.declared d shares.here
  have found' : state'.functions.find? d.name = some f := by
    rw [reachesToo.find?_of_member distinctToo describesToo there shares.there own,
      ← shares.find?_opening distinct distinctToo,
      ← reaches.find?_of_member distinct describes here shares.here own, found]
  have analyzed := reaches.analyzed distinct here shares.here own found
  have body := shares.body d shares.here .refl
  rw [← analyzed.proc] at body
  refine ⟨f, found, found', shares.world, body, ?_, ?_, rfl, rfl, rfl⟩
  · intro body defined proc site
    rw [analyzed.proc] at defined
    exact (shares.find?_procNames distinct distinctToo defined site).symm
  · refine (Scope.calleeTable_congr fun callee called => ?_).symm
    have call :=
      (analyzed.mem_callees_iff_calls distinct.names distinct.procs shares.here).mp called
    obtain ⟨e, declared, rfl⟩ := List.mem_map.mp call.2
    exact face_eq_of_calls distinct distinctToo reaches reachesToo describes describesToo shares
      here there own declared call

/-- The cluster is compiled to the same in both runs, but for the environments of theorems. -/
theorem compile_cluster_eq
    : (Cluster.compile (other.scope settings state'.functions) j members).result
      = (Cluster.compile (program.scope settings state.functions) i members).result.map
          (List.map (Compiled.inEnv other.env)) := by
  refine Cluster.compile_alike (fun name its => ?_) i j
  obtain ⟨e, declared, rfl, reached, _⟩ :=
    Program.canReach_of_cluster distinct shares.here here own its
  exact exists_alike distinct distinctToo reaches reachesToo describes describesToo
    (shares.of_canReach declared reached) here there its

end TwoRuns

-----------------------------------------------------------------------------------------
-- One outcome in two runs
-----------------------------------------------------------------------------------------

namespace Describes

/-- A constant has the name of its function. -/
theorem name?_of_const? (distinct : program.Distinct) {known : List Compiled} {state : RunState}
    (describes : Describes program settings ⟨.empty, .empty⟩ known state) {name : Name}
    {k : ConstId} (const : state.functions.const? name = some k)
    : state.store.name? k = some (settings.constName name) := by
  obtain ⟨c, among, rfl⟩ := describes.mem_of_const? distinct const
  obtain ⟨k', constToo, named⟩ := describes.exists_const? among
  cases const.symm.trans constToo
  exact (state.store.getElem?_names k).symm.trans named

variable (distinct : program.Distinct) (distinctToo : other.Distinct)
  {known known' : List Compiled} {state state' : RunState}
  (describes : Describes program settings ⟨.empty, .empty⟩ known state)
  (describesToo : Describes other settings ⟨.empty, .empty⟩ known' state') {c : Compiled}
  (among : c ∈ known) (amongToo : c.inEnv other.env ∈ known')

include distinct distinctToo describes describesToo among amongToo

/-- The constants of a callee have the same name. -/
theorem const?_relocate_of_mem {entry : CalleeEntry} (listed : entry ∈ c.callees.entries)
    : state'.functions.const? entry.func
      = (state.functions.const? entry.func).map
          (relocate state.store.names state'.store.names) := by
  obtain ⟨k, const⟩ := describes.callees c among entry listed
  obtain ⟨k', const'⟩ := describesToo.callees _ amongToo entry listed
  have named := describes.name?_of_const? distinct const
  have named' := describesToo.name?_of_const? distinctToo const'
  rw [← Store.getElem?_names] at named named'
  rw [const, const', Option.map_some,
    relocate_eq_of_getElem? describesToo.stage.consistent.indexed.nodup_names named named']

/-- What a function was compiled to in both runs is registered as the same term but for the numbers
of the constants.
-/
theorem sameByName
    : Term.SameByName state.store state'.store
        (c.term.instantiate fun p =>
          (c.callees.entries[p]?).bind fun entry => state.functions.const? entry.func)
        (c.term.instantiate fun p =>
          (c.callees.entries[p]?).bind fun entry => state'.functions.const? entry.func) := by
  obtain ⟨f, _, _, atStart, _⟩ := describes.registered c among
  obtain ⟨input, _, builds⟩ := describes.built c among f atStart
  obtain ⟨measure, threads⟩ := builds.threads
  refine ⟨relocate state.store.names state'.store.names, ?_, ?_⟩
  · rw [Term.rename_instantiate (describes.placed among)]
    refine congrArg c.term.instantiate (funext fun p => ?_)
    cases present : c.callees.entries[p]? with
    | none => rfl
    | some entry =>
        exact const?_relocate_of_mem distinct distinctToo describes describesToo among amongToo
          (List.mem_of_getElem? present)
  · intro callee called
    obtain ⟨p, entry, k, present, _, rfl, const⟩ :=
      describes.exists_entry among builds.callees threads called
    have relocated := const?_relocate_of_mem distinct distinctToo describes describesToo among
      amongToo (List.mem_of_getElem? (builds.callees ▸ present))
    rw [const, Option.map_some] at relocated
    exact ⟨k, settings.constName entry.func, rfl, describes.name?_of_const? distinct const,
      describesToo.name?_of_const? distinctToo relocated⟩

end Describes

section Settle

variable (distinct : program.Distinct) {id : ClusterId} {state : RunState}
  (reaches : Reaches program settings id state) {known : List Compiled}
  (describes : Describes program settings ⟨.empty, .empty⟩ known state) {members : List Name}
  (here : program.clusters[id]? = some members) {compiled : List Compiled}
  (result
    : (Cluster.compile (program.scope settings state.functions) id members).result = .ok compiled)

include distinct reaches describes here result

/-- A cluster that compiles is registered. -/
theorem exists_settle_of_compile
    : members = compiled.map (·.name)
      ∧ ∃ next,
          settle (program.planOn ⟨.empty, .empty⟩) settings state.functions state id = .ok next
          ∧ Describes program settings ⟨.empty, .empty⟩ (known ++ compiled) next := by
  have usable : Usable (program.planOn ⟨.empty, .empty⟩) state.functions :=
    describes.stage.usable known_opening
  have declared : ∀ name ∈ members, ∃ f, state.functions.find? name = some f := by
    intro name member
    obtain ⟨d, declared, rfl⟩ := Program.exists_declaration here member
    exact reaches.declared d declared
  have compiles := (Cluster.compiles_of_compile declared result).2
  obtain ⟨next, done, settled⟩ :=
    usable.exists_settle here result (reaches.registrable distinct here compiles)
  exact ⟨(reaches.names_compiled compiles).symm, next, done,
    settled.describes distinct (Program.supersedes_empty program) describes describes
      List.prefix_rfl fun _ _ found _ => found⟩

end Settle

/-- The cluster of a shared function has the same outcome in both runs. -/
theorem sameOutcome_settle (distinct : program.Distinct) (distinctToo : other.Distinct)
    {i j : ClusterId} {state state' : RunState} (reaches : Reaches program settings i state)
    (reachesToo : Reaches other settings j state') {known known' : List Compiled}
    (describes : Describes program settings ⟨.empty, .empty⟩ known state)
    (describesToo : Describes other settings ⟨.empty, .empty⟩ known' state') {d : Declaration}
    (shares : program.Shares other d) {members : List Name}
    (here : program.clusters[i]? = some members) (there : other.clusters[j]? = some members)
    (own : d.name ∈ members)
    : SameOutcome d.name
        (settle (program.planOn ⟨.empty, .empty⟩) settings state.functions state i)
        (settle (other.planOn ⟨.empty, .empty⟩) settings state'.functions state' j) := by
  have compiles := compile_cluster_eq distinct distinctToo reaches reachesToo describes describesToo
    shares here there own
  cases result : (Cluster.compile (program.scope settings state.functions) i members).result with
  | error e =>
      rw [result, Except.map] at compiles
      rw [settle_eq_error (program.planOn ⟨.empty, .empty⟩) here result,
        settle_eq_error (other.planOn ⟨.empty, .empty⟩) there compiles]
      exact .refused e
  | ok compiled =>
      rw [result, Except.map] at compiles
      obtain ⟨names, next, done, after⟩ :=
        exists_settle_of_compile distinct reaches describes here result
      obtain ⟨_, next', done', after'⟩ :=
        exists_settle_of_compile distinctToo reachesToo describesToo there compiles
      obtain ⟨c, among, named⟩ := List.mem_map.mp (names ▸ own)
      have amongAll : c ∈ known ++ compiled := List.mem_append_right known among
      have amongAll' : c.inEnv other.env ∈ known' ++ compiled.map (Compiled.inEnv other.env) :=
        List.mem_append_right known' (List.mem_map_of_mem among)
      obtain ⟨f, k, _, atStart, found⟩ := after.registered c amongAll
      obtain ⟨f', k', _, atStart', found'⟩ := after'.registered _ amongAll'
      have start := shares.find?_opening distinct distinctToo
      rw [← named] at start ⊢
      cases atStart'.symm.trans (start.symm.trans atStart)
      rw [done, done']
      exact .registered found rfl found' rfl
        (after.sameByName distinct distinctToo after' amongAll amongAll') rfl rfl rfl

end Run

-----------------------------------------------------------------------------------------
-- Whole runs
-----------------------------------------------------------------------------------------

namespace Program

/-- If no cluster before it ends with a fatal error, a cluster has its item in the run. -/
theorem exists_getElem?_run {program : Program} (distinct : program.Distinct) (settings : Settings)
    {id : ClusterId} (inside : id < program.clusters.length)
    (calm
      : ∀ failure ∈ Run.failures (program.run settings),
          failure.1 < id → failure.2.isFatal = false)
    : ∃ item state known,
        (program.run settings)[id]? = some item
        ∧ item.outcome
          = Run.settle (program.planOn ⟨.empty, .empty⟩) settings state.functions state id
        ∧ Run.Reaches program settings id state
        ∧ Run.Describes program settings ⟨.empty, .empty⟩ known state := by
  have whole : program.run settings
      = (Run.clusters (program.planOn ⟨.empty, .empty⟩) settings
          (Run.stateAt program settings ⟨.empty, .empty⟩ 0)
          (List.range' 0 program.clusters.length)).1 := by
    rw [show program.run settings = (Run.inTurn program settings ⟨.empty, .empty⟩).1 from rfl,
      Run.inTurn_eq_clusters]
    rfl
  have mild : ∀ j < id, ∀ item, (program.run settings)[j]? = some item →
      ∀ e, item.outcome = .error e → e.isFatal = false := by
    intro j earlier item present e failed
    exact calm (j, e) (Run.mem_failures present failed) earlier
  rw [whole] at mild ⊢
  obtain ⟨present, earlier⟩ := Run.getElem?_clusters inside mild
  simp only [Nat.zero_add] at present earlier
  obtain ⟨known, describes⟩ := Run.exists_describes_stateAt distinct settings id
  exact ⟨_, _, known, present, Run.outcome_item_eq_settle ..,
    Run.reaches_stateAt distinct (Nat.le_of_lt inside) earlier, describes⟩

/-- What becomes of a function depends on what it can reach. If two programs share that, and neither
run ends before the cluster of the function with a fatal error, the cluster is the same in both and
so is its outcome, whatever else the programs declare, in whatever order, and whatever becomes of
it. Witness: the function is compiled from the same body with a callee table of the same entries.
-/
theorem run_shared {tag tag' : Nat} {text text' : String} {program other : Program}
    (parsed : Program.parse tag text = .ok program)
    (parsedToo : Program.parse tag' text' = .ok other) (settings : Settings) {g : Declaration}
    (shares : program.Shares other g) {i j : ClusterId} {members others : List Name}
    (here : program.clusters[i]? = some members) (own : g.name ∈ members)
    (there : other.clusters[j]? = some others) (its : g.name ∈ others)
    (calm
      : ∀ failure ∈ Run.failures (program.run settings), failure.1 < i → failure.2.isFatal = false)
    (calmToo
      : ∀ failure ∈ Run.failures (other.run settings), failure.1 < j → failure.2.isFatal = false)
    : members = others
      ∧ ∃ item item',
          (program.run settings)[i]? = some item
          ∧ (other.run settings)[j]? = some item'
          ∧ Run.SameOutcome g.name item.outcome item'.outcome := by
  have distinct := distinct_of_parse parsed
  have distinctToo := distinct_of_parse parsedToo
  have same := shares.cluster_eq distinct distinctToo here own there its
  subst same
  obtain ⟨item, state, known, present, outcome, reaches, describes⟩ :=
    exists_getElem?_run distinct settings (List.getElem?_eq_some_iff.mp here).1 calm
  obtain ⟨item', state', known', present', outcome', reachesToo, describesToo⟩ :=
    exists_getElem?_run distinctToo settings (List.getElem?_eq_some_iff.mp there).1 calmToo
  refine ⟨rfl, item, item', present, present', ?_⟩
  rw [outcome, outcome']
  exact Run.sameOutcome_settle distinct distinctToo reaches reachesToo describes describesToo shares
    here there own

end Program

namespace Description

/-- The functions `leaf` and `main`, which calls `leaf`, itself and a procedure of no function. -/
def alone : Description where
  file := "a"
  world := "w"
  functions :=
    [⟨"main", "m", some (.seq (.plainCall "l") (.seq (.plainCall "m") (.plainCall "a_'proc"))),
        none, false⟩,
      ⟨"leaf", "l", some .skip, none, false⟩]

/-- The same functions in another order and behind others. One of these is not supported, and
another one has the name that is guessed for the unknown procedure.
-/
def amongOthers : Description where
  file := "b"
  world := "w"
  functions :=
    [⟨"a", "b", some .skip, none, false⟩,
      ⟨"fork", "k", some (.dynCall .univ .univ .univ ["t", "s"] (.assign .univ)), none, false⟩]
      ++ alone.functions.reverse

end Description

namespace Run

theorem parse_alone : Program.parse 0 Description.alone.text = .ok (.of 0 .alone) := by
  rw [Description.text, Json.render, Program.parse_ofList]
  decide +kernel

theorem parse_amongOthers
    : Program.parse 1 Description.amongOthers.text = .ok (.of 1 .amongOthers) := by
  rw [Description.text, Json.render, Program.parse_ofList]
  decide +kernel

/-- The record of `main` as analyzed. -/
def mainFunction : Function :=
  ⟨"main", "m", ⟨["leaf", "main"]⟩, ⟨["main"]⟩, false, true, none, none⟩

theorem ofProgram_alone
    : Plan.ofProgram (.of 0 .alone) .empty
      = (⟨"a", (Program.of 0 .alone).env,
          ⟨[("l", "leaf"), ("m", "main")]⟩,
          ⟨[["leaf"], ["main"]], [[], [0]]⟩⟩,
        ⟨[("leaf", function "leaf" "l" [] false), ("main", mainFunction)]⟩) := by
  cbv

theorem ofProgram_amongOthers
    : Plan.ofProgram (.of 1 .amongOthers) .empty
      = (⟨"b", (Program.of 1 .amongOthers).env,
          ⟨[("b", "a"), ("k", "fork"), ("l", "leaf"), ("m", "main")]⟩,
          ⟨[["a"], ["fork"], ["leaf"], ["main"]], [[], [], [], [2]]⟩⟩,
        ⟨[("a", function "a" "b" [] false), ("fork", function "fork" "k" [] false),
          ("leaf", function "leaf" "l" [] false), ("main", mainFunction)]⟩) := by
  cbv

theorem shares_amongOthers
    : (Program.of 0 .alone).Shares (.of 1 .amongOthers) ⟨"main", "m", none, false⟩ :=
  .of_closed ["leaf", "main"] rfl (by decide) (by decide) (by decide)

end Run

/-- Other functions before it, one of them refused, change nothing for `main`. -/
theorem Program.run_shared_amongOthers
    : Program.parse 0 Description.alone.text = .ok (.of 0 .alone)
      ∧ Program.parse 1 Description.amongOthers.text = .ok (.of 1 .amongOthers)
      ∧ (Program.of 0 .alone).Shares (.of 1 .amongOthers) ⟨"main", "m", none, false⟩
      ∧ ∃ item item',
          ((Program.of 0 .alone).run (.usual "l1_"))[1]? = some item
          ∧ ((Program.of 1 .amongOthers).run (.usual "l1_"))[3]? = some item'
          ∧ (∃ state, item.outcome = .ok state)
          ∧ Run.SameOutcome "main" item.outcome item'.outcome := by
  have here : (Program.of 0 .alone).clusters[1]? = some ["main"] :=
    congrArg (fun parts => parts.1.graph.clusters[1]?) Run.ofProgram_alone
  have there : (Program.of 1 .amongOthers).clusters[3]? = some ["main"] :=
    congrArg (fun parts => parts.1.graph.clusters[3]?) Run.ofProgram_amongOthers
  have calm
      : ∀ failure ∈ Run.failures ((Program.of 0 .alone).run (.usual "l1_")),
          failure.1 < 1 → failure.2.isFatal = false := by
    rw [Program.run, Run.ofProgram_alone]
    decide +kernel
  have calmToo
      : ∀ failure ∈ Run.failures ((Program.of 1 .amongOthers).run (.usual "l1_")),
          failure.1 < 3 → failure.2.isFatal = false := by
    rw [Program.run, Run.ofProgram_amongOthers]
    decide +kernel
  have registered
      : (((Program.of 0 .alone).run (.usual "l1_"))[1]?.bind (·.outcome.toOption)).isSome := by
    rw [Program.run, Run.ofProgram_alone]
    decide +kernel
  obtain ⟨_, item, item', present, present', same⟩ := Program.run_shared Run.parse_alone
    Run.parse_amongOthers (.usual "l1_") Run.shares_amongOthers here List.mem_cons_self there
    List.mem_cons_self calm calmToo
  refine ⟨Run.parse_alone, Run.parse_amongOthers, Run.shares_amongOthers, item, item', present,
    present', ?_, same⟩
  rw [present, Option.bind_some] at registered
  cases outcome : item.outcome with
  | error e => simp [outcome, Except.toOption] at registered
  | ok state => exact ⟨state, rfl⟩

end Monadize
