import Monadize.Proofs.Compile.Calls
import Monadize.Proofs.Graph.Dependencies
import Monadize.Proofs.Run.Measures
import Monadize.Proofs.Run.Trails
import Monadize.Proofs.Run.Turns

/-! Calls that become failure. A call node of a registered function is compiled to failure, with a
warning, exactly if no declared function that is registered has its procedure. It makes no
difference when in the run one looks: what a function calls outside of its cluster has ended before
the function is compiled.
-/

namespace Monadize

namespace Program

/-- The function that a call of the procedure is taken to go to: the one that declares the
procedure, or else the one that it is called after.
-/
def functionOf (program : Program) (proc : Name) : Name :=
  ((program.functions.find? fun d => d.proc = proc).map (·.name)).getD (guessFunction proc)

/-- Some function declares the procedure and is registered. -/
def translated (program : Program) (functions : FunctionTable) (proc : Name) : Bool :=
  program.functions.any fun d => d.proc = proc && (functions.const? d.name).isSome

theorem translated_iff {program : Program} {functions : FunctionTable} {proc : Name}
    : program.translated functions proc = true
      ↔ ∃ d ∈ program.functions, d.proc = proc ∧ ∃ k, functions.const? d.name = some k := by
  simp only [translated, List.any_eq_true, Bool.and_eq_true, decide_eq_true_eq,
    Option.isSome_iff_exists]

section Distinct

variable {program : Program} (distinct : program.Distinct)

include distinct

theorem Distinct.functionOf_proc {d : Declaration} (declared : d ∈ program.functions)
    : program.functionOf d.proc = d.name := by
  have some : (program.functions.find? fun e => e.proc = d.proc).isSome = true :=
    List.find?_isSome.mpr ⟨d, declared, decide_eq_true rfl⟩
  obtain ⟨e, found⟩ := Option.isSome_iff_exists.mp some
  have same : e.proc = d.proc := of_decide_eq_true (List.find?_some found :)
  obtain rfl := List.inj_on_of_nodup_map distinct.procs (List.mem_of_find?_eq_some found) declared
    same
  rw [functionOf, found, Option.map_some, Option.getD_some]

/-- The compiler finds the function of a procedure as the text of the program has it. -/
theorem Distinct.functionOf_eq (scope : Scope)
    (names : scope.procNames = CallGraph.procNames program.functions .empty) (f : Function)
    (measure : MeasureId) (proc : Name)
    : (scope.bodyContext f measure).functionOf proc = program.functionOf proc := by
  rw [BodyContext.functionOf, show (scope.bodyContext f measure).procNames = _ from names]
  cases known : (CallGraph.procNames program.functions .empty).find? proc with
  | some name =>
      obtain ⟨d, declared, rfl, rfl⟩ := distinct.find?_procNames.mp known
      exact (distinct.functionOf_proc declared).symm
  | none =>
      have absent : program.functions.find? (fun d => d.proc = proc) = none := by
        refine List.find?_eq_none.mpr fun d declared its => ?_
        have bound := distinct.find?_procNames.mpr ⟨d, declared, of_decide_eq_true its, rfl⟩
        cases known.symm.trans bound
      rw [functionOf, absent]
      rfl

/-- A callee that is not in the cluster of its caller is in one that this cluster depends on. -/
theorem Distinct.callee_cluster {d : Declaration} (declared : d ∈ program.functions) {f : Function}
    (analyzed : CallGraph.Analyzed program.env program.functions .empty d f) {callee : Name}
    (called : callee ∈ f.callees.elems) {i j : ClusterId} {members others : List Name}
    (here : program.clusters[i]? = some members) (own : d.name ∈ members)
    (there : program.clusters[j]? = some others) (its : callee ∈ others)
    : j = i
      ∨ ∃ ds,
          (CallGraph.analyze program.env program.functions .empty).graph.deps[i]? = some ds
          ∧ j ∈ ds := by
  obtain ⟨e, calleeDeclared, rfl⟩ := exists_declaration there its
  rcases analyzed.callee_earlier distinct.names declared calleeDeclared called here own there its
    with same | ⟨_, depends⟩
  · exact .inl same
  · exact .inr depends

end Distinct

end Program

namespace Run

variable {program : Program} {settings : Settings}

-----------------------------------------------------------------------------------------
-- Moments of a run
-----------------------------------------------------------------------------------------

/-- When the clusters `done` have ended, the compiled functions are registered. Each is a member of
one of these clusters, was compiled from an earlier state, and has an entry for every callee that is
registered.
-/
structure Attended (program : Program) (settings : Settings) (done : List ClusterId)
    (compiled : List Compiled) (state : RunState) : Prop where
  describes : Describes program settings ⟨.empty, .empty⟩ compiled state
  members
    : ∀ c ∈ compiled,
        ∃ id ∈ done, ∃ members, program.clusters[id]? = some members ∧ c.name ∈ members
  closed
    : ∀ id ∈ done, ∀ ds,
        (CallGraph.analyze program.env program.functions .empty).graph.deps[id]? = some ds
        → ∀ d ∈ ds, d ∈ done
  source
    : ∀ c ∈ compiled, ∀ f,
        (opening program ⟨.empty, .empty⟩).functions.find? c.name = some f
        → ∃ input measure,
            Stage (opening program ⟨.empty, .empty⟩) input
            ∧ input.functions.find? c.name = some f
            ∧ ((program.scope settings input.functions).compile c.name measure).result = .ok c
  listed
    : ∀ c ∈ compiled, ∀ f,
        (opening program ⟨.empty, .empty⟩).functions.find? c.name = some f
        → ∀ callee ∈ f.callees.elems, ∀ k,
            state.functions.const? callee = some k
            → ∃ entry ∈ c.callees.entries, entry.func = callee

/-- From one moment to a later one: what is registered stays, and so do all functions of clusters
that have ended.
-/
structure Since (program : Program) (ids : List ClusterId) (input : RunState)
    (done : List ClusterId) (state : RunState) : Prop where
  subset : ids ⊆ done
  grows : input.store.Grows state.store
  persists : Persists input state
  keeps
    : ∀ id ∈ ids, ∀ members,
        program.clusters[id]? = some members
        → ∀ name ∈ members, state.functions.find? name = input.functions.find? name

theorem Since.refl (done : List ClusterId) (state : RunState)
    : Since program done state done state where
  subset := List.Subset.refl done
  grows := List.prefix_rfl
  persists _ _ found _ := found
  keeps _ _ _ _ _ _ := rfl

theorem Since.trans {ids done done' : List ClusterId} {input state state' : RunState}
    (first : Since program ids input done state) (second : Since program done state done' state')
    : Since program ids input done' state' where
  subset := List.Subset.trans first.subset second.subset
  grows := List.IsPrefix.trans first.grows second.grows
  persists name f found registered :=
    second.persists name f (first.persists name f found registered) registered
  keeps id ended members here name member :=
    (second.keeps id (first.subset ended) members here name member).trans
      (first.keeps id ended members here name member)

namespace Attended

variable {ids done : List ClusterId} {input state next : RunState}
  {knownInput known compiled : List Compiled} {id : ClusterId} {members : List Name}
  (distinct : program.Distinct) (before : Attended program settings done known state)
  (fresh : id ∉ done)
  (deps
    : ∀ ds,
        (CallGraph.analyze program.env program.functions .empty).graph.deps[id]? = some ds
        → ∀ d ∈ ds, d ∈ ids)

include before deps in
/-- A cluster that is not registered is one more that has ended. -/
theorem refused (since : Since program ids input done state)
    : Attended program settings (done ++ [id]) known state where
  describes := before.describes
  members := by
    intro c among
    obtain ⟨j, ended, its⟩ := before.members c among
    exact ⟨j, List.mem_append_left _ ended, its⟩
  closed := by
    intro j ended ds here d listed
    rcases List.mem_append.mp ended with earlier | last
    · exact List.mem_append_left _ (before.closed j earlier ds here d listed)
    · rw [List.mem_singleton.mp last] at here
      exact List.mem_append_left _ (since.subset (deps ds here d listed))
  source := before.source
  listed := before.listed

variable (fromInput : Attended program settings ids knownInput input)
  (since : Since program ids input done state) (here : program.clusters[id]? = some members)
  (result
    : (Cluster.compile ((program.planOn ⟨.empty, .empty⟩).scope settings input.functions) id
        members).result
      = .ok compiled)
  (settled
    : Settled (program.planOn ⟨.empty, .empty⟩) settings input.functions state compiled next)

include fromInput here result in
theorem names : compiled.map (·.name) = members :=
  ((fromInput.describes.stage.usable known_opening).built (List.mem_of_getElem? here) result).1

include distinct fromInput here result settled fresh in
/-- Registering a cluster changes no function of those that have ended. -/
theorem since_next (before : Attended program settings done known state)
    : Since program done state (done ++ [id]) next where
  subset := List.subset_append_left done [id]
  grows := settled.grows
  persists := settled.persists distinct (Program.supersedes_empty program) before.describes
  keeps := by
    intro j ended others there name member
    refine settled.find?_of_not_mem ?_
    rw [fromInput.names here result]
    exact fun own => fresh (distinct.cluster_unique there here member own ▸ ended)

include distinct before fresh deps fromInput since here result settled in
/-- A function of the cluster has an entry for every callee that is registered with it. A callee in
the cluster is recursive; any other one is in a cluster that has ended, and was registered already
when this one was compiled.
-/
theorem exists_entry (describes : Describes program settings ⟨.empty, .empty⟩ (known ++ compiled)
      next)
    {c : Compiled} (among : c ∈ compiled) {f : Function}
    (atStart : (opening program ⟨.empty, .empty⟩).functions.find? c.name = some f) {callee : Name}
    (called : callee ∈ f.callees.elems) {k : ConstId}
    (const : next.functions.const? callee = some k)
    : ∃ entry ∈ c.callees.entries, entry.func = callee := by
  have names := fromInput.names here result
  have own : c.name ∈ members := names ▸ List.mem_map_of_mem among
  obtain ⟨d, declared, same, analyzed⟩ := Describes.analyzed_of_find?_opening distinct atStart
  have found :=
    (settled.find?_input fromInput.describes before.describes since.grows among).trans atStart
  obtain ⟨term, builds⟩ := settled.built.builds_of_find? among found
  have entry {g : Function} (foundCallee : input.functions.find? callee = some g)
      (kept : callee ∈ f.recCallees.elems ∨ g.registration.isSome = true)
      : ∃ entry ∈ c.callees.entries, entry.func = callee := by
    refine ⟨⟨callee, g.proc, f.recCallees.contains callee, g.measured⟩, ?_, rfl⟩
    rw [builds.callees]
    exact Scope.mem_calleeTable.mpr ⟨g, called, foundCallee, kept, rfl⟩
  obtain ⟨c', amongToo, rfl⟩ := describes.mem_of_const? distinct const
  rcases List.mem_append.mp amongToo with old | new
  · obtain ⟨j, ended, others, there, its⟩ := before.members c' old
    rcases distinct.callee_cluster declared analyzed called here (same ▸ own) there its
      with rfl | ⟨ds, depends, listed⟩
    · exact absurd ended fresh
    · obtain ⟨g, k', _, _, registered⟩ := before.describes.registered c' old
      have kept := since.keeps j (deps ds depends j listed) others there c'.name its
      exact entry (kept.symm.trans registered) (.inr rfl)
  · have its : c'.name ∈ members := names ▸ List.mem_map_of_mem new
    obtain ⟨g, foundCallee⟩ := (fromInput.describes.stage.usable known_opening).known members
      (List.mem_of_getElem? here) c'.name its
    refine entry foundCallee (.inl ((analyzed.mem_recCallees c'.name).mpr ?_))
    exact ⟨called, members, List.mem_of_getElem? here, same ▸ own, its⟩

include distinct before fresh deps fromInput since here result settled in
/-- A cluster that is registered adds its functions. -/
theorem registered : Attended program settings (done ++ [id]) (known ++ compiled) next := by
  have names := fromInput.names here result
  have describes := settled.describes distinct (Program.supersedes_empty program)
    fromInput.describes before.describes since.grows since.persists
  have ended := before.refused deps since
  refine ⟨describes, ?_, ended.closed, ?_, ?_⟩
  · intro c among
    rcases List.mem_append.mp among with old | new
    · exact ended.members c old
    · exact ⟨id, List.mem_append_right _ List.mem_cons_self, members, here,
        names ▸ List.mem_map_of_mem new⟩
  · intro c among f atStart
    rcases List.mem_append.mp among with old | new
    · exact before.source c old f atStart
    · obtain ⟨name, measure, compiles⟩ := Cluster.exists_compile result new
      obtain ⟨g, foundName, same⟩ := Scope.exists_of_compile compiles
      have named := fromInput.describes.stage.consistent.named name g foundName
      rw [← named, ← same] at compiles
      have found :=
        (settled.find?_input fromInput.describes before.describes since.grows new).trans atStart
      exact ⟨input, measure, fromInput.describes.stage, found, compiles⟩
  · intro c among f atStart callee called k const
    rcases List.mem_append.mp among with old | new
    · -- the callees of a registered function have ended with it or before
      obtain ⟨i, earlier, own, there, member⟩ := before.members c old
      obtain ⟨d, declared, same, analyzed⟩ :=
        Describes.analyzed_of_find?_opening distinct atStart
      obtain ⟨c', amongToo, rfl⟩ := describes.mem_of_const? distinct const
      rcases List.mem_append.mp amongToo with oldToo | newToo
      · obtain ⟨k', constBefore, _⟩ := before.describes.exists_const? oldToo
        exact before.listed c old f atStart c'.name called k' constBefore
      · have its : c'.name ∈ members := names ▸ List.mem_map_of_mem newToo
        rcases distinct.callee_cluster declared analyzed called there (same ▸ member) here its
          with rfl | ⟨ds, depends, listed⟩
        · exact absurd earlier fresh
        · exact absurd (before.closed i earlier ds depends id listed) fresh
    · exact before.exists_entry distinct fresh deps fromInput since here result settled describes
        new atStart called const

end Attended

/-- All along a run from nothing, the functions of ended clusters are attended to. -/
theorem Point.attended (distinct : program.Distinct) {state : RunState}
    (point
      : Point (Plan.ofProgram program .empty).1 settings (Plan.ofProgram program .empty).2 .empty
          .empty state)
    : ∃ done compiled, Attended program settings done compiled state := by
  have start : Attended program settings [] [] (opening program ⟨.empty, .empty⟩) :=
    ⟨describes_opening settings consistent_empty distinct, nofun, nofun, nofun, nofun⟩
  obtain ⟨done, moments, trail⟩ :=
    point.trail fun id ds here d listed => CallGraph.lt_of_mem_deps here listed
  refine ⟨done, ?_⟩
  refine (trail.forall
    (P := fun done state => ∃ compiled, Attended program settings done compiled state)
    (R := Since program) Since.refl Since.trans ⟨[], start⟩ ?_ (done, state)
    List.mem_cons_self).1
  · intro ids input done state next id inputAttended stateAttended since fresh deps ended
    obtain ⟨knownInput, fromInput⟩ := inputAttended
    obtain ⟨known, before⟩ := stateAttended
    cases ended with
    | refused =>
        refine ⟨⟨known, before.refused deps since⟩, ?_⟩
        exact { Since.refl done state with subset := List.subset_append_left done [id] }
    | registered result =>
        obtain ⟨compiled, members, here, compiles, settled⟩ :=
          (fromInput.describes.stage.usable known_opening).settled result
        exact ⟨⟨known ++ compiled,
          before.registered distinct fresh deps fromInput since here compiles settled⟩,
          fromInput.since_next distinct fresh here compiles settled before⟩

-----------------------------------------------------------------------------------------
-- Call nodes
-----------------------------------------------------------------------------------------

/-- How the body of a function has become its registration. It was compiled in the context `ctx`, by
call nodes: one of a procedure that is translated becomes a call through the entry of the function
that declares the procedure, and any other one becomes failure. What this gave was guarded and
finished, and then the placeholders became the constants of the callees.
-/
structure TranslatesCalls (program : Program) (settings : Settings) (functions : FunctionTable)
    (f : Function) (r : Registration) (body : Stmt) (ctx : BodyContext) (start : Term)
    (recipe : Recipe) : Prop where
  compiled : ctx.compile body = ⟨r.warnings, .ok (start, recipe)⟩
  forms : ctx.Compiles body start recipe
  missing
    : ∀ proc ∈ body.callSites,
        program.translated functions proc = false → ctx.entry? proc = none
  called
    : ∀ proc ∈ body.callSites,
        program.translated functions proc = true
        → ∃ g ∈ program.functions,
            g.proc = proc
            ∧ ∃ p entry,
                ctx.entry? proc = some (p, entry) ∧ entry.func = g.name ∧ entry.proc = g.proc
  term
    : ∃ hyps term steps,
        Theorem.finish
            ⟨settings.total, program.env,
              .callCorres (Scope.guardedTerm f ctx.measure start) f.proc, hyps, some ctx.measure⟩
            f.returnSlot settings.optimize settings.trace
          = .ok
              ⟨⟨settings.total, program.env, .callCorres term f.proc, hyps, some ctx.measure⟩,
                r.traces, steps⟩
        ∧ r.term = term.instantiate fun p =>
            (ctx.callees.entries[p]?).bind fun entry => functions.const? entry.func

namespace Attended

variable {done : List ClusterId} {compiled : List Compiled} {state input : RunState}
  (distinct : program.Distinct) (attended : Attended program settings done compiled state)
  {c : Compiled} (among : c ∈ compiled) {f : Function}
  (atStart : (opening program ⟨.empty, .empty⟩).functions.find? c.name = some f)
  (stage : Stage (opening program ⟨.empty, .empty⟩) input) {body : Stmt}
  (defined : program.env.body? f.proc = some body) {measure : MeasureId} {start : Term}
  (translates
    : (program.scope settings input.functions).Translates f measure body c start)

include distinct attended among stage translates in
/-- What a call node finds is the entry of a registered function that declares its procedure. -/
theorem exists_of_entry {proc : Name} (site : proc ∈ body.callSites) {p : PlaceholderId}
    {entry : CalleeEntry}
    (lookup
      : BodyContext.entry? ((program.scope settings input.functions).bodyContext f measure) proc
        = some (p, entry))
    : ∃ g ∈ program.functions,
        g.proc = proc
        ∧ entry.func = g.name
        ∧ entry.proc = g.proc
        ∧ ∃ k, state.functions.const? g.name = some k := by
  have its : entry.proc = proc := translates.resolves proc site p entry lookup
  obtain ⟨present, _⟩ := CalleeTable.find?_eq_some lookup
  have listed := List.mem_of_getElem? present
  obtain ⟨g, called, foundCallee, _, shape⟩ := Scope.mem_calleeTable.mp listed
  obtain ⟨g₀, atStart, outline⟩ := stage.exists_start foundCallee
  obtain ⟨e, declared, named, analyzed⟩ := Describes.analyzed_of_find?_opening distinct atStart
  have same : entry.proc = e.proc := calc entry.proc
    _ = g.proc := congrArg CalleeEntry.proc shape
    _ = g₀.proc := (congrArg Function.proc outline :).symm
    _ = e.proc := analyzed.proc
  have registered := attended.describes.callees c among entry (translates.callees ▸ listed)
  exact ⟨e, declared, same.symm.trans its, named.symm, same, named ▸ registered⟩

include distinct attended among atStart defined translates in
/-- A call of a procedure that a registered function declares finds an entry. -/
theorem exists_entry? {d : Declaration} (declared : d ∈ program.functions)
    (site : d.proc ∈ body.callSites) {k : ConstId}
    (const : state.functions.const? d.name = some k)
    : ∃ found,
        BodyContext.entry? ((program.scope settings input.functions).bodyContext f measure) d.proc
        = some found := by
  obtain ⟨d', _, _, analyzed⟩ := Describes.analyzed_of_find?_opening distinct atStart
  have called : d.name ∈ f.callees.elems :=
    (analyzed.mem_callees d.name).mpr ⟨body, analyzed.proc ▸ defined, d.proc, site,
      distinct.find?_procNames.mpr ⟨d, declared, rfl, rfl⟩,
      .inl (List.mem_map_of_mem declared)⟩
  obtain ⟨entry, listed, same⟩ := attended.listed c among f atStart d.name called k const
  rw [translates.callees] at listed
  obtain ⟨found, lookup⟩ := CalleeTable.exists_find? listed
  refine ⟨found, ?_⟩
  rw [BodyContext.entry?, distinct.functionOf_eq _ rfl, distinct.functionOf_proc declared, ← same]
  exact lookup

include distinct attended among atStart stage defined translates in
/-- A call node finds an entry exactly if its procedure is translated. -/
theorem isSome_entry? {proc : Name} (site : proc ∈ body.callSites)
    : (BodyContext.entry? ((program.scope settings input.functions).bodyContext f measure)
          proc).isSome
      = program.translated state.functions proc := by
  rw [Bool.eq_iff_iff, Program.translated_iff, Option.isSome_iff_exists]
  constructor
  · intro found
    obtain ⟨⟨p, entry⟩, lookup⟩ := found
    obtain ⟨g, declared, its, _, _, registered⟩ :=
      attended.exists_of_entry distinct among stage translates site lookup
    exact ⟨g, declared, its, registered⟩
  · intro translated
    obtain ⟨d, declared, rfl, k, const⟩ := translated
    exact attended.exists_entry? distinct among atStart defined translates declared site const

include distinct attended among atStart stage defined translates in
/-- The warnings are about the call nodes whose procedure is not translated. -/
theorem warnings
    : c.warnings
      = (body.callSites.filter fun proc => !program.translated state.functions proc).map
          (fun proc => .missingCallee c.name (program.functionOf proc)) := by
  obtain ⟨recipe, compiledBody⟩ := translates.compiled
  have named : f.name = c.name := (consistent_empty.opening distinct).named c.name f atStart
  have each (proc : Name) (site : proc ∈ body.callSites)
      : ((program.scope settings input.functions).bodyContext f measure).warning? proc
        = if (!program.translated state.functions proc) = true
          then some (.missingCallee c.name (program.functionOf proc))
          else none := by
    rw [BodyContext.warning?, distinct.functionOf_eq _ rfl,
      attended.isSome_entry? distinct among atStart stage defined translates site,
      show ((program.scope settings input.functions).bodyContext f measure).func = _ from named]
    cases program.translated state.functions proc with
    | false => rfl
    | true => rfl
  calc c.warnings
    _ = (((program.scope settings input.functions).bodyContext f measure).compile body).reports :=
        (congrArg Reported.reports compiledBody).symm
    _ = body.callSites.filterMap
          ((program.scope settings input.functions).bodyContext f measure).warning? :=
        BodyContext.reports_compile (congrArg Reported.result compiledBody)
    _ = _ := List.filterMap_congr each
    _ = _ := by rw [← List.filterMap_filter, ← List.filterMap_eq_map]; rfl

include distinct attended among atStart stage defined translates in
/-- A registered function comes from its body, call node by call node. -/
theorem translatesCalls (k : ConstId)
    : ∃ ctx recipe,
        TranslatesCalls program settings state.functions f
          (Cluster.registration settings program.env f.measured
            (fun entry => state.functions.const? entry.func) c k)
          body ctx start recipe := by
  obtain ⟨recipe, compiledBody⟩ := translates.compiled
  obtain ⟨hyps, steps, finished⟩ := translates.finished
  refine ⟨(program.scope settings input.functions).bodyContext f measure, recipe, compiledBody,
    BodyContext.compiles_of_compile (congrArg Reported.result compiledBody), ?_, ?_,
    hyps, c.term, steps, finished, ?_⟩
  · intro proc site unknown
    rw [← Option.not_isSome_iff_eq_none,
      attended.isSome_entry? distinct among atStart stage defined translates site, unknown]
    exact Bool.false_ne_true
  · intro proc site translated
    rw [← attended.isSome_entry? distinct among atStart stage defined translates site] at translated
    obtain ⟨⟨p, entry⟩, lookup⟩ := Option.isSome_iff_exists.mp translated
    obtain ⟨g, declared, its, func, proc, _⟩ :=
      attended.exists_of_entry distinct among stage translates site lookup
    exact ⟨g, declared, its, p, entry, lookup, func, proc⟩
  · rw [Cluster.registration, translates.callees]
    rfl

end Attended

/-- A call becomes failure only when it must. At every point of a run from nothing, with one or many
workers, and for every registered function with a body, the warnings are those of the call nodes
whose procedure is declared by no function or by one that is not registered, left to right, one for
each; and every other call node is compiled to a call through the entry of the function that
declares its procedure. Witness: the context that the function was compiled in.
-/
theorem Point.calls_fail_iff {tag : Nat} {text : String}
    (parsed : Program.parse tag text = .ok program) {state : RunState}
    (point
      : Point (Plan.ofProgram program .empty).1 settings (Plan.ofProgram program .empty).2 .empty
          .empty state)
    {name : Name} {f : Function} {r : Registration} {body : Stmt}
    (found : state.functions.find? name = some f) (registered : f.registration = some r)
    (defined : program.env.body? f.proc = some body)
    : r.warnings
        = (body.callSites.filter fun proc => !program.translated state.functions proc).map
            (fun proc => .missingCallee name (program.functionOf proc))
      ∧ ∃ ctx start recipe,
          TranslatesCalls program settings state.functions f r body ctx start recipe := by
  have distinct := Program.distinct_of_parse parsed
  obtain ⟨done, compiled, attended⟩ := point.attended distinct
  have const : state.functions.const? name = some r.const := by
    rw [FunctionTable.const?, found, Option.bind_some, registered, Option.map_some]
  obtain ⟨c, among, rfl⟩ := attended.describes.mem_of_const? distinct const
  obtain ⟨f₀, k, _, atStart, foundToo⟩ := attended.describes.registered c among
  cases found.symm.trans foundToo
  obtain rfl := Option.some.inj registered
  obtain ⟨input, measure, stage, foundInput, compiles⟩ := attended.source c among f₀ atStart
  obtain ⟨start, translates⟩ :=
    Scope.translates_of_compile (f := f₀) foundInput compiles defined
  obtain ⟨ctx, recipe, calls⟩ :=
    attended.translatesCalls distinct among atStart stage defined translates k
  exact ⟨attended.warnings distinct among atStart stage defined translates, ctx, start, recipe,
    { calls with }⟩

end Run

/-- The function `main` calls `pick`, which cannot be compiled, `leaf`, which can, and a procedure
that no function declares.
-/
def Description.errand : Description where
  file := "a"
  world := "w"
  functions :=
    [⟨"leaf", "l", some .skip, none, false⟩,
      ⟨"main", "m", some (.seq (.plainCall "p") (.seq (.plainCall "l") (.plainCall "n_'proc"))),
        none, false⟩,
      ⟨"pick", "p", some (.dynCall .univ .univ .univ ["t", "s"] (.assign .univ)), none, false⟩]

namespace Run

theorem parse_errand : Program.parse 0 Description.errand.text = .ok (.of 0 .errand) := by
  rw [Description.text, Json.render, Program.parse_ofList]
  decide +kernel

theorem ofProgram_errand
    : Plan.ofProgram (.of 0 .errand) .empty
      = (⟨"a", (Program.of 0 .errand).env,
          ⟨[("l", "leaf"), ("m", "main"), ("p", "pick")]⟩,
          ⟨[["leaf"], ["pick"], ["main"]], [[], [], [0, 1]]⟩⟩,
        ⟨[("leaf", function "leaf" "l" [] false),
          ("main", function "main" "m" ["leaf", "pick"] false),
          ("pick", function "pick" "p" [] false)]⟩) := by
  cbv

/-- The state after a run of these functions. -/
def errandState : RunState :=
  (inTurn (.of 0 .errand) (.usual "l1_") ⟨.empty, .empty⟩).2

theorem find?_errandState
    : ∃ f r,
        errandState.functions.find? "main" = some f
        ∧ f.registration = some r
        ∧ f.proc = "m"
        ∧ r.warnings = [.missingCallee "main" "pick", .missingCallee "main" "n"] := by
  have seen : (errandState.functions.find? "main").bind (fun f =>
        f.registration.map fun r => (f.proc, r.warnings))
      = some ("m", [.missingCallee "main" "pick", .missingCallee "main" "n"]) := by
    rw [errandState, inTurn, ofProgram_errand]
    decide +kernel
  obtain ⟨f, found, seen⟩ := Option.bind_eq_some_iff.mp seen
  obtain ⟨r, registered, seen⟩ := Option.map_eq_some_iff.mp seen
  exact ⟨f, r, found, registered, congrArg Prod.fst seen, congrArg Prod.snd seen⟩

/-- In the run of these functions, the calls of `main` to `pick` and to the unknown procedure become
failure, and the one to `leaf` does not.
-/
theorem calls_fail_iff_errand
    : Program.parse 0 Description.errand.text = .ok (.of 0 .errand)
      ∧ ∃ f r body,
          errandState.functions.find? "main" = some f
          ∧ f.registration = some r
          ∧ (Program.of 0 .errand).env.body? f.proc = some body
          ∧ r.warnings = [.missingCallee "main" "pick", .missingCallee "main" "n"]
          ∧ (body.callSites.filter fun proc =>
                !(Program.of 0 .errand).translated errandState.functions proc).map
              (fun proc => .missingCallee "main" ((Program.of 0 .errand).functionOf proc))
            = r.warnings
          ∧ ∃ ctx start recipe,
              TranslatesCalls (.of 0 .errand) (.usual "l1_") errandState.functions f r body ctx
                start recipe := by
  obtain ⟨f, r, found, registered, proc, warnings⟩ := find?_errandState
  have point : Point (Plan.ofProgram (.of 0 .errand) .empty).1 (.usual "l1_")
      (Plan.ofProgram (.of 0 .errand) .empty).2 .empty .empty errandState :=
    .sequential none
  have defined : ∃ body, (Program.of 0 .errand).env.body? f.proc = some body := by
    rw [proc]
    exact ⟨_, rfl⟩
  obtain ⟨body, defined⟩ := defined
  obtain ⟨same, calls⟩ := point.calls_fail_iff parse_errand found registered defined
  exact ⟨parse_errand, f, r, body, found, registered, defined, warnings, same.symm, calls⟩

end Run

end Monadize
