import Monadize.Proofs.Run.Sessions

/-! Registering a cluster that has been compiled fails on names only. Whatever runs in the same
environment have led to, the hypotheses of the compiled functions can be discharged, as long as the
program's own functions take the place of older ones.
-/

namespace Monadize

/-- The callees that are still called recursively are recursive callees of the function. -/
theorem Scope.Builds.recCallees_subset {scope : Scope} {f : Function} {c : Compiled} {term : Term}
    (built : scope.Builds f c term)
    : c.recCallees.elems ⊆ f.recCallees.elems := by
  intro name realized
  rw [built.recCallees] at realized
  obtain ⟨p, m, entry, called, present, rfl⟩ := mem_recursiveCallees.mp realized
  obtain ⟨_, hyp, target, assumed, recursive⟩ := built.placed _ called
  cases target
  obtain ⟨other, presentToo, rfl⟩ := built.hyps p hyp (FiniteMap.mem_entries_of_find? assumed)
  cases present.symm.trans presentToo
  exact (Scope.recursive_iff (List.mem_of_getElem? present)).mp (recursive m rfl)

namespace Run

variable {plan : Plan} {settings : Settings} {program : Program} {prior : FunctionTable}

-----------------------------------------------------------------------------------------
-- What a run makes of functions
-----------------------------------------------------------------------------------------

/-- Functions are listed under their names. Those that are registered have theorems about their own
constants and procedures, in the environment and with the termination flag.
-/
structure Coherent (env : Environment) (total : Bool) (functions : FunctionTable) : Prop where
  sorted : functions.Sorted
  named : ∀ name f, functions.find? name = some f → f.name = name
  about
    : ∀ name f r,
        functions.find? name = some f
        → f.registration = some r
        → r.thm = ⟨total, env, .fnCorres r.const f.proc, .empty, none⟩

/-- Functions are as they were at the start but for their registrations, and for recursive callees
that are no longer called.
-/
structure Derived (start functions : FunctionTable) : Prop where
  kept : ∀ name f₀, start.find? name = some f₀ → ∃ f, functions.find? name = some f
  origin
    : ∀ name f,
        functions.find? name = some f
        → ∃ f₀,
            start.find? name = some f₀
            ∧ f₀.outline = f.outline
            ∧ f.recCallees.elems ⊆ f₀.recCallees.elems

theorem Derived.refl (start : FunctionTable) : Derived start start where
  kept _ f₀ found := ⟨f₀, found⟩
  origin _ f found := ⟨f, found, rfl, List.Subset.refl _⟩

theorem Coherent.usable {start functions : FunctionTable} {total : Bool}
    (coherent : Coherent plan.env total functions) (derived : Derived start functions)
    (known
      : ∀ members ∈ plan.graph.clusters, ∀ name ∈ members, ∃ f, start.find? name = some f)
    : Usable plan functions where
  known members cluster name member := by
    obtain ⟨f₀, atStart⟩ := known members cluster name member
    exact derived.kept name f₀ atStart
  named := coherent.named
  about name f r found registered := ⟨_, _, coherent.about name f r found registered⟩

namespace Settled

variable {input : FunctionTable} {state next : RunState} {compiled : List Compiled}
  (settled : Settled plan settings input state compiled next)

include settled

theorem coherent (fromInput : Coherent plan.env settings.total input)
    (before : Coherent plan.env settings.total state.functions)
    : Coherent plan.env settings.total next.functions where
  sorted := settled.sorted before.sorted
  named := settled.named fromInput.named before.named
  about := by
    intro name f r found registered
    rcases settled.of_find? found with old | ⟨pair, paired, rfl, g, foundInput, rfl⟩
    · exact before.about name f r old registered
    · cases registered
      obtain ⟨term, builds⟩ :=
        settled.built.builds_of_find? (List.of_mem_zip paired).1 foundInput
      rw [← builds.proc_eq]
      rfl

theorem derived {start : FunctionTable} (fromInput : Derived start input)
    (before : Derived start state.functions)
    : Derived start next.functions where
  kept := by
    intro name f₀ atStart
    rcases settled.functions name with ⟨_, same⟩ | ⟨_, _, _, _, _, changed⟩
    · rw [same]
      exact before.kept name f₀ atStart
    · exact ⟨_, changed⟩
  origin := by
    intro name f found
    rcases settled.of_find? found with old | ⟨pair, paired, rfl, g, foundInput, rfl⟩
    · exact before.origin name f old
    · obtain ⟨term, builds⟩ :=
        settled.built.builds_of_find? (List.of_mem_zip paired).1 foundInput
      obtain ⟨f₀, atStart, outline, narrower⟩ := fromInput.origin pair.1.name g foundInput
      exact ⟨f₀, atStart, outline, List.Subset.trans builds.recCallees_subset narrower⟩

end Settled

/-- All through a run, functions stay coherent and are derived from those at the start. -/
theorem Course.coherent_and_derived {start state : RunState} {states : List RunState}
    (course : Course plan settings start (state :: states))
    (coherent : Coherent plan.env settings.total start.functions)
    (known
      : ∀ members ∈ plan.graph.clusters, ∀ name ∈ members,
          ∃ f, start.functions.find? name = some f)
    : Coherent plan.env settings.total state.functions
      ∧ Derived start.functions state.functions := by
  refine (course.forall
    (P := fun s =>
      Coherent plan.env settings.total s.functions ∧ Derived start.functions s.functions)
    (R := fun _ _ => True) (fun _ => trivial) (fun _ _ => trivial) ⟨coherent, .refl _⟩ ?_ state
    List.mem_cons_self).1
  intro input state next id fromInput before _ result
  obtain ⟨_, _, _, _, settled⟩ := (fromInput.1.usable fromInput.2 known).settled result
  exact ⟨⟨settled.coherent fromInput.1 before.1, settled.derived fromInput.2 before.2⟩, trivial⟩

theorem Coherent.opening {total : Bool} (coherent : Coherent program.env total prior)
    (distinct : program.Distinct) (store : Store)
    : Coherent program.env total (opening program ⟨store, prior⟩).functions := by
  have sorted : (Plan.ofProgram program prior).2.Sorted := FiniteMap.sorted_ofList _
  refine ⟨sorted.union coherent.sorted, ?_, ?_⟩
  · intro name f found
    rcases sorted.find?_of_union coherent.sorted found with new | old
    · obtain ⟨d, _, rfl, analyzed⟩ := analyzed_of_find? distinct new
      exact analyzed.name
    · exact coherent.named name f old
  · intro name f r found registered
    rcases sorted.find?_of_union coherent.sorted found with new | old
    · obtain ⟨d, _, _, analyzed⟩ := analyzed_of_find? distinct new
      cases analyzed.unregistered.symm.trans registered
    · exact coherent.about name f r old registered

/-- So it is at any point of a run of a program. -/
theorem Point.coherent_and_derived {store : Store} {state : RunState}
    (coherent : Coherent program.env settings.total prior) (distinct : program.Distinct)
    (point
      : Point (Plan.ofProgram program prior).1 settings (Plan.ofProgram program prior).2 prior store
          state)
    : Coherent program.env settings.total state.functions
      ∧ Derived (opening program ⟨store, prior⟩).functions state.functions := by
  obtain ⟨states, course⟩ := point.course
  have opened : Coherent (Plan.ofProgram program prior).1.env settings.total
      (opening program ⟨store, prior⟩).functions :=
    coherent.opening distinct store
  exact course.coherent_and_derived opened (@known_opening program ⟨store, prior⟩)

-----------------------------------------------------------------------------------------
-- Runs in one environment
-----------------------------------------------------------------------------------------

/-- The functions that runs of allowed programs can lead to, with the same termination flag. Each
run goes on from the functions of the one before, with any store, and can be left at any point.
-/
inductive Lineage (allowed : Program → Prop) (total : Bool) : FunctionTable → Prop
  | empty : Lineage allowed total .empty
  | run {prior : FunctionTable} {program : Program} {settings : Settings} {store : Store}
      {next : RunState} (before : Lineage allowed total prior) (fits : allowed program)
      (distinct : program.Distinct) (flag : settings.total = total)
      (point
        : Point (Plan.ofProgram program prior).1 settings (Plan.ofProgram program prior).2 prior
            store next)
      : Lineage allowed total next.functions

variable {allowed : Program → Prop} {total : Bool}

theorem coherent_empty (env : Environment) (total : Bool) : Coherent env total .empty where
  sorted := FiniteMap.sorted_empty
  named _ _ found := nomatch found
  about _ _ _ found := nomatch found

/-- Runs in one environment lead to coherent functions, by induction on them. -/
theorem Lineage.coherent {env : Environment} (lineage : Lineage allowed total prior)
    (same : ∀ program, allowed program → program.env = env)
    : Coherent env total prior := by
  induction lineage with
  | empty => exact coherent_empty env total
  | run _ fits distinct flag point ih =>
      obtain rfl := same _ fits
      obtain rfl := flag
      exact (point.coherent_and_derived ih distinct).1

/-- Runs of one program lead to its functions, by induction on them. -/
theorem Lineage.exists_declaration (lineage : Lineage allowed total prior)
    (same : ∀ other, allowed other → other = program) {name : Name} {f : Function}
    (found : prior.find? name = some f)
    : ∃ d ∈ program.functions, d.name = name := by
  have only : ∀ other, allowed other → other.env = program.env := fun other fits =>
    congrArg Program.env (same other fits)
  induction lineage generalizing f with
  | empty => cases found
  | run before fits distinct flag point ih =>
      obtain rfl := same _ fits
      obtain rfl := flag
      have coherent := before.coherent only
      obtain ⟨f₀, atStart, _⟩ := (point.coherent_and_derived coherent distinct).2.origin name f found
      rcases (FiniteMap.sorted_ofList _).find?_of_union coherent.sorted atStart with new | old
      · obtain ⟨d, declared, named, _⟩ := analyzed_of_find? distinct new
        exact ⟨d, declared, named⟩
      · exact ih old

/-- A program that is run again takes the place of what it was. -/
theorem Lineage.supersedes (lineage : Lineage allowed total prior)
    (same : ∀ other, allowed other → other = program)
    : program.Supersedes prior := by
  have sorted : prior.Sorted := (lineage.coherent fun other fits =>
    congrArg Program.env (same other fits) : Coherent program.env total prior).sorted
  refine (Program.supersedes_iff sorted).mpr (.inl ?_)
  have within : prior.keys ⊆ (Plan.ofProgram program prior).2.keys := by
    intro name listed
    obtain ⟨⟨_, f⟩, bound, rfl⟩ := List.mem_map.mp listed
    obtain ⟨d, declared, named⟩ :=
      lineage.exists_declaration same (sorted.find?_eq_some_iff.mpr bound)
    obtain ⟨g, known⟩ : ∃ g, (d.name, g) ∈ (Plan.ofProgram program prior).2.entries :=
      CallGraph.exists_mem_analyze declared
    exact List.mem_map.mpr ⟨_, known, named⟩
  have fewer := (List.subperm_of_subset sorted.nodup_keys within).length_le
  simpa [FiniteMap.keys, FiniteMap.size] using fewer

-----------------------------------------------------------------------------------------
-- Registering what is compiled
-----------------------------------------------------------------------------------------

/-- If new functions take the place of older ones, what a compiled cluster assumes can be
discharged: recursive callees are in the cluster, and a function that has some is measured and so
guarded. All other callees are registered in the same environment.
-/
theorem dischargeable_of_compile {store : Store} {functions : FunctionTable} {members : List Name}
    {compiled : List Compiled} (distinct : program.Distinct)
    (supersedes : program.Supersedes prior)
    (coherent : Coherent program.env settings.total functions)
    (derived : Derived (opening program ⟨store, prior⟩).functions functions)
    (cluster : members ∈ (Plan.ofProgram program prior).1.graph.clusters)
    (names : compiled.map (·.name) = members)
    (built : Cluster.Built ((Plan.ofProgram program prior).1.scope settings functions) compiled)
    {c : Compiled} (among : c ∈ compiled)
    : Cluster.Dischargeable ((Plan.ofProgram program prior).1.scope settings functions)
        (compiled.map (·.name)) c := by
  obtain ⟨f, term, found, builds⟩ := built.builds c among
  have member : c.name ∈ members := names ▸ List.mem_map_of_mem among
  obtain ⟨d, declared, named⟩ := Run.exists_declaration cluster member
  obtain ⟨f₀, atStart, outline, narrower⟩ := derived.origin c.name f found
  have analyzed := @analyzed_opening program ⟨store, prior⟩ distinct supersedes d declared f₀
    (named ▸ atStart)
  constructor
  · intro entry used recursive
    have within : entry.func ∈ f₀.recCallees.elems :=
      narrower ((Scope.recursive_iff (builds.mem_calleeTable used)).mp recursive)
    refine ⟨?_, ?_⟩
    · obtain ⟨i, here⟩ := List.mem_iff_getElem?.mp cluster
      have together := ((analyzed.mem_recCallees entry.func).mp within).2
      exact names ▸ (CallGraph.exists_cluster_iff distinct.names here (named ▸ member)).mp together
    · refine builds.isRecGuard_of_assumes used ?_
      have measured : f₀.measured = true := by
        rw [analyzed.measured, NameSet.isEmpty]
        simpa using List.ne_nil_of_mem within
      exact (congrArg Function.measured outline :).symm.trans measured
  · intro entry _ _ g r foundCallee registered
    rw [coherent.about entry.func g r foundCallee registered]
    exact ⟨rfl, rfl⟩

/-- A compiled cluster is registered unless a name is taken, and then it is refused for that name.
The function table is one that a run of the program has come to, at any point and from functions
that runs in the same environment and with the same termination flag have led to; the store is any.
The program's own functions have to take the place of older ones, as they do if all those runs were
of the program itself.
-/
theorem commit_ok_or_duplicate (distinct : program.Distinct)
    (lineage : Lineage allowed settings.total prior)
    (same : ∀ other, allowed other → other.env = program.env)
    (fits : program.Supersedes prior ∨ ∀ other, allowed other → other = program) {base : Store}
    {state : RunState}
    (point
      : Point (Plan.ofProgram program prior).1 settings (Plan.ofProgram program prior).2 prior base
          state)
    {id : ClusterId} {members : List Name}
    (here : (Plan.ofProgram program prior).1.graph.clusters[id]? = some members)
    {compiled : List Compiled}
    (result
      : (Cluster.compile ((Plan.ofProgram program prior).1.scope settings state.functions) id
          members).result
        = .ok compiled)
    (store : Store)
    : ((∀ c ∈ compiled, store.lookup (settings.constName c.name) = none)
        ∧ ∃ store' committed,
            Cluster.commit settings store state.functions compiled = .ok (store', committed))
      ∨ ∃ c ∈ compiled,
          (∃ k, store.lookup (settings.constName c.name) = some k)
          ∧ Cluster.commit settings store state.functions compiled
            = .error (.store (.duplicate (settings.constName c.name))) := by
  have supersedes := fits.elim (fun fits => fits) lineage.supersedes
  obtain ⟨coherent, derived⟩ := point.coherent_and_derived (lineage.coherent same) distinct
  have cluster := List.mem_of_getElem? here
  obtain ⟨names, built⟩ := (coherent.usable derived known_opening).built cluster result
  have once : (compiled.map (·.name)).Nodup := by
    have all := (CallGraph.clusters_perm program.env program.functions prior).nodup_iff.mpr
      distinct.names
    exact names ▸ (List.nodup_flatten.mp all).1 members cluster
  have nonempty : compiled ≠ [] := by
    intro none
    rw [none, List.map_nil] at names
    exact CallGraph.nil_not_mem_clusters program.env program.functions prior (names ▸ cluster)
  by_cases fresh : ∀ c ∈ compiled, store.lookup (settings.constName c.name) = none
  · refine .inl ⟨fresh, ?_⟩
    have registrable
        : Cluster.Registrable ((Plan.ofProgram program prior).1.scope settings state.functions)
            settings store compiled :=
      ⟨nonempty, once, fresh, fun c among =>
        dischargeable_of_compile distinct supersedes coherent derived cluster names built among⟩
    obtain ⟨committed, commits, _⟩ := built.exists_commit registrable
    exact ⟨_, committed, commits⟩
  · refine .inr ?_
    have new : (compiled.map fun c => settings.constName c.name).Nodup := by
      have mapped := once.map settings.constName_injective
      rwa [List.map_map] at mapped
    cases reserved : store.reserveAll (compiled.map fun c => settings.constName c.name) with
    | ok _ =>
        have free := (Store.reserveAll_eq_ok_iff.mp reserved).1.2
        exact absurd (fun c among => free _ (List.mem_map_of_mem among)) fresh
    | error e =>
        obtain ⟨_, listed, k, taken, rfl⟩ := Store.exists_of_reserveAll_eq_error new reserved
        obtain ⟨c, among, rfl⟩ := List.mem_map.mp listed
        refine ⟨c, among, ⟨k, taken⟩, ?_⟩
        rw [Cluster.commit, reserved]
        rfl

end Run

-----------------------------------------------------------------------------------------
-- Functions whose procedures are passed on
-----------------------------------------------------------------------------------------

namespace Description

/-- The functions `f` and `g` call each other. Two more functions have no bodies. -/
def twins : Description where
  file := "a"
  world := "w"
  functions :=
    [⟨"f", "q", some (.plainCall "p"), none, false⟩,
      ⟨"g", "p", some (.plainCall "q"), none, false⟩,
      ⟨"y", "y", none, none, false⟩,
      ⟨"z", "z", none, none, false⟩]

/-- The same bodies, but `h` has taken over the procedure of `f`, which has one without a body now.
Perhaps there is one more function.
-/
def passedOn (more : Bool) : Description where
  file := "a"
  world := "w"
  functions :=
    [⟨"f", "r", none, none, false⟩,
      ⟨"g", "p", some (.plainCall "q"), none, false⟩,
      ⟨"h", "q", some (.plainCall "p"), none, false⟩]
      ++ if more then [⟨"k", "k", none, none, false⟩] else []

end Description

namespace Run

theorem parse_passedOn (more : Bool)
    : Program.parse 0 (Description.passedOn more).text = .ok (.of 0 (.passedOn more)) := by
  rw [Description.text, Json.render, Program.parse_ofList]
  cases more <;> decide +kernel

def twinsTable : FunctionTable :=
  ⟨[("f", function "f" "q" ["g"] true), ("g", function "g" "p" ["f"] true),
    ("y", function "y" "y" [] false), ("z", function "z" "z" [] false)]⟩

theorem ofProgram_twins
    : Plan.ofProgram (.of 0 .twins) .empty
      = (⟨"a", (Program.of 0 .twins).env,
          ⟨[("p", "g"), ("q", "f"), ("y", "y"), ("z", "z")]⟩,
          ⟨[["f", "g"], ["y"], ["z"]], [[], [], []]⟩⟩,
        twinsTable) := by
  cbv

/-- The state after a run of the two functions that call each other. -/
def twinsState : RunState := (inTurn (.of 0 .twins) (.usual "l1_") ⟨.empty, .empty⟩).2

theorem outlines_twinsState
    : twinsState.functions.mapValues Function.outline
      = twinsTable.mapValues Function.outline := by
  rw [twinsState, inTurn, ofProgram_twins]
  decide +kernel

theorem ofProgram_passedOn (more : Bool)
    : Plan.ofProgram (.of 0 (.passedOn more)) twinsState.functions
      = (⟨"a", (Program.of 0 (.passedOn more)).env,
          ⟨(if more then [("k", "k")] else [])
            ++ [("p", "g"), ("q", "h"), ("r", "f"), ("y", "y"), ("z", "z")]⟩,
          ⟨[["f"], ["g", "h"]] ++ if more then [["k"]] else [],
            [[], []] ++ if more then [[]] else []⟩⟩,
        ⟨[("f", function "f" "r" [] false), ("g", function "g" "p" ["h"] true),
          ("h", function "h" "q" ["g"] true)]
            ++ if more then [("k", function "k" "k" [] false)] else []⟩) := by
  rw [← ofProgram_outlines, outlines_twinsState]
  cases more <;> cbv

theorem lineage_twinsState (more : Bool)
    : Lineage (fun other => other.env = (Program.of 0 (.passedOn more)).env) true
        twinsState.functions :=
  .run .empty (by cases more <;> decide +kernel) ⟨by decide, by decide⟩ rfl (.sequential none)

/-- The plan of the second program, on top of what the first one has led to. -/
def passedOnPlan (more : Bool) : Plan × FunctionTable :=
  Plan.ofProgram (.of 0 (.passedOn more)) twinsState.functions

/-- The state of a run of the second program before the cluster. -/
def passedOnState (more : Bool) (id : ClusterId) : RunState :=
  (sequential (passedOnPlan more).1 (.usual "l2_") (passedOnPlan more).2 twinsState.functions
    twinsState.store (some id)).2

/-- Compile a cluster of the second program after those before it. -/
def compilePassedOn (more : Bool) (id : ClusterId) (members : List Name)
    : Except CompileError (List Compiled) :=
  (Cluster.compile ((passedOnPlan more).1.scope (.usual "l2_") (passedOnState more id).functions) id
    members).result

/-- With more older functions than new ones, the second run still takes `f` for what it was: a
function of the procedure that `h` has now, which calls `g` recursively. It is compiled like that,
but `g` is not in its cluster any more. So registering it is refused, although its name is free.
-/
theorem commit_passedOn_refused
    : Program.parse 0 (Description.passedOn false).text = .ok (.of 0 (.passedOn false))
      ∧ Lineage (fun other => other.env = (Program.of 0 (.passedOn false)).env) true
          twinsState.functions
      ∧ ¬ (Program.of 0 (.passedOn false)).Supersedes twinsState.functions
      ∧ (passedOnPlan false).1.graph.clusters[0]? = some ["f"]
      ∧ ∃ compiled,
          compilePassedOn false 0 ["f"] = .ok compiled
          ∧ (∀ c ∈ compiled,
              (passedOnState false 0).store.lookup ((Settings.usual "l2_").constName c.name) = none)
          ∧ Cluster.commit (.usual "l2_") (passedOnState false 0).store
                (passedOnState false 0).functions compiled
            = .error (.proof (some "f") ⟨some .mutualInduction, .noBinding "q" "p"⟩) := by
  have seen
      : (compilePassedOn false 0 ["f"]).map (fun compiled =>
          (compiled.map (·.name),
            Cluster.commit (.usual "l2_") (passedOnState false 0).store
              (passedOnState false 0).functions compiled))
        = .ok (["f"], .error (.proof (some "f") ⟨some .mutualInduction, .noBinding "q" "p"⟩)) := by
    rw [compilePassedOn, passedOnState, passedOnPlan, ofProgram_passedOn, twinsState, inTurn,
      ofProgram_twins]
    decide +kernel
  have free : (passedOnState false 0).store.lookup "l2_f'" = none := by
    rw [passedOnState, passedOnPlan, ofProgram_passedOn, twinsState, inTurn, ofProgram_twins]
    decide +kernel
  have older : ¬ (Program.of 0 (.passedOn false)).Supersedes twinsState.functions := by
    have declared : ⟨"f", "r", none, false⟩ ∈ (Program.of 0 (.passedOn false)).functions := by
      simp [Program.of, Description.passedOn, Program.declaration]
    have sorted := ((lineage_twinsState false).coherent fun _ same => same).sorted
    refine not_supersedes_of_outlines sorted outlines_twinsState ?_ declared rfl ?_
    · rw [ofProgram_passedOn]
      exact Nat.lt_succ_self 3
    · rw [ofProgram_passedOn]
      decide
  refine ⟨parse_passedOn false, lineage_twinsState false, older, ?_, ?_⟩
  · rw [passedOnPlan, ofProgram_passedOn]
    rfl
  · cases result : compilePassedOn false 0 ["f"] with
    | error => simp [result, Except.map] at seen
    | ok compiled =>
        obtain ⟨names, refused⟩ := Prod.mk.inj (Except.ok.inj (result ▸ seen))
        refine ⟨compiled, rfl, fun c among => ?_, refused⟩
        have own : c.name ∈ ["f"] := names ▸ List.mem_map_of_mem among
        rw [List.mem_singleton.mp own]
        exact free

/-- Witness: with one new function more, `g` and `h` are registered together. If the name of one of
them is taken, that is the reason for which they are refused.
-/
theorem commit_ok_or_duplicate_passedOn
    : ∃ compiled,
        compilePassedOn true 1 ["g", "h"] = .ok compiled
        ∧ (∃ store committed,
            Cluster.commit (.usual "l2_") (passedOnState true 1).store
                (passedOnState true 1).functions compiled
              = .ok (store, committed))
        ∧ Cluster.commit (.usual "l2_") (Store.empty.push "l2_h'") (passedOnState true 1).functions
              compiled
            = .error (.store (.duplicate "l2_h'")) := by
  have seen : (compilePassedOn true 1 ["g", "h"]).map (fun compiled => compiled.map (·.name))
      = .ok ["g", "h"] := by
    rw [compilePassedOn, passedOnState, passedOnPlan, ofProgram_passedOn, twinsState, inTurn,
      ofProgram_twins]
    decide +kernel
  have free : (passedOnState true 1).store.lookup "l2_g'" = none
      ∧ (passedOnState true 1).store.lookup "l2_h'" = none := by
    rw [passedOnState, passedOnPlan, ofProgram_passedOn, twinsState, inTurn, ofProgram_twins]
    decide +kernel
  have here : (passedOnPlan true).1.graph.clusters[1]? = some ["g", "h"] := by
    rw [passedOnPlan, ofProgram_passedOn]
    rfl
  have lineage := lineage_twinsState true
  have supersedes : (Program.of 0 (.passedOn true)).Supersedes twinsState.functions := by
    refine (Program.supersedes_iff (lineage.coherent fun _ same => same).sorted).mpr (.inl ?_)
    rw [ofProgram_passedOn, twinsState, inTurn, ofProgram_twins]
    decide +kernel
  cases result : compilePassedOn true 1 ["g", "h"] with
  | error => simp [result, Except.map] at seen
  | ok compiled =>
      have names : compiled.map (·.name) = ["g", "h"] := Except.ok.inj (result ▸ seen)
      have point : Point (passedOnPlan true).1 (.usual "l2_") (passedOnPlan true).2
          twinsState.functions twinsState.store (passedOnState true 1) :=
        .sequential (some 1)
      have commits := commit_ok_or_duplicate (Program.distinct_of_parse (parse_passedOn true))
        lineage (fun _ same => same) (.inl supersedes) point here result
      refine ⟨compiled, rfl, ?_, ?_⟩
      · rcases commits (passedOnState true 1).store with ⟨_, done⟩ | ⟨c, among, ⟨k, taken⟩, _⟩
        · exact done
        · have own : c.name ∈ ["g", "h"] := names ▸ List.mem_map_of_mem among
          rcases List.mem_pair.mp own with same | same
          · rw [same] at taken
            cases free.1.symm.trans taken
          · rw [same] at taken
            cases free.2.symm.trans taken
      · rcases commits (Store.empty.push "l2_h'") with ⟨fresh, _⟩ | ⟨c, _, ⟨k, taken⟩, refused⟩
        · obtain ⟨c, among, named⟩ : ∃ c ∈ compiled, c.name = "h" :=
            List.mem_map.mp (names ▸ List.mem_cons_of_mem _ List.mem_cons_self)
          have known : (Store.empty.push "l2_h'").lookup "l2_h'" = some 0 := rfl
          cases known.symm.trans (named ▸ fresh c among)
        · rw [Store.lookup_push] at taken
          obtain ⟨named, _⟩ := Option.ite_none_right_eq_some.mp taken
          rw [refused, named]

end Run

end Monadize
