import Monadize.Proofs.Graph.Reachability
import Monadize.Proofs.NameSet
import Monadize.Proofs.Program

/-! What the analysis finds out about a function depends on the functions that can be reached from
it. Two programs that have these in common analyze them alike: they put them into the same clusters,
in the same order, and record the same callees.
-/

namespace Monadize

namespace CallGraph

variable {env : Environment} {decls : List Declaration} {prior : FunctionTable}

-----------------------------------------------------------------------------------------
-- Clusters in order
-----------------------------------------------------------------------------------------

theorem pairwise_sortDecls (decls : List Declaration)
    : (sortDecls decls).Pairwise fun a b => a.name ≤ b.name := by
  refine (List.pairwise_mergeSort ?_ ?_ decls).imp of_decide_eq_true
  · intro a b c first second
    exact decide_eq_true (Std.le_trans (of_decide_eq_true first) (of_decide_eq_true second))
  · intro a b
    rw [Bool.or_eq_true, decide_eq_true_eq, decide_eq_true_eq]
    exact Std.le_total

theorem pairwise_positions {places : List Nat} (among : places ∈ positions env decls prior)
    : places.Pairwise (· < ·) := by
  have once : (positions env decls prior).flatten.Nodup :=
    (positions_partition env decls prior).1.nodup_iff.mpr List.nodup_range
  have distinct : places.Nodup := (List.nodup_flatten.mp once).1 places among
  obtain ⟨c, _, rfl⟩ := List.mem_map.mp among
  exact pairwise_lt_mergeSort ((List.mergeSort_perm _ _).nodup_iff.mp distinct)

/-- A cluster lists its functions by name. -/
theorem pairwise_cluster (distinct : (decls.map (·.name)).Nodup) {members : List Name}
    (cluster : members ∈ (analyze env decls prior).graph.clusters)
    : members.Pairwise (· < ·) := by
  rw [clusters_analyze] at cluster
  obtain ⟨places, among, rfl⟩ := List.mem_map.mp cluster
  have sorted : ((sortDecls decls).map (·.name)).Nodup :=
    ((sortDecls_perm decls).map _).nodup_iff.mpr distinct
  refine (pairwise_positions among).filterMap _ ?_
  intro i j before name first other second
  obtain ⟨d, here, rfl⟩ := Option.map_eq_some_iff.mp first
  obtain ⟨e, there, rfl⟩ := Option.map_eq_some_iff.mp second
  refine Std.lt_of_le_of_ne ?_ fun same => ?_
  · obtain ⟨inside, rfl⟩ := List.getElem?_eq_some_iff.mp here
    obtain ⟨insideToo, rfl⟩ := List.getElem?_eq_some_iff.mp there
    exact List.pairwise_iff_getElem.mp (pairwise_sortDecls decls) i j inside insideToo before
  · exact Nat.ne_of_lt before (position_unique sorted here there same)

-----------------------------------------------------------------------------------------
-- Functions by their callees
-----------------------------------------------------------------------------------------

theorem sorted_calleesOf {names : FiniteMap Name Name} {known : Name → Bool} {proc : Name}
    : (calleesOf env names known proc).Sorted := by
  unfold calleesOf
  split
  · exact NameSet.sorted_empty
  · exact (NameSet.sorted_ofList _).filter known

/-- Two analyses of a declaration differ in the callees at most. -/
theorem function_eq {env' : Environment} {decls' : List Declaration} {prior' : FunctionTable}
    (distinct : (decls.map (·.name)).Nodup) (distinct' : (decls'.map (·.name)).Nodup)
    {d : Declaration} (member : d ∈ decls) (member' : d ∈ decls') {f f' : Function}
    (found : (analyze env decls prior).functions.find? d.name = some f)
    (found' : (analyze env' decls' prior').functions.find? d.name = some f')
    (callees : ∀ c, c ∈ f.callees.elems ↔ c ∈ f'.callees.elems)
    (recCallees : ∀ c, c ∈ f.recCallees.elems ↔ c ∈ f'.recCallees.elems)
    : f = f' := by
  obtain ⟨i, e, here, same, rfl⟩ := exists_position_of_mem (FiniteMap.mem_entries_of_find? found)
  obtain ⟨j, e', there, same', rfl⟩ :=
    exists_position_of_mem (FiniteMap.mem_entries_of_find? found')
  obtain rfl := List.inj_on_of_nodup_map distinct
    ((sortDecls_perm decls).mem_iff.mp (List.mem_of_getElem? here)) member same
  obtain rfl := List.inj_on_of_nodup_map distinct'
    ((sortDecls_perm decls').mem_iff.mp (List.mem_of_getElem? there)) member' same'
  have sameCallees := NameSet.Sorted.ext sorted_calleesOf sorted_calleesOf callees
  have sameRecCallees :=
    NameSet.Sorted.ext (sorted_calleesOf.filter _) (sorted_calleesOf.filter _) recCallees
  exact (Function.mk.injEq ..).mpr ⟨rfl, rfl, sameCallees, sameRecCallees, rfl,
    congrArg (fun set => !set.isEmpty) sameRecCallees, rfl, rfl⟩

theorem owns_empty_iff {proc name : Name}
    : Owns decls .empty proc name ↔ ∃ d ∈ decls, d.proc = proc ∧ d.name = name := by
  constructor
  · intro owns
    cases owns with
    | declared member its named => exact ⟨_, member, its, named⟩
    | before _ known => simp [FiniteMap.values, FiniteMap.empty] at known
  · intro declared
    obtain ⟨d, member, its, named⟩ := declared
    exact .declared member its named

/-- Without functions known before, the callees of a function are those that it calls. -/
theorem Analyzed.mem_callees_iff_calls (distinctNames : (decls.map (·.name)).Nodup)
    (distinctProcs : (decls.map (·.proc)).Nodup) {d : Declaration} (member : d ∈ decls)
    {f : Function} (analyzed : Analyzed env decls .empty d f) {c : Name}
    : c ∈ f.callees.elems ↔ Calls env decls .empty d.name c := by
  rw [analyzed.calls_iff distinctNames distinctProcs member]
  refine (and_iff_left_of_imp fun called => ?_).symm
  rcases ((analyzed.mem_callees_iff distinctProcs).mp called).2 with declared | old
  · exact declared
  · cases old

end CallGraph

namespace Program

/-- The functions that can be reached from another one by calls, possibly by none. -/
def CanReach (program : Program) (name other : Name) : Prop :=
  CallGraph.Reaches program.env program.functions .empty name other

/-- The programs share what the function can reach: both declare the functions that can be reached
from it, with the same bodies, and a procedure that one of these bodies calls is declared in both
or in neither.
-/
structure Shares (program other : Program) (d : Declaration) : Prop where
  world : other.env.world = program.env.world
  here : d ∈ program.functions
  there : d ∈ other.functions
  declared : ∀ e ∈ program.functions, program.CanReach d.name e.name → e ∈ other.functions
  body
    : ∀ e ∈ program.functions,
        program.CanReach d.name e.name → other.env.body? e.proc = program.env.body? e.proc
  called
    : ∀ e ∈ program.functions,
        program.CanReach d.name e.name
        → ∀ body,
            program.env.body? e.proc = some body
            → ∀ proc ∈ body.callSites,
                (∃ g ∈ program.functions, g.proc = proc) ↔ ∃ g ∈ other.functions, g.proc = proc

section Analyses

variable {program other : Program} (distinct : program.Distinct) (distinctToo : other.Distinct)
  {d : Declaration}

/-- Only declared functions can be reached. -/
theorem CanReach.exists_declaration (here : d ∈ program.functions) {name : Name}
    (reached : program.CanReach d.name name)
    : ∃ e ∈ program.functions, e.name = name := by
  cases reached with
  | refl => exact ⟨d, here, rfl⟩
  | tail _ call => exact List.mem_map.mp call.2

include distinct in
/-- The functions of its cluster can be reached from a function. -/
theorem canReach_of_cluster (here : d ∈ program.functions) {id : ClusterId} {members : List Name}
    (cluster : (CallGraph.analyze program.env program.functions .empty).graph.clusters[id]?
      = some members)
    (own : d.name ∈ members) {name : Name} (its : name ∈ members)
    : ∃ e ∈ program.functions,
        e.name = name ∧ program.CanReach d.name name ∧ program.CanReach name d.name := by
  have listed := (CallGraph.clusters_perm program.env program.functions .empty).mem_iff.mp
    (List.mem_flatten.mpr ⟨members, List.mem_of_getElem? cluster, its⟩)
  obtain ⟨e, declared, rfl⟩ := List.mem_map.mp listed
  have both := (CallGraph.together_iff_reaches distinct.names distinct.procs here declared).mp
    ⟨members, List.mem_of_getElem? cluster, own, its⟩
  exact ⟨e, declared, rfl, both⟩

namespace Shares

/-- Programs share what a function can reach if they share functions with all that these call. The
hypothesis on these can be decided.
-/
theorem of_closed (names : List Name) (world : other.env.world = program.env.world)
    (here : d ∈ program.functions) (root : d.name ∈ names)
    (closed
      : ∀ e ∈ program.functions,
          e.name ∈ names
          → e ∈ other.functions
            ∧ other.env.body? e.proc = program.env.body? e.proc
            ∧ ∀ proc ∈ ((program.env.body? e.proc).elim [] Stmt.callSites),
                ((∃ g ∈ program.functions, g.proc = proc) ↔ ∃ g ∈ other.functions, g.proc = proc)
                ∧ ∀ g ∈ program.functions, g.proc = proc → g.name ∈ names)
    : program.Shares other d := by
  have within {name : Name} (reached : program.CanReach d.name name) : name ∈ names := by
    induction reached with
    | refl => exact root
    | tail _ call ih =>
        obtain ⟨⟨e, member, rfl, body, defined, proc, site, owns⟩, _⟩ := call
        obtain ⟨g, callee, its, rfl⟩ := CallGraph.owns_empty_iff.mp owns
        refine ((closed e member ih).2.2 proc ?_).2 g callee its
        rw [defined]
        exact site
  refine ⟨world, here, (closed d here root).1, ?_, ?_, ?_⟩
  · intro e member reached
    exact (closed e member (within reached)).1
  · intro e member reached
    exact (closed e member (within reached)).2.1
  · intro e member reached body defined proc site
    refine ((closed e member (within reached)).2.2 proc ?_).1
    rw [defined]
    exact site

end Shares

variable (shares : program.Shares other d)

include distinct distinctToo shares

namespace Shares

omit distinct in
/-- A procedure that is called by what can be reached belongs to the same function. -/
theorem mem_functions_iff {e : Declaration} (member : e ∈ program.functions)
    (reached : program.CanReach d.name e.name) {body : Stmt}
    (defined : program.env.body? e.proc = some body) {g : Declaration}
    (site : g.proc ∈ body.callSites)
    : g ∈ program.functions ↔ g ∈ other.functions := by
  have onward {g : Declaration} (site : g.proc ∈ body.callSites) (callee : g ∈ program.functions)
      : g ∈ other.functions := by
    refine shares.declared g callee (reached.tail ⟨?_, List.mem_map_of_mem callee⟩)
    exact ⟨e, member, rfl, body, defined, g.proc, site, .declared callee rfl rfl⟩
  refine ⟨onward site, fun callee => ?_⟩
  -- some function of this program has the procedure, and it is shared
  obtain ⟨g', declared, its⟩ :=
    (shares.called e member reached body defined g.proc site).mpr ⟨g, callee, rfl⟩
  obtain rfl := List.inj_on_of_nodup_map distinctToo.procs (onward (its ▸ site) declared) callee its
  exact declared

/-- What can be reached makes the same calls. -/
theorem calls_iff {e : Declaration} (member : e ∈ program.functions)
    (reached : program.CanReach d.name e.name) {callee : Name}
    : CallGraph.Calls program.env program.functions .empty e.name callee
      ↔ CallGraph.Calls other.env other.functions .empty e.name callee := by
  have memberToo := shares.declared e member reached
  have same := shares.body e member reached
  constructor
  · intro call
    obtain ⟨⟨e', declared, named, body, defined, proc, site, owns⟩, _⟩ := call
    obtain rfl := distinct.eq_of_name declared member named
    obtain ⟨g, callee, rfl, rfl⟩ := CallGraph.owns_empty_iff.mp owns
    have there := (shares.mem_functions_iff distinctToo member reached defined site).mp callee
    exact ⟨⟨e', memberToo, rfl, body, same.trans defined, g.proc, site,
      .declared there rfl rfl⟩, List.mem_map_of_mem there⟩
  · intro call
    obtain ⟨⟨e', declared, named, body, defined, proc, site, owns⟩, _⟩ := call
    obtain rfl := distinctToo.eq_of_name declared memberToo named
    obtain ⟨g, callee, rfl, rfl⟩ := CallGraph.owns_empty_iff.mp owns
    rw [same] at defined
    have here := (shares.mem_functions_iff distinctToo member reached defined site).mpr callee
    exact ⟨⟨e', member, rfl, body, defined, g.proc, site, .declared here rfl rfl⟩,
      List.mem_map_of_mem here⟩

/-- The same functions can be reached, by induction on the calls. -/
theorem canReach_iff {name : Name}
    : program.CanReach d.name name ↔ other.CanReach d.name name := by
  constructor
  · intro reached
    induction reached with
    | refl => exact .refl
    | tail before call ih =>
        obtain ⟨e, member, rfl⟩ := CanReach.exists_declaration shares.here before
        exact ih.tail ((shares.calls_iff distinct distinctToo member before).mp call)
  · intro reached
    induction reached with
    | refl => exact .refl
    | tail _ call ih =>
        obtain ⟨e, member, rfl⟩ := CanReach.exists_declaration shares.here ih
        exact ih.tail ((shares.calls_iff distinct distinctToo member ih).mpr call)

omit distinct distinctToo in
/-- What a function can reach, it shares with what it can reach. -/
theorem of_canReach {e : Declaration} (member : e ∈ program.functions)
    (reached : program.CanReach d.name e.name)
    : program.Shares other e where
  world := shares.world
  here := member
  there := shares.declared e member reached
  declared g callee further := shares.declared g callee (reached.trans further)
  body g callee further := shares.body g callee (reached.trans further)
  called g callee further := shares.called g callee (reached.trans further)

theorem symm : other.Shares program d := by
  have back {e : Declaration} (member : e ∈ other.functions)
      (reached : other.CanReach d.name e.name)
      : e ∈ program.functions ∧ program.CanReach d.name e.name := by
    have here := (shares.canReach_iff distinct distinctToo).mpr reached
    obtain ⟨e', declared, named⟩ := CanReach.exists_declaration shares.here here
    obtain rfl := distinctToo.eq_of_name (shares.declared e' declared (named ▸ here)) member named
    exact ⟨declared, here⟩
  refine ⟨shares.world.symm, shares.there, shares.here, ?_, ?_, ?_⟩
  · intro e member reached
    exact (back member reached).1
  · intro e member reached
    obtain ⟨declared, here⟩ := back member reached
    exact (shares.body e declared here).symm
  · intro e member reached body defined proc site
    obtain ⟨declared, here⟩ := back member reached
    exact (shares.called e declared here body ((shares.body e declared here).symm.trans defined)
      proc site).symm

/-- The functions of the cluster of a shared function are in its cluster in the other program. -/
theorem mem_cluster {i j : ClusterId} {members others : List Name}
    (here : (CallGraph.analyze program.env program.functions .empty).graph.clusters[i]?
      = some members)
    (own : d.name ∈ members)
    (there : (CallGraph.analyze other.env other.functions .empty).graph.clusters[j]?
      = some others)
    (its : d.name ∈ others) {name : Name} (member : name ∈ members)
    : name ∈ others := by
  obtain ⟨e, declared, rfl, onward, back⟩ :=
    canReach_of_cluster distinct shares.here here own member
  have onwardToo := (shares.canReach_iff distinct distinctToo).mp onward
  have backToo := ((shares.of_canReach declared onward).canReach_iff distinct distinctToo).mp back
  have together :=
    (CallGraph.together_iff_reaches distinctToo.names distinctToo.procs shares.there
      (shares.declared e declared onward)).mpr ⟨onwardToo, backToo⟩
  exact (CallGraph.exists_cluster_iff distinctToo.names there its).mp together

/-- A shared function has the same cluster in both programs. -/
theorem cluster_eq {i j : ClusterId} {members others : List Name}
    (here : (CallGraph.analyze program.env program.functions .empty).graph.clusters[i]?
      = some members)
    (own : d.name ∈ members)
    (there : (CallGraph.analyze other.env other.functions .empty).graph.clusters[j]?
      = some others)
    (its : d.name ∈ others)
    : members = others := by
  refine eq_of_pairwise_lt
    (CallGraph.pairwise_cluster distinct.names (List.mem_of_getElem? here))
    (CallGraph.pairwise_cluster distinctToo.names (List.mem_of_getElem? there)) fun name => ?_
  exact ⟨shares.mem_cluster distinct distinctToo here own there its,
    (shares.symm distinct distinctToo).mem_cluster distinctToo distinct there its here own⟩

/-- A shared function is analyzed alike. -/
theorem find?_functions
    : (CallGraph.analyze program.env program.functions .empty).functions.find? d.name
      = (CallGraph.analyze other.env other.functions .empty).functions.find? d.name := by
  obtain ⟨f, found, analyzed⟩ :=
    CallGraph.exists_analyzed program.env .empty distinct.names shares.here
  obtain ⟨f', found', analyzed'⟩ :=
    CallGraph.exists_analyzed other.env .empty distinctToo.names shares.there
  obtain ⟨i, members, here, own⟩ :=
    CallGraph.exists_cluster_of_mem program.env .empty shares.here
  obtain ⟨j, others, there, its⟩ :=
    CallGraph.exists_cluster_of_mem other.env .empty shares.there
  have same := shares.cluster_eq distinct distinctToo here own there its
  have callees (c : Name) : c ∈ f.callees.elems ↔ c ∈ f'.callees.elems := by
    rw [analyzed.mem_callees_iff_calls distinct.names distinct.procs shares.here,
      analyzed'.mem_callees_iff_calls distinctToo.names distinctToo.procs shares.there]
    exact shares.calls_iff distinct distinctToo shares.here .refl
  rw [found, found']
  refine congrArg some (CallGraph.function_eq distinct.names distinctToo.names shares.here
    shares.there found found' callees fun c => ?_)
  rw [analyzed.mem_recCallees, analyzed'.mem_recCallees, callees,
    CallGraph.exists_cluster_iff distinct.names here own,
    CallGraph.exists_cluster_iff distinctToo.names there its, same]

/-- The procedures that a shared function calls belong to the same functions. -/
theorem find?_procNames {body : Stmt} (defined : program.env.body? d.proc = some body) {proc : Name}
    (site : proc ∈ body.callSites)
    : (CallGraph.procNames program.functions .empty).find? proc
      = (CallGraph.procNames other.functions .empty).find? proc := by
  refine Option.ext fun name => ?_
  rw [distinct.find?_procNames, distinctToo.find?_procNames]
  refine exists_congr fun g => and_congr_left fun owner => ?_
  exact shares.mem_functions_iff distinctToo shares.here .refl defined (owner.1 ▸ site)

end Shares

end Analyses

end Program

end Monadize
