import Monadize.Proofs.FiniteMap.Sorted
import Monadize.Proofs.Graph.Dependencies

/-! The analysis of declarations, told by their text alone: which function a procedure belongs to,
which functions call which, and which can be reached from which. Clusters are the classes of
functions that can be reached from each other, and a function is measured if it can be reached from
itself by a call.
-/

namespace Monadize

namespace CallGraph

-----------------------------------------------------------------------------------------
-- Calls between declared functions
-----------------------------------------------------------------------------------------

/-- The function that a procedure belongs to. It is the declared function with this procedure, or,
if there is none, the last function known before that has it.
-/
inductive Owns (decls : List Declaration) (prior : FunctionTable) (proc name : Name) : Prop
  | declared {d : Declaration} (member : d ∈ decls) (its : d.proc = proc) (named : d.name = name)
  | before {earlier later : List Function} {f : Function}
      (undeclared : ∀ d ∈ decls, d.proc ≠ proc) (known : prior.values = earlier ++ f :: later)
      (its : f.proc = proc) (named : f.name = name) (last : ∀ other ∈ later, other.proc ≠ proc)

section

variable (env : Environment) (decls : List Declaration) (prior : FunctionTable)

/-- The body of a declared function has a call of a procedure that belongs to the function `c`. -/
def CallsInto (d : Declaration) (c : Name) : Prop :=
  ∃ body, env.body? d.proc = some body ∧ ∃ proc ∈ body.callSites, Owns decls prior proc c

/-- One declared function calls another one, or itself. -/
def Calls (caller callee : Name) : Prop :=
  (∃ d ∈ decls, d.name = caller ∧ CallsInto env decls prior d callee)
  ∧ callee ∈ decls.map (·.name)

/-- The second function can be reached from the first one by calls, possibly by none. -/
def Reaches : Name → Name → Prop := Relation.ReflTransGen (Calls env decls prior)

/-- What an analysis has to find for given declarations on top of the functions known before. -/
structure Exact (analysis : Analysis) : Prop where
  partition
    : analysis.graph.clusters.flatten.Perm (decls.map (·.name)) ∧ [] ∉ analysis.graph.clusters
  together
    : ∀ d ∈ decls, ∀ e ∈ decls,
        (∃ members ∈ analysis.graph.clusters, d.name ∈ members ∧ e.name ∈ members)
        ↔ Reaches env decls prior d.name e.name ∧ Reaches env decls prior e.name d.name
  everyDeps : analysis.graph.deps.length = analysis.graph.clusters.length
  deps
    : ∀ (id : ClusterId) members ds,
        analysis.graph.clusters[id]? = some members
        → analysis.graph.deps[id]? = some ds
        → ds.Pairwise (· < ·)
          ∧ (∀ other ∈ ds, other < id)
          ∧ ∀ other : ClusterId,
              other ∈ ds
              ↔ other ≠ id
                ∧ ∃ others,
                    analysis.graph.clusters[other]? = some others
                    ∧ ∃ caller ∈ members, ∃ callee ∈ others, Calls env decls prior caller callee
  functions
    : ∀ d ∈ decls,
        ∃ f,
          analysis.functions.find? d.name = some f
          ∧ f.name = d.name
          ∧ f.proc = d.proc
          ∧ (∀ c,
              c ∈ f.callees.elems
              ↔ CallsInto env decls prior d c
                ∧ (c ∈ decls.map (·.name) ∨ prior.contains c = true))
          ∧ (∀ c,
              c ∈ f.recCallees.elems
              ↔ c ∈ f.callees.elems
                ∧ ∃ members ∈ analysis.graph.clusters, d.name ∈ members ∧ c ∈ members)
          ∧ (f.measured = true
            ↔ Relation.TransGen (Calls env decls prior) d.name d.name)
  undeclared : ∀ name, name ∉ decls.map (·.name) → analysis.functions.find? name = none

end

variable {env : Environment} {decls : List Declaration} {prior : FunctionTable}

/-- The procedure of a declared function leads to it, whatever is known before. -/
theorem find?_procNames_of_mem (distinctProcs : (decls.map (·.proc)).Nodup) {d : Declaration}
    (member : d ∈ decls)
    : (procNames decls prior).find? d.proc = some d.name := by
  have pairs : decls.map (·.proc) = (decls.map fun d => (d.proc, d.name)).map Prod.fst := by
    rw [List.map_map]
    rfl
  have functional := FiniteMap.functional_of_nodup (pairs ▸ distinctProcs)
  obtain ⟨value, found, among⟩ := FiniteMap.exists_find?_insertAll
    (.ofList (prior.values.map fun f => (f.proc, f.name)))
    ⟨_, List.mem_map_of_mem (f := fun d => (d.proc, d.name)) member, rfl⟩
  rw [functional _ _ _ among (List.mem_map_of_mem member)] at found
  rw [procNames, FiniteMap.ofList, FiniteMap.insertAll, List.foldl_append]
  exact found

/-- Any other procedure leads to where it did before. -/
theorem find?_procNames_of_undeclared {proc : Name} (undeclared : ∀ d ∈ decls, d.proc ≠ proc)
    : (procNames decls prior).find? proc
      = (FiniteMap.ofList (prior.values.map fun f => (f.proc, f.name))).find? proc := by
  rw [procNames, FiniteMap.ofList, FiniteMap.insertAll, List.foldl_append]
  refine FiniteMap.find?_insertAll_of_forall_ne fun binding listed => ?_
  obtain ⟨d, member, rfl⟩ := List.mem_map.mp listed
  exact undeclared d member

/-- Procedures lead to the functions that they belong to. -/
theorem find?_procNames_iff (distinctProcs : (decls.map (·.proc)).Nodup) {proc name : Name}
    : (procNames decls prior).find? proc = some name ↔ Owns decls prior proc name := by
  constructor
  · intro found
    by_cases declared : ∃ d ∈ decls, d.proc = proc
    · obtain ⟨d, member, rfl⟩ := declared
      rw [find?_procNames_of_mem distinctProcs member] at found
      exact .declared member rfl (Option.some.inj found)
    · have undeclared : ∀ d ∈ decls, d.proc ≠ proc := fun d member its => declared ⟨d, member, its⟩
      rw [find?_procNames_of_undeclared undeclared] at found
      obtain ⟨before, after, whole, last⟩ := FiniteMap.find?_ofList_iff_last.mp found
      obtain ⟨earlier, rest, known, rfl, split⟩ := List.map_eq_append_iff.mp whole
      obtain ⟨f, later, rfl, same, rfl⟩ := List.map_eq_cons_iff.mp split
      cases same
      refine .before undeclared known rfl rfl fun other listed => ?_
      exact last _ (List.mem_map_of_mem listed)
  · intro owns
    cases owns with
    | declared member its named =>
        rw [← its, ← named, find?_procNames_of_mem distinctProcs member]
    | @before earlier later f undeclared known its named last =>
        have whole : prior.values.map (fun f => (f.proc, f.name))
            = earlier.map (fun f => (f.proc, f.name))
              ++ (proc, name) :: later.map fun f => (f.proc, f.name) := by
          rw [known, List.map_append, List.map_cons, its, named]
        rw [find?_procNames_of_undeclared undeclared]
        refine FiniteMap.find?_ofList_iff_last.mpr ⟨_, _, whole, fun binding listed => ?_⟩
        obtain ⟨other, among, rfl⟩ := List.mem_map.mp listed
        exact last other among

section

variable (distinctNames : (decls.map (·.name)).Nodup) (distinctProcs : (decls.map (·.proc)).Nodup)

include distinctProcs

theorem Analyzed.mem_callees_iff {d : Declaration} {f : Function}
    (analyzed : Analyzed env decls prior d f) {c : Name}
    : c ∈ f.callees.elems
      ↔ CallsInto env decls prior d c ∧ (c ∈ decls.map (·.name) ∨ prior.contains c = true) := by
  simp only [analyzed.mem_callees, CallsInto, find?_procNames_iff distinctProcs]
  constructor
  · intro called
    rcases called with ⟨body, here, proc, site, owns, known⟩
    exact ⟨⟨body, here, proc, site, owns⟩, known⟩
  · intro called
    rcases called with ⟨⟨body, here, proc, site, owns⟩, known⟩
    exact ⟨body, here, proc, site, owns, known⟩

include distinctNames

/-- The declared callees of a function are those that it calls. -/
theorem Analyzed.calls_iff {d : Declaration} {f : Function}
    (analyzed : Analyzed env decls prior d f) (member : d ∈ decls) {c : Name}
    : Calls env decls prior d.name c ↔ c ∈ f.callees.elems ∧ c ∈ decls.map (·.name) := by
  rw [analyzed.mem_callees_iff distinctProcs, Calls]
  constructor
  · intro call
    rcases call with ⟨⟨d', declared, same, into⟩, other⟩
    obtain rfl := List.inj_on_of_nodup_map distinctNames declared member same
    exact ⟨⟨into, .inl other⟩, other⟩
  · intro callee
    rcases callee with ⟨⟨into, _⟩, other⟩
    exact ⟨⟨d, member, rfl, into⟩, other⟩

omit distinctProcs in
variable (env prior) in
/-- Every declared function is in the table. -/
theorem exists_analyzed {d : Declaration} (member : d ∈ decls)
    : ∃ f,
        (analyze env decls prior).functions.find? d.name = some f
        ∧ Analyzed env decls prior d f := by
  obtain ⟨f, listed⟩ : ∃ f, (d.name, f) ∈ (analyze env decls prior).functions.entries :=
    exists_mem_analyze member
  obtain ⟨d', declared, same, analyzed⟩ := analyzed_of_mem distinctNames listed
  obtain rfl := List.inj_on_of_nodup_map distinctNames declared member same
  exact ⟨f, (FiniteMap.sorted_ofList _).find?_eq_some_iff.mpr listed, analyzed⟩

/-- Edges of the graph are calls, read backwards. -/
theorem mem_edges_iff_calls {i j : Nat} {d e : Declaration}
    (caller : (sortDecls decls)[i]? = some d) (callee : (sortDecls decls)[j]? = some e)
    : (j, i) ∈ (calls env decls prior).edges ↔ Calls env decls prior d.name e.name := by
  have declared := (sortDecls_perm decls).mem_iff.mp (List.mem_of_getElem? caller)
  have declaredToo := (sortDecls_perm decls).mem_iff.mp (List.mem_of_getElem? callee)
  obtain ⟨f, _, analyzed⟩ := exists_analyzed env prior distinctNames declared
  rw [mem_edges_calls distinctNames caller callee analyzed,
    analyzed.calls_iff distinctNames distinctProcs declared]
  exact (and_iff_left (List.mem_map_of_mem declaredToo)).symm

/-- Paths of the graph are chains of calls, read backwards. -/
theorem reach_calls_iff {i j : Nat} {d e : Declaration}
    (caller : (sortDecls decls)[i]? = some d) (callee : (sortDecls decls)[j]? = some e)
    : Graph.Reach (calls env decls prior).successors j i
      ↔ Reaches env decls prior d.name e.name := by
  have inRange := calls_inRange env decls prior
  constructor
  · intro path
    induction path generalizing d with
    | refl =>
        cases caller.symm.trans callee
        exact .refl
    | @tail k i _ edge ih =>
        have arc := Graph.mem_successors.mp edge
        have between := List.getElem?_eq_getElem (inRange (k, i) arc).1
        exact (ih between).head
          ((mem_edges_iff_calls distinctNames distinctProcs caller between).mp arc)
  · intro chain
    generalize first : d.name = name at chain
    induction chain using Relation.ReflTransGen.head_induction_on generalizing d i with
    | refl =>
        have sorted : ((sortDecls decls).map (·.name)).Nodup :=
          ((sortDecls_perm decls).map _).nodup_iff.mpr distinctNames
        obtain rfl := position_unique sorted caller callee first
        exact .refl
    | @head name next call _ ih =>
        subst first
        obtain ⟨e', declared, rfl⟩ := List.mem_map.mp call.2
        obtain ⟨k, between⟩ :=
          List.mem_iff_getElem?.mp ((sortDecls_perm decls).mem_iff.mpr declared)
        refine (ih between rfl).tail (Graph.mem_successors.mpr ?_)
        exact (mem_edges_iff_calls distinctNames distinctProcs caller between).mpr call

omit distinctNames distinctProcs in
variable (env prior) in
/-- Every declared function is in a cluster. -/
theorem exists_cluster_of_mem {d : Declaration} (member : d ∈ decls)
    : ∃ (id : ClusterId) (members : List Name),
        (analyze env decls prior).graph.clusters[id]? = some members ∧ d.name ∈ members := by
  obtain ⟨members, among, own⟩ := List.mem_flatten.mp
    ((clusters_perm env decls prior).mem_iff.mpr (List.mem_map_of_mem member))
  obtain ⟨id, here⟩ := List.mem_iff_getElem?.mp among
  exact ⟨id, members, here, own⟩

/-- Functions share a cluster if they can be reached from each other. -/
theorem together_iff_reaches {d e : Declaration} (first : d ∈ decls) (second : e ∈ decls)
    : (∃ members ∈ (analyze env decls prior).graph.clusters, d.name ∈ members ∧ e.name ∈ members)
      ↔ Reaches env decls prior d.name e.name ∧ Reaches env decls prior e.name d.name := by
  obtain ⟨p, atFirst⟩ := List.mem_iff_getElem?.mp ((sortDecls_perm decls).mem_iff.mpr first)
  obtain ⟨q, atSecond⟩ := List.mem_iff_getElem?.mp ((sortDecls_perm decls).mem_iff.mpr second)
  have inRange := calls_inRange env decls prior
  have nodeFirst : p < (calls env decls prior).size := (List.getElem?_eq_some_iff.mp atFirst).1
  have nodeSecond : q < (calls env decls prior).size := (List.getElem?_eq_some_iff.mp atSecond).1
  have classes := clusterOf_order_eq_iff inRange nodeFirst nodeSecond
  rw [Graph.Mutual, reach_calls_iff distinctNames distinctProcs atSecond atFirst,
    reach_calls_iff distinctNames distinctProcs atFirst atSecond, and_comm] at classes
  rw [← classes]
  constructor
  · intro together
    rcases together with ⟨members, among, own, its⟩
    obtain ⟨id, here⟩ := List.mem_iff_getElem?.mp among
    exact ((mem_cluster_iff distinctNames atFirst here).mp own).trans
      ((mem_cluster_iff distinctNames atSecond here).mp its).symm
  · intro same
    obtain ⟨id, members, here, own⟩ := exists_cluster_of_mem env prior first
    refine ⟨members, List.mem_of_getElem? here, own, ?_⟩
    refine (mem_cluster_iff distinctNames atSecond here).mpr ?_
    exact same.symm.trans ((mem_cluster_iff distinctNames atFirst here).mp own)

/-- A cluster depends on the other ones that its members call into. -/
theorem mem_deps_iff_calls {id other : ClusterId} {members : List Name} {ds : List ClusterId}
    (here : (analyze env decls prior).graph.clusters[id]? = some members)
    (deps : (analyze env decls prior).graph.deps[id]? = some ds)
    : other ∈ ds
      ↔ other ≠ id
        ∧ ∃ others,
            (analyze env decls prior).graph.clusters[other]? = some others
            ∧ ∃ caller ∈ members, ∃ callee ∈ others, Calls env decls prior caller callee := by
  have inRange := calls_inRange env decls prior
  rw [mem_deps_order inRange deps]
  refine and_congr_right fun _ => ?_
  constructor
  · intro edge
    rcases edge with ⟨u, v, edge, rfl, rfl⟩
    obtain ⟨nodeCallee, nodeCaller⟩ := inRange (u, v) edge
    have atCallee := List.getElem?_eq_getElem (l := sortDecls decls) nodeCallee
    have atCaller := List.getElem?_eq_getElem (l := sortDecls decls) nodeCaller
    obtain ⟨id, others, there, its⟩ := exists_cluster_of_mem env prior
      ((sortDecls_perm decls).mem_iff.mp (List.mem_of_getElem? atCallee))
    obtain rfl := (mem_cluster_iff distinctNames atCallee there).mp its
    exact ⟨others, there, _, (mem_cluster_iff distinctNames atCaller here).mpr rfl, _, its,
      (mem_edges_iff_calls distinctNames distinctProcs atCaller atCallee).mp edge⟩
  · intro call
    rcases call with ⟨others, there, caller, own, callee, its, call⟩
    obtain ⟨d, declared, rfl, _⟩ := call.1
    obtain ⟨e, declaredToo, rfl⟩ := List.mem_map.mp call.2
    obtain ⟨v, atCaller⟩ := List.mem_iff_getElem?.mp ((sortDecls_perm decls).mem_iff.mpr declared)
    obtain ⟨u, atCallee⟩ :=
      List.mem_iff_getElem?.mp ((sortDecls_perm decls).mem_iff.mpr declaredToo)
    exact ⟨u, v, (mem_edges_iff_calls distinctNames distinctProcs atCaller atCallee).mpr call,
      (mem_cluster_iff distinctNames atCallee there).mp its,
      (mem_cluster_iff distinctNames atCaller here).mp own⟩

/-- A function is measured if a chain of calls leads from it back to it: the first call of such a
chain goes to a recursive callee.
-/
theorem Analyzed.measured_iff_reaches {d : Declaration} {f : Function}
    (analyzed : Analyzed env decls prior d f) (member : d ∈ decls)
    : f.measured = true ↔ Relation.TransGen (Calls env decls prior) d.name d.name := by
  have recursive : f.measured = true ↔ ∃ c, c ∈ f.recCallees.elems := by
    rw [analyzed.measured, NameSet.isEmpty, Bool.not_eq_true', ← Bool.not_eq_true,
      List.isEmpty_iff, List.eq_nil_iff_forall_not_mem, not_forall_not]
  rw [recursive, Relation.TransGen.head'_iff]
  refine exists_congr fun c => ?_
  rw [analyzed.mem_recCallees, analyzed.calls_iff distinctNames distinctProcs member]
  constructor
  · intro recursive
    rcases recursive with ⟨callee, members, among, own, its⟩
    have declared := (clusters_perm env decls prior).mem_iff.mp
      (List.mem_flatten.mpr ⟨members, among, its⟩)
    obtain ⟨e, memberToo, rfl⟩ := List.mem_map.mp declared
    exact ⟨⟨callee, declared⟩, ((together_iff_reaches distinctNames distinctProcs member
      memberToo).mp ⟨members, among, own, its⟩).2⟩
  · intro chain
    rcases chain with ⟨⟨callee, declared⟩, back⟩
    obtain ⟨e, memberToo, rfl⟩ := List.mem_map.mp declared
    have call := (analyzed.calls_iff distinctNames distinctProcs member).mpr ⟨callee, declared⟩
    exact ⟨callee, (together_iff_reaches distinctNames distinctProcs member memberToo).mpr
      ⟨.single call, back⟩⟩

end

-----------------------------------------------------------------------------------------
-- Exactness
-----------------------------------------------------------------------------------------

/-- The analysis of declarations with distinct names and procedures is exact, whatever the
procedures do and whatever is known before.
-/
theorem analyze_exact (env : Environment) {decls : List Declaration}
    (distinctNames : (decls.map (·.name)).Nodup) (distinctProcs : (decls.map (·.proc)).Nodup)
    (prior : FunctionTable)
    : Exact env decls prior (analyze env decls prior) where
  partition := ⟨clusters_perm env decls prior, nil_not_mem_clusters env decls prior⟩
  together := fun _ first _ second => together_iff_reaches distinctNames distinctProcs first second
  everyDeps := length_deps_analyze
  deps := by
    intro id members ds here deps
    refine ⟨pairwise_deps_order (calls_inRange env decls prior) deps,
      fun other listed => lt_of_mem_deps deps listed, fun other => ?_⟩
    exact mem_deps_iff_calls distinctNames distinctProcs here deps
  functions := by
    intro d member
    obtain ⟨f, found, analyzed⟩ := exists_analyzed env prior distinctNames member
    refine ⟨f, found, analyzed.name, analyzed.proc, ?_, analyzed.mem_recCallees, ?_⟩
    · exact fun c => analyzed.mem_callees_iff distinctProcs
    · exact analyzed.measured_iff_reaches distinctNames distinctProcs member
  undeclared := by
    intro name absent
    refine Option.eq_none_iff_forall_not_mem.mpr fun f found => absent ?_
    obtain ⟨d, member, rfl, _⟩ :=
      analyzed_of_mem distinctNames (FiniteMap.mem_entries_of_find? found)
    exact List.mem_map_of_mem member

/-- Procedures that call each other in a ring, beside one that calls itself and the ring. -/
def ringBodies : FiniteMap Name Stmt :=
  .ofList [("p", call "q"), ("q", .seq (call "r") (call "s")), ("r", call "p"),
    ("s", .seq (call "s") (call "old"))]
where
  call (proc : Name) : Stmt := .call .univ proc .univ ["t", "s"] (.assign .univ)

/-- Witness: a ring of three functions, and one that calls itself and, through a procedure that is
not declared any more, a function known before.
-/
theorem analyze_exact_ring
    : let decls := [⟨"f", "p", none, false⟩, ⟨"g", "q", none, false⟩, ⟨"h", "r", none, false⟩,
        ⟨"k", "s", none, false⟩]
      let prior := .ofList [("e", ⟨"e", "old", .empty, .empty, false, false, none, none⟩)]
      Exact ⟨0, "w", ringBodies⟩ decls prior (analyze ⟨0, "w", ringBodies⟩ decls prior) :=
  analyze_exact ⟨0, "w", ringBodies⟩ (by decide) (by decide) _

end CallGraph

end Monadize
