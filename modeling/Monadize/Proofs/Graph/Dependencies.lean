import Monadize.Proofs.Graph.Calls
import Monadize.Proofs.Graph.StrongComponents

/-! Clusters and their dependencies. Functions are in one cluster if they call each other, through
others perhaps, and any other callee is in an earlier cluster, on which the caller's cluster
depends.
-/

namespace Monadize

namespace CallGraph

-----------------------------------------------------------------------------------------
-- Clusters of positions
-----------------------------------------------------------------------------------------

theorem pairwise_lt_mergeSort {l : List Nat} (once : l.Nodup) : l.mergeSort.Pairwise (· < ·) := by
  have trans (a b c : Nat) (first : decide (a ≤ b) = true) (second : decide (b ≤ c) = true)
      : decide (a ≤ c) = true :=
    decide_eq_true (Nat.le_trans (of_decide_eq_true first) (of_decide_eq_true second))
  have total (a b : Nat) : (decide (a ≤ b) || decide (b ≤ a)) = true := by
    simpa using Nat.le_total a b
  have sorted := List.pairwise_mergeSort trans total l
  refine (sorted.and ((List.mergeSort_perm _ _).nodup_iff.mpr once)).imp ?_
  intro a b ⟨below, differs⟩
  exact Nat.lt_of_le_of_ne (of_decide_eq_true below) differs

section Order

variable {g : Graph} (h : g.InRange)

include h

/-- The cluster of a position is the place of its component in the topological order. -/
theorem clusterOf_order {u : Nat} (node : u < g.size)
    : clusterOf (order g).1 u
      = (g.condense g.components).topological.idxOf (g.components.findIdx (u ∈ ·)) := by
  have once : (order g).1.flatten.Nodup :=
    (order_partition h).1.nodup_iff.mpr List.nodup_range
  obtain ⟨part, here, member⟩ := Graph.getElem?_findIdx
    (h.components_partition.1.mem_iff.mpr (List.mem_range.mpr node))
  have listed : g.components.findIdx (u ∈ ·) ∈ (g.condense g.components).topological :=
    h.condense.topological_perm.mem_iff.mpr (List.mem_range.mpr (h.findIdx_components_lt node))
  have sorted : u ∈ part.mergeSort := (List.mergeSort_perm part _).mem_iff.mpr member
  refine Graph.findIdx_eq_of_mem once ?_ sorted
  rw [order, List.getElem?_map, List.getElem?_idxOf listed, Option.map_some, here,
    Option.getD_some]

/-- Two positions have the same cluster if they can be reached from each other. -/
theorem clusterOf_order_eq_iff {u v : Nat} (first : u < g.size) (second : v < g.size)
    : clusterOf (order g).1 u = clusterOf (order g).1 v ↔ Graph.Mutual g.successors u v := by
  have listed : g.components.findIdx (u ∈ ·) ∈ (g.condense g.components).topological :=
    h.condense.topological_perm.mem_iff.mpr (List.mem_range.mpr (h.findIdx_components_lt first))
  rw [clusterOf_order h first, clusterOf_order h second, List.idxOf_inj listed,
    h.findIdx_components_eq_iff first second]

/-- The cluster of the callee comes first if it is another one. -/
theorem clusterOf_order_lt {u v : Nat} (edge : (u, v) ∈ g.edges)
    (other : clusterOf (order g).1 u ≠ clusterOf (order g).1 v)
    : clusterOf (order g).1 u < clusterOf (order g).1 v := by
  obtain ⟨first, second⟩ := h (u, v) edge
  rw [clusterOf_order h first, clusterOf_order h second] at other ⊢
  refine h.idxOf_topological_lt (Graph.mem_edges_condense.mpr ⟨?_, u, v, edge, rfl⟩)
  intro same
  exact other (congrArg (List.idxOf · (g.condense g.components).topological) same)

omit h in
theorem length_order : (order g).2.length = (order g).1.length := by
  simp [order]

/-- A cluster depends on the other ones that it has an edge from. -/
theorem mem_deps_order {id d : ClusterId} {ds : List ClusterId}
    (here : (order g).2[id]? = some ds)
    : d ∈ ds
      ↔ d ≠ id
        ∧ ∃ u v,
            (u, v) ∈ g.edges
            ∧ clusterOf (order g).1 u = d
            ∧ clusterOf (order g).1 v = id := by
  rw [order, List.getElem?_map] at here
  obtain ⟨c, atId, rfl⟩ := Option.map_eq_some_iff.mp here
  have sequence := h.condense.topological_perm
  have once : (g.condense g.components).topological.Nodup :=
    sequence.nodup_iff.mpr List.nodup_range
  obtain ⟨inside, rfl⟩ := List.getElem?_eq_some_iff.mp atId
  rw [(List.mergeSort_perm _ _).mem_iff, List.mem_map]
  constructor
  · rintro ⟨p, edge, rfl⟩
    have between := Graph.mem_predecessors.mp edge
    obtain ⟨other, u, v, original, same⟩ := Graph.mem_edges_condense.mp between
    obtain ⟨rfl, target⟩ := Prod.mk.inj same
    obtain ⟨first, second⟩ := h (u, v) original
    have before := h.idxOf_topological_lt between
    rw [once.idxOf_getElem] at before
    refine ⟨Nat.ne_of_lt before, u, v, original, clusterOf_order h first, ?_⟩
    rw [clusterOf_order h second, ← target, once.idxOf_getElem]
  · rintro ⟨other, u, v, original, rfl, target⟩
    obtain ⟨first, second⟩ := h (u, v) original
    rw [clusterOf_order h second] at target
    rw [clusterOf_order h first] at other ⊢
    have listed : g.components.findIdx (v ∈ ·) ∈ (g.condense g.components).topological :=
      sequence.mem_iff.mpr (List.mem_range.mpr (h.findIdx_components_lt second))
    have here : (g.condense g.components).topological[id] = g.components.findIdx (v ∈ ·) := by
      have place := List.getElem?_idxOf listed
      rw [target, List.getElem?_eq_getElem inside] at place
      exact Option.some.inj place
    refine ⟨_, ?_, rfl⟩
    rw [here, Graph.mem_predecessors]
    refine Graph.mem_edges_condense.mpr ⟨?_, u, v, original, rfl⟩
    intro same
    exact other ((congrArg (List.idxOf · (g.condense g.components).topological) same).trans target)

/-- The dependencies of a cluster are listed in order and once. -/
theorem pairwise_deps_order {id : ClusterId} {ds : List ClusterId}
    (here : (order g).2[id]? = some ds)
    : ds.Pairwise (· < ·) := by
  rw [order, List.getElem?_map] at here
  obtain ⟨c, _, rfl⟩ := Option.map_eq_some_iff.mp here
  have sequence := h.condense.topological_perm
  have listed {p : Nat} (edge : p ∈ (g.condense g.components).predecessors c)
      : p ∈ (g.condense g.components).topological := by
    have inside := (h.condense (p, c) (Graph.mem_predecessors.mp edge)).1
    exact sequence.mem_iff.mpr (List.mem_range.mpr inside)
  have once : (((g.condense g.components).predecessors c).map
      (g.condense g.components).topological.idxOf).Nodup := by
    refine List.Nodup.map_on ?_ (Graph.nodup_predecessors (Graph.nodup_edges_condense _) c)
    intro p first q _ same
    exact (List.idxOf_inj (listed first)).mp same
  exact pairwise_lt_mergeSort once

end Order

-----------------------------------------------------------------------------------------
-- Clusters of functions
-----------------------------------------------------------------------------------------

variable {env : Environment} {decls : List Declaration} {prior : FunctionTable}
  (distinct : (decls.map (·.name)).Nodup)

/-- Each cluster has its dependencies. -/
theorem length_deps_analyze
    : (analyze env decls prior).graph.deps.length
      = (analyze env decls prior).graph.clusters.length := by
  rw [clusters_analyze, List.length_map]
  exact length_order

include distinct

/-- A declared function is in the cluster that its position is in. -/
theorem mem_cluster_iff {i : Nat} {d : Declaration} (here : (sortDecls decls)[i]? = some d)
    {id : ClusterId} {members : List Name}
    (cluster : (analyze env decls prior).graph.clusters[id]? = some members)
    : d.name ∈ members ↔ clusterOf (positions env decls prior) i = id := by
  have sorted : ((sortDecls decls).map (·.name)).Nodup :=
    ((sortDecls_perm decls).map _).nodup_iff.mpr distinct
  have partition := (positions_partition env decls prior).1
  have once : (positions env decls prior).flatten.Nodup := partition.nodup_iff.mpr List.nodup_range
  rw [clusters_analyze, List.getElem?_map] at cluster
  obtain ⟨part, place, rfl⟩ := Option.map_eq_some_iff.mp cluster
  rw [List.mem_filterMap]
  constructor
  · rintro ⟨j, member, named⟩
    obtain ⟨e, there, same⟩ := Option.map_eq_some_iff.mp named
    obtain rfl := position_unique sorted there here same
    exact Graph.findIdx_eq_of_mem once place member
  · rintro rfl
    have known : i ∈ (positions env decls prior).flatten :=
      partition.mem_iff.mpr (List.mem_range.mpr (List.getElem?_eq_some_iff.mp here).1)
    obtain ⟨other, there, member⟩ := Graph.getElem?_findIdx known
    cases place.symm.trans there
    exact ⟨i, member, by rw [here, Option.map_some]⟩

/-- The edges of the call graph go from the declared callees of a function to it. -/
theorem mem_edges_calls {i j : Nat} {d e : Declaration} {f : Function}
    (caller : (sortDecls decls)[i]? = some d) (callee : (sortDecls decls)[j]? = some e)
    (analyzed : Analyzed env decls prior d f)
    : (j, i) ∈ (calls env decls prior).edges ↔ e.name ∈ f.callees.elems := by
  have sorted : ((sortDecls decls).map (·.name)).Nodup :=
    ((sortDecls_perm decls).map _).nodup_iff.mpr distinct
  have set : (calleeSets env decls prior)[i]?
      = some (calleesOf env (procNames decls prior)
          (fun f => (position? (sortDecls decls) f).isSome || prior.contains f) d.proc) := by
    rw [calleeSets, List.getElem?_map, caller]
    rfl
  have same : ∀ c,
      c ∈ (calleesOf env (procNames decls prior)
          (fun f => (position? (sortDecls decls) f).isSome || prior.contains f) d.proc).elems
      ↔ c ∈ f.callees.elems := by
    intro c
    rw [analyzed.mem_callees]
    simp only [mem_calleesOf, Bool.or_eq_true, position?_isSome_iff, mem_sortDecls_names]
  simp only [calls, edges, List.mem_flatMap, List.mem_filterMap, Prod.exists,
    List.mem_zipIdx_iff_getElem?, Option.map_eq_some_iff, Prod.mk.injEq]
  constructor
  · rintro ⟨cs, _, listed, c, member, _, found, rfl, rfl⟩
    cases set.symm.trans listed
    obtain ⟨e', there, rfl⟩ := position?_eq_some found
    cases callee.symm.trans there
    exact (same e.name).mp member
  · intro member
    obtain ⟨j', found⟩ := exists_position? (List.mem_of_getElem? callee)
    obtain ⟨e', there, named⟩ := position?_eq_some found
    obtain rfl := position_unique sorted there callee named
    exact ⟨_, i, set, e.name, (same e.name).mpr member, j', found, rfl, rfl⟩

/-- A declared callee is in the cluster of its caller, or in an earlier one on which this cluster
depends.
-/
theorem Analyzed.callee_earlier {d e : Declaration} {f : Function}
    (analyzed : Analyzed env decls prior d f) (caller : d ∈ decls) (callee : e ∈ decls)
    (called : e.name ∈ f.callees.elems) {i j : ClusterId} {members others : List Name}
    (here : (analyze env decls prior).graph.clusters[i]? = some members) (own : d.name ∈ members)
    (there : (analyze env decls prior).graph.clusters[j]? = some others) (its : e.name ∈ others)
    : j = i
      ∨ j < i ∧ ∃ ds, (analyze env decls prior).graph.deps[i]? = some ds ∧ j ∈ ds := by
  obtain ⟨p, atCaller⟩ := List.mem_iff_getElem?.mp ((sortDecls_perm decls).mem_iff.mpr caller)
  obtain ⟨q, atCallee⟩ := List.mem_iff_getElem?.mp ((sortDecls_perm decls).mem_iff.mpr callee)
  obtain rfl := (mem_cluster_iff distinct atCaller here).mp own
  obtain rfl := (mem_cluster_iff distinct atCallee there).mp its
  have edge := (mem_edges_calls distinct atCaller atCallee analyzed).mpr called
  have inRange := calls_inRange env decls prior
  by_cases same : clusterOf (positions env decls prior) q = clusterOf (positions env decls prior) p
  · exact .inl same
  · refine .inr ⟨clusterOf_order_lt inRange edge same, ?_⟩
    have inside : clusterOf (positions env decls prior) p
        < (analyze env decls prior).graph.deps.length := by
      rw [length_deps_analyze]
      exact (List.getElem?_eq_some_iff.mp here).1
    refine ⟨_, List.getElem?_eq_getElem inside, ?_⟩
    exact (mem_deps_order inRange (List.getElem?_eq_getElem inside)).mpr
      ⟨same, q, p, edge, rfl, rfl⟩

omit distinct in
/-- A cluster depends on earlier ones. -/
theorem lt_of_mem_deps {id d : ClusterId} {ds : List ClusterId}
    (here : (analyze env decls prior).graph.deps[id]? = some ds) (listed : d ∈ ds)
    : d < id := by
  have inRange := calls_inRange env decls prior
  obtain ⟨other, u, v, edge, rfl, rfl⟩ := (mem_deps_order inRange here).mp listed
  exact clusterOf_order_lt inRange edge other

/-- A function that shares its cluster with another one has a recursive callee. -/
theorem Analyzed.exists_recursive {d e : Declaration} {f : Function}
    (analyzed : Analyzed env decls prior d f) (first : d ∈ decls) (second : e ∈ decls)
    (other : d.name ≠ e.name) {members : List Name}
    (cluster : members ∈ (analyze env decls prior).graph.clusters) (own : d.name ∈ members)
    (its : e.name ∈ members)
    : ∃ c, c ∈ f.recCallees.elems := by
  obtain ⟨p, atFirst⟩ := List.mem_iff_getElem?.mp ((sortDecls_perm decls).mem_iff.mpr first)
  obtain ⟨q, atSecond⟩ := List.mem_iff_getElem?.mp ((sortDecls_perm decls).mem_iff.mpr second)
  obtain ⟨id, here⟩ := List.mem_iff_getElem?.mp cluster
  have inRange := calls_inRange env decls prior
  have nodeFirst : p < (calls env decls prior).size := (List.getElem?_eq_some_iff.mp atFirst).1
  have nodeSecond : q < (calls env decls prior).size := (List.getElem?_eq_some_iff.mp atSecond).1
  have ownId := (mem_cluster_iff distinct atFirst here).mp own
  have itsId := (mem_cluster_iff distinct atSecond here).mp its
  have joint : Graph.Mutual (calls env decls prior).successors p q :=
    (clusterOf_order_eq_iff inRange nodeFirst nodeSecond).mp (ownId.trans itsId.symm)
  -- the last edge of the way back comes from a callee in the same class
  rcases Relation.ReflTransGen.cases_tail joint.2 with same | ⟨r, before, edge⟩
  · cases same
    cases atFirst.symm.trans atSecond
    exact absurd rfl other
  · have arc := Graph.mem_successors.mp edge
    have nodeCallee := (inRange (r, p) arc).1
    have callee : (sortDecls decls)[r]? = some (sortDecls decls)[r] :=
      List.getElem?_eq_getElem nodeCallee
    have together : clusterOf (positions env decls prior) r = id := by
      rw [← ownId]
      refine (clusterOf_order_eq_iff inRange nodeCallee nodeFirst).mpr ⟨.single edge, ?_⟩
      exact joint.1.trans before
    refine ⟨(sortDecls decls)[r].name,
      (analyzed.mem_recCallees _).mpr ⟨?_, members, cluster, own, ?_⟩⟩
    · exact (mem_edges_calls distinct atFirst callee analyzed).mp arc
    · exact (mem_cluster_iff distinct callee here).mpr together

/-- The functions of a cluster are all measured, or it is a single function that is not. -/
theorem Analyzed.measured_eq {d e : Declaration} {f f' : Function}
    (analyzed : Analyzed env decls prior d f) (analyzed' : Analyzed env decls prior e f')
    (first : d ∈ decls) (second : e ∈ decls) {members : List Name}
    (cluster : members ∈ (analyze env decls prior).graph.clusters) (own : d.name ∈ members)
    (its : e.name ∈ members)
    : f.measured = f'.measured := by
  have recursive {f : Function} {d : Declaration} (analyzed : Analyzed env decls prior d f)
      (some : ∃ c, c ∈ f.recCallees.elems)
      : f.measured = true := by
    obtain ⟨c, member⟩ := some
    rw [analyzed.measured, NameSet.isEmpty]
    simpa using List.ne_nil_of_mem member
  by_cases same : d.name = e.name
  · obtain rfl := List.inj_on_of_nodup_map distinct first second same
    have members : ∀ c, c ∈ f.recCallees.elems ↔ c ∈ f'.recCallees.elems := by
      intro c
      rw [analyzed.mem_recCallees, analyzed'.mem_recCallees, analyzed.mem_callees,
        analyzed'.mem_callees]
    have empty : f.recCallees.elems = [] ↔ f'.recCallees.elems = [] := by
      simp only [List.eq_nil_iff_forall_not_mem, members]
    rw [analyzed.measured, analyzed'.measured, NameSet.isEmpty, NameSet.isEmpty]
    refine congrArg not (Bool.eq_iff_iff.mpr ?_)
    rw [List.isEmpty_iff, List.isEmpty_iff, empty]
  · rw [recursive analyzed
        (analyzed.exists_recursive distinct first second same cluster own its),
      recursive analyzed'
        (analyzed'.exists_recursive distinct second first (Ne.symm same) cluster its own)]

end CallGraph

end Monadize
