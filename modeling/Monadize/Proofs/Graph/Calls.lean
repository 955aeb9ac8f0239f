import Monadize.Graph.Calls
import Monadize.Proofs.FiniteMap
import Monadize.Proofs.Graph.Components
import Monadize.Proofs.Stmt.Calls

/-! What the analysis of declarations with distinct names finds: clusters that divide the declared
functions among them, and for each function its callees and those of them in its own cluster.
-/

namespace Monadize

namespace CallGraph

-----------------------------------------------------------------------------------------
-- Clusters as lists of positions
-----------------------------------------------------------------------------------------

/-- The components in topological order are still a partition. -/
theorem order_partition {g : Graph} (h : g.InRange)
    : (order g).1.flatten.Perm (List.range g.size) ∧ [] ∉ (order g).1 := by
  obtain ⟨partition, nonempty⟩ := h.components_partition
  have sequence : (g.condense g.components).topological.Perm (List.range g.components.length) :=
    h.condense.topological_perm
  have all : (List.range g.components.length).map (fun c => g.components[c]?.getD [])
      = g.components := by
    apply List.ext_getElem?
    intro i
    by_cases inside : i < g.components.length
    · simp [inside]
    · simp [inside]
  constructor
  · calc (order g).1.flatten
      _ = (g.condense g.components).topological.flatMap
            (fun c => (g.components[c]?.getD []).mergeSort) := rfl
      List.Perm _ ((List.range g.components.length).flatMap
            (fun c => (g.components[c]?.getD []).mergeSort)) := sequence.flatMap_right _
      List.Perm _ ((List.range g.components.length).flatMap
            (fun c => g.components[c]?.getD [])) :=
          List.Perm.flatMap_left _ fun c _ => List.mergeSort_perm _ _
      _ = g.components.flatten := by rw [List.flatMap_def, all]
      List.Perm _ (List.range g.size) := partition
  · intro empty
    obtain ⟨c, among, none⟩ := List.mem_map.mp empty
    have inside : c < g.components.length := List.mem_range.mp (sequence.mem_iff.mp among)
    have gone : g.components[c] = [] := by
      have length := congrArg List.length none
      simpa [inside] using length
    exact nonempty (gone ▸ List.getElem_mem inside)

/-- Positions of a partition have the same cluster if they are in one together. -/
theorem clusterOf_eq_iff {clusters : List (List Nat)} (once : clusters.flatten.Nodup) {i j : Nat}
    (known : j ∈ clusters.flatten)
    : clusterOf clusters i = clusterOf clusters j
      ↔ ∃ members ∈ clusters, i ∈ members ∧ j ∈ members := by
  obtain ⟨members, cluster, member⟩ := Graph.getElem?_findIdx known
  constructor
  · intro same
    refine ⟨members, List.mem_of_getElem? cluster, ?_, member⟩
    have inside : clusters.findIdx (i ∈ ·) < clusters.length := by
      have here := (List.getElem?_eq_some_iff.mp cluster).1
      rwa [show clusters.findIdx (i ∈ ·) = clusters.findIdx (j ∈ ·) from same]
    obtain ⟨other, amongToo, holds⟩ := List.findIdx_lt_length.mp inside
    obtain ⟨members', cluster', member'⟩ :=
      Graph.getElem?_findIdx (List.mem_flatten.mpr ⟨other, amongToo, of_decide_eq_true holds⟩)
    rw [show clusters.findIdx (i ∈ ·) = clusters.findIdx (j ∈ ·) from same, cluster] at cluster'
    cases cluster'
    exact member'
  · rintro ⟨together, amongToo, first, second⟩
    obtain ⟨id, clusterToo⟩ := List.mem_iff_getElem?.mp amongToo
    unfold clusterOf
    rw [Graph.findIdx_eq_of_mem once clusterToo first,
      Graph.findIdx_eq_of_mem once clusterToo second]

-----------------------------------------------------------------------------------------
-- Positions of declarations
-----------------------------------------------------------------------------------------

/-- A position that is found holds a declaration of the name. -/
theorem position?_eq_some {decls : List Declaration} {name : Name} {i : Nat}
    (h : position? decls name = some i)
    : ∃ d, decls[i]? = some d ∧ d.name = name := by
  obtain ⟨k, found, rfl⟩ := Option.map_eq_some_iff.mp h
  obtain ⟨inside, named, _⟩ := List.findIdx?_eq_some_iff_getElem.mp found
  refine ⟨decls.reverse[k], ?_, of_decide_eq_true named⟩
  rw [← List.getElem?_reverse (by simpa using inside), List.getElem?_eq_getElem inside]

theorem exists_position? {decls : List Declaration} {d : Declaration} (declared : d ∈ decls)
    : ∃ i, position? decls d.name = some i := by
  have found : (decls.reverse.findIdx? (·.name = d.name)).isSome = true := by
    rw [List.findIdx?_isSome, List.any_eq_true]
    exact ⟨d, List.mem_reverse.mpr declared, decide_eq_true rfl⟩
  obtain ⟨k, found⟩ := Option.isSome_iff_exists.mp found
  exact ⟨_, Option.map_eq_some_iff.mpr ⟨k, found, rfl⟩⟩

theorem position?_isSome_iff {decls : List Declaration} {name : Name}
    : (position? decls name).isSome = true ↔ name ∈ decls.map (·.name) := by
  constructor
  · intro some
    obtain ⟨i, found⟩ := Option.isSome_iff_exists.mp some
    obtain ⟨d, here, rfl⟩ := position?_eq_some found
    exact List.mem_map_of_mem (List.mem_of_getElem? here)
  · intro declared
    obtain ⟨d, member, rfl⟩ := List.mem_map.mp declared
    obtain ⟨i, found⟩ := exists_position? member
    exact Option.isSome_iff_exists.mpr ⟨i, found⟩

/-- With distinct names, a name is at one position only. -/
theorem position_unique {decls : List Declaration} (distinct : (decls.map (·.name)).Nodup)
    {i j : Nat} {d e : Declaration} (first : decls[i]? = some d) (second : decls[j]? = some e)
    (same : d.name = e.name)
    : i = j := by
  have inside : i < (decls.map (·.name)).length := by
    simpa using (List.getElem?_eq_some_iff.mp first).1
  refine (List.getElem?_inj inside distinct).mp ?_
  rw [List.getElem?_map, List.getElem?_map, first, second]
  exact congrArg some same

-----------------------------------------------------------------------------------------
-- The call graph of declarations
-----------------------------------------------------------------------------------------

variable (env : Environment) (decls : List Declaration) (prior : FunctionTable)

/-- The callees of each declaration, by name of the declaration. -/
def calleeSets : List NameSet :=
  let sorted := sortDecls decls
  sorted.map fun d =>
    calleesOf env (procNames decls prior)
      (fun f => (position? sorted f).isSome || prior.contains f) d.proc

/-- The graph whose components are the clusters. -/
def calls : Graph :=
  ⟨(sortDecls decls).length, edges (position? (sortDecls decls)) (calleeSets env decls prior)⟩

/-- The clusters as lists of positions. -/
def positions : List (List Nat) := (order (calls env decls prior)).1

theorem clusters_analyze
    : (analyze env decls prior).graph.clusters
      = (positions env decls prior).map fun members =>
          members.filterMap fun i => ((sortDecls decls)[i]?).map (·.name) :=
  rfl

theorem calls_inRange : (calls env decls prior).InRange := by
  intro e edge
  obtain ⟨⟨set, caller⟩, listed, called⟩ := List.mem_flatMap.mp edge
  obtain ⟨c, _, found⟩ := List.mem_filterMap.mp called
  obtain ⟨callee, position, rfl⟩ := Option.map_eq_some_iff.mp found
  obtain ⟨d, here, _⟩ := position?_eq_some position
  have inside := (List.getElem?_eq_some_iff.mp (List.mem_zipIdx_iff_getElem?.mp listed)).1
  refine ⟨(List.getElem?_eq_some_iff.mp here).1, ?_⟩
  simpa [calls, calleeSets] using inside

theorem positions_partition
    : (positions env decls prior).flatten.Perm (List.range (sortDecls decls).length)
      ∧ [] ∉ positions env decls prior :=
  order_partition (calls_inRange env decls prior)

/-- Sorting keeps the declarations. -/
theorem sortDecls_perm : (sortDecls decls).Perm decls := List.mergeSort_perm _ _

/-- Reading a list at all of its positions gives the list. -/
theorem filterMap_range_names (sorted : List Declaration)
    : (List.range sorted.length).filterMap (fun i => (sorted[i]?).map (·.name))
      = sorted.map (·.name) := by
  have read : (List.range sorted.length).map (fun i => (sorted[i]?).map (·.name))
      = sorted.map fun d => some d.name := by
    apply List.ext_getElem?
    intro i
    by_cases inside : i < sorted.length
    · simp [inside]
    · simp [inside]
  have whole := congrArg (List.filterMap id) read
  simpa only [List.filterMap_map, Function.id_comp, Function.comp_def, id_eq,
    List.filterMap_eq_map'] using whole

/-- The clusters divide the declared names among them. -/
theorem clusters_perm
    : (analyze env decls prior).graph.clusters.flatten.Perm (decls.map (·.name)) := by
  rw [clusters_analyze, ← List.filterMap_flatten]
  refine ((positions_partition env decls prior).1.filterMap _).trans ?_
  rw [filterMap_range_names]
  exact (sortDecls_perm decls).map _

/-- With distinct names, a function is in one cluster only. -/
theorem cluster_unique (distinct : (decls.map (·.name)).Nodup) {i j : ClusterId}
    {members others : List Name} {name : Name}
    (first : (analyze env decls prior).graph.clusters[i]? = some members)
    (second : (analyze env decls prior).graph.clusters[j]? = some others)
    (member : name ∈ members) (other : name ∈ others)
    : i = j := by
  obtain ⟨inside, rfl⟩ := List.getElem?_eq_some_iff.mp first
  obtain ⟨insideToo, rfl⟩ := List.getElem?_eq_some_iff.mp second
  have once := (clusters_perm env decls prior).nodup_iff.mpr distinct
  have apart := List.pairwise_iff_getElem.mp (List.nodup_flatten.mp once).2
  rcases Nat.lt_trichotomy i j with before | same | behind
  · exact absurd other (apart i j inside insideToo before member)
  · exact same
  · exact absurd member (apart j i insideToo inside behind other)

variable {env decls prior} in
/-- A function is in one cluster with the members of its own. -/
theorem exists_cluster_iff (distinct : (decls.map (·.name)).Nodup) {id : ClusterId}
    {members : List Name} (here : (analyze env decls prior).graph.clusters[id]? = some members)
    {name other : Name} (own : name ∈ members)
    : (∃ members ∈ (analyze env decls prior).graph.clusters, name ∈ members ∧ other ∈ members)
      ↔ other ∈ members := by
  constructor
  · intro together
    obtain ⟨joint, cluster, first, second⟩ := together
    obtain ⟨i, place⟩ := List.mem_iff_getElem?.mp cluster
    obtain rfl := cluster_unique env decls prior distinct place here first own
    cases place.symm.trans here
    exact second
  · intro its
    exact ⟨members, List.mem_of_getElem? here, own, its⟩

/-- No cluster is empty. -/
theorem nil_not_mem_clusters : [] ∉ (analyze env decls prior).graph.clusters := by
  rw [clusters_analyze]
  intro empty
  obtain ⟨members, among, none⟩ := List.mem_map.mp empty
  obtain ⟨partition, nonempty⟩ := positions_partition env decls prior
  cases members with
  | nil => exact nonempty among
  | cons i rest =>
      have known : i ∈ (positions env decls prior).flatten :=
        List.mem_flatten.mpr ⟨_, among, List.mem_cons_self⟩
      have inside : i < (sortDecls decls).length := List.mem_range.mp (partition.mem_iff.mp known)
      simp [inside] at none

-----------------------------------------------------------------------------------------
-- The functions of declarations
-----------------------------------------------------------------------------------------

/-- What is known of the function of a declaration: it calls the functions that the call nodes of
its body lead to, and recursive callees are those in its own cluster.
-/
structure Analyzed (d : Declaration) (f : Function) : Prop where
  name : f.name = d.name
  proc : f.proc = d.proc
  measured : f.measured = !f.recCallees.isEmpty
  unregistered : f.registration = none
  mem_callees
    : ∀ c,
        c ∈ f.callees.elems
        ↔ ∃ body,
            env.body? d.proc = some body
            ∧ ∃ proc ∈ body.callSites,
                (procNames decls prior).find? proc = some c
                ∧ (c ∈ decls.map (·.name) ∨ prior.contains c = true)
  mem_recCallees
    : ∀ c,
        c ∈ f.recCallees.elems
        ↔ c ∈ f.callees.elems
          ∧ ∃ members ∈ (analyze env decls prior).graph.clusters, d.name ∈ members ∧ c ∈ members

variable {env decls prior}

theorem mem_calleesOf {known : Name → Bool} {proc c : Name}
    : c ∈ (calleesOf env (procNames decls prior) known proc).elems
      ↔ ∃ body,
          env.body? proc = some body
          ∧ ∃ called ∈ body.callSites,
              (procNames decls prior).find? called = some c ∧ known c = true := by
  unfold calleesOf
  cases found : env.body? proc with
  | none => simp [NameSet.empty]
  | some body =>
      simp only [NameSet.mem_filter, NameSet.mem_ofList, List.mem_filterMap, Stmt.mem_calls]
      constructor
      · rintro ⟨⟨called, site, named⟩, declared⟩
        exact ⟨body, rfl, called, site, named, declared⟩
      · rintro ⟨_, same, called, site, named, declared⟩
        cases same
        exact ⟨⟨called, site, named⟩, declared⟩

theorem mem_sortDecls_names {name : Name}
    : name ∈ (sortDecls decls).map (·.name) ↔ name ∈ decls.map (·.name) :=
  ((sortDecls_perm decls).map _).mem_iff

/-- Two declared functions are in one cluster if their positions are. -/
theorem clusterOf_positions_iff (distinct : (decls.map (·.name)).Nodup) {i : Nat} {d : Declaration}
    (here : (sortDecls decls)[i]? = some d) {c : Name}
    : ((position? (sortDecls decls) c).any fun j =>
        decide (clusterOf (positions env decls prior) j = clusterOf (positions env decls prior) i))
        = true
      ↔ ∃ members ∈ (analyze env decls prior).graph.clusters, d.name ∈ members ∧ c ∈ members := by
  have sorted : ((sortDecls decls).map (·.name)).Nodup :=
    ((sortDecls_perm decls).map _).nodup_iff.mpr distinct
  have partition := (positions_partition env decls prior).1
  have once : (positions env decls prior).flatten.Nodup := partition.nodup_iff.mpr List.nodup_range
  have known : i ∈ (positions env decls prior).flatten :=
    partition.mem_iff.mpr (List.mem_range.mpr (List.getElem?_eq_some_iff.mp here).1)
  rw [clusters_analyze, Option.any_eq_true]
  constructor
  · rintro ⟨j, found, same⟩
    obtain ⟨e, there, rfl⟩ := position?_eq_some found
    obtain ⟨members, among, first, second⟩ :=
      (clusterOf_eq_iff once known).mp (of_decide_eq_true same)
    refine ⟨_, List.mem_map_of_mem among, List.mem_filterMap.mpr ⟨i, second, ?_⟩,
      List.mem_filterMap.mpr ⟨j, first, ?_⟩⟩
    · rw [here]
      rfl
    · rw [there]
      rfl
  · rintro ⟨_, cluster, first, second⟩
    obtain ⟨members, among, rfl⟩ := List.mem_map.mp cluster
    obtain ⟨i', atFirst, named⟩ := List.mem_filterMap.mp first
    obtain ⟨j, atSecond, called⟩ := List.mem_filterMap.mp second
    obtain ⟨d', here', nameFirst⟩ := Option.map_eq_some_iff.mp named
    obtain ⟨e, there, rfl⟩ := Option.map_eq_some_iff.mp called
    obtain rfl : i' = i := position_unique sorted here' here nameFirst
    obtain ⟨j', found⟩ := exists_position? (List.mem_of_getElem? there)
    obtain ⟨e', there', nameSecond⟩ := position?_eq_some found
    obtain rfl : j' = j := position_unique sorted there' there nameSecond
    exact ⟨j', found, decide_eq_true ((clusterOf_eq_iff once known).mpr
      ⟨members, among, atSecond, atFirst⟩)⟩

variable (env decls prior) in
/-- The function of the declaration at a position. -/
def functionAt (i : Nat) (d : Declaration) : Function :=
  let sorted := sortDecls decls
  let callees := calleesOf env (procNames decls prior)
    (fun f => (position? sorted f).isSome || prior.contains f) d.proc
  let recCallees := callees.filter fun c =>
    (position? sorted c).any fun j =>
      clusterOf (positions env decls prior) j = clusterOf (positions env decls prior) i
  ⟨d.name, d.proc, callees, recCallees, d.wrapper, !recCallees.isEmpty, d.returnSlot, none⟩

/-- Every function of the table is that of a declaration. -/
theorem exists_position_of_mem {name : Name} {f : Function}
    (entry : (name, f) ∈ (analyze env decls prior).functions.entries)
    : ∃ i d,
        (sortDecls decls)[i]? = some d ∧ d.name = name ∧ f = functionAt env decls prior i d := by
  have bound := FiniteMap.mem_entries_ofList entry
  obtain ⟨⟨⟨d, set⟩, i⟩, listed, same⟩ := List.mem_map.mp bound
  obtain ⟨here, setHere⟩
      : (sortDecls decls)[i]? = some d ∧ (calleeSets env decls prior)[i]? = some set :=
    List.getElem?_zip_eq_some.mp (List.mem_zipIdx_iff_getElem?.mp listed)
  rw [calleeSets, List.getElem?_map, here] at setHere
  obtain rfl := Option.some.inj setHere
  cases same
  exact ⟨i, d, here, rfl, rfl⟩

/-- Every function of the table is the analysis of a declaration. -/
theorem analyzed_of_mem (distinct : (decls.map (·.name)).Nodup) {name : Name} {f : Function}
    (entry : (name, f) ∈ (analyze env decls prior).functions.entries)
    : ∃ d ∈ decls, d.name = name ∧ Analyzed env decls prior d f := by
  obtain ⟨i, d, here, rfl, rfl⟩ := exists_position_of_mem entry
  refine ⟨d, (sortDecls_perm decls).mem_iff.mp (List.mem_of_getElem? here), rfl,
    rfl, rfl, rfl, rfl, ?_, ?_⟩
  · intro c
    simp only [functionAt, mem_calleesOf, Bool.or_eq_true, position?_isSome_iff,
      mem_sortDecls_names]
  · intro c
    rw [functionAt, NameSet.mem_filter]
    exact and_congr_right fun _ => clusterOf_positions_iff distinct here

/-- Every declaration has a function in the table. -/
theorem exists_mem_analyze {d : Declaration} (declared : d ∈ decls)
    : ∃ f, (d.name, f) ∈ (analyze env decls prior).functions.entries := by
  obtain ⟨i, here⟩ := List.mem_iff_getElem?.mp ((sortDecls_perm decls).mem_iff.mpr declared)
  have listed : ∃ set,
      ((d, set), i) ∈ ((sortDecls decls).zip (calleeSets env decls prior)).zipIdx :=
    ⟨_, List.mem_zipIdx_iff_getElem?.mpr (List.getElem?_zip_eq_some.mpr
      ⟨here, by rw [calleeSets, List.getElem?_map, here]; rfl⟩)⟩
  obtain ⟨set, listed⟩ := listed
  obtain ⟨f, found, _⟩ := FiniteMap.exists_find?_insertAll (.empty : FunctionTable)
    ⟨_, List.mem_map_of_mem listed, rfl⟩
  exact ⟨f, FiniteMap.mem_entries_of_find? found⟩

end CallGraph

end Monadize
