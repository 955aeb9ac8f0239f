import Monadize.Proofs.Graph.Order

/-! The components of a graph are its classes of mutually reachable nodes, and a topological order
of the graph between them puts each one before those it has edges to.
-/

namespace Monadize

namespace Graph

-----------------------------------------------------------------------------------------
-- What a search from one node finishes
-----------------------------------------------------------------------------------------

namespace Search

variable {next : Nat → List Nat} {old : List Nat} {start : Nat}

/-- All that is new or waits can be reached from the start. -/
def Spreads (next : Nat → List Nat) (old : List Nat) (start : Nat) (s : Search) : Prop :=
  (∀ w ∈ s.stack, Reach next start w) ∧ ∀ w ∈ s.discovered, w ∈ old ∨ Reach next start w

theorem Spreads.step {s : Search} (h : Spreads next old start s)
    : Spreads next old start (s.step next) := by
  obtain ⟨stack, discovered, finished⟩ := s
  cases stack with
  | nil => exact h
  | cons v below =>
      have top : Reach next start v := h.1 v List.mem_cons_self
      by_cases known : v ∈ discovered
      · simp only [Search.step, if_pos known]
        exact ⟨fun w waiting => h.1 w (List.mem_cons_of_mem v waiting), h.2⟩
      · simp only [Search.step, if_neg known]
        refine ⟨?_, ?_⟩
        · intro w waiting
          rcases List.mem_append.mp waiting with found | before
          · exact top.tail (List.mem_filter.mp (List.mem_reverse.mp found)).1
          · exact h.1 w before
        · intro w found
          rcases List.mem_cons.mp found with rfl | before
          · exact .inr top
          · exact h.2 w before

theorem Spreads.run (fuel : Nat) {s : Search} (h : Spreads next old start s)
    : Spreads next old start (s.run next fuel) :=
  run_keeps (P := Spreads next old start) (fun _ => Spreads.step) fuel h

end Search

variable {g : Graph}

/-- From a new node, on top of a set that neighbours do not leave, a search finishes the nodes that
can be reached and are new.
-/
theorem Walks.mem_finished_run {next : Nat → List Nat} (walks : g.Walks next) {v : Nat}
    {discovered : List Nat} (node : v < g.size) (new : v ∉ discovered)
    (inRange : ∀ w ∈ discovered, w < g.size)
    (closed : ∀ u ∈ discovered, ∀ w ∈ next u, w ∈ discovered)
    : let s := Search.run next g.searchFuel ⟨[v], discovered, []⟩
      (∀ w, w ∈ s.finished ↔ w ∉ discovered ∧ Reach next v w)
      ∧ (∀ w, w ∈ s.discovered ↔ w ∈ discovered ∨ Reach next v w)
      ∧ ∀ u ∈ s.discovered, ∀ w ∈ next u, w ∈ s.discovered := by
  intro s
  have deep : Search.Deep next ⟨[v], discovered, []⟩ := .start new nofun
  have spreads : Search.Spreads next discovered v ⟨[v], discovered, []⟩ := by
    refine ⟨?_, fun w before => .inl before⟩
    intro w waiting
    rw [List.mem_singleton.mp waiting]
    exact .refl
  obtain ⟨sound, empty, finishes⟩ := walks.run_spec (.start node new inRange)
  have settled : ∀ w ∈ s.discovered, w ∈ discovered ∨ w ∈ s.finished := by
    intro w found
    simpa [s, empty] using sound.pending w found
  have closedAfter : ∀ u ∈ s.discovered, ∀ w ∈ next u, w ∈ s.discovered := by
    intro u found w neighbour
    rcases settled u found with before | done
    · exact sound.keeps w (closed u before w neighbour)
    · exact (deep.run g.searchFuel).closed u done w neighbour
  have reached : ∀ w, Reach next v w → w ∈ s.discovered := by
    intro w path
    exact path.mem_of_closed (· ∈ s.discovered) closedAfter
      (sound.finished v (finishes v (.inl rfl))).1
  have spread := (spreads.run g.searchFuel).2
  refine ⟨?_, ?_, closedAfter⟩
  · intro w
    constructor
    · intro done
      obtain ⟨found, fresh⟩ := sound.finished w done
      exact ⟨fresh, (spread w found).resolve_left fresh⟩
    · rintro ⟨fresh, path⟩
      exact (settled w (reached w path)).resolve_left fresh
  · intro w
    constructor
    · exact spread w
    · rintro (before | path)
      · exact sound.keeps w before
      · exact reached w path

-----------------------------------------------------------------------------------------
-- Components are classes
-----------------------------------------------------------------------------------------

theorem mem_successors {u v : Nat} : v ∈ g.successors u ↔ (u, v) ∈ g.edges := by
  simp [successors]

theorem mem_predecessors {u v : Nat} : u ∈ g.predecessors v ↔ (u, v) ∈ g.edges := by
  simp [predecessors]

theorem nodup_predecessors (once : g.edges.Nodup) (v : Nat) : (g.predecessors v).Nodup := by
  rw [predecessors, List.nodup_reverse]
  refine List.Nodup.map_on ?_ (once.filter _)
  intro e first e' second same
  have target := of_decide_eq_true (List.mem_filter.mp first).2
  have target' := of_decide_eq_true (List.mem_filter.mp second).2
  exact Prod.ext same (target.trans target'.symm)

/-- Paths along predecessors are paths along successors read backwards. -/
theorem reach_predecessors_iff {u v : Nat} : Reach g.predecessors u v ↔ Reach g.successors v u := by
  have flipped
      : (fun a b => b ∈ g.predecessors a) = Function.swap fun a b => b ∈ g.successors a := by
    funext a b
    simp only [Function.swap, mem_predecessors, mem_successors]
  rw [Reach, flipped]
  exact Relation.reflTransGen_swap

/-- A path of a graph ends at a node. -/
theorem InRange.lt_of_reach (h : g.InRange) {u v : Nat} (node : u < g.size)
    (path : Reach g.successors u v)
    : v < g.size :=
  path.mem_of_closed (· < g.size)
    (fun a _ b edge => (h (a, b) (mem_successors.mp edge)).2) node

/-- The components so far are classes, and the nodes that were searched from are in them. What is
discovered is not left along successors.
-/
structure Classes (g : Graph) (searched : List Nat) (acc : Search × List (List Nat)) : Prop where
  inRange : ∀ v ∈ acc.1.discovered, v < g.size
  closed : ∀ u ∈ acc.1.discovered, ∀ w ∈ g.successors u, w ∈ acc.1.discovered
  searched : ∀ v ∈ searched, v ∈ acc.1.discovered
  classes : ∀ c ∈ acc.2, ∀ u ∈ c, ∀ w, w ∈ c ↔ Mutual g.successors u w

/-- A search from a node behind which only its own class is left adds this class. -/
theorem Classes.componentStep (h : g.InRange) {searched : List Nat}
    {acc : Search × List (List Nat)} (classes : g.Classes searched acc) {v : Nat}
    (node : v < g.size)
    (leads : ∀ w, Reach g.successors v w → ∃ r, Mutual g.successors r w ∧ (r ∈ searched ∨ r = v))
    : g.Classes (searched ++ [v]) (g.componentStep acc v) := by
  by_cases known : v ∈ acc.1.discovered
  · rw [Graph.componentStep, if_pos known]
    refine ⟨classes.inRange, classes.closed, ?_, classes.classes⟩
    intro w before
    rcases List.mem_append.mp before with earlier | last
    · exact classes.searched w earlier
    · exact List.mem_singleton.mp last ▸ known
  · obtain ⟨finished, discovered, closed⟩ :=
      h.walks_successors.mem_finished_run node known classes.inRange classes.closed
    rw [Graph.componentStep, if_neg known]
    -- what can be reached and is new belongs to the class, and the whole class is new
    have own : ∀ w, w ∉ acc.1.discovered ∧ Reach g.successors v w ↔ Mutual g.successors v w := by
      intro w
      constructor
      · rintro ⟨fresh, path⟩
        obtain ⟨r, joint, searchedBefore | rfl⟩ := leads w path
        · have found : w ∈ acc.1.discovered :=
            joint.1.mem_of_closed (· ∈ acc.1.discovered) classes.closed
              (classes.searched r searchedBefore)
          exact absurd found fresh
        · exact joint
      · intro joint
        refine ⟨?_, joint.1⟩
        intro found
        exact known (joint.2.mem_of_closed (· ∈ acc.1.discovered) classes.closed found)
    refine ⟨?_, closed, ?_, ?_⟩
    · intro w found
      rcases (discovered w).mp found with before | path
      · exact classes.inRange w before
      · exact h.lt_of_reach node path
    · intro w before
      rcases List.mem_append.mp before with earlier | last
      · exact (discovered w).mpr (.inl (classes.searched w earlier))
      · rw [List.mem_singleton.mp last]
        exact (discovered v).mpr (.inr .refl)
    · intro c among u member w
      rcases List.mem_append.mp among with before | new
      · exact classes.classes c before u member w
      · rw [List.mem_singleton.mp new] at member ⊢
        have joint := (own u).mp ((finished u).mp member)
        rw [finished w, own w]
        exact ⟨fun other => joint.symm.trans other, fun other => joint.trans other⟩

/-- All components are classes, by induction on the nodes that are searched from. -/
theorem InRange.classes_components (h : g.InRange)
    : ∀ c ∈ g.components, ∀ u ∈ c, ∀ w, w ∈ c ↔ Mutual g.successors u w := by
  have order := h.walks_predecessors.reversePostOrder_perm
  have once : (g.reversePostOrder g.predecessors).Nodup := order.nodup_iff.mpr List.nodup_range
  have fold : ∀ rest searched acc,
      g.reversePostOrder g.predecessors = searched ++ rest → g.Classes searched acc
      → g.Classes (g.reversePostOrder g.predecessors) (rest.foldl g.componentStep acc) := by
    intro rest
    induction rest with
    | nil =>
        intro searched acc all classes
        rw [List.append_nil] at all
        exact all ▸ classes
    | cons v rest ih =>
        intro searched acc all classes
        have node : v < g.size := by
          refine List.mem_range.mp (order.mem_iff.mp ?_)
          rw [all]
          exact List.mem_append_right _ List.mem_cons_self
        refine ih (searched ++ [v]) _ (by rw [all, List.append_assoc]; rfl)
          (classes.componentStep h node ?_)
        intro w path
        obtain ⟨r, joint, before, after, split, first⟩ :=
          h.walks_predecessors.reversePostOrder_leads (h.lt_of_reach node path)
            (reach_predecessors_iff.mpr path)
        rw [all] at split once
        obtain ⟨_, onceLater, apart⟩ := List.nodup_append'.mp once
        have same : searched = before := by
          refine ((List.append_cons_inj_of_notMem ?_ ?_).mp split).1
          · exact fun twice => apart twice List.mem_cons_self
          · exact (List.nodup_cons.mp onceLater).1
        refine ⟨r, ⟨reach_predecessors_iff.mp joint.2, reach_predecessors_iff.mp joint.1⟩, ?_⟩
        rw [same]
        exact first
  have start : g.Classes [] (⟨[], [], []⟩, []) := by
    constructor <;> simp
  exact (fold _ [] _ rfl start).classes

/-- Two nodes are in the same component if they can be reached from each other. -/
theorem InRange.findIdx_components_eq_iff (h : g.InRange) {u v : Nat} (first : u < g.size)
    (second : v < g.size)
    : g.components.findIdx (u ∈ ·) = g.components.findIdx (v ∈ ·) ↔ Mutual g.successors u v := by
  have partition := h.components_partition.1
  have once : g.components.flatten.Nodup := partition.nodup_iff.mpr List.nodup_range
  obtain ⟨part, here, member⟩ :=
    getElem?_findIdx (partition.mem_iff.mpr (List.mem_range.mpr first))
  obtain ⟨other, there, memberToo⟩ :=
    getElem?_findIdx (partition.mem_iff.mpr (List.mem_range.mpr second))
  rw [← h.classes_components part (List.mem_of_getElem? here) u member v]
  constructor
  · intro same
    rw [← same, here] at there
    cases there
    exact memberToo
  · intro together
    exact (findIdx_eq_of_mem once here together).symm

-----------------------------------------------------------------------------------------
-- The graph of the components
-----------------------------------------------------------------------------------------

/-- A path between components is one between any nodes of them, by induction on the path. -/
theorem InRange.reach_of_condense (h : g.InRange) {i j : Nat}
    (path : Reach (g.condense g.components).successors i j) {u v : Nat} (first : u < g.size)
    (second : v < g.size) (source : g.components.findIdx (u ∈ ·) = i)
    (target : g.components.findIdx (v ∈ ·) = j)
    : Reach g.successors u v := by
  induction path generalizing v with
  | refl => exact ((h.findIdx_components_eq_iff first second).mp (source.trans target.symm)).1
  | @tail k j _ edge ih =>
      obtain ⟨_, a, b, original, same⟩ := mem_edges_condense.mp (mem_successors.mp edge)
      obtain ⟨rfl, rfl⟩ := Prod.mk.inj same
      obtain ⟨inside, insideToo⟩ := h (a, b) original
      have onward : Reach g.successors b v :=
        ((h.findIdx_components_eq_iff insideToo second).mp target.symm).1
      exact ((ih inside rfl).tail (mem_successors.mpr original)).trans onward

theorem InRange.exists_node (h : g.InRange) {i : Nat} (inside : i < g.components.length)
    : ∃ u < g.size, g.components.findIdx (u ∈ ·) = i := by
  obtain ⟨partition, nonempty⟩ := h.components_partition
  have once : g.components.flatten.Nodup := partition.nodup_iff.mpr List.nodup_range
  have some : g.components[i] ≠ [] := fun none => nonempty (none ▸ List.getElem_mem inside)
  obtain ⟨u, member⟩ := List.exists_mem_of_ne_nil _ some
  refine ⟨u, ?_, findIdx_eq_of_mem once (List.getElem?_eq_getElem inside) member⟩
  exact List.mem_range.mp (partition.mem_iff.mp
    (List.mem_flatten.mpr ⟨_, List.getElem_mem inside, member⟩))

/-- The graph of the components has no cycles. -/
theorem InRange.eq_of_mutual_condense (h : g.InRange) {i j : Nat}
    (inside : i < g.components.length) (insideToo : j < g.components.length)
    (joint : Mutual (g.condense g.components).successors i j)
    : i = j := by
  obtain ⟨u, first, rfl⟩ := h.exists_node inside
  obtain ⟨v, second, rfl⟩ := h.exists_node insideToo
  refine (h.findIdx_components_eq_iff first second).mpr ⟨?_, ?_⟩
  · exact h.reach_of_condense joint.1 first second rfl rfl
  · exact h.reach_of_condense joint.2 second first rfl rfl

/-- In a topological order a component comes before those it has edges to. -/
theorem InRange.idxOf_topological_lt (h : g.InRange) {i j : Nat}
    (edge : (i, j) ∈ (g.condense g.components).edges)
    : (g.condense g.components).topological.idxOf i
      < (g.condense g.components).topological.idxOf j := by
  have condensed := h.condense
  have order := condensed.topological_perm
  obtain ⟨inside, _⟩ := condensed (i, j) edge
  obtain ⟨r, joint, before, after, split, first⟩ :=
    condensed.walks_successors.reversePostOrder_leads inside (.single (mem_successors.mpr edge))
  change (g.condense g.components).topological = _ at split
  have listed : r ∈ (g.condense g.components).topological := by
    rw [split]
    rcases first with earlier | rfl
    · exact List.mem_append_left _ earlier
    · exact List.mem_append_right _ List.mem_cons_self
  obtain rfl : r = i :=
    h.eq_of_mutual_condense (List.mem_range.mp (order.mem_iff.mp listed)) inside joint
  have other : r ≠ j := (mem_edges_condense.mp edge).1
  have earlier := first.resolve_right other
  have once : (g.condense g.components).topological.Nodup := order.nodup_iff.mpr List.nodup_range
  rw [split] at once ⊢
  have behind : j ∉ before := fun twice =>
    (List.nodup_append'.mp once).2.2 twice List.mem_cons_self
  rw [List.idxOf_append_of_mem earlier, List.idxOf_append_of_notMem behind, List.idxOf_cons_self]
  exact Nat.lt_of_lt_of_le (List.idxOf_lt_length_of_mem earlier) (Nat.le_add_right _ _)

end Graph

end Monadize
