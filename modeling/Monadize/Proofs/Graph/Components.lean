import Mathlib.Algebra.BigOperators.Group.Finset.Piecewise
import Monadize.Proofs.Graph.Search

/-! Orders and components of a graph as lists: each node is in them exactly once. -/

namespace Monadize

namespace Graph

variable {g : Graph}

/-- Edges go from nodes to nodes. -/
def InRange (g : Graph) : Prop := ∀ e ∈ g.edges, e.1 < g.size ∧ e.2 < g.size

/-- Neighbours are nodes, and there are no more of them than edges. -/
structure Walks (g : Graph) (next : Nat → List Nat) : Prop where
  inRange : ∀ v, ∀ w ∈ next v, w < g.size
  bounded : ∑ v ∈ Finset.range g.size, (next v).length ≤ g.edges.length

/-- Edges are at one node each, so those at all nodes together are no more than all edges. -/
theorem sum_length_filter_le (key : Nat × Nat → Nat) (size : Nat) (edges : List (Nat × Nat))
    : ∑ v ∈ Finset.range size, (edges.filter (key · = v)).length ≤ edges.length := by
  induction edges with
  | nil => simp
  | cons e rest ih =>
      have split (v : Nat)
          : ((e :: rest).filter (key · = v)).length
            = (if key e = v then 1 else 0) + (rest.filter (key · = v)).length := by
        by_cases here : key e = v
        · simp [here]
          omega
        · simp [here]
      have here : ∑ v ∈ Finset.range size, (if key e = v then 1 else 0) ≤ 1 := by
        rw [Finset.sum_ite_eq]
        split <;> omega
      simp only [split, Finset.sum_add_distrib, List.length_cons]
      omega

theorem InRange.walks_successors (h : g.InRange) : g.Walks g.successors where
  inRange v w next := by
    obtain ⟨e, edge, rfl⟩ := List.mem_map.mp (List.mem_reverse.mp next)
    exact (h e (List.mem_filter.mp edge).1).2
  bounded := by
    simpa only [successors, List.length_reverse, List.length_map]
      using sum_length_filter_le Prod.fst g.size g.edges

theorem InRange.walks_predecessors (h : g.InRange) : g.Walks g.predecessors where
  inRange v w next := by
    obtain ⟨e, edge, rfl⟩ := List.mem_map.mp (List.mem_reverse.mp next)
    exact (h e (List.mem_filter.mp edge).1).1
  bounded := by
    simpa only [predecessors, List.length_reverse, List.length_map]
      using sum_length_filter_le Prod.snd g.size g.edges

-----------------------------------------------------------------------------------------
-- A search from one node
-----------------------------------------------------------------------------------------

variable {next : Nat → List Nat}

/-- A search from one node has fuel enough. -/
theorem Walks.potential_le (walks : g.Walks next) (v : Nat) (discovered finished : List Nat)
    : Search.potential g.size next ⟨[v], discovered, finished⟩ ≤ g.searchFuel := by
  have fewer : ∑ w ∈ Finset.range g.size with w ∉ discovered, (1 + (next w).length)
      ≤ ∑ w ∈ Finset.range g.size, (1 + (next w).length) :=
    Finset.sum_le_sum_of_subset (Finset.filter_subset _ _)
  have all : ∑ w ∈ Finset.range g.size, (1 + (next w).length)
      = g.size + ∑ w ∈ Finset.range g.size, (next w).length := by
    simp [Finset.sum_add_distrib]
  have edges := walks.bounded
  simp only [Search.potential, searchFuel, List.length_singleton]
  omega

/-- A search from an undiscovered node ends with an empty stack and has finished the node. -/
theorem Walks.run_spec (walks : g.Walks next) {old : List Nat} {v : Nat}
    {discovered finished : List Nat}
    (h : Search.Sound g.size old ⟨[v], discovered, finished⟩)
    : Search.Sound g.size old (Search.run next g.searchFuel ⟨[v], discovered, finished⟩)
      ∧ (Search.run next g.searchFuel ⟨[v], discovered, finished⟩).stack = []
      ∧ ∀ w, w = v ∨ w ∈ finished
        → w ∈ (Search.run next g.searchFuel ⟨[v], discovered, finished⟩).finished := by
  have empty := Search.stack_run_eq_nil walks.inRange h (walks.potential_le v discovered finished)
  refine ⟨h.run walks.inRange g.searchFuel, empty, ?_⟩
  intro w seen
  have kept : w ∈ (Search.run next g.searchFuel ⟨[v], discovered, finished⟩).stack
      ∨ w ∈ (Search.run next g.searchFuel ⟨[v], discovered, finished⟩).finished :=
    Search.mem_run g.searchFuel (seen.imp_left List.mem_singleton.mpr)
  rcases kept with waiting | done
  · rw [empty] at waiting
    cases waiting
  · exact done

-----------------------------------------------------------------------------------------
-- A search from all nodes
-----------------------------------------------------------------------------------------

/-- A search that is idle can start again from a node. -/
theorem Search.Sound.restart {s : Search} (h : Search.Sound g.size [] s) (idle : s.stack = [])
    {start : Nat} (inRange : start < g.size)
    : Search.Sound g.size [] ⟨[start], s.discovered, s.finished⟩ where
  keeps := h.keeps
  stack := by simpa using inRange
  discovered := h.discovered
  finished := h.finished
  once := h.once
  pending := by
    intro v found
    have done : v ∈ s.finished := by simpa [idle] using h.pending v found
    exact Or.inr (Or.inl done)

/-- A fold over nodes that comes to know each node in its turn, and forgets none, knows them all in
the end; by induction on the nodes.
-/
theorem foldl_covers {α : Type} (P : α → Prop) (known : α → List Nat) {step : α → Nat → α}
    {nodes : List Nat} {acc : α}
    (each
      : ∀ acc, P acc → ∀ v ∈ nodes,
          P (step acc v) ∧ ∀ w, w = v ∨ w ∈ known acc → w ∈ known (step acc v))
    (h : P acc)
    : P (nodes.foldl step acc)
      ∧ ∀ v, v ∈ nodes ∨ v ∈ known acc → v ∈ known (nodes.foldl step acc) := by
  induction nodes generalizing acc with
  | nil => exact ⟨h, fun v seen => seen.resolve_left List.not_mem_nil⟩
  | cons node rest ih =>
      obtain ⟨first, covers⟩ := each acc h node List.mem_cons_self
      obtain ⟨last, coversRest⟩ :=
        ih (fun acc h v among => each acc h v (List.mem_cons_of_mem node among)) first
      refine ⟨last, ?_⟩
      rintro v (among | before)
      · rcases List.mem_cons.mp among with rfl | among
        · exact coversRest v (Or.inr (covers v (Or.inl rfl)))
        · exact coversRest v (Or.inl among)
      · exact coversRest v (Or.inr (covers v (Or.inr before)))

/-- One turn of a search from some nodes: an idle search from a node that is not discovered yet. -/
theorem Walks.searchStep_spec (walks : g.Walks next) {s : Search}
    (h : Search.Sound g.size [] s ∧ s.stack = []) {start : Nat} (node : start < g.size)
    : let s' := if start ∈ s.discovered then s
        else Search.run next g.searchFuel ⟨[start], s.discovered, s.finished⟩
      (Search.Sound g.size [] s' ∧ s'.stack = [])
      ∧ ∀ w, w = start ∨ w ∈ s.finished → w ∈ s'.finished := by
  obtain ⟨sound, idle⟩ := h
  by_cases known : start ∈ s.discovered
  · simp only [if_pos known]
    refine ⟨⟨sound, idle⟩, ?_⟩
    rintro w (rfl | before)
    · simpa [idle] using sound.pending w known
    · exact before
  · simp only [if_neg known]
    obtain ⟨soundNext, empty, finishes⟩ := walks.run_spec (sound.restart idle node)
    exact ⟨⟨soundNext, empty⟩, finishes⟩

/-- Searching from some nodes finishes them and keeps what was finished before. -/
theorem Walks.searchFrom_spec (walks : g.Walks next) {starts : List Nat}
    (inRange : ∀ v ∈ starts, v < g.size) {s : Search}
    (h : Search.Sound g.size [] s ∧ s.stack = [])
    : (Search.Sound g.size [] (g.searchFrom next starts s)
        ∧ (g.searchFrom next starts s).stack = [])
      ∧ ∀ v, v ∈ starts ∨ v ∈ s.finished → v ∈ (g.searchFrom next starts s).finished :=
  foldl_covers (fun s => Search.Sound g.size [] s ∧ s.stack = []) (·.finished)
    (fun _ h v among => walks.searchStep_spec h (inRange v among)) h

/-- The order in which a search finishes nodes has each node once. -/
theorem Walks.reversePostOrder_perm (walks : g.Walks next)
    : (g.reversePostOrder next).Perm (List.range g.size) := by
  have start : Search.Sound g.size [] ⟨[], [], []⟩ := by
    constructor <;> simp
  obtain ⟨⟨sound, _⟩, finishes⟩ := walks.searchFrom_spec (fun v => List.mem_range.mp) ⟨start, rfl⟩
  refine (List.perm_ext_iff_of_nodup sound.once List.nodup_range).mpr ?_
  intro v
  constructor
  · intro done
    exact List.mem_range.mpr (sound.discovered v (sound.finished v done).1)
  · intro node
    exact finishes v (Or.inl node)

-----------------------------------------------------------------------------------------
-- Components
-----------------------------------------------------------------------------------------

/-- The components so far hold the discovered nodes, each of them once. -/
structure Splits (g : Graph) (acc : Search × List (List Nat)) : Prop where
  inRange : ∀ v ∈ acc.1.discovered, v < g.size
  covers : ∀ v, v ∈ acc.2.flatten ↔ v ∈ acc.1.discovered
  once : acc.2.flatten.Nodup
  nonempty : [] ∉ acc.2

/-- A search from an undiscovered node adds a component that is new altogether. -/
theorem Splits.componentStep (h : g.InRange) {acc : Search × List (List Nat)}
    (splits : g.Splits acc)
    {v : Nat} (node : v < g.size)
    : g.Splits (g.componentStep acc v)
      ∧ ∀ w, w = v ∨ w ∈ acc.1.discovered → w ∈ (g.componentStep acc v).1.discovered := by
  by_cases known : v ∈ acc.1.discovered
  · rw [Graph.componentStep, if_pos known]
    refine ⟨splits, ?_⟩
    rintro w (rfl | before)
    · exact known
    · exact before
  · obtain ⟨sound, empty, finishes⟩ :=
      h.walks_successors.run_spec (.start node known splits.inRange)
    have done := finishes v (Or.inl rfl)
    rw [Graph.componentStep, if_neg known]
    refine ⟨⟨sound.discovered, ?_, ?_, ?_⟩, ?_⟩
    · intro w
      simp only [List.flatten_append, List.mem_append, splits.covers w, List.flatten_singleton]
      constructor
      · rintro (before | new)
        · exact sound.keeps w before
        · exact (sound.finished w new).1
      · intro found
        simpa [empty] using sound.pending w found
    · simp only [List.flatten_append, List.flatten_singleton]
      refine List.nodup_append'.mpr ⟨splits.once, sound.once, ?_⟩
      intro w before new
      exact (sound.finished w new).2 ((splits.covers w).mp before)
    · simp only [List.mem_append, List.mem_singleton, not_or]
      refine ⟨splits.nonempty, ?_⟩
      intro none
      rw [← none] at done
      cases done
    · rintro w (rfl | before)
      · exact (sound.finished w done).1
      · exact sound.keeps w before

/-- The components are a partition: each node is in one of them, once, and none is empty. -/
theorem InRange.components_partition (h : g.InRange)
    : g.components.flatten.Perm (List.range g.size) ∧ [] ∉ g.components := by
  have order := h.walks_predecessors.reversePostOrder_perm
  have start : g.Splits (⟨[], [], []⟩, []) := by
    constructor <;> simp
  have node : ∀ v ∈ g.reversePostOrder g.predecessors, v < g.size :=
    fun v among => List.mem_range.mp (order.mem_iff.mp among)
  obtain ⟨splits, discovers⟩ :=
    foldl_covers (Splits g) (·.1.discovered)
      (fun _ splits v among => splits.componentStep h (node v among)) start
  refine ⟨(List.perm_ext_iff_of_nodup splits.once List.nodup_range).mpr ?_, splits.nonempty⟩
  intro v
  constructor
  · intro found
    exact List.mem_range.mpr (splits.inRange v ((splits.covers v).mp found))
  · intro inside
    exact (splits.covers v).mpr (discovers v (Or.inl (order.mem_iff.mpr inside)))

/-- Every node is in a component. -/
theorem InRange.findIdx_components_lt (h : g.InRange) {v : Nat} (node : v < g.size)
    : g.components.findIdx (v ∈ ·) < g.components.length := by
  have member : v ∈ g.components.flatten :=
    h.components_partition.1.mem_iff.mpr (List.mem_range.mpr node)
  obtain ⟨component, among, inside⟩ := List.mem_flatten.mp member
  exact List.findIdx_lt_length_of_exists ⟨component, among, decide_eq_true inside⟩

/-- In a partition a node is in the part that holds it and in no other. -/
theorem findIdx_eq_of_mem {parts : List (List Nat)} (once : parts.flatten.Nodup) {v id : Nat}
    {part : List Nat} (here : parts[id]? = some part) (member : v ∈ part)
    : parts.findIdx (v ∈ ·) = id := by
  obtain ⟨inside, rfl⟩ := List.getElem?_eq_some_iff.mp here
  refine (List.findIdx_eq inside).mpr ⟨decide_eq_true member, ?_⟩
  intro earlier before
  apply decide_eq_false
  intro twice
  have apart := List.pairwise_iff_getElem.mp (List.nodup_flatten.mp once).2 earlier id
    (Nat.lt_trans before inside) inside before
  exact apart twice member

/-- A node that is in some part is in the one it is found in. -/
theorem getElem?_findIdx {parts : List (List Nat)} {v : Nat} (known : v ∈ parts.flatten)
    : ∃ part, parts[parts.findIdx (v ∈ ·)]? = some part ∧ v ∈ part := by
  obtain ⟨part, among, member⟩ := List.mem_flatten.mp known
  have inside : parts.findIdx (v ∈ ·) < parts.length :=
    List.findIdx_lt_length_of_exists ⟨part, among, decide_eq_true member⟩
  exact ⟨_, List.getElem?_eq_getElem inside, of_decide_eq_true (List.findIdx_getElem (w := inside))⟩

-----------------------------------------------------------------------------------------
-- The graph of the components
-----------------------------------------------------------------------------------------

/-- Edges that are added one by one are those of the given ones that are no loops, by induction on
these.
-/
theorem mem_foldl_add {edges added : List (Nat × Nat)} {e : Nat × Nat}
    : e ∈ edges.foldl
          (fun edges e => if e.1 = e.2 ∨ e ∈ edges then edges else edges ++ [e]) added
      ↔ (e ∈ edges ∧ e.1 ≠ e.2) ∨ e ∈ added := by
  induction edges generalizing added with
  | nil => simp
  | cons first rest ih =>
      rw [List.foldl_cons, ih, List.mem_cons]
      split
      · next skipped =>
          constructor
          · rintro (⟨later, between⟩ | before)
            · exact .inl ⟨.inr later, between⟩
            · exact .inr before
          · rintro (⟨rfl | later, between⟩ | before)
            · exact .inr (skipped.resolve_left between)
            · exact .inl ⟨later, between⟩
            · exact .inr before
      · next kept =>
          rw [List.mem_append, List.mem_singleton]
          constructor
          · rintro (⟨later, between⟩ | before | rfl)
            · exact .inl ⟨.inr later, between⟩
            · exact .inr before
            · exact .inl ⟨.inl rfl, (not_or.mp kept).1⟩
          · rintro (⟨rfl | later, between⟩ | before)
            · exact .inr (.inr rfl)
            · exact .inl ⟨later, between⟩
            · exact .inr (.inl before)

/-- The edges between components are those of the graph that leave one. -/
theorem mem_edges_condense {components : List (List Nat)} {e : Nat × Nat}
    : e ∈ (g.condense components).edges
      ↔ e.1 ≠ e.2
        ∧ ∃ u v,
            (u, v) ∈ g.edges
            ∧ e = (components.findIdx (u ∈ ·), components.findIdx (v ∈ ·)) := by
  simp only [Graph.condense, mem_foldl_add, List.not_mem_nil, or_false, List.mem_map, Prod.exists]
  constructor
  · rintro ⟨⟨u, v, edge, rfl⟩, between⟩
    exact ⟨between, u, v, edge, rfl⟩
  · rintro ⟨between, u, v, edge, rfl⟩
    exact ⟨⟨u, v, edge, rfl⟩, between⟩

/-- No edge is added twice. -/
theorem nodup_edges_condense (components : List (List Nat))
    : (g.condense components).edges.Nodup := by
  have fold (edges added : List (Nat × Nat)) (once : added.Nodup)
      : (edges.foldl (fun edges e => if e.1 = e.2 ∨ e ∈ edges then edges else edges ++ [e])
          added).Nodup := by
    induction edges generalizing added with
    | nil => exact once
    | cons first rest ih =>
        rw [List.foldl_cons]
        split
        · exact ih added once
        · next kept =>
            refine ih _ (once.append (List.nodup_singleton first) ?_)
            exact List.disjoint_singleton.mpr (not_or.mp kept).2
  exact fold _ [] .nil

theorem InRange.condense (h : g.InRange) : (g.condense g.components).InRange := by
  intro e edge
  obtain ⟨_, u, v, original, rfl⟩ := mem_edges_condense.mp edge
  obtain ⟨source, target⟩ := h (u, v) original
  exact ⟨h.findIdx_components_lt source, h.findIdx_components_lt target⟩

/-- A topological order has each node once. -/
theorem InRange.topological_perm (h : g.InRange) : g.topological.Perm (List.range g.size) :=
  h.walks_successors.reversePostOrder_perm

end Graph

end Monadize
