/-! Finite directed graphs, their strongly connected components and topological orders. The nodes
are the numbers below `size`. Edges are kept in the order in which they were added, and the
neighbours of a node are visited from the newest edge to the oldest. -/

namespace Monadize

structure Graph where
  size : Nat
  edges : List (Nat × Nat)
  deriving DecidableEq

namespace Graph

def successors (g : Graph) (v : Nat) : List Nat :=
  ((g.edges.filter (·.1 = v)).map (·.2)).reverse

def predecessors (g : Graph) (v : Nat) : List Nat :=
  ((g.edges.filter (·.2 = v)).map (·.1)).reverse

/-! ## Depth-first search -/

/-- The state of a depth-first search. A node is discovered when its neighbours are put on the
stack, and finished when it is taken off. -/
structure Search where
  stack : List Nat
  discovered : List Nat
  /-- The finished nodes, the last one first. -/
  finished : List Nat

/-- One step: look at the top of the stack. A new node has its undiscovered neighbours put on top
of it, the last of them uppermost; any other is taken off. -/
def Search.step (next : Nat → List Nat) (s : Search) : Search :=
  match s.stack with
  | [] => s
  | v :: below =>
      if v ∈ s.discovered then
        { s with
          stack := below
          finished := if v ∈ s.finished then s.finished else v :: s.finished }
      else
        let discovered := v :: s.discovered
        let found := (next v).filter (· ∉ discovered)
        { s with stack := found.reverse ++ s.stack, discovered }

/-- Search until the stack is empty, for at most `fuel` steps. -/
def Search.run (next : Nat → List Nat) : (fuel : Nat) → Search → Search
  | 0, s => s
  | fuel + 1, s => if s.stack.isEmpty then s else (s.step next).run next fuel

/-- A bound on the steps of a search of the whole graph: every node is discovered once, and what
is put on the stack is a start or the end of an edge. -/
def searchFuel (g : Graph) : Nat := 2 * g.size + g.edges.length + 1

/-- Search from each of the given nodes that is not discovered yet. -/
def searchFrom (g : Graph) (next : Nat → List Nat) (starts : List Nat) (s : Search) : Search :=
  starts.foldl
    (fun s v =>
      if v ∈ s.discovered then s
      else { s with stack := [v] }.run next g.searchFuel)
    s

/-- All nodes in the reverse of the order in which a depth-first search finishes them. -/
def reversePostOrder (g : Graph) (next : Nat → List Nat) : List Nat :=
  (g.searchFrom next (List.range g.size) ⟨[], [], []⟩).finished

/-! ## Components -/

/-- Search from `v`; what it newly finishes is one component. -/
def componentStep (g : Graph) (acc : Search × List (List Nat)) (v : Nat)
    : Search × List (List Nat) :=
  if v ∈ acc.1.discovered then acc
  else
    let s := { acc.1 with stack := [v], finished := [] }.run g.successors g.searchFuel
    (s, acc.2 ++ [s.finished])

/-- The strongly connected components. They are found from the nodes that a search along the
predecessors finishes last, by searches along the successors. -/
def components (g : Graph) : List (List Nat) :=
  ((g.reversePostOrder g.predecessors).foldl g.componentStep (⟨[], [], []⟩, [])).2

/-- The graph of the components: an edge of the graph between two components is one between
them, and edges that are there already are not added again. -/
def condense (g : Graph) (components : List (List Nat)) : Graph :=
  let component := fun v => components.findIdx (v ∈ ·)
  let between := g.edges.map fun (u, v) => (component u, component v)
  let add := fun (edges : List (Nat × Nat)) (e : Nat × Nat) =>
    if e.1 = e.2 ∨ e ∈ edges then edges else edges ++ [e]
  ⟨components.length, between.foldl add []⟩

/-- The nodes of an acyclic graph, each before its successors. -/
def topological (g : Graph) : List Nat := g.reversePostOrder g.successors

end Graph

end Monadize
