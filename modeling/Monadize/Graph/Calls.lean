import Monadize.Compile.Function
import Monadize.Graph.Basic
import Monadize.Program.Description

/-! The call graph of a program: which functions call which, and the clusters of mutually recursive
functions in dependency order. -/

namespace Monadize

structure CallGraph where
  /-- Clusters in dependency order: a callee outside of a cluster is in an earlier one, or was
  compiled before. -/
  clusters : List (List Name)
  /-- The earlier clusters that each cluster calls into. -/
  deps : List (List ClusterId)
  deriving DecidableEq

structure Analysis where
  /-- The functions of procedures, declared now or before. -/
  procNames : FiniteMap Name Name
  graph : CallGraph
  /-- The functions declared now, none of them registered. -/
  functions : FunctionTable

namespace CallGraph

/-- The functions of procedures: of a procedure with several the last one declared. -/
def procNames (decls : List Declaration) (prior : FunctionTable) : FiniteMap Name Name :=
  .ofList (prior.values.map (fun f => (f.proc, f.name)) ++ decls.map (fun d => (d.proc, d.name)))

/-- The declarations by name; those of one name stay in order. -/
def sortDecls (decls : List Declaration) : List Declaration :=
  decls.mergeSort fun a b => decide (a.name ≤ b.name)

/-- The last position of a name. -/
def position? (decls : List Declaration) (name : Name) : Option Nat :=
  (decls.reverse.findIdx? (·.name = name)).map fun i => decls.length - 1 - i

/-- The functions that the body of a procedure calls, declared now or before. -/
def calleesOf (env : Environment) (names : FiniteMap Name Name) (known : Name → Bool) (proc : Name)
    : NameSet :=
  match env.body? proc with
  | none => .empty
  | some body => (NameSet.ofList (body.calls.elems.filterMap names.find?)).filter known

/-- An edge from each declared callee to its caller. -/
def edges (position : Name → Option Nat) (callees : List NameSet) : List (Nat × Nat) :=
  callees.zipIdx.flatMap fun (cs, caller) =>
    cs.elems.filterMap fun c => (position c).map fun callee => (callee, caller)

/-- The components of a graph in topological order, and the dependencies between them. -/
def order (g : Graph) : List (List Nat) × List (List ClusterId) :=
  let components := g.components
  let condensed := g.condense components
  let sequence := condensed.topological
  let clusters := sequence.map fun c => (components[c]?.getD []).mergeSort
  let deps := sequence.map fun c => ((condensed.predecessors c).map sequence.idxOf).mergeSort
  (clusters, deps)

/-- The cluster that a position is in. -/
def clusterOf (clusters : List (List Nat)) (i : Nat) : ClusterId := clusters.findIdx (i ∈ ·)

/-- Analyze declarations on top of the functions known before. -/
def analyze (env : Environment) (decls : List Declaration) (prior : FunctionTable) : Analysis :=
  let names := procNames decls prior
  let decls := sortDecls decls
  let position := position? decls
  let known := fun f => (position f).isSome || prior.contains f
  let callees := decls.map fun d => calleesOf env names known d.proc
  let (clusters, deps) := order ⟨decls.length, edges position callees⟩
  let function := fun (d : Declaration) (callees : NameSet) (i : Nat) =>
    let recCallees := callees.filter fun c =>
      (position c).any fun j => clusterOf clusters j = clusterOf clusters i
    { name := d.name, proc := d.proc, callees, recCallees, wrapper := d.wrapper,
      measured := !recCallees.isEmpty, returnSlot := d.returnSlot, registration := none : Function }
  let functions := (decls.zip callees).zipIdx.map fun ((d, callees), i) =>
    (d.name, function d callees i)
  { procNames := names
    graph := ⟨clusters.map fun c => c.filterMap fun i => (decls[i]?).map (·.name), deps⟩
    functions := .ofList functions }

end CallGraph

end Monadize
