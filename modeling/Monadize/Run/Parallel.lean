import Monadize.Run.Sequential
import Monadize.Schedule

/-! Compiling independent clusters at the same time. Clusters are registered one at a time, in an
order that respects their dependencies. -/

namespace Monadize

namespace Run

/-- The common state of the workers. -/
structure Shared where
  store : Store
  functions : FunctionTable
  errors : List (ClusterId × CompileError)
  journal : List Event

/-- The functions a cluster was compiled from, and what came of it. -/
structure Output where
  functions : FunctionTable
  compiled : Compiling (List Compiled)

/-- Register a compiled cluster. A fatal error stops the run. -/
def commitOutput (settings : Settings) (shared : Shared) (id : ClusterId) (output : Output)
    : Shared × Flow :=
  let journal := shared.journal ++ output.compiled.reports
  let committed := output.compiled.result.bind
    (Cluster.commit settings shared.store output.functions)
  match committed with
  | .ok (store, functions) =>
      let next := Cluster.advance shared.functions store functions
      ({ shared with
          store := next.store, functions := next.functions
          journal := journal ++ [.clusterDefined id] }, .proceed)
  | .error e =>
      ({ shared with
          errors := shared.errors ++ [(id, e)]
          journal := journal ++ [.clusterFailed id e] },
        if e.isFatal then .stop else .proceed)

/-- Clusters as jobs: each is compiled from the functions known when it is admitted. -/
def task (plan : Plan) (settings : Settings) : Task Shared FunctionTable Output where
  prepare shared _ := shared.functions
  work id functions :=
    (plan.graph.clusters[id]?).map fun members =>
      ⟨functions, Cluster.compile (plan.scope settings functions) id members⟩
  commit := commitOutput settings

/-- Compile all clusters of a plan with several workers. -/
def parallel (plan : Plan) (settings : Settings) (current prior : FunctionTable) (store : Store)
    (workers : Nat)
    : Except Schedule.Failure Shared :=
  Schedule.run (task plan settings) plan.graph.deps workers
    ⟨store, current.union prior, [], []⟩

end Run

end Monadize
