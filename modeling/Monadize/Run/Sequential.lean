import Monadize.Run.Cluster

/-! Compiling the clusters of a program one after the other. A cluster that fails leaves store and
functions as they were; after a fatal error the run ends. -/

namespace Monadize

namespace Run

/-- Compile and register one cluster. -/
def cluster (plan : Plan) (settings : Settings) (state : RunState) (id : ClusterId)
    : Compiling RunState := do
  let members := plan.graph.clusters[id]?.getD []
  let compiled ← Cluster.compile (plan.scope settings state.functions) id members
  let (store, functions) ← .ofExcept (Cluster.commit settings state.store state.functions compiled)
  .tell [.clusterDefined id]
  return Cluster.advance state.functions store functions

/-- What became of one cluster. -/
structure Item where
  events : List Event
  /-- The state after the cluster is registered, or why it is not. -/
  outcome : Except CompileError RunState

def item (plan : Plan) (settings : Settings) (state : RunState) (id : ClusterId) : Item :=
  let run := cluster plan settings state id
  match run.result with
  | .ok state => ⟨run.reports, .ok state⟩
  | .error e => ⟨run.reports ++ [.clusterFailed id e], .error e⟩

/-- Compile the given clusters in turn. -/
def clusters (plan : Plan) (settings : Settings) : RunState → List ClusterId →
    List Item × RunState
  | state, [] => ([], state)
  | state, id :: ids =>
      let first := item plan settings state id
      match first.outcome with
      | .ok state =>
          let (items, final) := clusters plan settings state ids
          (first :: items, final)
      | .error e =>
          if e.isFatal then ([first], state)
          else
            let (items, final) := clusters plan settings state ids
            (first :: items, final)

/-- Compile at most `limit` clusters of a plan, whose functions `current` are new, on top of the
functions `prior`. -/
def sequential (plan : Plan) (settings : Settings) (current prior : FunctionTable) (store : Store)
    (limit : Option Nat)
    : List Item × RunState :=
  let ids := List.range plan.graph.clusters.length
  clusters plan settings ⟨store, current.union prior⟩ (ids.take (limit.getD ids.length))

end Run

end Monadize
