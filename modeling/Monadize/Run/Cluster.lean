import Monadize.Proof.Cluster
import Monadize.Proof.Monotone
import Monadize.Run.Plan

/-! Compiling the functions of a cluster, and registering them together. -/

namespace Monadize

/-- What has been compiled so far. -/
structure RunState where
  store : Store
  functions : FunctionTable
  deriving DecidableEq

namespace Cluster

/-- Compile functions of a cluster; they get measure variables from `measure` on. -/
def compileMembers (scope : Scope) (id : ClusterId) : (measure : MeasureId) → List Name →
    Compiling (List Compiled)
  | _, [] => return []
  | measure, func :: funcs => do
      let compiled ← scope.compile func measure
      .tell (compiled.traces.map (.traced id))
      return compiled :: (← compileMembers scope id (measure + 1) funcs)

/-- Compile the functions of a cluster. -/
def compile (scope : Scope) (id : ClusterId) (members : List Name)
    : Compiling (List Compiled) := do
  .tell [.clusterStarted id members]
  compileMembers scope id 0 members

/-! ## Registration -/

/-- How the hypothesis on a callee is discharged, and the constant that takes its place. -/
def binding? (functions : FunctionTable) (siblings : FiniteMap Name ConstId) (entry : CalleeEntry)
    : Option (Binding × ConstId) :=
  if entry.recursive then (siblings.find? entry.func).map fun k => (.sibling k, k)
  else do
    let registration ← (functions.find? entry.func).bind (·.registration)
    return (.defined registration.thm, registration.const)

/-- The callees that a compiled function still refers to, with their bindings. -/
def bindings (functions : FunctionTable) (siblings : FiniteMap Name ConstId) (c : Compiled)
    : List (PlaceholderId × CalleeEntry × Binding × ConstId) :=
  c.thm.hyps.keys.filterMap fun p => do
    let entry ← c.callees.entries[p]?
    let (binding, k) ← binding? functions siblings entry
    return (p, entry, binding, k)

def member (functions : FunctionTable) (siblings : FiniteMap Name ConstId)
    (c : Compiled) (k : ConstId)
    : Member where
  thm := c.thm
  const := k
  bindings := .ofList ((bindings functions siblings c).map fun (p, _, binding, _) => (p, binding))

def calleeConsts (functions : FunctionTable) (siblings : FiniteMap Name ConstId) (c : Compiled)
    : FiniteMap Name ConstId :=
  .ofList ((bindings functions siblings c).map fun (_, entry, _, k) => (entry.func, k))

/-- Does some function of the cluster take a measure? -/
def isMeasured (functions : FunctionTable) (compiled : List Compiled) : Bool :=
  compiled.any fun c => (functions.find? c.name).any (·.measured)

/-- The monotonicity theorems of the constants of a measured cluster. -/
def monos (store : Store) (measured : Bool) (ks : List ConstId) (thms : List Theorem)
    : Except ProofError (List (Option Theorem)) :=
  match measured, thms with
  | true, thm :: _ => do
      let joint ← monoCluster thm.total thm.env ks fun k => (store.get? k).bind (·.body)
      return (← joint.split).map some
  | _, _ => .ok (ks.map fun _ => none)

/-- The parts of a registration, for one function. -/
structure Parts where
  compiled : Compiled
  const : ConstId
  term : Term
  thm : Theorem
  mono : Option Theorem
  calleeConsts : FiniteMap Name ConstId

def parts : List Compiled → List (ConstId × Term) → List Theorem → List (Option Theorem) →
    List (FiniteMap Name ConstId) → List Parts
  | c :: cs, (k, term) :: defs, thm :: thms, mono :: monos, consts :: constss =>
      ⟨c, k, term, thm, mono, consts⟩ :: parts cs defs thms monos constss
  | _, _, _, _, _ => []

/-- A function with its registration. -/
def registered (settings : Settings) (functions : FunctionTable) (p : Parts)
    : Except CompileError Function :=
  match functions.find? p.compiled.name with
  | none => .error (.functionNotFound p.compiled.name)
  | some f =>
      .ok { f with
        recCallees := p.compiled.recCallees
        registration := some {
          const := p.const
          constName := settings.constName p.compiled.name
          term := p.term
          thm := p.thm
          mono := p.mono
          calleeConsts := p.calleeConsts
          warnings := p.compiled.warnings
          traces := p.compiled.traces } }

/-- Register the functions of a compiled cluster: reserve their constants, close the cluster,
commit its definitions and prove them monotone. -/
def commit (settings : Settings) (store : Store) (functions : FunctionTable)
    (compiled : List Compiled)
    : Except CompileError (Store × List Function) := do
  let proofError := CompileError.proof ((compiled.head?).map (·.name))
  let names := compiled.map fun c => settings.constName c.name
  let (store, ks) ← (store.reserveAll names).mapError .store
  let siblings := FiniteMap.ofList ((compiled.map (·.name)).zip ks)
  let members := (compiled.zip ks).map fun (c, k) => member functions siblings c k
  let closed ← (closeCluster members).mapError proofError
  let store ← (store.commit closed.defs closed.thms).mapError .store
  let monos ← (monos store (isMeasured functions compiled) ks closed.thms).mapError proofError
  let consts := compiled.map (calleeConsts functions siblings)
  let functions ← (parts compiled closed.defs closed.thms monos consts).mapM
    (registered settings functions)
  return (store, functions)

/-- The state after a commit. -/
def advance (functions : FunctionTable) (store : Store) (committed : List Function)
    : RunState :=
  ⟨store, functions.insertAll (committed.map fun f => (f.name, f))⟩

end Cluster

end Monadize
