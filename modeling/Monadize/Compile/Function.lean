import Monadize.Compile.Journal
import Monadize.NameSet
import Monadize.Proof.Check

/-! Functions of a program, and compiling one of them to a theorem about a call of its
procedure. -/

namespace Monadize

/-- A compiled and registered function. -/
structure Registration where
  const : ConstId
  constName : Name
  /-- The registered definition. -/
  term : Term
  /-- The constant corresponds to a call of the procedure. -/
  thm : Theorem
  /-- Monotonicity in the measure, if the function takes one. -/
  mono : Option Theorem
  calleeConsts : FiniteMap Name ConstId
  warnings : List Warning
  traces : List TraceRecord
  deriving DecidableEq

structure Function where
  name : Name
  proc : Name
  callees : NameSet
  /-- Callees in the same cluster: as the call graph has them until the function is registered,
  and then those that are still called recursively. -/
  recCallees : NameSet
  wrapper : Bool
  /-- The function takes a measure. -/
  measured : Bool
  returnSlot : Option Name
  registration : Option Registration
  deriving DecidableEq

abbrev FunctionTable := FiniteMap Name Function

/-- What compiling a function reads. -/
structure Scope where
  env : Environment
  procNames : FiniteMap Name Name
  functions : FunctionTable
  total : Bool
  optimize : Bool
  trace : Bool

/-- A compiled function, which still refers to its callees through placeholders. -/
structure Compiled where
  name : Name
  /-- The term corresponds to a call of the procedure. -/
  thm : Theorem
  callees : CalleeTable
  /-- The callees that are called recursively in the term. -/
  recCallees : NameSet
  warnings : List Warning
  traces : List TraceRecord

abbrev Compiling := Reported Event CompileError

namespace Scope

/-- The placeholders of a function: one for each callee that is in its cluster or registered. -/
def calleeTable (scope : Scope) (f : Function) : CalleeTable :=
  ⟨f.callees.elems.filterMap fun callee =>
    match scope.functions.find? callee with
    | none => none
    | some g =>
        let recursive := f.recCallees.contains callee
        if recursive || g.registration.isSome then
          some ⟨callee, g.proc, recursive, g.measured⟩
        else none⟩

def bodyContext (scope : Scope) (f : Function) (measure : MeasureId) : BodyContext where
  world := scope.env.world
  callees := scope.calleeTable f
  procNames := scope.procNames
  measure := measure
  func := f.name

/-- A kernel step on behalf of a function. -/
def kernel {α : Type} (func : Name) (step : Except ProofError α) : Compiling α :=
  .ofExcept (step.mapError (.proof (some func)))

/-- The functions that a term calls through placeholders with a decremented measure. -/
def recursiveCallees (callees : CalleeTable) (term : Term) : NameSet :=
  .ofList (term.callees.filterMap fun callee =>
    match callee.target, callee.measure with
    | .placeholder p, .pred _ => (callees.entries[p]?).map (·.func)
    | _, _ => none)

/-- The theorem about the body of a function: compile it, and replay the recipe. -/
def proveBody (scope : Scope) (f : Function) (measure : MeasureId) (body : Stmt)
    : Compiling (Theorem × List Warning) := do
  let ctx := scope.bodyContext f measure
  .tell [.functionStarted f.name ctx.callees.entries.length]
  let compiled := ctx.compile body
  .tell (compiled.reports.map .warned)
  let (term, recipe) ← .ofExcept (compiled.result.mapError .unsupported)
  .tell [.lemmasUsed f.name recipe.lemmaCounts]
  let goal : Goal := ⟨scope.total, scope.env, .corres term body⟩
  let thm ← kernel f.name (goal.prove recipe ctx.callees.hyps measure)
  return (thm, compiled.reports)

/-- Compile a function with a body. -/
def compileBody (scope : Scope) (f : Function) (measure : MeasureId) (body : Stmt)
    : Compiling Compiled := do
  let (thm, warnings) ← scope.proveBody f measure body
  let thm ← if f.measured then kernel f.name thm.guardRecursion else pure thm
  let thm ← kernel f.name (thm.unfold f.proc)
  let finished ← kernel f.name (thm.finish f.returnSlot scope.optimize scope.trace)
  .tell [.reduced finished.steps, .functionCompiled f.name]
  let callees := scope.calleeTable f
  return {
    name := f.name, thm := finished.thm, callees,
    recCallees := (finished.thm.term?.map (recursiveCallees callees)).getD .empty,
    warnings, traces := finished.traces }

/-- Compile a function without a body: a call of it fails. -/
def compileUndefined (scope : Scope) (f : Function) : Compiling Compiled := do
  let thm ← kernel f.name (Theorem.ofUndefined scope.total scope.env f.proc)
  .tell [.functionCompiled f.name]
  return {
    name := f.name, thm, callees := scope.calleeTable f, recCallees := .empty,
    warnings := if f.wrapper then [] else [.noBody f.name], traces := [] }

/-- Compile the function of the given name, with the given measure variable. -/
def compile (scope : Scope) (func : Name) (measure : MeasureId) : Compiling Compiled :=
  match scope.functions.find? func with
  | none => .fail (.functionNotFound func)
  | some f =>
      match scope.env.body? f.proc with
      | none => scope.compileUndefined f
      | some body => scope.compileBody f measure body

end Scope

end Monadize
