import Monadize.Compile.Callees
import Monadize.Predicate
import Monadize.Reported
import Monadize.Stmt.Text

/-! Compiling the body of a function to a monadic term, together with the recipe that proves the
two to correspond. -/

namespace Monadize

/-- A problem that does not keep a function from being compiled. -/
inductive Warning where
  /-- A call in `func` became failure, because `callee` is not compiled. -/
  | missingCallee (func callee : Name)
  /-- A function that is not a declared wrapper has no implementation. -/
  | noBody (func : Name)
  deriving DecidableEq

namespace Warning

def func : Warning → Name
  | .missingCallee func _ => func
  | .noBody func => func

def message : Warning → String
  | .missingCallee _ callee =>
      "no translation for callee " ++ callee ++ ", treating the call as failure"
  | .noBody _ => "no implementation, translated as failure"

end Warning

/-- What cannot be compiled about a statement. -/
inductive Unsupported.Kind where
  | resultStore
  | dynamicCall
  deriving DecidableEq

structure Unsupported where
  func : Name
  kind : Unsupported.Kind
  fragment : Stmt
  deriving DecidableEq

namespace Unsupported

def Kind.describe : Kind → String
  | .resultStore => "call result store"
  | .dynamicCall => "dynamic call"

def message (u : Unsupported) : String :=
  "unsupported " ++ u.kind.describe ++ ":\n" ++ u.fragment.text

end Unsupported

/-- What the compiler knows of the function it compiles. -/
structure BodyContext where
  world : Name
  callees : CalleeTable
  /-- The functions of procedures. -/
  procNames : FiniteMap Name Name
  measure : MeasureId
  func : Name

/-- The ending of the procedure of a function. -/
def procSuffix : List Char := "_'proc".toList

/-- The function that a procedure of unknown origin is taken to belong to. -/
def guessFunction (proc : Name) : Name :=
  let chars := proc.toList
  if procSuffix.isSuffixOf chars then
    String.ofList (chars.take (chars.length - procSuffix.length))
  else proc

/-- How a call passes the measure, and the lemma for such a call. -/
def CalleeEntry.threading (entry : CalleeEntry) (measure : MeasureId) : MeasureArg × Lemma :=
  if entry.recursive then (.pred measure, .callRecursive)
  else if entry.measured then (.managed, .callRecursive)
  else (.unused, .callExternal)

namespace BodyContext

/-- The function that a procedure belongs to. -/
def functionOf (ctx : BodyContext) (proc : Name) : Name :=
  (ctx.procNames.find? proc).getD (guessFunction proc)

/-- A call whose result is stored by a plain update. A function without placeholder is replaced by
failure. -/
def compileCall (ctx : BodyContext) (setup : Expr) (proc : Name) (cleanup : Expr)
    (result : ResultUpdate)
    : Reported Warning Unsupported (Term × Recipe) :=
  let func := ctx.functionOf proc
  match ctx.callees.find? func with
  | none => do
      .tell [.missingCallee ctx.func func]
      return (.fail, .leaf .callUndefined)
  | some (p, entry) =>
      let (measure, rule) := entry.threading ctx.measure
      let handler := Expr.resultHandler ctx.world result.final result.caller result.update
      return (.call setup ⟨.placeholder p, measure⟩ cleanup handler, .apply rule [.hyp p])

/-- Compile a statement. -/
def compile (ctx : BodyContext) : Stmt → Reported Warning Unsupported (Term × Recipe)
  | .skip => return (.skip, .leaf .skip)
  | .throw => return (.throw, .leaf .throw)
  | .seq a b => do
      let (a, p) ← ctx.compile a
      let (b, q) ← ctx.compile b
      return (.seq a b, .apply .seq [p, q])
  | .tryCatch a b => do
      let (a, p) ← ctx.compile a
      let (b, q) ← ctx.compile b
      return (.tryCatch a b, .apply .tryCatch [p, q])
  | .assign f => return (.modify f, .leaf .modify)
  | .localInit f => return (.init f, .leaf .init)
  | .spec rel => return (.spec rel, .leaf .spec)
  | .cond set a b => do
      let (a, p) ← ctx.compile a
      let (b, q) ← ctx.compile b
      return (.condition (Expr.predOfSet ctx.world set) a b, .apply .condition [p, q])
  | .loop set a => do
      let (a, p) ← ctx.compile a
      return (.loop (Expr.predOfSet ctx.world set) a, .apply .loop [p])
  | .guard set a => do
      let (a, p) ← ctx.compile a
      return (.seq (.guard (Expr.predOfSet ctx.world set)) a, .apply .guard [p])
  | .guardedSpec set rel =>
      return (.seq (.guard (Expr.predOfSet ctx.world set)) (.spec rel), .leaf .guardedSpec)
  | .call setup proc cleanup binders store =>
      match ResultStore.plain? ⟨binders, store⟩ with
      | none =>
          .fail ⟨ctx.func, .resultStore, .call setup proc cleanup binders store⟩
      | some result => ctx.compileCall setup proc cleanup result
  | .dynCall setup target cleanup binders store =>
      .fail ⟨ctx.func, .dynamicCall, .dynCall setup target cleanup binders store⟩

end BodyContext

end Monadize
