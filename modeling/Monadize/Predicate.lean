import Monadize.Expr.Basic

/-! Predicates and state functions over a world type, as the compiler writes them and the proof
kernel expects them. -/

namespace Monadize

namespace Expr

/-- An abstraction over a state of the given world. -/
def stateLam (world var : Name) (body : Expr) : Expr := .lam var (some world) body

/-- The predicate that is `value` on every state. -/
def constPred (world : Name) (value : Bool) : Expr := stateLam world "_" (.bool value)

/-- The characteristic predicate of a set of states. -/
def predOfSet (world : Name) : Expr → Expr
  | .univ => constPred world true
  | .empty => constPred world false
  | .collect x body => stateLam world x body
  | set => stateLam world "s" (.mem (.var "s") set)

/-- `update` as a function of the callee's final state and the caller's state. -/
def resultHandler (world final caller : Name) (update : Expr) : Expr :=
  stateLam world final (stateLam world caller update)

/-- Set a state component to an unspecified value. -/
def returnInit (world slot : Name) : Expr :=
  stateLam world "s" (.update (.var "s") slot .arbitrary)

end Expr

end Monadize
