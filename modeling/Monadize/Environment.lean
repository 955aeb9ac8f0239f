import Monadize.FiniteMap
import Monadize.Stmt.Basic

/-! Procedure environments: the world type of a program and the bodies of its procedures.
Procedures that are declared without an implementation are absent. -/

namespace Monadize

/-- An environment is told apart from every other one by its `tag`: two programs have different
environments even if they hold the same procedures. -/
structure Environment where
  tag : Nat
  /-- The type of states. -/
  world : Name
  procs : FiniteMap Name Stmt

namespace Environment

/-- Environments are compared part by part, and an environment is known to equal itself. -/
instance : DecidableEq Environment := fun a b =>
  withPtrEqDecEq a b fun _ =>
    decidable_of_iff (a.tag = b.tag ∧ a.world = b.world ∧ a.procs = b.procs)
      (by cases a; cases b; simp)

def body? (env : Environment) (proc : Name) : Option Stmt := env.procs.find? proc

def hasBody (env : Environment) (proc : Name) : Bool := (env.body? proc).isSome

end Environment

end Monadize
