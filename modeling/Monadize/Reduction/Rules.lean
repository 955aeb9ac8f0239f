import Monadize.Expr.Simplify
import Monadize.Term.Basic

/-! Equivalences of monadic terms, directed and grouped into rule sets. Every rule maps a term to
one that behaves alike on every state. -/

namespace Monadize

structure Rule where
  name : String
  apply : Term → Option Term

namespace Rule

/-- The simplified predicate, if it differs. -/
def simplified? (pred : Expr) : Option Expr :=
  let pred' := pred.simplify
  if pred' = pred then none else some pred'

def guardTrue : Rule where
  name := "guard-true"
  apply
    | .guard pred => if pred.isConstPred true then some .skip else none
    | _ => none

def guardFalse : Rule where
  name := "guard-false"
  apply
    | .guard pred => if pred.isConstPred false then some .fail else none
    | _ => none

def guardSimp : Rule where
  name := "guard-simp"
  apply
    | .guard pred => (simplified? pred).map .guard
    | _ => none

def seqSkipLeft : Rule where
  name := "seq-skip-left"
  apply
    | .seq .skip b => some b
    | _ => none

def seqSkipRight : Rule where
  name := "seq-skip-right"
  apply
    | .seq a .skip => some a
    | _ => none

def seqFail : Rule where
  name := "seq-fail"
  apply
    | .seq .fail _ => some .fail
    | _ => none

def updateThenFail : Rule where
  name := "update-then-fail"
  apply
    | .seq (.modify _) .fail => some .fail
    | .seq (.init _) .fail => some .fail
    | _ => none

def conditionTrue : Rule where
  name := "condition-true"
  apply
    | .condition pred left _ => if pred.isConstPred true then some left else none
    | _ => none

def conditionFalse : Rule where
  name := "condition-false"
  apply
    | .condition pred _ right => if pred.isConstPred false then some right else none
    | _ => none

def conditionSame : Rule where
  name := "condition-same"
  apply
    | .condition _ left right => if left = right then some left else none
    | _ => none

def loopFalse : Rule where
  name := "while-false"
  apply
    | .loop pred _ => if pred.isConstPred false then some .skip else none
    | _ => none

def conditionSimp : Rule where
  name := "condition-simp"
  apply
    | .condition pred left right => (simplified? pred).map fun pred => .condition pred left right
    | _ => none

def loopSimp : Rule where
  name := "while-simp"
  apply
    | .loop pred body => (simplified? pred).map fun pred => .loop pred body
    | _ => none

def catchNoThrow : Rule where
  name := "catch-no-throw"
  apply
    | .tryCatch body _ => if body.mayThrow then none else some body
    | _ => none

def catchThrow : Rule where
  name := "catch-throw"
  apply
    | .tryCatch .throw handler => some handler
    | _ => none

def catchRethrow : Rule where
  name := "catch-rethrow"
  apply
    | .tryCatch body .throw => some body
    | _ => none

def seqThrow : Rule where
  name := "seq-throw"
  apply
    | .seq .throw _ => some .throw
    | _ => none

end Rule

inductive RuleSet where
  /-- Simplify guard predicates and drop trivial guards. -/
  | guards
  /-- Local simplifications of sequences, conditions and loops. -/
  | peephole
  /-- Remove handlers that are never reached, or reached at once. -/
  | handlers
  /-- Further simplifications of exceptions. -/
  | exceptions
  deriving DecidableEq

/-- The rules of a set, in the order in which they are tried. -/
def RuleSet.rules : RuleSet → List Rule
  | .guards => [.guardTrue, .guardFalse, .guardSimp]
  | .peephole =>
      [.seqSkipLeft, .seqSkipRight, .seqFail, .updateThenFail, .conditionTrue, .conditionFalse,
        .conditionSame, .loopFalse, .conditionSimp, .loopSimp]
  | .handlers => [.catchNoThrow, .catchThrow]
  | .exceptions => [.catchRethrow, .seqThrow]

end Monadize
