import Monadize.Proof.Derive

/-! The last steps on the theorem of a function: giving its return slot an unspecified value at
the start, and the passes that simplify its term. -/

namespace Monadize

/-- Where the return slot is initialized. -/
inductive InitStrategy where
  /-- Directly under an outermost recursion guard. -/
  | underRecGuard
  /-- In front of the whole term. -/
  | prepend
  deriving DecidableEq

namespace InitStrategy

/-- The strategies in the order in which they are tried; the first that applies is used. -/
def order : List InitStrategy := [.underRecGuard, .prepend]

def applies : InitStrategy → Term → Bool
  | .underRecGuard, .recGuard _ _ => true
  | .underRecGuard, _ => false
  | .prepend, _ => true

def rule : InitStrategy → Lemma
  | .underRecGuard => .initReturnRecGuard
  | .prepend => .initReturn

end InitStrategy

/-- The steps of one pass. -/
structure TraceRecord where
  label : String
  steps : List Reduction
  deriving DecidableEq

/-- One pass: rule sets that are applied one after the other. -/
structure Pass where
  label : String
  sets : List RuleSet

/-- The passes. Without optimization the second one does nothing, and the last one keeps handlers
that rethrow. -/
def Pass.all (optimize : Bool) : List Pass :=
  [⟨"guard opt", [.guards]⟩,
    ⟨"peephole opt", if optimize then [.peephole] else []⟩,
    ⟨"exception opt", if optimize then [.handlers, .exceptions] else [.handlers]⟩]

namespace Theorem

/-- Initialize the return slot of a function. A theorem without a term stays as it is. -/
def initSlot (thm : Theorem) (slot : Name) : Except ProofError Theorem :=
  match thm.term? with
  | none => .ok thm
  | some term =>
      match InitStrategy.order.find? (·.applies term) with
      | none => .ok thm
      | some strategy => thm.initReturn strategy.rule (Expr.returnInit thm.env.world slot)

/-- Apply rule sets one after the other. -/
def reduceAll (thm : Theorem) : List RuleSet → Except ProofError (Theorem × List Reduction)
  | [] => .ok (thm, [])
  | set :: sets => do
      let (thm, first) ← thm.reduce set
      let (thm, rest) ← thm.reduceAll sets
      return (thm, first ++ rest)

def runPasses (thm : Theorem) : List Pass → Except ProofError (Theorem × List TraceRecord)
  | [] => .ok (thm, [])
  | pass :: passes => do
      let (thm, steps) ← thm.reduceAll pass.sets
      let (thm, records) ← thm.runPasses passes
      return (thm, ⟨pass.label, steps⟩ :: records)

end Theorem

/-- A finished theorem. -/
structure Finished where
  thm : Theorem
  /-- The record of every pass, if a trace is wanted. -/
  traces : List TraceRecord
  /-- The number of steps of all passes. -/
  steps : Nat

/-- Finish the theorem of a function, whose return value is in the component `slot` if there is
one. -/
def Theorem.finish (thm : Theorem) (slot : Option Name) (optimize trace : Bool)
    : Except ProofError Finished := do
  let thm ← match slot with
    | some slot => thm.initSlot slot
    | none => pure thm
  let (thm, records) ← thm.runPasses (Pass.all optimize)
  return ⟨thm, if trace then records else [], (records.map (·.steps.length)).foldr (· + ·) 0⟩

end Monadize
