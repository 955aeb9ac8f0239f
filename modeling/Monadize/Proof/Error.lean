import Monadize.Basic
import Monadize.Proof.Lemma

/-! Why the proof kernel refuses a step. -/

namespace Monadize

inductive ProofError.Cause where
  | onlyCorresByRecipe
  | hypothesisAsProof
  | subproofs (expected got : Nat)
  | expressionsDiffer
  | predicateDiffers
  | guardExpected
  | guardAndSpecExpected
  | relationsDiffer
  | argumentsDiffer
  | resultStoreNotPlain
  | resultHandlerDiffers
  | hypothesisExpected
  | calleeNotHypothesis
  | unknownPlaceholder
  | standsFor (stands called : Name)
  | measureMismatch
  | goalMismatch
  | noMeasure
  | notCorres
  | notTheBody (proc : Name)
  | noImplementation (proc : Name)
  | hasImplementation (proc : Name)
  | notCallCorres
  | theoremMismatch
  | nothingToReduce
  | emptyCluster
  | memberNotCallCorres
  | contextMismatch (proc : Name)
  | noBinding (proc callee : Name)
  | calleeNotConstant (proc : Name)
  | notDischarged (proc callee : Name)
  | calleeContextMismatch (proc : Name)
  | notASibling (proc callee : Name)
  | unguardedInduction (proc : Name)
  | undischargedPlaceholder (proc : Name)
  | notDefined (k : ConstId)
  | unresolvedPlaceholder (p : PlaceholderId)
  | outsideCluster (k : ConstId)
  | notAConjunction
  deriving DecidableEq

/-- A refused step, with the lemma that was to justify it if there is one. -/
structure ProofError where
  rule : Option Lemma
  cause : ProofError.Cause
  deriving DecidableEq

namespace ProofError

def Cause.message : Cause → String
  | .onlyCorresByRecipe => "only corres goals are proved by recipe"
  | .hypothesisAsProof => "callee hypothesis used as a statement proof"
  | .subproofs expected got =>
      "expected " ++ toString expected ++ " subproofs, got " ++ toString got
  | .expressionsDiffer => "expressions differ"
  | .predicateDiffers => "predicate is not the characteristic function of the guard"
  | .guardExpected => "expected a guard check"
  | .guardAndSpecExpected => "expected a guard check followed by a spec"
  | .relationsDiffer => "relations differ"
  | .argumentsDiffer => "argument setup or cleanup differs"
  | .resultStoreNotPlain => "result store is not a plain update"
  | .resultHandlerDiffers => "result handler differs"
  | .hypothesisExpected => "expected exactly the callee hypothesis"
  | .calleeNotHypothesis => "callee is not the hypothesis placeholder"
  | .unknownPlaceholder => "unknown placeholder"
  | .standsFor stands called => "placeholder stands for " ++ stands ++ ", not " ++ called
  | .measureMismatch => "measure threading does not match the call site"
  | .goalMismatch => "lemma does not unify with the goal"
  | .noMeasure => "no measure to guard on"
  | .notCorres => "not a corres theorem"
  | .notTheBody proc => "statement is not the body of " ++ proc
  | .noImplementation proc => proc ++ " has no implementation"
  | .hasImplementation proc => proc ++ " has an implementation"
  | .notCallCorres => "not a call corres theorem"
  | .theoremMismatch => "lemma does not unify with the theorem"
  | .nothingToReduce => "nothing to rewrite"
  | .emptyCluster => "empty cluster"
  | .memberNotCallCorres => "member is not a call corres theorem"
  | .contextMismatch proc => proc ++ ": mismatched termination flag or environment"
  | .noBinding proc callee => proc ++ ": no binding for the hypothesis on " ++ callee
  | .calleeNotConstant proc => proc ++ ": callee theorem is not about a constant"
  | .notDischarged proc callee => proc ++ ": callee theorem does not discharge " ++ callee
  | .calleeContextMismatch proc => proc ++ ": callee theorem is in a different context"
  | .notASibling proc callee => proc ++ ": " ++ callee ++ " is not a recursive sibling"
  | .unguardedInduction proc => proc ++ ": induction on the measure needs a recursion guard"
  | .undischargedPlaceholder proc => proc ++ ": undischarged callee placeholder"
  | .notDefined k => "constant " ++ toString k ++ " is not defined"
  | .unresolvedPlaceholder p => "unresolved placeholder " ++ toString p
  | .outsideCluster k => "measured call to " ++ toString k ++ " outside the cluster"
  | .notAConjunction => "not a conjunction"

def message (error : ProofError) : String :=
  match error.rule with
  | some rule => rule.name ++ ": " ++ error.cause.message
  | none => error.cause.message

end ProofError

end Monadize
