/-! The base lemmas of the proof kernel. -/

namespace Monadize

inductive Lemma where
  | skip
  | seq
  | modify
  | condition
  | tryCatch
  | loop
  | throw
  | guard
  | init
  | spec
  | guardedSpec
  | callExternal
  | callRecursive
  | callUndefined
  | recGuard
  | unfold
  | undefinedFunction
  | initReturn
  | initReturnRecGuard
  | reduce
  | define
  | mutualInduction
  | mono
  | conjSplit
  deriving DecidableEq

namespace Lemma

/-- All lemmas, in the order in which they are counted. -/
def all : List Lemma :=
  [.skip, .seq, .modify, .condition, .tryCatch, .loop, .throw, .guard, .init, .spec, .guardedSpec,
    .callExternal, .callRecursive, .callUndefined, .recGuard, .unfold, .undefinedFunction,
    .initReturn, .initReturnRecGuard, .reduce, .define, .mutualInduction, .mono, .conjSplit]

def name : Lemma → String
  | .skip => "skip-lemma"
  | .seq => "seq-lemma"
  | .modify => "modify-lemma"
  | .condition => "condition-lemma"
  | .tryCatch => "catch-lemma"
  | .loop => "while-lemma"
  | .throw => "throw-lemma"
  | .guard => "guard-lemma"
  | .init => "init-lemma"
  | .spec => "spec-lemma"
  | .guardedSpec => "guarded-spec-lemma"
  | .callExternal => "call-lemma"
  | .callRecursive => "recursive-call-lemma"
  | .callUndefined => "undefined-call-lemma"
  | .recGuard => "recguard-lemma"
  | .unfold => "impl-unfold-lemma"
  | .undefinedFunction => "undefined-function-lemma"
  | .initReturn => "init-return-lemma"
  | .initReturnRecGuard => "init-return-recguard-lemma"
  | .reduce => "rewrite-lemma"
  | .define => "define-lemma"
  | .mutualInduction => "mutual-induction-lemma"
  | .mono => "mono-lemma"
  | .conjSplit => "conj-split-lemma"

end Lemma

end Monadize
