import Monadize.Compile.Statement
import Monadize.Store

/-! Why a function or its cluster is not compiled. -/

namespace Monadize

inductive CompileError where
  /-- A statement outside the supported language. -/
  | unsupported (what : Unsupported)
  | functionNotFound (func : Name)
  /-- The kernel refused a step: a term and its recipe disagree. -/
  | proof (func : Option Name) (error : ProofError)
  | store (error : StoreError)
  deriving DecidableEq

namespace CompileError

/-- Does the error end the whole run? Other errors only concern one cluster. -/
def isFatal : CompileError → Bool
  | .proof _ _ => true
  | .store _ => true
  | _ => false

/-- The function that the error is about. -/
def func? : CompileError → Option Name
  | .unsupported what => some what.func
  | .functionNotFound func => some func
  | .proof func _ => func
  | .store _ => none

def message : CompileError → String
  | .unsupported what => what.message
  | .functionNotFound func => "function " ++ func ++ " not found"
  | .proof _ error => "internal error, proof failed: " ++ error.message
  | .store error => error.message

end CompileError

end Monadize
