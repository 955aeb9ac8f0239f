import Monadize.Environment
import Monadize.Proof.Error
import Monadize.Proof.Recipe
import Monadize.Term.Basic

/-! Judgements about terms and constants, and theorems: judgements that hold under hypotheses on
callee placeholders. Theorems are made by the rules of the proof kernel only. -/

namespace Monadize

inductive Judgement where
  /-- The term corresponds to the statement. -/
  | corres (term : Term) (stmt : Stmt)
  /-- The term corresponds to a call of the procedure. -/
  | callCorres (term : Term) (proc : Name)
  /-- The registered constant corresponds to a call of the procedure. -/
  | fnCorres (k : ConstId) (proc : Name)
  /-- The constant is monotone in its measure. -/
  | mono (k : ConstId)
  | monoAll (ks : List ConstId)
  deriving DecidableEq

/-- What is assumed of a callee placeholder: at every measure it corresponds to a call of `proc`. -/
structure Hyp where
  proc : Name
  /-- An induction hypothesis, for a call within the caller's cluster. -/
  recursive : Bool
  deriving DecidableEq

/-- A judgement that is to be proved. -/
structure Goal where
  /-- Whether the statement has to terminate. -/
  total : Bool
  env : Environment
  judgement : Judgement
  deriving DecidableEq

structure Theorem where
  total : Bool
  env : Environment
  judgement : Judgement
  hyps : FiniteMap PlaceholderId Hyp
  /-- The free measure variable, if there is one. -/
  measure : Option MeasureId
  deriving DecidableEq

namespace Theorem

/-- The term of a correspondence. -/
def term? (thm : Theorem) : Option Term :=
  match thm.judgement with
  | .corres term _ => some term
  | .callCorres term _ => some term
  | _ => none

end Theorem

end Monadize
