import Monadize.Expr.Basic

/-! Terms of the monadic language that statements are compiled to. The world type is implicit, and
predicates are characteristic functions. -/

namespace Monadize

/-- How a call passes the measure to its callee. -/
inductive MeasureArg where
  /-- One less than the caller's measure: a call within the caller's cluster. -/
  | pred (measure : MeasureId)
  /-- A fresh measure of the callee's own: a call into a recursive cluster from outside. -/
  | managed
  /-- The callee takes no measure. -/
  | unused
  deriving DecidableEq

inductive CalleeRef where
  /-- A function that is not registered yet, local to one compiled function. -/
  | placeholder (id : PlaceholderId)
  /-- A constant of the definition store. -/
  | const (id : ConstId)
  deriving DecidableEq

structure Callee where
  target : CalleeRef
  measure : MeasureArg
  deriving DecidableEq

inductive Term where
  | skip
  | seq (first second : Term)
  | modify (update : Expr)
  | condition (pred : Expr) (left right : Term)
  | tryCatch (body handler : Term)
  | loop (pred : Expr) (body : Term)
  | throw
  | guard (pred : Expr)
  | init (update : Expr)
  | spec (rel : Expr)
  /-- A call; `result` abstracts over the final state of the callee and the caller's state. -/
  | call (setup : Expr) (callee : Callee) (cleanup result : Expr)
  /-- Fails once the measure reaches zero. -/
  | recGuard (measure : MeasureId) (body : Term)
  | fail
  deriving DecidableEq

instance : Inhabited Term := ⟨.skip⟩

/-- An expression or a callee inside a term. -/
inductive Term.Part where
  | expr (e : Expr)
  | callee (c : Callee)

namespace Term

/-- The immediate subterms, left to right. -/
def children : Term → List Term
  | .seq a b => [a, b]
  | .tryCatch a b => [a, b]
  | .condition _ a b => [a, b]
  | .loop _ body => [body]
  | .recGuard _ body => [body]
  | _ => []

/-- The number of nodes. -/
def size : Term → Nat
  | .seq a b => a.size + b.size + 1
  | .tryCatch a b => a.size + b.size + 1
  | .condition _ a b => a.size + b.size + 1
  | .loop _ body => body.size + 1
  | .recGuard _ body => body.size + 1
  | _ => 1

/-- The number of nodes on the longest path. -/
def depth : Term → Nat
  | .seq a b => max a.depth b.depth + 1
  | .tryCatch a b => max a.depth b.depth + 1
  | .condition _ a b => max a.depth b.depth + 1
  | .loop _ body => body.depth + 1
  | .recGuard _ body => body.depth + 1
  | _ => 1

/-- May the term end with an exception? A call never does: an exception that leaves a callee is
turned into failure. -/
def mayThrow : Term → Bool
  | .throw => true
  | .seq a b => a.mayThrow || b.mayThrow
  | .condition _ a b => a.mayThrow || b.mayThrow
  | .tryCatch _ handler => handler.mayThrow
  | .loop _ body => body.mayThrow
  | .recGuard _ body => body.mayThrow
  | _ => false

/-- The callees in front of `rest`, left to right. -/
def calleesBefore : Term → (rest : List Callee) → List Callee
  | .call _ callee _ _, rest => callee :: rest
  | .seq a b, rest => a.calleesBefore (b.calleesBefore rest)
  | .tryCatch a b, rest => a.calleesBefore (b.calleesBefore rest)
  | .condition _ a b, rest => a.calleesBefore (b.calleesBefore rest)
  | .loop _ body, rest => body.calleesBefore rest
  | .recGuard _ body, rest => body.calleesBefore rest
  | _, rest => rest

/-- The callees, left to right. -/
def callees (t : Term) : List Callee := t.calleesBefore []

/-- What stands behind the callees does not change them. -/
theorem calleesBefore_eq (t : Term) (rest : List Callee)
    : t.calleesBefore rest = t.callees ++ rest := by
  unfold callees
  induction t generalizing rest with
  | seq a b iha ihb | tryCatch a b iha ihb | condition _ a b iha ihb =>
    simp only [calleesBefore]
    rw [iha (b.calleesBefore rest), iha (b.calleesBefore []), ihb rest, List.append_assoc]
  | loop _ body ih | recGuard _ body ih => exact ih rest
  | _ => rfl

end Term

def CalleeRef.isPlaceholder : CalleeRef → Bool
  | .placeholder _ => true
  | .const _ => false

/-- Replace a placeholder that `find` knows by its constant. -/
def Callee.instantiate (find : PlaceholderId → Option ConstId) (callee : Callee) : Callee :=
  match callee.target with
  | .const _ => callee
  | .placeholder p =>
      match find p with
      | some k => { callee with target := .const k }
      | none => callee

namespace Term

def hasPlaceholders (t : Term) : Bool := t.callees.any (·.target.isPlaceholder)

/-- Apply `onExpr` to every expression and `onCallee` to every callee. -/
def mapParts (onExpr : Expr → Expr) (onCallee : Callee → Callee) : Term → Term
  | .skip => .skip
  | .throw => .throw
  | .fail => .fail
  | .seq a b => .seq (a.mapParts onExpr onCallee) (b.mapParts onExpr onCallee)
  | .tryCatch a b => .tryCatch (a.mapParts onExpr onCallee) (b.mapParts onExpr onCallee)
  | .modify e => .modify (onExpr e)
  | .guard e => .guard (onExpr e)
  | .init e => .init (onExpr e)
  | .spec e => .spec (onExpr e)
  | .condition pred a b =>
      .condition (onExpr pred) (a.mapParts onExpr onCallee) (b.mapParts onExpr onCallee)
  | .loop pred body => .loop (onExpr pred) (body.mapParts onExpr onCallee)
  | .call setup callee cleanup result =>
      .call (onExpr setup) (onCallee callee) (onExpr cleanup) (onExpr result)
  | .recGuard measure body => .recGuard measure (body.mapParts onExpr onCallee)

/-- The expressions and callees in front of `rest`, left to right. -/
def partsBefore : Term → (rest : List Part) → List Part
  | .skip, rest | .throw, rest | .fail, rest => rest
  | .seq a b, rest => a.partsBefore (b.partsBefore rest)
  | .tryCatch a b, rest => a.partsBefore (b.partsBefore rest)
  | .modify e, rest | .guard e, rest | .init e, rest | .spec e, rest => .expr e :: rest
  | .condition pred a b, rest => .expr pred :: a.partsBefore (b.partsBefore rest)
  | .loop pred body, rest => .expr pred :: body.partsBefore rest
  | .call setup callee cleanup result, rest =>
      .expr setup :: .callee callee :: .expr cleanup :: .expr result :: rest
  | .recGuard _ body, rest => body.partsBefore rest

/-- The expressions and callees, left to right. -/
def parts (t : Term) : List Part := t.partsBefore []

/-- Replace the placeholders that `find` knows by their constants. -/
def instantiate (find : PlaceholderId → Option ConstId) : Term → Term :=
  mapParts id (Callee.instantiate find)

end Term

end Monadize
