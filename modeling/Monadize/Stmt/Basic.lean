import Monadize.Expr.Basic
import Monadize.NameSet

/-! Structured statements: the language programs are written in. -/

namespace Monadize

inductive Stmt where
  | skip
  | seq (first second : Stmt)
  /-- A state transformer. -/
  | assign (update : Expr)
  | cond (guard : Expr) (left right : Stmt)
  | tryCatch (body handler : Stmt)
  | loop (guard : Expr) (body : Stmt)
  | throw
  /-- Fault unless the state is in `cond`. -/
  | guard (cond : Expr) (body : Stmt)
  /-- Give a local an unspecified value through its update function. -/
  | localInit (update : Expr)
  /-- A nondeterministic step along a relation of states. -/
  | spec (rel : Expr)
  | guardedSpec (cond rel : Expr)
  /-- A call of the procedure `proc`. The result is stored by the statement `store`, in which the
  `binders` name the final state of the callee and the state of the caller at the call. -/
  | call (setup : Expr) (proc : Name) (cleanup : Expr) (binders : List Name) (store : Stmt)
  /-- A call through a procedure-valued expression. -/
  | dynCall (setup target cleanup : Expr) (binders : List Name) (store : Stmt)
  deriving DecidableEq

instance : Inhabited Stmt := ⟨.skip⟩

/-- The part of a call that stores its result: binders around a statement. -/
structure ResultStore where
  binders : List Name
  body : Stmt
  deriving DecidableEq

/-- The plain shape of a result store: binders of the two states, and the update under them. -/
structure ResultUpdate where
  final : Name
  caller : Name
  update : Expr
  deriving DecidableEq

/-- Two binders around a state transformer are plain; nothing else is. -/
def ResultStore.plain? : ResultStore → Option ResultUpdate
  | ⟨[final, caller], .assign update⟩ => some ⟨final, caller, update⟩
  | _ => none

namespace Stmt

/-- The result store of a call. -/
def resultStore? : Stmt → Option ResultStore
  | .call _ _ _ binders store => some ⟨binders, store⟩
  | .dynCall _ _ _ binders store => some ⟨binders, store⟩
  | _ => none

/-- Procedures called by name, added to `found`. Result stores are searched as well. -/
def collectCalls : Stmt → NameSet → NameSet
  | .seq a b, found => b.collectCalls (a.collectCalls found)
  | .tryCatch a b, found => b.collectCalls (a.collectCalls found)
  | .cond _ a b, found => b.collectCalls (a.collectCalls found)
  | .loop _ body, found => body.collectCalls found
  | .guard _ body, found => body.collectCalls found
  | .call _ proc _ _ store, found => store.collectCalls (found.insert proc)
  | .dynCall _ _ _ _ store, found => store.collectCalls found
  | _, found => found

/-- The procedures a statement calls by name. -/
def calls (stmt : Stmt) : NameSet := stmt.collectCalls .empty

end Stmt

end Monadize
