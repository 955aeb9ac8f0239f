import Monadize.Stmt.Basic

/-! The calls of a statement, and the statements whose calls can be compiled. -/

namespace Monadize

/-- A plain result store is two binders around an update. -/
theorem ResultStore.plain?_eq_some {binders : List Name} {store : Stmt} {u : ResultUpdate}
    (h : plain? ⟨binders, store⟩ = some u)
    : binders = [u.final, u.caller] ∧ store = .assign u.update := by
  unfold plain? at h
  split at h
  · next final caller update same =>
      cases same
      cases h
      exact ⟨rfl, rfl⟩
  · cases h

namespace Stmt

/-- The procedures of the call nodes, left to right. Those in result stores count as well. -/
def callSites : Stmt → List Name
  | .seq a b => a.callSites ++ b.callSites
  | .tryCatch a b => a.callSites ++ b.callSites
  | .cond _ a b => a.callSites ++ b.callSites
  | .loop _ body => body.callSites
  | .guard _ body => body.callSites
  | .call _ proc _ _ store => proc :: store.callSites
  | .dynCall _ _ _ _ store => store.callSites
  | _ => []

/-- The statement calls procedures by name only, and stores each result by an update under two
binders.
-/
def Supported : Stmt → Prop
  | .seq a b => a.Supported ∧ b.Supported
  | .tryCatch a b => a.Supported ∧ b.Supported
  | .cond _ a b => a.Supported ∧ b.Supported
  | .loop _ body => body.Supported
  | .guard _ body => body.Supported
  | .call _ _ _ binders store =>
      ∃ final caller update, binders = [final, caller] ∧ store = .assign update
  | .dynCall _ _ _ _ _ => False
  | _ => True

/-- Collecting adds the procedures of the call nodes to those found before. -/
theorem mem_collectCalls (stmt : Stmt) (found : NameSet) (proc : Name)
    : proc ∈ (stmt.collectCalls found).elems ↔ proc ∈ stmt.callSites ∨ proc ∈ found.elems := by
  induction stmt generalizing found with
  | seq a b iha ihb | tryCatch a b iha ihb | cond _ a b iha ihb =>
      simp only [collectCalls, callSites, iha, ihb, List.mem_append]
      exact or_left_comm.trans or_assoc.symm
  | loop _ body ih | guard _ body ih | dynCall _ _ _ _ body ih => exact ih found
  | call _ called _ _ store ih =>
      simp only [collectCalls, callSites, ih, NameSet.mem_insert, List.mem_cons]
      exact or_left_comm.trans or_assoc.symm
  | _ => simp [collectCalls, callSites]

/-- The set of called procedures holds exactly those of the call nodes. -/
theorem mem_calls {stmt : Stmt} {proc : Name}
    : proc ∈ stmt.calls.elems ↔ proc ∈ stmt.callSites := by
  simp [calls, mem_collectCalls, NameSet.empty]

end Stmt

end Monadize
