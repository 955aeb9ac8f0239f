import Monadize.Environment
import Monadize.Proofs.Semantics.Interpretation

/-! What statements do: a big-step semantics with normal, abrupt, faulty and stuck outcomes, and the
states from which every execution comes to an end.
-/

namespace Monadize

/-- How the execution of a statement ends. -/
inductive Outcome (σ : Type*) where
  | normal (state : σ)
  /-- An exception was thrown and not caught. -/
  | abrupt (state : σ)
  /-- A guard did not hold. -/
  | fault
  /-- There was no way to go on. -/
  | stuck

namespace Outcome

variable {σ : Type*}

def IsNormal (o : Outcome σ) : Prop := ∃ s, o = .normal s

def IsAbrupt (o : Outcome σ) : Prop := ∃ s, o = .abrupt s

/-- Neither a fault nor stuck. -/
def IsProper (o : Outcome σ) : Prop := o.IsNormal ∨ o.IsAbrupt

end Outcome

namespace Stmt

variable {σ ν : Type*}

/-- From the state the statement may end with the outcome, its variables standing for what the
valuation says. A call runs the body of the procedure outside of all binders, restores the caller's
state, and stores the result under the two binders; an exception of the callee goes on in the
caller's state.
-/
inductive Exec (I : Interpretation σ ν) (env : Environment)
    : ν → Stmt → σ → Outcome σ → Prop
  | skip {ρ s} : Exec I env ρ .skip s (.normal s)
  | throw {ρ s} : Exec I env ρ .throw s (.abrupt s)
  | assign {ρ f s} : Exec I env ρ (.assign f) s (.normal (I.update ρ f s))
  | localInit {ρ f s t} (allowed : I.init ρ f s t) : Exec I env ρ (.localInit f) s (.normal t)
  | localInitStuck {ρ f s} (none : ∀ t, ¬ I.init ρ f s t) : Exec I env ρ (.localInit f) s .stuck
  | spec {ρ rel s t} (allowed : I.relation ρ rel s t) : Exec I env ρ (.spec rel) s (.normal t)
  | specStuck {ρ rel s} (none : ∀ t, ¬ I.relation ρ rel s t) : Exec I env ρ (.spec rel) s .stuck
  | guardedSpec {ρ set rel s t} (inside : I.mem ρ set s) (allowed : I.relation ρ rel s t)
    : Exec I env ρ (.guardedSpec set rel) s (.normal t)
  | guardedSpecStuck {ρ set rel s} (inside : I.mem ρ set s) (none : ∀ t, ¬ I.relation ρ rel s t)
    : Exec I env ρ (.guardedSpec set rel) s .stuck
  | guardedSpecFault {ρ set rel s} (outside : ¬ I.mem ρ set s)
    : Exec I env ρ (.guardedSpec set rel) s .fault
  | seq {ρ a b s t o} (first : Exec I env ρ a s (.normal t)) (second : Exec I env ρ b t o)
    : Exec I env ρ (.seq a b) s o
  | seqEnd {ρ a b s o} (first : Exec I env ρ a s o) (ended : ¬ o.IsNormal)
    : Exec I env ρ (.seq a b) s o
  | tryCatch {ρ a b s t o} (body : Exec I env ρ a s (.abrupt t)) (handler : Exec I env ρ b t o)
    : Exec I env ρ (.tryCatch a b) s o
  | tryCatchEnd {ρ a b s o} (body : Exec I env ρ a s o) (ended : ¬ o.IsAbrupt)
    : Exec I env ρ (.tryCatch a b) s o
  | condTrue {ρ set a b s o} (inside : I.mem ρ set s) (left : Exec I env ρ a s o)
    : Exec I env ρ (.cond set a b) s o
  | condFalse {ρ set a b s o} (outside : ¬ I.mem ρ set s) (right : Exec I env ρ b s o)
    : Exec I env ρ (.cond set a b) s o
  | loopDone {ρ set a s} (outside : ¬ I.mem ρ set s) : Exec I env ρ (.loop set a) s (.normal s)
  | loopRound {ρ set a s t o} (inside : I.mem ρ set s) (body : Exec I env ρ a s (.normal t))
    (rest : Exec I env ρ (.loop set a) t o)
    : Exec I env ρ (.loop set a) s o
  | loopEnd {ρ set a s o} (inside : I.mem ρ set s) (body : Exec I env ρ a s o)
    (ended : ¬ o.IsNormal)
    : Exec I env ρ (.loop set a) s o
  | guard {ρ set a s o} (inside : I.mem ρ set s) (body : Exec I env ρ a s o)
    : Exec I env ρ (.guard set a) s o
  | guardFault {ρ set a s} (outside : ¬ I.mem ρ set s) : Exec I env ρ (.guard set a) s .fault
  | call {ρ setup proc cleanup final caller store body s t o} (found : env.body? proc = some body)
    (run : Exec I env I.globals body (I.update ρ setup s) (.normal t))
    (stored : Exec I env (I.bind (I.bind ρ final t) caller s) store (I.cleanup ρ cleanup s t) o)
    : Exec I env ρ (.call setup proc cleanup [final, caller] store) s o
  | callAbrupt {ρ setup proc cleanup binders store body s t} (found : env.body? proc = some body)
    (run : Exec I env I.globals body (I.update ρ setup s) (.abrupt t))
    : Exec I env ρ (.call setup proc cleanup binders store) s (.abrupt (I.cleanup ρ cleanup s t))
  | callEnd {ρ setup proc cleanup binders store body s o} (found : env.body? proc = some body)
    (run : Exec I env I.globals body (I.update ρ setup s) o) (ended : ¬ o.IsProper)
    : Exec I env ρ (.call setup proc cleanup binders store) s o
  | callUndefined {ρ setup proc cleanup binders store s} (missing : env.body? proc = none)
    : Exec I env ρ (.call setup proc cleanup binders store) s .stuck
  | callMisbound {ρ setup proc cleanup binders store body s t} (found : env.body? proc = some body)
    (run : Exec I env I.globals body (I.update ρ setup s) (.normal t))
    (misbound : binders.length ≠ 2)
    : Exec I env ρ (.call setup proc cleanup binders store) s .stuck
  | dynCall {ρ setup target cleanup binders store s o}
    (run : Exec I env ρ (.call setup (I.target ρ target s) cleanup binders store) s o)
    : Exec I env ρ (.dynCall setup target cleanup binders store) s o

/-- Every execution from the state comes to an end. -/
inductive Terminates (I : Interpretation σ ν) (env : Environment) : ν → Stmt → σ → Prop
  | skip {ρ s} : Terminates I env ρ .skip s
  | throw {ρ s} : Terminates I env ρ .throw s
  | assign {ρ f s} : Terminates I env ρ (.assign f) s
  | localInit {ρ f s} : Terminates I env ρ (.localInit f) s
  | spec {ρ rel s} : Terminates I env ρ (.spec rel) s
  | guardedSpec {ρ set rel s} : Terminates I env ρ (.guardedSpec set rel) s
  | seq {ρ a b s} (first : Terminates I env ρ a s)
    (second : ∀ t, Exec I env ρ a s (.normal t) → Terminates I env ρ b t)
    : Terminates I env ρ (.seq a b) s
  | tryCatch {ρ a b s} (body : Terminates I env ρ a s)
    (handler : ∀ t, Exec I env ρ a s (.abrupt t) → Terminates I env ρ b t)
    : Terminates I env ρ (.tryCatch a b) s
  | condTrue {ρ set a b s} (inside : I.mem ρ set s) (left : Terminates I env ρ a s)
    : Terminates I env ρ (.cond set a b) s
  | condFalse {ρ set a b s} (outside : ¬ I.mem ρ set s) (right : Terminates I env ρ b s)
    : Terminates I env ρ (.cond set a b) s
  | loopDone {ρ set a s} (outside : ¬ I.mem ρ set s) : Terminates I env ρ (.loop set a) s
  | loopRound {ρ set a s} (inside : I.mem ρ set s) (body : Terminates I env ρ a s)
    (rest : ∀ t, Exec I env ρ a s (.normal t) → Terminates I env ρ (.loop set a) t)
    : Terminates I env ρ (.loop set a) s
  | guard {ρ set a s} (inside : I.mem ρ set s) (body : Terminates I env ρ a s)
    : Terminates I env ρ (.guard set a) s
  | guardFault {ρ set a s} (outside : ¬ I.mem ρ set s) : Terminates I env ρ (.guard set a) s
  | call {ρ setup proc cleanup binders store body s} (found : env.body? proc = some body)
    (run : Terminates I env I.globals body (I.update ρ setup s))
    (stored : ∀ t final caller,
      binders = [final, caller]
      → Exec I env I.globals body (I.update ρ setup s) (.normal t)
      → Terminates I env (I.bind (I.bind ρ final t) caller s) store (I.cleanup ρ cleanup s t))
    : Terminates I env ρ (.call setup proc cleanup binders store) s
  | callUndefined {ρ setup proc cleanup binders store s} (missing : env.body? proc = none)
    : Terminates I env ρ (.call setup proc cleanup binders store) s
  | dynCall {ρ setup target cleanup binders store s}
    (run : Terminates I env ρ (.call setup (I.target ρ target s) cleanup binders store) s)
    : Terminates I env ρ (.dynCall setup target cleanup binders store) s

end Stmt

/-- What can happen from each state, and from which states it comes to an end. -/
structure Behaviour (σ : Type*) where
  outcome : σ → Outcome σ → Prop
  terminates : σ → Prop

variable {σ ν : Type*}

/-- The behaviour of a statement under a valuation. -/
def Stmt.behaviour (I : Interpretation σ ν) (env : Environment) (ρ : ν) (stmt : Stmt)
    : Behaviour σ where
  outcome := stmt.Exec I env ρ
  terminates := stmt.Terminates I env ρ

/-- The behaviour of a call of the procedure: that of its body, or to be stuck without one. -/
def Environment.behaviour (env : Environment) (I : Interpretation σ ν) (proc : Name)
    : Behaviour σ :=
  match env.body? proc with
  | some body => body.behaviour I env I.globals
  | none => ⟨fun _ o => o = .stuck, fun _ => True⟩

theorem Environment.behaviour_of_body? {env : Environment} (I : Interpretation σ ν) {proc : Name}
    {body : Stmt} (found : env.body? proc = some body)
    : env.behaviour I proc = body.behaviour I env I.globals := by
  simp [behaviour, found]

theorem Environment.behaviour_of_missing {env : Environment} (I : Interpretation σ ν) {proc : Name}
    (missing : env.body? proc = none)
    : env.behaviour I proc = ⟨fun _ o => o = .stuck, fun _ => True⟩ := by
  simp [behaviour, missing]

end Monadize
