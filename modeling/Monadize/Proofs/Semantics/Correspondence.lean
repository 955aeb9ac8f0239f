import Monadize.Proofs.Semantics.Execution

/-! When a computation corresponds to a behaviour: where it cannot fail, it allows all that can
happen. There is one rule for each pair of a monadic operation and a form of statement.
-/

namespace Monadize

variable {σ ν : Type*}

/-- The computation allows the outcome. It allows neither faults nor being stuck. -/
def Computation.Allows (a : Computation σ) (s : σ) : Outcome σ → Prop
  | .normal t => a.ends s (.normal t)
  | .abrupt t => a.ends s (.exception t)
  | .fault => False
  | .stuck => False

/-- From every state where the computation cannot fail, it allows every outcome of the behaviour,
which also comes to an end if that is asked for.
-/
structure Corresponds (total : Bool) (a : Computation σ) (b : Behaviour σ) : Prop where
  allows : ∀ s o, ¬ a.fails s → b.outcome s o → a.Allows s o
  terminates : total = true → ∀ s, ¬ a.fails s → b.terminates s

namespace Computation

theorem Allows.isProper {a : Computation σ} {s : σ} {o : Outcome σ} (h : a.Allows s o)
    : o.IsProper := by
  cases o with
  | normal t => exact Or.inl ⟨t, rfl⟩
  | abrupt t => exact Or.inr ⟨t, rfl⟩
  | fault | stuck => exact h.elim

theorem Allows.seq {a b : Computation σ} {s t : σ} {o : Outcome σ} (first : a.ends s (.normal t))
    (second : b.Allows t o)
    : (a.seq b).Allows s o := by
  cases o with
  | normal u | abrupt u => exact Or.inl ⟨t, first, second⟩
  | fault | stuck => exact second

theorem Allows.seqEnd {a : Computation σ} (b : Computation σ) {s : σ} {o : Outcome σ}
    (first : a.Allows s o) (ended : ¬ o.IsNormal)
    : (a.seq b).Allows s o := by
  cases o with
  | normal u => exact absurd ⟨u, rfl⟩ ended
  | abrupt u => exact Or.inr ⟨u, rfl, first⟩
  | fault | stuck => exact first

theorem Allows.tryCatch {a b : Computation σ} {s t : σ} {o : Outcome σ}
    (body : a.ends s (.exception t)) (handler : b.Allows t o)
    : (a.tryCatch b).Allows s o := by
  cases o with
  | normal u | abrupt u => exact Or.inr ⟨t, body, handler⟩
  | fault | stuck => exact handler

theorem Allows.tryCatchEnd {a : Computation σ} (b : Computation σ) {s : σ} {o : Outcome σ}
    (body : a.Allows s o) (ended : ¬ o.IsAbrupt)
    : (a.tryCatch b).Allows s o := by
  cases o with
  | normal u => exact Or.inl ⟨u, rfl, body⟩
  | abrupt u => exact absurd ⟨u, rfl⟩ ended
  | fault | stuck => exact body

theorem Allows.conditionTrue {p : σ → Prop} {a : Computation σ} (b : Computation σ) {s : σ}
    {o : Outcome σ} (holds : p s) (left : a.Allows s o)
    : (condition p a b).Allows s o := by
  cases o with
  | normal u | abrupt u => exact Or.inl ⟨holds, left⟩
  | fault | stuck => exact left

theorem Allows.conditionFalse {p : σ → Prop} (a : Computation σ) {b : Computation σ} {s : σ}
    {o : Outcome σ} (fails : ¬ p s) (right : b.Allows s o)
    : (condition p a b).Allows s o := by
  cases o with
  | normal u | abrupt u => exact Or.inr ⟨fails, right⟩
  | fault | stuck => exact right

theorem Allows.loopRound {p : σ → Prop} {a : Computation σ} {s t : σ} {o : Outcome σ} (enter : p s)
    (body : a.ends s (.normal t)) (rest : (loop p a).Allows t o)
    : (loop p a).Allows s o := by
  cases o with
  | normal u | abrupt u => exact LoopEnds.round enter body rest
  | fault | stuck => exact rest

theorem Allows.loopEnd {p : σ → Prop} {a : Computation σ} {s : σ} {o : Outcome σ} (enter : p s)
    (body : a.Allows s o) (ended : ¬ o.IsNormal)
    : (loop p a).Allows s o := by
  cases o with
  | normal u => exact absurd ⟨u, rfl⟩ ended
  | abrupt u => exact LoopEnds.leave enter body
  | fault | stuck => exact body

/-- A loop that is safe and is entered does not fail in its first round, and is safe after it. -/
theorem LoopSafe.enter {p : σ → Prop} {a : Computation σ} {s : σ} (safe : LoopSafe p a s)
    (enter : p s)
    : ¬ a.fails s ∧ ∀ t, a.ends s (.normal t) → LoopSafe p a t := by
  cases safe with
  | done exit => exact absurd enter exit
  | round _ body rest => exact ⟨body, rest⟩

end Computation

namespace Corresponds

variable {I : Interpretation σ ν} {env : Environment} {ρ : ν} {total : Bool}

/-- Whatever can fail everywhere corresponds to everything. -/
theorem fail (b : Behaviour σ) : Corresponds total .fail b where
  allows _ _ safe := absurd trivial safe
  terminates _ _ safe := absurd trivial safe

theorem skip : Corresponds total .skip (Stmt.skip.behaviour I env ρ) where
  allows s o _ run := by
    cases run
    rfl
  terminates _ _ _ := .skip

theorem throw : Corresponds total .throw (Stmt.throw.behaviour I env ρ) where
  allows s o _ run := by
    cases run
    rfl
  terminates _ _ _ := .throw

theorem modify (f : Expr)
    : Corresponds total (.modify (I.update ρ f)) ((Stmt.assign f).behaviour I env ρ) where
  allows s o _ run := by
    cases run
    rfl
  terminates _ _ _ := .assign

theorem init (f : Expr)
    : Corresponds total (.choose (I.init ρ f)) ((Stmt.localInit f).behaviour I env ρ) where
  allows s o safe run := by
    cases run with
    | localInit allowed => exact ⟨_, allowed, rfl⟩
    | localInitStuck none => exact safe none
  terminates _ _ _ := .localInit

theorem spec (rel : Expr)
    : Corresponds total (.choose (I.relation ρ rel)) ((Stmt.spec rel).behaviour I env ρ) where
  allows s o safe run := by
    cases run with
    | spec allowed => exact ⟨_, allowed, rfl⟩
    | specStuck none => exact safe none
  terminates _ _ _ := .spec

theorem seq {a b : Computation σ} {c d : Stmt} (first : Corresponds total a (c.behaviour I env ρ))
    (second : Corresponds total b (d.behaviour I env ρ))
    : Corresponds total (a.seq b) ((Stmt.seq c d).behaviour I env ρ) where
  allows s o safe run := by
    obtain ⟨safeFirst, safeSecond⟩ := not_or.mp safe
    cases run with
    | @seq _ _ _ _ t _ runFirst runSecond =>
        have ended : a.ends s (.normal t) := first.allows s _ safeFirst runFirst
        have safeRest : ¬ b.fails t := fun failing => safeSecond ⟨t, ended, failing⟩
        exact .seq ended (second.allows t o safeRest runSecond)
    | seqEnd runFirst ended => exact .seqEnd b (first.allows s o safeFirst runFirst) ended
  terminates strict s safe := by
    obtain ⟨safeFirst, safeSecond⟩ := not_or.mp safe
    refine .seq (first.terminates strict s safeFirst) ?_
    intro t runFirst
    have ended : a.ends s (.normal t) := first.allows s _ safeFirst runFirst
    exact second.terminates strict t fun failing => safeSecond ⟨t, ended, failing⟩

theorem tryCatch {a b : Computation σ} {c d : Stmt}
    (body : Corresponds total a (c.behaviour I env ρ))
    (handler : Corresponds total b (d.behaviour I env ρ))
    : Corresponds total (a.tryCatch b) ((Stmt.tryCatch c d).behaviour I env ρ) where
  allows s o safe run := by
    obtain ⟨safeBody, safeHandler⟩ := not_or.mp safe
    cases run with
    | @tryCatch _ _ _ _ t _ runBody runHandler =>
        have thrown : a.ends s (.exception t) := body.allows s _ safeBody runBody
        have safeRest : ¬ b.fails t := fun failing => safeHandler ⟨t, thrown, failing⟩
        exact .tryCatch thrown (handler.allows t o safeRest runHandler)
    | tryCatchEnd runBody ended => exact .tryCatchEnd b (body.allows s o safeBody runBody) ended
  terminates strict s safe := by
    obtain ⟨safeBody, safeHandler⟩ := not_or.mp safe
    refine .tryCatch (body.terminates strict s safeBody) ?_
    intro t runBody
    have thrown : a.ends s (.exception t) := body.allows s _ safeBody runBody
    exact handler.terminates strict t fun failing => safeHandler ⟨t, thrown, failing⟩

theorem condition {p : σ → Prop} {set : Expr} (reads : ∀ s, p s ↔ I.mem ρ set s)
    {a b : Computation σ} {c d : Stmt} (left : Corresponds total a (c.behaviour I env ρ))
    (right : Corresponds total b (d.behaviour I env ρ))
    : Corresponds total (.condition p a b) ((Stmt.cond set c d).behaviour I env ρ) where
  allows s o safe run := by
    obtain ⟨safeLeft, safeRight⟩ := not_or.mp safe
    cases run with
    | condTrue inside runLeft =>
        have holds := (reads s).mpr inside
        exact .conditionTrue b holds
          (left.allows s o (fun failing => safeLeft ⟨holds, failing⟩) runLeft)
    | condFalse outside runRight =>
        have fails := mt (reads s).mp outside
        exact .conditionFalse a fails
          (right.allows s o (fun failing => safeRight ⟨fails, failing⟩) runRight)
  terminates strict s safe := by
    obtain ⟨safeLeft, safeRight⟩ := not_or.mp safe
    by_cases holds : p s
    · exact .condTrue ((reads s).mp holds)
        (left.terminates strict s fun failing => safeLeft ⟨holds, failing⟩)
    · exact .condFalse (mt (reads s).mpr holds)
        (right.terminates strict s fun failing => safeRight ⟨holds, failing⟩)

/-- Each round corresponds, so the loops do: outcomes by induction on the execution, the end by
induction on the safety of the loop.
-/
theorem loop {p : σ → Prop} {set : Expr} (reads : ∀ s, p s ↔ I.mem ρ set s) {a : Computation σ}
    {c : Stmt} (body : Corresponds total a (c.behaviour I env ρ))
    : Corresponds total (.loop p a) ((Stmt.loop set c).behaviour I env ρ) where
  allows s o safe run := by
    replace safe : Computation.LoopSafe p a s := not_not.mp safe
    change (Stmt.loop set c).Exec I env ρ s o at run
    generalize whole : Stmt.loop set c = stmt at run
    induction run with
    | loopDone outside =>
        cases whole
        exact Computation.LoopEnds.done (mt (reads _).mp outside)
    | @loopRound _ _ _ s t _ inside runBody _ _ ih =>
        cases whole
        have enter := (reads s).mpr inside
        obtain ⟨safeBody, safeRest⟩ := safe.enter enter
        have ended : a.ends s (.normal t) := body.allows s _ safeBody runBody
        exact .loopRound enter ended (ih reads body (safeRest t ended) rfl)
    | @loopEnd _ _ _ s o inside runBody ended _ =>
        cases whole
        have enter := (reads s).mpr inside
        exact .loopEnd enter (body.allows s o (safe.enter enter).1 runBody) ended
    | _ => cases whole
  terminates strict s safe := by
    replace safe : Computation.LoopSafe p a s := not_not.mp safe
    induction safe with
    | done exit => exact .loopDone (mt (reads _).mpr exit)
    | @round s enter safeBody _ ih =>
        refine .loopRound ((reads s).mp enter) (body.terminates strict s safeBody) ?_
        intro t runBody
        have ended : a.ends s (.normal t) := body.allows s _ safeBody runBody
        exact ih t ended

theorem guard {p : σ → Prop} {set : Expr} (reads : ∀ s, p s ↔ I.mem ρ set s) {a : Computation σ}
    {c : Stmt} (body : Corresponds total a (c.behaviour I env ρ))
    : Corresponds total ((Computation.guard p).seq a) ((Stmt.guard set c).behaviour I env ρ) where
  allows s o safe run := by
    obtain ⟨safeGuard, safeBody⟩ := not_or.mp safe
    have holds : p s := not_not.mp safeGuard
    have passed : (Computation.guard p).ends s (.normal s) := ⟨holds, rfl⟩
    cases run with
    | guard _ runBody =>
        have safeRest : ¬ a.fails s := fun failing => safeBody ⟨s, passed, failing⟩
        exact .seq passed (body.allows s o safeRest runBody)
    | guardFault outside => exact outside ((reads s).mp holds)
  terminates strict s safe := by
    obtain ⟨safeGuard, safeBody⟩ := not_or.mp safe
    have holds : p s := not_not.mp safeGuard
    refine .guard ((reads s).mp holds) (body.terminates strict s ?_)
    intro failing
    exact safeBody ⟨s, ⟨holds, rfl⟩, failing⟩

/-- A guarded relation is a guard around the relation. -/
theorem guardedSpec {p : σ → Prop} {set : Expr} (reads : ∀ s, p s ↔ I.mem ρ set s) (rel : Expr)
    : Corresponds total ((Computation.guard p).seq (.choose (I.relation ρ rel)))
        ((Stmt.guardedSpec set rel).behaviour I env ρ) where
  allows s o safe run := by
    have whole : Corresponds total _ ((Stmt.guard set (.spec rel)).behaviour I env ρ) :=
      guard reads (spec rel)
    apply whole.allows s o safe
    cases run with
    | guardedSpec inside allowed => exact .guard inside (.spec allowed)
    | guardedSpecStuck inside none => exact .guard inside (.specStuck none)
    | guardedSpecFault outside => exact .guardFault outside
  terminates _ _ _ := .guardedSpec

/-- A call corresponds to a call of the procedure if the callee does and the result is stored in the
same way. An exception of the callee is a failure of the call, so that there is nothing to show.
-/
theorem call {callee : Computation σ} {proc : Name}
    (called : Corresponds total callee (env.behaviour I proc)) (setup cleanup : Expr)
    {result : σ → σ → σ → σ} {final caller : Name} {update : Expr}
    (stores : ∀ t s u, result t s u = I.update (I.bind (I.bind ρ final t) caller s) update u)
    : Corresponds total (.call (I.update ρ setup) callee (I.cleanup ρ cleanup) result)
        ((Stmt.call setup proc cleanup [final, caller] (.assign update)).behaviour I env ρ) where
  allows s o safe run := by
    obtain ⟨safeCallee, quiet⟩ := not_or.mp safe
    have allowed := fun o => called.allows (I.update ρ setup s) o safeCallee
    cases run with
    | @call _ _ _ _ _ _ _ _ _ t _ found runBody stored =>
        rw [env.behaviour_of_body? I found] at allowed
        cases stored
        exact ⟨t, allowed _ runBody, congrArg Ending.normal (stores t s _).symm⟩
    | @callAbrupt _ _ _ _ _ _ _ _ t found runBody =>
        rw [env.behaviour_of_body? I found] at allowed
        exact (quiet ⟨t, allowed _ runBody⟩).elim
    | callEnd found runBody ended =>
        rw [env.behaviour_of_body? I found] at allowed
        exact absurd (allowed _ runBody).isProper ended
    | callUndefined missing =>
        rw [env.behaviour_of_missing I missing] at allowed
        exact allowed .stuck rfl
    | callMisbound _ _ misbound => exact absurd rfl misbound
  terminates strict s safe := by
    have ends := called.terminates strict (I.update ρ setup s) (not_or.mp safe).1
    cases found : env.body? proc with
    | none => exact .callUndefined found
    | some body =>
        rw [env.behaviour_of_body? I found] at ends
        exact .call found ends fun _ _ _ _ _ => .assign

/-- What corresponds at every measure also does at the measure that is best. -/
theorem managed {f : Nat → Computation σ} {b : Behaviour σ} (each : ∀ m, Corresponds total (f m) b)
    : Corresponds total (.managed f) b where
  allows s o safe run := by
    obtain ⟨m, safe⟩ := not_forall.mp safe
    have allowed := (each m).allows s o safe run
    cases o with
    | normal t | abrupt t => exact ⟨m, allowed⟩
    | fault | stuck => exact allowed
  terminates strict s safe := by
    obtain ⟨m, safe⟩ := not_forall.mp safe
    exact (each m).terminates strict s safe

/-- A guard fails at measure zero, so that nothing is to be shown there. -/
theorem recGuard {measure : Nat} {a : Computation σ} {b : Behaviour σ}
    (positive : measure ≠ 0 → Corresponds total a b)
    : Corresponds total (.recGuard measure a) b := by
  by_cases zero : measure = 0
  · rw [Computation.recGuard, if_pos zero]
    exact .fail b
  · rw [Computation.recGuard, if_neg zero]
    exact positive zero

end Corresponds

end Monadize
