import Monadize.Proofs.Replay.Derivation
import Monadize.Proofs.Semantics.Correspondence

/-! Replaying is sound: a term that a recipe proves to correspond to a statement does correspond to
it, wherever the placeholders correspond to calls of the procedures assumed of them.
-/

namespace Monadize

variable {σ ν : Type*}

/-- The characteristic predicate of a set holds exactly on its states. -/
def Interpretation.ReadsSet (I : Interpretation σ ν) (world : Name) (set : Expr) : Prop :=
  ∀ s, I.pred I.globals (Expr.predOfSet world set) s ↔ I.mem I.globals set s

/-- The handler of a result is the update, with both states bound. -/
def Interpretation.ReadsResult (I : Interpretation σ ν) (world final caller : Name) (update : Expr)
    : Prop :=
  ∀ t s u,
    I.result I.globals (Expr.resultHandler world final caller update) t s u
    = I.update (I.bind (I.bind I.globals final t) caller s) update u

/-- The interpretation agrees with what is written for the sets and the results of the statement. -/
def Interpretation.Reads (I : Interpretation σ ν) (world : Name) : Stmt → Prop
  | .seq a b => I.Reads world a ∧ I.Reads world b
  | .tryCatch a b => I.Reads world a ∧ I.Reads world b
  | .cond set a b => I.ReadsSet world set ∧ I.Reads world a ∧ I.Reads world b
  | .loop set body => I.ReadsSet world set ∧ I.Reads world body
  | .guard set body => I.ReadsSet world set ∧ I.Reads world body
  | .guardedSpec set _ => I.ReadsSet world set
  | .call _ _ _ [final, caller] (.assign update) => I.ReadsResult world final caller update
  | _ => True

/-- At every measure, each placeholder with a hypothesis corresponds to a call of its procedure. -/
def Linking.Satisfies (link : Linking σ) (I : Interpretation σ ν) (total : Bool) (env : Environment)
    (hyps : FiniteMap PlaceholderId Hyp)
    : Prop :=
  ∀ p hyp,
    hyps.find? p = some hyp
    → ∀ m, Corresponds total (link.callee (.placeholder p) m) (env.behaviour I hyp.proc)

/-- However the measure is passed, the callee corresponds to what it does at every measure. -/
theorem Callee.corresponds {link : Linking σ} (measures : MeasureId → Nat) {total : Bool}
    {callee : Callee} {b : Behaviour σ}
    (each : ∀ m, Corresponds total (link.callee callee.target m) b)
    : Corresponds total (callee.denote link measures) b := by
  unfold denote
  split
  · exact each _
  · exact .managed each
  · exact each _

namespace Replay

/-- A derived term corresponds to its statement, by induction on the derivation with the rule for
each form of statement.
-/
theorem Derives.corresponds {I : Interpretation σ ν} {link : Linking σ}
    (measures : MeasureId → Nat) {total : Bool} {env : Environment} {replay : Replay} {term : Term}
    {stmt : Stmt} {recipe : Recipe} {uses : Uses} (h : replay.Derives term stmt recipe uses)
    (reads : I.Reads replay.world stmt)
    (satisfied : ∀ p hyp, (p, hyp) ∈ uses
      → ∀ m, Corresponds total (link.callee (.placeholder p) m) (env.behaviour I hyp.proc))
    : Corresponds total (term.denote I link measures) (stmt.behaviour I env I.globals) := by
  induction h with
  | skip => exact .skip
  | throw => exact .throw
  | modify f => exact .modify f
  | init f => exact .init f
  | spec rel => exact .spec rel
  | undefinedCall => exact .fail _
  | seq _ _ ihp ihq =>
      have first := ihp reads.1 fun p hyp used => satisfied p hyp (List.mem_append_left _ used)
      have second := ihq reads.2 fun p hyp used => satisfied p hyp (List.mem_append_right _ used)
      exact .seq first second
  | tryCatch _ _ ihp ihq =>
      have body := ihp reads.1 fun p hyp used => satisfied p hyp (List.mem_append_left _ used)
      have handler := ihq reads.2 fun p hyp used => satisfied p hyp (List.mem_append_right _ used)
      exact .tryCatch body handler
  | condition chars _ _ ihp ihq =>
      obtain ⟨set, readsLeft, readsRight⟩ := reads
      have left := ihp readsLeft fun p hyp used => satisfied p hyp (List.mem_append_left _ used)
      have right := ihq readsRight fun p hyp used => satisfied p hyp (List.mem_append_right _ used)
      exact .condition (chars ▸ set) left right
  | loop chars _ ih => exact .loop (chars ▸ reads.1) (ih reads.2 satisfied)
  | guard chars _ ih => exact .guard (chars ▸ reads.1) (ih reads.2 satisfied)
  | guardedSpec rel chars => exact .guardedSpec (chars ▸ reads) rel
  | call setup cleanup final caller update found threaded handler =>
      have called := satisfied _ _ (List.mem_singleton.mpr rfl)
      exact .call (Callee.corresponds measures called) setup cleanup (handler ▸ reads)

end Replay

/-- A goal that a recipe proves is true wherever the hypotheses of its theorem are. From every state
where the term cannot fail, the statement neither faults nor gets stuck, ends only as the term may
end, and terminates if that is part of the goal. Witness: the derivation, with one semantic rule for
each form of statement.
-/
theorem Goal.exec_of_prove {goal : Goal} {term : Term} {stmt : Stmt} {recipe : Recipe}
    {hyps : List Hyp} {measure : MeasureId} {thm : Theorem}
    (judged : goal.judgement = .corres term stmt)
    (proved : goal.prove recipe hyps measure = .ok thm) (I : Interpretation σ ν)
    (reads : I.Reads goal.env.world stmt) (link : Linking σ)
    (satisfied : link.Satisfies I goal.total goal.env thm.hyps) (measures : MeasureId → Nat) (s : σ)
    (safe : ¬ (term.denote I link measures).fails s)
    : ¬ stmt.Exec I goal.env I.globals s .fault
      ∧ ¬ stmt.Exec I goal.env I.globals s .stuck
      ∧ (∀ t,
        stmt.Exec I goal.env I.globals s (.normal t)
        → (term.denote I link measures).ends s (.normal t))
      ∧ (∀ t,
        stmt.Exec I goal.env I.globals s (.abrupt t)
        → (term.denote I link measures).ends s (.exception t))
      ∧ (goal.total = true → stmt.Terminates I goal.env I.globals s) := by
  obtain ⟨_, _, uses, judgedToo, derived, rfl⟩ := Goal.prove_eq_ok_iff.mp proved
  cases judged.symm.trans judgedToo
  have all : Corresponds goal.total (term.denote I link measures)
      (stmt.behaviour I goal.env I.globals) := by
    refine derived.corresponds measures reads ?_
    intro p hyp used
    exact satisfied p hyp
      ((FiniteMap.find?_ofList_eq_some_iff derived.functional_uses).mpr used)
  have allowed := fun o => all.allows s o safe
  exact ⟨allowed .fault, allowed .stuck, fun t => allowed (.normal t), fun t => allowed (.abrupt t),
    fun total => all.terminates total s safe⟩

/-- Numbers as states: sets hold those below three, a numeral counts up and a variable goes to the
state it stands for.
-/
def Interpretation.belowThree : Interpretation Nat (Name → Nat) where
  globals _ := 0
  bind ρ x s := fun y => if y = x then s else ρ y
  update ρ e s :=
    match e with
    | .num _ => s + 1
    | .var x => ρ x
    | _ => s
  pred _ _ s := s < 3
  mem _ _ s := s < 3
  relation _ _ s t := s ≤ t
  init _ _ s t := s ≤ t
  cleanup _ _ s _ := s
  result ρ e t s _ :=
    match e with
    | .lam final _ (.lam caller _ (.var x)) =>
        if x = caller then s else if x = final then t else ρ x
    | _ => s
  target _ _ _ := ""

/-- A loop that counts by calls of a procedure neither faults nor gets stuck, and ends. -/
theorem Goal.exec_of_prove_counting_loop
    : let env : Environment := ⟨0, "w", .ofList [("count", .assign (.num 1))]⟩
      let stmt : Stmt := .loop .univ (.call .univ "count" .univ ["t", "s"] (.assign (.var "t")))
      ¬ stmt.Exec .belowThree env (fun _ => 0) 0 .fault
      ∧ ¬ stmt.Exec .belowThree env (fun _ => 0) 0 .stuck
      ∧ stmt.Terminates .belowThree env (fun _ => 0) 0 := by
  intro env stmt
  let term : Term := .loop (Expr.predOfSet "w" .univ)
    (.call .univ ⟨.placeholder 0, .unused⟩ .univ (Expr.resultHandler "w" "t" "s" (.var "t")))
  let link : Linking Nat := ⟨fun _ _ => .modify (· + 1), 0⟩
  let round : Computation Nat := .call id (.modify (· + 1)) (fun s _ => s) (fun t _ _ => t)
  have satisfied : link.Satisfies .belowThree true env (.ofList [(0, ⟨"count", false⟩)]) := by
    intro p hyp found m
    have bound := FiniteMap.mem_entries_of_find? found
    cases List.mem_singleton.mp bound
    have counts
        : Corresponds true _ ((Stmt.assign (.num 1)).behaviour .belowThree env fun _ => 0) :=
      .modify (.num 1)
    exact counts
  have next (s : Nat) (below : s < 3) (rest : Computation.LoopSafe (· < 3) round (s + 1))
      : Computation.LoopSafe (· < 3) round s := by
    refine .round below ?_ ?_
    · rintro (failing | ⟨_, thrown⟩)
      · exact failing
      · cases thrown
    · rintro t ⟨u, ended, same⟩
      cases ended
      cases same
      exact rest
  have safe : ¬ (term.denote .belowThree link fun _ => 0).fails 0 := not_not.mpr <|
    next 0 (by decide) (next 1 (by decide) (next 2 (by decide) (.done (by decide))))
  have proved : Goal.prove ⟨true, env, .corres term stmt⟩
      (.apply .loop [.apply .callExternal [.hyp 0]]) [⟨"count", false⟩] 0 = .ok _ := rfl
  have reads : Interpretation.belowThree.Reads env.world stmt :=
    ⟨fun _ => Iff.rfl, fun _ _ _ => rfl⟩
  obtain ⟨noFault, notStuck, _, _, ends⟩ :=
    exec_of_prove rfl proved .belowThree reads link satisfied (fun _ => 0) 0 safe
  exact ⟨noFault, notStuck, ends rfl⟩

end Monadize
