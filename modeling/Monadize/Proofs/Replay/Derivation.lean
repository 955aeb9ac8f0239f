import Monadize.Proof.Check
import Monadize.Proofs.Except
import Monadize.Proofs.FiniteMap
import Monadize.Proofs.Stmt.Calls

/-! What it takes for a recipe to be replayed: one rule for each form of statement. Every statement
about replaying is proved by induction over these rules, and the checker is not opened again.
-/

namespace Monadize

namespace Replay

/-- The recipe proves that the term corresponds to the statement, by the hypotheses `uses` in this
order.
-/
inductive Derives (replay : Replay) : Term → Stmt → Recipe → Uses → Prop
  | skip : Derives replay .skip .skip (.leaf .skip) []
  | throw : Derives replay .throw .throw (.leaf .throw) []
  | seq {a b c d p q u v} (first : Derives replay a c p u) (second : Derives replay b d q v)
    : Derives replay (.seq a b) (.seq c d) (.apply .seq [p, q]) (u ++ v)
  | tryCatch {a b c d p q u v} (body : Derives replay a c p u) (handler : Derives replay b d q v)
    : Derives replay (.tryCatch a b) (.tryCatch c d) (.apply .tryCatch [p, q]) (u ++ v)
  | modify (f : Expr) : Derives replay (.modify f) (.assign f) (.leaf .modify) []
  | init (f : Expr) : Derives replay (.init f) (.localInit f) (.leaf .init) []
  | spec (rel : Expr) : Derives replay (.spec rel) (.spec rel) (.leaf .spec) []
  | condition {a b c d p q u v} {pred set : Expr}
    (chars : pred = Expr.predOfSet replay.world set)
    (left : Derives replay a c p u) (right : Derives replay b d q v)
    : Derives replay (.condition pred a b) (.cond set c d) (.apply .condition [p, q]) (u ++ v)
  | loop {a c p u} {pred set : Expr} (chars : pred = Expr.predOfSet replay.world set)
    (body : Derives replay a c p u)
    : Derives replay (.loop pred a) (.loop set c) (.apply .loop [p]) u
  | guard {a c p u} {pred set : Expr} (chars : pred = Expr.predOfSet replay.world set)
    (body : Derives replay a c p u)
    : Derives replay (.seq (.guard pred) a) (.guard set c) (.apply .guard [p]) u
  | guardedSpec {pred set : Expr} (rel : Expr) (chars : pred = Expr.predOfSet replay.world set)
    : Derives replay (.seq (.guard pred) (.spec rel)) (.guardedSpec set rel) (.leaf .guardedSpec) []
  | undefinedCall (setup : Expr) (proc : Name) (cleanup : Expr) (binders : List Name) (store : Stmt)
    : Derives replay .fail (.call setup proc cleanup binders store) (.leaf .callUndefined) []
  | call {p : PlaceholderId} {hyp : Hyp} {rule : Lemma} {measure : MeasureArg} {result : Expr}
    (setup cleanup : Expr) (final caller : Name) (update : Expr)
    (found : replay.hyps[p]? = some hyp)
    (threaded : replay.threads rule measure hyp.recursive = true)
    (handler : result = Expr.resultHandler replay.world final caller update)
    : Derives replay (.call setup ⟨.placeholder p, measure⟩ cleanup result)
        (.call setup hyp.proc cleanup [final, caller] (.assign update))
        (.apply rule [.hyp p]) [(p, hyp)]

-----------------------------------------------------------------------------------------
-- The single checks
-----------------------------------------------------------------------------------------

theorem closed_eq_ok {rule : Lemma} {subs : List Recipe} {uses : Uses}
    (h : closed rule subs = .ok uses)
    : subs = [] ∧ uses = [] := by
  cases subs with
  | nil => exact ⟨rfl, (Except.ok.inj h).symm⟩
  | cons _ _ => cases h

theorem requirePred_eq_ok {replay : Replay} {rule : Lemma} {pred set : Expr}
    (h : replay.requirePred rule pred set = .ok ())
    : pred = Expr.predOfSet replay.world set := by
  unfold requirePred at h
  split at h
  · next same => exact same
  · cases h

theorem requireEqual_eq_ok {rule : Lemma} {cause : ProofError.Cause} {a b : Expr}
    (h : requireEqual rule cause a b = .ok ())
    : a = b := by
  unfold requireEqual at h
  split at h
  · next same => exact same
  · cases h

/-- An accepted call is on the placeholder of a hypothesis about the called procedure, and passes
the measure as the lemma wants it.
-/
theorem checkCall_eq_ok {replay : Replay} {rule : Lemma} {callee : Callee} {proc : Name}
    {subs : List Recipe} {uses : Uses} (h : replay.checkCall rule callee proc subs = .ok uses)
    : ∃ p hyp, subs = [.hyp p] ∧ callee.target = .placeholder p ∧ replay.hyps[p]? = some hyp
        ∧ hyp.proc = proc ∧ replay.threads rule callee.measure hyp.recursive = true
        ∧ uses = [(p, hyp)] := by
  unfold checkCall at h
  split at h
  · next p =>
      split at h
      · cases h
      · next target =>
          split at h
          · cases h
          · next hyp found =>
              split at h
              · cases h
              · next same =>
                  split at h
                  · next threaded =>
                      exact ⟨p, hyp, rfl, Decidable.not_not.mp target, found,
                        Decidable.not_not.mp same, threaded, (Except.ok.inj h).symm⟩
                  · cases h
  · cases h

/-- Only two lemmas let a measure be passed. -/
theorem threads_rule {replay : Replay} {rule : Lemma} {measure : MeasureArg} {recursive : Bool}
    (threaded : replay.threads rule measure recursive = true)
    : rule = .callExternal ∨ rule = .callRecursive := by
  unfold threads at threaded
  split at threaded
  · exact Or.inl rfl
  · exact Or.inr rfl
  · exact Or.inr rfl
  · cases threaded

-----------------------------------------------------------------------------------------
-- Replaying is deriving
-----------------------------------------------------------------------------------------

/-- A derivation is replayed without complaint, by induction on it. -/
theorem Derives.check_eq_ok {replay : Replay} {term : Term} {stmt : Stmt} {recipe : Recipe}
    {uses : Uses} (h : Derives replay term stmt recipe uses)
    : replay.check term stmt recipe = .ok uses := by
  induction h with
  | skip | throw | undefinedCall => rfl
  | modify | init | spec => simp [Replay.check, Recipe.leaf, requireEqual, closed, bind_eq_ok_iff]
  | seq _ _ ihp ihq | tryCatch _ _ ihp ihq =>
      simp only [Replay.check, bind_eq_ok_iff]
      exact ⟨_, ihp, _, ihq, rfl⟩
  | condition chars _ _ ihp ihq =>
      simp only [Replay.check, requirePred, if_pos chars, bind_eq_ok_iff]
      exact ⟨(), trivial, _, ihp, _, ihq, rfl⟩
  | loop chars _ ih | guard chars _ ih =>
      simp only [Replay.check, requirePred, if_pos chars, bind_eq_ok_iff]
      exact ⟨(), trivial, ih⟩
  | guardedSpec rel chars =>
      simp [Replay.check, Recipe.leaf, requirePred, chars, requireEqual, closed, bind_eq_ok_iff]
  | call setup cleanup final caller update found threaded handler =>
      rcases threads_rule threaded with rfl | rfl <;>
        simp [Replay.check, ResultStore.plain?, handler, checkCall, found, threaded]

/-- What is replayed without complaint is derived, by induction along the checker. -/
theorem derives_of_check {replay : Replay} {term : Term} {stmt : Stmt} {recipe : Recipe}
    {uses : Uses} (h : replay.check term stmt recipe = .ok uses)
    : Derives replay term stmt recipe uses := by
  fun_induction Replay.check replay term stmt recipe generalizing uses with
  | case1 => cases h
  | case2 =>
      obtain ⟨rfl, rfl⟩ := closed_eq_ok h
      exact .skip
  | case3 =>
      obtain ⟨rfl, rfl⟩ := closed_eq_ok h
      exact .throw
  | case4 a b c d p q ihp ihq =>
      obtain ⟨u, hu, v, hv, same⟩ := by simpa only [bind_eq_ok_iff] using h
      cases same
      exact .seq (ihp hu) (ihq hv)
  | case6 a b c d p q ihp ihq =>
      obtain ⟨u, hu, v, hv, same⟩ := by simpa only [bind_eq_ok_iff] using h
      cases same
      exact .tryCatch (ihp hu) (ihq hv)
  | case8 =>
      obtain ⟨_, equal, none⟩ := bind_eq_ok_iff.mp h
      obtain ⟨rfl, rfl⟩ := closed_eq_ok none
      exact requireEqual_eq_ok equal ▸ .modify _
  | case9 =>
      obtain ⟨_, equal, none⟩ := bind_eq_ok_iff.mp h
      obtain ⟨rfl, rfl⟩ := closed_eq_ok none
      exact requireEqual_eq_ok equal ▸ .init _
  | case10 =>
      obtain ⟨_, equal, none⟩ := bind_eq_ok_iff.mp h
      obtain ⟨rfl, rfl⟩ := closed_eq_ok none
      exact requireEqual_eq_ok equal ▸ .spec _
  | case11 subs pred a b set c d ihp ihq =>
      obtain ⟨_, equal, parts⟩ := bind_eq_ok_iff.mp h
      split at parts
      · next p q =>
          obtain ⟨u, hu, v, hv, same⟩ := by simpa only [bind_eq_ok_iff] using parts
          cases same
          exact .condition (requirePred_eq_ok equal) (ihp p hu) (ihq q hv)
      · cases parts
  | case12 subs pred a set c ih =>
      obtain ⟨_, equal, parts⟩ := bind_eq_ok_iff.mp h
      split at parts
      · next p => exact .loop (requirePred_eq_ok equal) (ih p parts)
      · cases parts
  | case13 subs a set c pred ih =>
      obtain ⟨_, equal, parts⟩ := bind_eq_ok_iff.mp h
      split at parts
      · next p => exact .guard (requirePred_eq_ok equal) (ih p parts)
      · cases parts
  | case15 =>
      obtain ⟨_, equal, rest⟩ := bind_eq_ok_iff.mp h
      obtain ⟨_, same, none⟩ := bind_eq_ok_iff.mp rest
      obtain rfl := requireEqual_eq_ok same
      obtain ⟨rfl, rfl⟩ := closed_eq_ok none
      exact .guardedSpec _ (requirePred_eq_ok equal)
  | case17 =>
      obtain ⟨rfl, rfl⟩ := closed_eq_ok h
      exact .undefinedCall ..
  | case22 subs rule setup callee cleanup result setup' proc cleanup' binders store _ args u plain
      handler =>
      obtain ⟨p, hyp, rfl, target, found, rfl, threaded, rfl⟩ := checkCall_eq_ok h
      obtain ⟨callee, measure⟩ := callee
      obtain ⟨rfl, rfl⟩ : setup = setup' ∧ cleanup = cleanup' := by simpa using args
      obtain ⟨rfl, rfl⟩ := ResultStore.plain?_eq_some plain
      cases target
      exact .call setup cleanup u.final u.caller u.update found threaded
        (Decidable.not_not.mp handler)
  | case5 | case7 | case14 | case16 | case18 | case19 | case20 | case21 | case23 =>
      cases h

/-- Replaying a recipe succeeds with the hypotheses of its derivation, and without one it fails. -/
theorem check_eq_ok_iff {replay : Replay} {term : Term} {stmt : Stmt} {recipe : Recipe}
    {uses : Uses}
    : replay.check term stmt recipe = .ok uses ↔ Derives replay term stmt recipe uses :=
  ⟨derives_of_check, Derives.check_eq_ok⟩

-----------------------------------------------------------------------------------------
-- The hypotheses in use
-----------------------------------------------------------------------------------------

/-- Every hypothesis in use is one that was given. -/
theorem Derives.getElem?_hyps {replay : Replay} {term : Term} {stmt : Stmt} {recipe : Recipe}
    {uses : Uses} (h : replay.Derives term stmt recipe uses)
    : ∀ p hyp, (p, hyp) ∈ uses → replay.hyps[p]? = some hyp := by
  induction h with
  | seq _ _ ihp ihq | tryCatch _ _ ihp ihq | condition _ _ _ ihp ihq =>
      intro p hyp used
      rcases List.mem_append.mp used with left | right
      · exact ihp p hyp left
      · exact ihq p hyp right
  | loop _ _ ih | guard _ _ ih => exact ih
  | call _ _ _ _ _ found =>
      intro p hyp used
      cases List.mem_singleton.mp used
      exact found
  | skip | throw | modify | init | spec | guardedSpec | undefinedCall =>
      intro p hyp used
      cases used

/-- Each placeholder is used with one hypothesis only. -/
theorem Derives.functional_uses {replay : Replay} {term : Term} {stmt : Stmt} {recipe : Recipe}
    {uses : Uses} (h : replay.Derives term stmt recipe uses)
    : FiniteMap.Functional uses := by
  intro p hyp other used usedToo
  have given := h.getElem?_hyps p hyp used
  have givenToo := h.getElem?_hyps p other usedToo
  exact Option.some.inj (given.symm.trans givenToo)

end Replay

/-- A goal is proved by recipe if it is a correspondence and the recipe derives it. The theorem
keeps the hypotheses that were used.
-/
theorem Goal.prove_eq_ok_iff {goal : Goal} {recipe : Recipe} {hyps : List Hyp} {measure : MeasureId}
    {thm : Theorem}
    : goal.prove recipe hyps measure = .ok thm
      ↔ ∃ term stmt uses,
          goal.judgement = .corres term stmt
          ∧ Replay.Derives ⟨goal.env.world, hyps, measure⟩ term stmt recipe uses
          ∧ thm = ⟨goal.total, goal.env, goal.judgement, .ofList uses, some measure⟩ := by
  obtain ⟨total, env, judgement⟩ := goal
  cases judgement with
  | corres term stmt =>
      simp only [prove, bind_eq_ok_iff, Replay.check_eq_ok_iff]
      constructor
      · rintro ⟨uses, derived, same⟩
        cases same
        exact ⟨term, stmt, uses, rfl, derived, rfl⟩
      · rintro ⟨_, _, uses, same, derived, rfl⟩
        cases same
        exact ⟨uses, derived, rfl⟩
  | _ =>
      constructor
      · intro h
        cases h
      · rintro ⟨_, _, _, same, _⟩
        cases same

end Monadize
