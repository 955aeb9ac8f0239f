import Monadize.Proofs.Replay.Derivation
import Monadize.Proofs.Term.Callees

/-! Replaying leaves no freedom but at calls. The recipe can be read off the term and the statement,
the hypotheses off the callees of the term, and the term off the statement, up to which of its calls
are replaced by failure and how they are made.
-/

namespace Monadize

/-- The lemma for a call that passes the measure like this. -/
def MeasureArg.rule : MeasureArg → Lemma
  | .pred _ => .callRecursive
  | .managed => .callRecursive
  | .unused => .callExternal

namespace Term

/-- The recipe that can prove the term to correspond to the statement, if there is one. -/
def recipe : Term → Stmt → Recipe
  | .seq a b, .seq c d => .apply .seq [a.recipe c, b.recipe d]
  | .tryCatch a b, .tryCatch c d => .apply .tryCatch [a.recipe c, b.recipe d]
  | .condition _ a b, .cond _ c d => .apply .condition [a.recipe c, b.recipe d]
  | .loop _ a, .loop _ c => .apply .loop [a.recipe c]
  | .seq _ a, .guard _ c => .apply .guard [a.recipe c]
  | .seq _ _, .guardedSpec _ _ => .leaf .guardedSpec
  | .call _ ⟨.placeholder p, measure⟩ _ _, .call .. => .apply measure.rule [.hyp p]
  | .fail, .call .. => .leaf .callUndefined
  | .modify _, _ => .leaf .modify
  | .init _, _ => .leaf .init
  | .spec _, _ => .leaf .spec
  | .throw, _ => .leaf .throw
  | _, _ => .leaf .skip

/-- The term with `marker` in the place of every call and failure that stands for a call. -/
def markCalls : Term → (marker : Term) → Stmt → Term
  | .call .., marker, .call .. => marker
  | .fail, marker, .call .. => marker
  | .seq a b, marker, .seq c d => .seq (a.markCalls marker c) (b.markCalls marker d)
  | .tryCatch a b, marker, .tryCatch c d =>
      .tryCatch (a.markCalls marker c) (b.markCalls marker d)
  | .condition pred a b, marker, .cond _ c d =>
      .condition pred (a.markCalls marker c) (b.markCalls marker d)
  | .loop pred a, marker, .loop _ c => .loop pred (a.markCalls marker c)
  | .seq check a, marker, .guard _ c => .seq check (a.markCalls marker c)
  | term, _, _ => term

end Term

/-- The term that a statement asks for, with `marker` in the place of its calls. -/
def Stmt.outline (world : Name) (marker : Term) : Stmt → Term
  | .skip => .skip
  | .throw => .throw
  | .assign f => .modify f
  | .localInit f => .init f
  | .spec rel => .spec rel
  | .seq c d => .seq (c.outline world marker) (d.outline world marker)
  | .tryCatch c d => .tryCatch (c.outline world marker) (d.outline world marker)
  | .cond set c d =>
      .condition (Expr.predOfSet world set) (c.outline world marker) (d.outline world marker)
  | .loop set c => .loop (Expr.predOfSet world set) (c.outline world marker)
  | .guard set c => .seq (.guard (Expr.predOfSet world set)) (c.outline world marker)
  | .guardedSpec set rel => .seq (.guard (Expr.predOfSet world set)) (.spec rel)
  | .call .. => marker
  | .dynCall .. => marker

namespace Replay

variable {replay : Replay} {term : Term} {stmt : Stmt} {recipe : Recipe} {uses : Uses}

theorem rule_of_threads {rule : Lemma} {measure : MeasureArg} {recursive : Bool}
    (threaded : replay.threads rule measure recursive = true)
    : rule = measure.rule := by
  unfold threads at threaded
  split at threaded
  · rfl
  · rfl
  · rfl
  · cases threaded

/-- The recipe of a derivation is the one that can be read off, by induction on the derivation. -/
theorem Derives.recipe_eq (h : replay.Derives term stmt recipe uses)
    : recipe = term.recipe stmt := by
  induction h with
  | seq _ _ ihp ihq | tryCatch _ _ ihp ihq | condition _ _ _ ihp ihq => rw [ihp, ihq, Term.recipe]
  | loop _ _ ih | guard _ _ ih => rw [ih, Term.recipe]
  | call _ _ _ _ _ _ threaded => rw [rule_of_threads threaded, Term.recipe]
  | skip | throw | modify | init | spec | guardedSpec | undefinedCall => rfl

/-- The hypotheses in use are those on the callees of the term, in their order. -/
theorem Derives.targets_eq (h : replay.Derives term stmt recipe uses)
    : term.callees.map (·.target) = uses.map fun used => .placeholder used.1 := by
  induction h with
  | seq _ _ ihp ihq | tryCatch _ _ ihp ihq | condition _ _ _ ihp ihq =>
      simp only [Term.callees_seq, Term.callees_tryCatch, Term.callees_condition, List.map_append,
        ihp, ihq]
  | loop _ _ ih => exact ih
  | guard _ _ ih => simpa [Term.callees, Term.calleesBefore] using ih
  | skip | throw | modify | init | spec | guardedSpec | undefinedCall | call => rfl

/-- The hypothesis on a placeholder is in use exactly if the placeholder occurs in the term. -/
theorem Derives.exists_mem_uses_iff (h : replay.Derives term stmt recipe uses) {p : PlaceholderId}
    : (∃ hyp, (p, hyp) ∈ uses) ↔ ∃ callee ∈ term.callees, callee.target = .placeholder p := by
  rw [← List.mem_map, h.targets_eq, List.mem_map]
  constructor
  · intro ⟨hyp, used⟩
    exact ⟨(p, hyp), used, rfl⟩
  · intro ⟨⟨q, hyp⟩, used, same⟩
    cases same
    exact ⟨hyp, used⟩

/-- Apart from its calls, a derived term is the one that the statement asks for, by induction on the
derivation.
-/
theorem Derives.markCalls_eq (h : replay.Derives term stmt recipe uses) (marker : Term)
    : term.markCalls marker stmt = stmt.outline replay.world marker := by
  induction h with
  | seq _ _ ihp ihq | tryCatch _ _ ihp ihq => rw [Term.markCalls, ihp, ihq, Stmt.outline]
  | condition chars _ _ ihp ihq => rw [Term.markCalls, ihp, ihq, chars, Stmt.outline]
  | loop chars _ ih | guard chars _ ih => rw [Term.markCalls, ih, chars, Stmt.outline]
  | guardedSpec rel chars =>
      subst chars
      rfl
  | skip | throw | modify | init | spec | undefinedCall | call => rfl

end Replay

/-- The recipe that proves a term to correspond to a statement is the only one. The theorem has a
hypothesis for each placeholder of the term, which is the one given for it, and no others. Two terms
that correspond to one statement are the same once their calls, and the failures that stand for
calls, are replaced by one and the same term.
-/
theorem Goal.prove_forced {total : Bool} {env : Environment} {term : Term} {stmt : Stmt}
    {recipe : Recipe} {hyps : List Hyp} {measure : MeasureId} {thm : Theorem}
    (proved : Goal.prove ⟨total, env, .corres term stmt⟩ recipe hyps measure = .ok thm)
    : (∀ total' env' recipe' hyps' measure' thm',
        Goal.prove ⟨total', env', .corres term stmt⟩ recipe' hyps' measure' = .ok thm'
        → recipe' = recipe)
      ∧ (∀ p,
          (∃ hyp, thm.hyps.find? p = some hyp)
          ↔ ∃ callee ∈ term.callees, callee.target = .placeholder p)
      ∧ (∀ p hyp, thm.hyps.find? p = some hyp → hyps[p]? = some hyp)
      ∧ ∀ total' env' term' recipe' hyps' measure' thm',
          env'.world = env.world
          → Goal.prove ⟨total', env', .corres term' stmt⟩ recipe' hyps' measure' = .ok thm'
          → ∀ marker, term'.markCalls marker stmt = term.markCalls marker stmt := by
  obtain ⟨_, _, uses, same, derived, rfl⟩ := Goal.prove_eq_ok_iff.mp proved
  cases same
  refine ⟨?_, ?_, ?_, ?_⟩
  · intro total' env' recipe' hyps' measure' thm' provedToo
    obtain ⟨_, _, _, same, derivedToo, _⟩ := Goal.prove_eq_ok_iff.mp provedToo
    cases same
    rw [derivedToo.recipe_eq, derived.recipe_eq]
  · intro p
    simp only [FiniteMap.find?_ofList_eq_some_iff derived.functional_uses]
    exact derived.exists_mem_uses_iff
  · intro p hyp found
    rw [FiniteMap.find?_ofList_eq_some_iff derived.functional_uses] at found
    exact derived.getElem?_hyps p hyp found
  · intro total' env' term' recipe' hyps' measure' thm' world provedToo marker
    obtain ⟨_, _, _, same, derivedToo, _⟩ := Goal.prove_eq_ok_iff.mp provedToo
    cases same
    have outlined : term'.markCalls marker stmt = stmt.outline env'.world marker :=
      derivedToo.markCalls_eq marker
    rw [outlined, world]
    exact (derived.markCalls_eq marker).symm

/-- A guarded call before a guarded relation: all three forms of a sequence of terms are there, and
the call may be made or replaced by failure.
-/
theorem Goal.prove_forced_guardedCall
    : let stmt : Stmt :=
        .seq (.guard .univ (.call .univ "p" .univ ["t", "s"] (.assign (.var "t"))))
          (.guardedSpec .empty .univ)
      let made : Term :=
        .seq
          (.seq (.guard (Expr.predOfSet "w" .univ))
            (.call .univ ⟨.placeholder 1, .managed⟩ .univ
              (Expr.resultHandler "w" "t" "s" (.var "t"))))
          (.seq (.guard (Expr.predOfSet "w" .empty)) (.spec .univ))
      let failing : Term :=
        .seq (.seq (.guard (Expr.predOfSet "w" .univ)) .fail)
          (.seq (.guard (Expr.predOfSet "w" .empty)) (.spec .univ))
      (∀ recipe hyps thm,
        Goal.prove ⟨true, ⟨0, "w", .empty⟩, .corres made stmt⟩ recipe hyps 3 = .ok thm
        → recipe
          = .apply .seq [.apply .guard [.apply .callRecursive [.hyp 1]], .leaf .guardedSpec])
      ∧ ∀ marker, failing.markCalls marker stmt = made.markCalls marker stmt := by
  intro stmt made failing
  have proved : Goal.prove ⟨true, ⟨0, "w", .empty⟩, .corres made stmt⟩
      (.apply .seq [.apply .guard [.apply .callRecursive [.hyp 1]], .leaf .guardedSpec])
      [⟨"q", true⟩, ⟨"p", false⟩] 3 = .ok _ := rfl
  have provedToo : Goal.prove ⟨false, ⟨1, "w", .empty⟩, .corres failing stmt⟩
      (.apply .seq [.apply .guard [.leaf .callUndefined], .leaf .guardedSpec]) [] 0 = .ok _ := rfl
  obtain ⟨only, _, _, alike⟩ := prove_forced proved
  refine ⟨fun recipe hyps thm => only true ⟨0, "w", .empty⟩ recipe hyps 3 thm, ?_⟩
  exact alike false ⟨1, "w", .empty⟩ failing _ _ _ _ rfl provedToo

end Monadize
