import Monadize.Proof.Derive
import Monadize.Proofs.Cluster.Closing
import Monadize.Proofs.Reduction.Rewriting
import Monadize.Proofs.Replay.Scoping

/-! Theorems as the kernel makes them. In every one of them the callees are placeholders with a
hypothesis that fits the measure they are passed, and the recursion guards are on the measure of the
theorem.
-/

namespace Monadize

-----------------------------------------------------------------------------------------
-- What each rule gives
-----------------------------------------------------------------------------------------

namespace Theorem

theorem guardRecursion_eq_ok_iff {thm thm' : Theorem}
    : thm.guardRecursion = .ok thm'
      ↔ ∃ measure term stmt,
          thm.measure = some measure
          ∧ thm.judgement = .corres term stmt
          ∧ thm' = { thm with judgement := .corres (.recGuard measure term) stmt } := by
  obtain ⟨total, env, judgement, hyps, measure⟩ := thm
  cases measure with
  | none => simp [guardRecursion]
  | some measure => cases judgement <;> simp [guardRecursion, eq_comm]

theorem unfold_eq_ok_iff {thm thm' : Theorem} {proc : Name}
    : thm.unfold proc = .ok thm'
      ↔ ∃ term body,
          thm.judgement = .corres term body
          ∧ thm.env.body? proc = some body
          ∧ thm' = { thm with judgement := .callCorres term proc } := by
  obtain ⟨total, env, judgement, hyps, measure⟩ := thm
  cases judgement with
  | corres term stmt =>
      cases defined : env.body? proc with
      | none => simp [Theorem.unfold, defined]
      | some body =>
          by_cases same : body = stmt
          · subst same
            simp [Theorem.unfold, defined, eq_comm]
          · simp [Theorem.unfold, defined, same]
  | _ => simp [Theorem.unfold]

theorem ofUndefined_eq_ok_iff {total : Bool} {env : Environment} {proc : Name} {thm : Theorem}
    : ofUndefined total env proc = .ok thm
      ↔ env.body? proc = none ∧ thm = ⟨total, env, .callCorres .fail proc, .empty, none⟩ := by
  cases defined : env.body? proc with
  | none => simp [ofUndefined, Environment.hasBody, defined, eq_comm]
  | some body => simp [ofUndefined, Environment.hasBody, defined]

/-- The return slot is initialized right under the outermost guard, or in front of the term. -/
theorem exists_of_initReturn {thm thm' : Theorem} {rule : Lemma} {init : Expr}
    (started : thm.initReturn rule init = .ok thm')
    : ∃ term term' proc,
        thm.judgement = .callCorres term proc
        ∧ thm' = { thm with judgement := .callCorres term' proc }
        ∧ term'.callees = term.callees
        ∧ term'.guards = term.guards := by
  obtain ⟨total, env, judgement, hyps, measure⟩ := thm
  cases judgement with
  | callCorres term proc =>
      simp only [initReturn] at started
      split at started
      · cases started
        exact ⟨_, _, proc, rfl, rfl, by simp [Term.callees, Term.calleesBefore], rfl⟩
      · cases started
        exact ⟨_, _, proc, rfl, rfl, by simp [Term.callees, Term.calleesBefore], rfl⟩
      · cases started
  | _ => cases started

/-- The term of a correspondence is replaced by its normal form. -/
theorem exists_of_reduce {thm thm' : Theorem} {set : RuleSet} {steps : List Reduction}
    (reduced : thm.reduce set = .ok (thm', steps))
    : ∃ term,
        thm.term? = some term
        ∧ thm'.term? = some (set.normalize term).1
        ∧ thm'.hyps = thm.hyps
        ∧ thm'.measure = thm.measure := by
  obtain ⟨total, env, judgement, hyps, measure⟩ := thm
  cases judgement with
  | corres term stmt | callCorres term proc =>
      cases reduced
      exact ⟨term, rfl, rfl, rfl, rfl⟩
  | _ => cases reduced

end Theorem

-----------------------------------------------------------------------------------------
-- Scoping
-----------------------------------------------------------------------------------------

/-- The callee is a placeholder with a hypothesis. It is passed the decremented measure of the
theorem if this is an induction hypothesis, and no measure of the theorem otherwise.
-/
inductive Callee.Fits (hyps : FiniteMap PlaceholderId Hyp) (measure : Option MeasureId)
    : Callee → Prop
  | pred {p hyp m} (assumed : hyps.find? p = some hyp) (recursive : hyp.recursive = true)
      (own : measure = some m)
      : Fits hyps measure ⟨.placeholder p, .pred m⟩
  | managed {p hyp} (assumed : hyps.find? p = some hyp) (external : hyp.recursive = false)
      : Fits hyps measure ⟨.placeholder p, .managed⟩
  | unused {p hyp} (assumed : hyps.find? p = some hyp) (external : hyp.recursive = false)
      : Fits hyps measure ⟨.placeholder p, .unused⟩

namespace Theorem

/-- A theorem that some rules of the kernel lead to. -/
inductive Derivable : Theorem → Prop
  | prove {goal : Goal} {recipe hyps measure thm}
      (proved : goal.prove recipe hyps measure = .ok thm)
      : Derivable thm
  | guardRecursion {thm thm'} (h : Derivable thm) (guarded : thm.guardRecursion = .ok thm')
      : Derivable thm'
  | unfold {thm thm' proc} (h : Derivable thm) (unfolded : thm.unfold proc = .ok thm')
      : Derivable thm'
  | ofUndefined {total env proc thm} (undefined : Theorem.ofUndefined total env proc = .ok thm)
      : Derivable thm
  | initReturn {thm thm' rule init} (h : Derivable thm)
      (started : thm.initReturn rule init = .ok thm')
      : Derivable thm'
  | reduce {thm thm' set steps} (h : Derivable thm) (reduced : thm.reduce set = .ok (thm', steps))
      : Derivable thm'
  | close {members : List Member} {closed thm} (each : ∀ m ∈ members, Derivable m.thm)
      (success : closeCluster members = .ok closed) (among : thm ∈ closed.thms)
      : Derivable thm
  | mono {total env cluster defs thm} (monotone : monoCluster total env cluster defs = .ok thm)
      : Derivable thm
  | split {thm thms thm'} (h : Derivable thm) (parts : thm.split = .ok thms) (among : thm' ∈ thms)
      : Derivable thm'

/-- A correspondence has callees that fit its hypotheses and guards on its measure. Any other
theorem has neither hypotheses nor a measure.
-/
structure Scoped (thm : Theorem) : Prop where
  functional : FiniteMap.Functional thm.hyps.entries
  callees
    : ∀ term,
        thm.term? = some term → ∀ callee ∈ term.callees, callee.Fits thm.hyps thm.measure
  guards : ∀ term, thm.term? = some term → ∀ m ∈ term.guards, thm.measure = some m
  closed : thm.term? = none → thm.hyps = .empty ∧ thm.measure = none

/-- A theorem without hypotheses, a measure or a term is scoped. -/
theorem scoped_of_closed {thm : Theorem} (bare : thm.term? = none) (hyps : thm.hyps = .empty)
    (measure : thm.measure = none)
    : thm.Scoped where
  functional := by
    rw [hyps]
    exact nofun
  callees term some := nomatch bare.symm.trans some
  guards term some := nomatch bare.symm.trans some
  closed _ := ⟨hyps, measure⟩

/-- Another term may take the place of that of a scoped theorem if it brings in no callee, and
guards only on the measure.
-/
theorem Scoped.replace {thm thm' : Theorem} (h : thm.Scoped) {t t' : Term}
    (before : thm.term? = some t) (after : thm'.term? = some t') (hyps : thm'.hyps = thm.hyps)
    (measure : thm'.measure = thm.measure) (callees : t'.callees ⊆ t.callees)
    (guards : ∀ m ∈ t'.guards, m ∈ t.guards ∨ thm.measure = some m)
    : thm'.Scoped where
  functional := by
    rw [hyps]
    exact h.functional
  callees term found callee among := by
    cases after.symm.trans found
    rw [hyps, measure]
    exact h.callees t before callee (callees among)
  guards term found m among := by
    cases after.symm.trans found
    rw [measure]
    exact (guards m among).elim (h.guards t before m) id
  closed none := nomatch after.symm.trans none

theorem scoped_of_prove {goal : Goal} {recipe : Recipe} {hyps : List Hyp} {measure : MeasureId}
    {thm : Theorem} (proved : goal.prove recipe hyps measure = .ok thm)
    : thm.Scoped := by
  obtain ⟨term, stmt, uses, judged, derived, rfl⟩ := Goal.prove_eq_ok_iff.mp proved
  have known {p : PlaceholderId} {hyp : Hyp} (used : (p, hyp) ∈ uses)
      : (FiniteMap.ofList uses).find? p = some hyp :=
    (FiniteMap.find?_ofList_eq_some_iff derived.functional_uses).mpr used
  have whole : Theorem.term? ⟨goal.total, goal.env, goal.judgement, .ofList uses, some measure⟩
      = some term := by
    simp only [term?, judged]
  refine ⟨?_, ?_, ?_, ?_⟩
  · intro p hyp other first second
    exact derived.functional_uses p hyp other (FiniteMap.mem_entries_ofList first)
      (FiniteMap.mem_entries_ofList second)
  · intro other same callee among
    cases whole.symm.trans same
    obtain ⟨p, hyp, target, used, recursive, own⟩ := derived.exists_hyp among
    obtain ⟨_, passed⟩ := callee
    cases target
    cases passed with
    | pred m =>
        cases own m rfl
        exact .pred (known used) (recursive.mpr rfl) rfl
    | managed => exact .managed (known used) (Bool.eq_false_iff.mpr (mt recursive.mp nofun))
    | unused => exact .unused (known used) (Bool.eq_false_iff.mpr (mt recursive.mp nofun))
  · intro other same m among
    cases whole.symm.trans same
    rw [derived.guards_eq_nil] at among
    cases among
  · intro none
    cases whole.symm.trans none

/-- What the kernel makes is scoped, by induction on the rules it used. -/
theorem Derivable.scoped {thm : Theorem} (h : thm.Derivable) : thm.Scoped := by
  induction h with
  | prove proved => exact scoped_of_prove proved
  | @guardRecursion thm _ _ guarded ih =>
      obtain ⟨measure, term, stmt, own, judged, rfl⟩ := guardRecursion_eq_ok_iff.mp guarded
      refine ih.replace (t := term) (by simp only [term?, judged]) rfl rfl rfl
        (List.Subset.refl _) ?_
      intro m among
      rcases List.mem_cons.mp among with rfl | inside
      · exact .inr own
      · exact .inl inside
  | unfold _ unfolded ih =>
      obtain ⟨term, body, judged, _, rfl⟩ := unfold_eq_ok_iff.mp unfolded
      exact ih.replace (t := term) (by simp only [term?, judged]) rfl rfl rfl
        (List.Subset.refl _) fun m among => .inl among
  | ofUndefined undefined =>
      obtain ⟨_, rfl⟩ := ofUndefined_eq_ok_iff.mp undefined
      refine ⟨nofun, ?_, ?_, nofun⟩
      · intro term same
        cases same
        exact nofun
      · intro term same
        cases same
        exact nofun
  | initReturn _ started ih =>
      obtain ⟨term, term', proc, judged, rfl, callees, guards⟩ := exists_of_initReturn started
      refine ih.replace (t := term) (by simp only [term?, judged]) rfl rfl rfl ?_ ?_
      · rw [callees]
        exact List.Subset.refl _
      · intro m among
        exact .inl (guards ▸ among)
  | @reduce _ _ set _ _ reduced ih =>
      obtain ⟨term, before, after, hyps, measure⟩ := exists_of_reduce reduced
      exact ih.replace before after hyps measure
        (set.related_normalize Term.compatible_callees term)
        fun m among => .inl (set.related_normalize Term.compatible_guards term among)
  | close _ success among =>
      obtain ⟨_, _, rows, _, _, related, rfl⟩ := closeCluster_eq_ok_iff.mp success
      obtain ⟨row, listed, rfl⟩ := List.mem_map.mp among
      obtain ⟨m, _, closed⟩ := exists_left_of_mem related listed
      obtain ⟨_, _, _, _, _, _, rfl⟩ := Member.close_eq_ok_iff.mp closed
      exact scoped_of_closed rfl rfl rfl
  | mono monotone =>
      obtain ⟨_, _, same⟩ := bind_eq_ok_iff.mp monotone
      cases same
      exact scoped_of_closed rfl rfl rfl
  | @split thm _ _ _ parts among ih =>
      unfold Theorem.split at parts
      split at parts
      · next ks judged =>
          cases parts
          obtain ⟨k, _, rfl⟩ := List.mem_map.mp among
          obtain ⟨hyps, measure⟩ := ih.closed (by simp only [term?, judged])
          exact scoped_of_closed rfl hyps measure
      · cases parts

end Theorem

end Monadize
