import Monadize.Proofs.Kernel.Scoping
import Monadize.Proofs.Replay.Soundness

/-! What the judgements of the kernel say, and which rules keep theorems valid whatever expressions
mean.
-/

namespace Monadize

variable {σ ν : Type*}

/-- Where the first computation cannot fail, neither can the second, and both end alike. -/
def Computation.Persists (a b : Computation σ) : Prop :=
  ∀ s, ¬ a.fails s → ¬ b.fails s ∧ ∀ o, b.ends s o ↔ a.ends s o

/-- What a judgement says of the callees that terms are linked to. -/
def Judgement.Holds (I : Interpretation σ ν) (link : Linking σ) (total : Bool) (env : Environment)
    : Judgement → Prop
  | .corres term stmt =>
      ∀ measures, Corresponds total (term.denote I link measures) (stmt.behaviour I env I.globals)
  | .callCorres term proc =>
      ∀ measures, Corresponds total (term.denote I link measures) (env.behaviour I proc)
  | .fnCorres k proc => ∀ n, Corresponds total (link.callee (.const k) n) (env.behaviour I proc)
  | .mono k => ∀ m n, m ≤ n → (link.callee (.const k) m).Persists (link.callee (.const k) n)
  | .monoAll ks =>
      ∀ k ∈ ks, ∀ m n, m ≤ n → (link.callee (.const k) m).Persists (link.callee (.const k) n)

namespace Theorem

/-- The judgement holds if the hypotheses do. -/
def Valid (I : Interpretation σ ν) (link : Linking σ) (thm : Theorem) : Prop :=
  link.Satisfies I thm.total thm.env thm.hyps → thm.judgement.Holds I link thm.total thm.env

variable {I : Interpretation σ ν} {link : Linking σ}

/-- What a recipe proves is valid. -/
theorem valid_of_prove {goal : Goal} {term : Term} {stmt : Stmt} {recipe : Recipe} {hyps : List Hyp}
    {measure : MeasureId} {thm : Theorem} (judged : goal.judgement = .corres term stmt)
    (reads : I.Reads goal.env.world stmt) (proved : goal.prove recipe hyps measure = .ok thm)
    : thm.Valid I link := by
  obtain ⟨_, _, uses, judgedToo, derived, rfl⟩ := Goal.prove_eq_ok_iff.mp proved
  cases judged.symm.trans judgedToo
  intro satisfied
  simp only [judged]
  intro measures
  refine derived.corresponds measures reads ?_
  intro p hyp used
  exact satisfied p hyp ((FiniteMap.find?_ofList_eq_some_iff derived.functional_uses).mpr used)

/-- Where a guard lets the term through, it does not change it; where it does not, it fails. -/
theorem Valid.guardRecursion {thm thm' : Theorem} (h : thm.Valid I link)
    (guarded : thm.guardRecursion = .ok thm')
    : thm'.Valid I link := by
  obtain ⟨measure, term, stmt, _, judged, rfl⟩ := guardRecursion_eq_ok_iff.mp guarded
  intro satisfied measures
  have holds := h satisfied
  rw [judged] at holds
  exact .recGuard fun _ => holds measures

/-- A call does what the body of the procedure does. -/
theorem Valid.unfold {thm thm' : Theorem} {proc : Name} (h : thm.Valid I link)
    (unfolded : thm.unfold proc = .ok thm')
    : thm'.Valid I link := by
  obtain ⟨term, body, judged, defined, rfl⟩ := unfold_eq_ok_iff.mp unfolded
  intro satisfied measures
  have holds := h satisfied
  rw [judged] at holds
  rw [Environment.behaviour_of_body? I defined]
  exact holds measures

/-- The theorem about a recursive procedure, from the recipe for its body. -/
theorem derivable_and_valid_of_body (goal : Goal) (recipe : Recipe) (hyps : List Hyp)
    (measure : MeasureId) (proc : Name) {thm : Theorem} {term : Term} {stmt : Stmt}
    (judged : goal.judgement = .corres term stmt) (reads : I.Reads goal.env.world stmt)
    (made
      : (do
          let body ← goal.prove recipe hyps measure
          let guarded ← body.guardRecursion
          guarded.unfold proc) = .ok thm)
    : thm.Derivable ∧ thm.Valid I link := by
  obtain ⟨body, proved, rest⟩ := bind_eq_ok_iff.mp made
  obtain ⟨guarded, guards, unfolds⟩ := bind_eq_ok_iff.mp rest
  refine ⟨((Derivable.prove proved).guardRecursion guards).unfold unfolds, ?_⟩
  exact ((valid_of_prove judged reads proved).guardRecursion guards).unfold unfolds

end Theorem

end Monadize
