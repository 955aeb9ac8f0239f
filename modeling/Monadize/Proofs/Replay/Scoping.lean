import Monadize.Proofs.Replay.Derivation
import Monadize.Proofs.Term.Callees
import Monadize.Proofs.Term.Guards

/-! Which callees a proved term has: placeholders of the hypotheses in use, each passed the measure
that fits its hypothesis. Guards it has none.
-/

namespace Monadize

namespace Replay

/-- How a measure is passed says whether the hypothesis is one of an induction. -/
theorem threads_measure {replay : Replay} {rule : Lemma} {measure : MeasureArg} {recursive : Bool}
    (threaded : replay.threads rule measure recursive = true)
    : recursive = true ↔ measure = .pred replay.measure := by
  unfold threads at threaded
  split at threaded
  · simp
  · simp
  · simpa using threaded
  · cases threaded

/-- Every callee of a proved term is the placeholder of a hypothesis in use, by induction on the
derivation.
-/
theorem Derives.exists_hyp {replay : Replay} {term : Term} {stmt : Stmt} {recipe : Recipe}
    {uses : Uses} (h : replay.Derives term stmt recipe uses) {callee : Callee}
    (member : callee ∈ term.callees)
    : ∃ p hyp,
        callee.target = .placeholder p ∧ (p, hyp) ∈ uses
        ∧ (hyp.recursive = true ↔ callee.measure = .pred replay.measure)
        ∧ ∀ m, callee.measure = .pred m → m = replay.measure := by
  induction h with
  | seq _ _ ihp ihq | tryCatch _ _ ihp ihq | condition _ _ _ ihp ihq =>
      simp only [Term.callees_seq, Term.callees_tryCatch, Term.callees_condition,
        List.mem_append] at member
      rcases member with left | right
      · obtain ⟨p, hyp, target, used, measure⟩ := ihp left
        exact ⟨p, hyp, target, List.mem_append_left _ used, measure⟩
      · obtain ⟨p, hyp, target, used, measure⟩ := ihq right
        exact ⟨p, hyp, target, List.mem_append_right _ used, measure⟩
  | loop _ _ ih => exact ih member
  | guard _ _ ih => exact ih (by simpa [Term.callees, Term.calleesBefore] using member)
  | @call p hyp rule measure _ _ _ _ _ _ _ threaded _ =>
      cases List.mem_singleton.mp member
      refine ⟨p, hyp, rfl, List.mem_singleton.mpr rfl, threads_measure threaded, ?_⟩
      intro m passed
      cases passed
      unfold threads at threaded
      split at threaded <;> simp_all
  | skip | throw | modify | init | spec | guardedSpec | undefinedCall => cases member

/-- A term that a recipe proves is not guarded anywhere, by induction on the derivation. -/
theorem Derives.guards_eq_nil {replay : Replay} {term : Term} {stmt : Stmt} {recipe : Recipe}
    {uses : Uses} (h : replay.Derives term stmt recipe uses)
    : term.guards = [] := by
  induction h with
  | seq _ _ ihp ihq | tryCatch _ _ ihp ihq | condition _ _ _ ihp ihq =>
      rw [Term.guards, ihp, ihq, List.append_nil]
  | loop _ _ ih | guard _ _ ih => exact ih
  | skip | throw | modify | init | spec | guardedSpec | undefinedCall | call => rfl

end Replay

end Monadize
