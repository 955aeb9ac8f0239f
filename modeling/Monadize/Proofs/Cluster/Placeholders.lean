import Monadize.Proofs.Cluster.Soundness

/-! No placeholder is left when the members of a cluster are closed, if the kernel has made their
theorems: every callee has a hypothesis, and every hypothesis is discharged first.
-/

namespace Monadize

/-- The refusal is not for a placeholder that is left. -/
def ProofError.Placed (error : ProofError) : Prop :=
  ∀ proc, error.cause ≠ .undischargedPlaceholder proc

namespace Member

variable {ctx : Context} {error : ProofError}

theorem placed_of_refuse {α : Type} {cause : ProofError.Cause}
    (other : ∀ proc, cause ≠ .undischargedPlaceholder proc)
    (refused : (ctx.refuse cause : Except ProofError α) = .error error)
    : error.Placed := by
  cases refused
  exact other

theorem placed_of_register {members : List Member} (refused : register ctx members = .error error)
    : error.Placed := by
  induction members generalizing ctx with
  | nil => cases refused
  | cons m rest ih =>
      rw [register] at refused
      split at refused
      · split at refused
        · exact placed_of_refuse (by simp) refused
        · exact ih refused
      · exact placed_of_refuse (by simp) refused

theorem placed_of_discharge {proc : Name} {hyp : Hyp} {binding : Binding}
    (refused : discharge ctx proc hyp binding = .error error)
    : error.Placed := by
  cases binding with
  | defined thm =>
      rw [discharge] at refused
      split at refused
      · split at refused
        · exact placed_of_refuse (by simp) refused
        · split at refused
          · exact placed_of_refuse (by simp) refused
          · cases refused
      · exact placed_of_refuse (by simp) refused
  | sibling k =>
      rw [discharge] at refused
      split at refused
      · exact placed_of_refuse (by simp) refused
      · cases refused

/-- Hypotheses are refused as one of them is, by induction on them. -/
theorem placed_of_dischargeAll {proc : Name} {bindings : FiniteMap PlaceholderId Binding}
    {hyps : List (PlaceholderId × Hyp)}
    (refused : dischargeAll ctx proc bindings hyps = .error error)
    : error.Placed := by
  induction hyps with
  | nil => cases refused
  | cons first rest ih =>
      rw [dischargeAll] at refused
      split at refused
      · exact placed_of_refuse (by simp) refused
      · rcases bind_eq_error_iff.mp refused with here | ⟨_, _, later⟩
        · exact placed_of_discharge here
        · rcases bind_eq_error_iff.mp later with others | ⟨_, _, same⟩
          · exact ih others
          · cases same

/-- A member with a scoped theorem is not refused for a placeholder. Once its hypotheses are
discharged, all its callees are constants.
-/
theorem placed_of_close {m : Member} (within : m.thm.Scoped) (refused : close ctx m = .error error)
    : error.Placed := by
  unfold close at refused
  split at refused
  · next term proc judged =>
      cases proc_eq judged
      rcases bind_eq_error_iff.mp refused with here | ⟨consts, discharged, rest⟩
      · exact placed_of_dischargeAll here
      · have related := dischargeAll_eq_ok_iff.mp discharged
        have placed : ∀ callee ∈ term.callees,
            ∃ p hyp, callee.target = .placeholder p ∧ (p, hyp) ∈ m.thm.hyps.entries := by
          intro callee called
          cases within.callees term (by simp only [Theorem.term?, judged]) callee called with
          | pred assumed | managed assumed | unused assumed =>
              exact ⟨_, _, rfl, FiniteMap.mem_entries_of_find? assumed⟩
        split at rest
        · exact placed_of_refuse (by simp) rest
        · rw [if_neg (Bool.eq_false_iff.mp (hasPlaceholders_instantiate related placed))] at rest
          cases rest
  · exact placed_of_refuse (by simp) refused

end Member

/-- A cluster of scoped theorems is not refused for a placeholder that is left. -/
theorem placed_of_closeCluster {members : List Member} (within : ∀ m ∈ members, m.thm.Scoped)
    {error : ProofError} (refused : closeCluster members = .error error)
    : error.Placed := by
  cases members with
  | nil =>
      cases refused
      simp [ProofError.Placed]
  | cons first rest =>
      rcases bind_eq_error_iff.mp refused with here | ⟨_, _, later⟩
      · exact Member.placed_of_register here
      · rcases bind_eq_error_iff.mp later with single | ⟨_, _, same⟩
        · obtain ⟨m, among, refused⟩ := exists_of_mapM_eq_error single
          exact Member.placed_of_close (within m among) refused
        · cases same

/-- Theorems of the kernel are scoped, whichever of its rules led to them and from whatever inputs.
So a cluster of them is never refused because a callee is still a placeholder.
-/
theorem derivable_scoped_and_placed
    : (∀ thm : Theorem, thm.Derivable → thm.Scoped)
      ∧ ∀ members : List Member,
          (∀ m ∈ members, m.thm.Derivable)
          → ∀ rule proc, closeCluster members ≠ .error ⟨rule, .undischargedPlaceholder proc⟩ := by
  refine ⟨fun _ => Theorem.Derivable.scoped, ?_⟩
  intro members derivable rule proc refused
  exact placed_of_closeCluster (fun m among => (derivable m among).scoped) refused proc rfl

/-- Witness: the theorem of `pong` is scoped. Without bindings its cluster is refused, for the
hypothesis that has none.
-/
theorem derivable_scoped_and_placed_rally
    : Member.rallyPong.thm.Scoped
      ∧ closeCluster [{ Member.rallyPong with bindings := .empty }]
        = .error ⟨some .mutualInduction, .noBinding "pong" "tick"⟩
      ∧ ∀ proc,
          closeCluster [{ Member.rallyPong with bindings := .empty }]
          ≠ .error ⟨some .mutualInduction, .undischargedPlaceholder proc⟩ := by
  have made := (Member.rallyPong_thm ⟨fun _ _ => .fail, 0⟩).1
  obtain ⟨within, placed⟩ := derivable_scoped_and_placed
  refine ⟨within _ made, rfl, placed _ ?_ _⟩
  intro m among
  cases List.mem_singleton.mp among
  exact made

end Monadize
