import Monadize.Proofs.Reduction.Contraction

/-! The recursion guards of terms: reductions bring in none, and instantiation leaves them alone. -/

namespace Monadize

namespace Term

/-- The measures of the recursion guards, left to right. -/
def guards : Term → List MeasureId
  | .seq a b => a.guards ++ b.guards
  | .tryCatch a b => a.guards ++ b.guards
  | .condition _ a b => a.guards ++ b.guards
  | .loop _ body => body.guards
  | .recGuard m body => m :: body.guards
  | _ => []

/-- A contraction brings in no guard. -/
theorem Contracts.guards_subset {t t' : Term} (h : t.Contracts t') : t'.guards ⊆ t.guards := by
  cases h with
  | guardTrue | guardFalse | guardSimp | seqFail | modifyFail | initFail | loopFalse | seqThrow =>
      exact List.nil_subset _
  | seqSkipLeft | seqSkipRight | conditionTrue | conditionFalse | conditionSame | conditionSimp
  | loopSimp | catchNoThrow | catchThrow | catchRethrow => simp [guards]

/-- Having no further guards is compatible with reductions. -/
theorem compatible_guards : Compatible fun t t' => t'.guards ⊆ t.guards where
  contracts h := h.guards_subset
  refl _ := List.Subset.refl _
  trans first second := List.Subset.trans second first
  seq ha hb := by simpa [guards] using ⟨List.subset_append_of_subset_left _ ha,
    List.subset_append_of_subset_right _ hb⟩
  tryCatch ha hb := by simpa [guards] using ⟨List.subset_append_of_subset_left _ ha,
    List.subset_append_of_subset_right _ hb⟩
  condition _ _ _ _ _ ha hb := by simpa [guards] using ⟨List.subset_append_of_subset_left _ ha,
    List.subset_append_of_subset_right _ hb⟩
  loop _ _ _ hb := hb
  recGuard _ _ _ hb := List.cons_subset_cons _ hb

/-- Instantiating placeholders leaves the guards alone. -/
theorem guards_mapParts (onExpr : Expr → Expr) (onCallee : Callee → Callee) (t : Term)
    : (t.mapParts onExpr onCallee).guards = t.guards := by
  induction t with
  | seq a b iha ihb | tryCatch a b iha ihb | condition _ a b iha ihb =>
      simp only [mapParts, guards, iha, ihb]
  | loop _ body ih => exact ih
  | recGuard m body ih => exact congrArg (m :: ·) ih
  | _ => rfl

/-- A term without guards has none in its subterms. -/
theorem guards_of_mem_children {t child : Term} (plain : t.guards = []) (among : child ∈ t.children)
    : child.guards = [] := by
  cases t with
  | seq a b | tryCatch a b | condition _ a b =>
      obtain ⟨first, second⟩ := List.append_eq_nil_iff.mp plain
      simp only [children, List.mem_cons, List.not_mem_nil, or_false] at among
      rcases among with rfl | rfl
      · exact first
      · exact second
  | loop _ body =>
      cases List.mem_singleton.mp among
      exact plain
  | recGuard => cases plain
  | _ => cases among

end Term

end Monadize
