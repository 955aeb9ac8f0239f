import Monadize.Proof.Monotone
import Monadize.Proofs.Except
import Monadize.Proofs.Reduction.Contraction

/-! The callees of terms: reductions bring in none, instantiation replaces each, and monotonicity is
checked on them alone.
-/

namespace Monadize

namespace Term

@[simp] theorem callees_seq (a b : Term) : (seq a b).callees = a.callees ++ b.callees :=
  a.calleesBefore_eq _

@[simp] theorem callees_tryCatch (a b : Term) : (tryCatch a b).callees = a.callees ++ b.callees :=
  a.calleesBefore_eq _

@[simp] theorem callees_condition (p : Expr) (a b : Term)
    : (condition p a b).callees = a.callees ++ b.callees :=
  a.calleesBefore_eq _

@[simp] theorem callees_loop (p : Expr) (body : Term) : (loop p body).callees = body.callees := rfl

@[simp] theorem callees_recGuard (m : MeasureId) (body : Term)
    : (recGuard m body).callees = body.callees :=
  rfl

@[simp] theorem callees_call (setup : Expr) (callee : Callee) (cleanup result : Expr)
    : (call setup callee cleanup result).callees = [callee] :=
  rfl

/-- A contraction brings in no callee. -/
theorem Contracts.callees_subset {t t' : Term} (h : t.Contracts t') : t'.callees ⊆ t.callees := by
  cases h with
  | guardTrue | guardFalse | guardSimp | seqFail | modifyFail | initFail | loopFalse | seqThrow =>
      exact List.nil_subset _
  | seqSkipLeft | seqSkipRight | conditionTrue | conditionFalse | conditionSame | conditionSimp
  | loopSimp | catchNoThrow | catchThrow | catchRethrow => simp

/-- Having no further callees is compatible with reductions. -/
theorem compatible_callees : Compatible fun t t' => t'.callees ⊆ t.callees where
  contracts h := h.callees_subset
  refl _ := List.Subset.refl _
  trans first second := List.Subset.trans second first
  seq ha hb := by simpa using ⟨List.subset_append_of_subset_left _ ha,
    List.subset_append_of_subset_right _ hb⟩
  tryCatch ha hb := by simpa using ⟨List.subset_append_of_subset_left _ ha,
    List.subset_append_of_subset_right _ hb⟩
  condition _ _ _ _ _ ha hb := by simpa using ⟨List.subset_append_of_subset_left _ ha,
    List.subset_append_of_subset_right _ hb⟩
  loop _ _ _ hb := hb
  recGuard _ _ _ hb := hb

theorem callees_mapParts (onExpr : Expr → Expr) (onCallee : Callee → Callee) (t : Term)
    : (t.mapParts onExpr onCallee).callees = t.callees.map onCallee := by
  induction t with
  | seq a b iha ihb | tryCatch a b iha ihb | condition _ a b iha ihb =>
      simp only [mapParts, callees_seq, callees_tryCatch, callees_condition, iha, ihb,
        List.map_append]
  | loop _ body ih | recGuard _ body ih => exact ih
  | _ => rfl

/-- Instantiating a term instantiates its callees. -/
theorem callees_instantiate (find : PlaceholderId → Option ConstId) (t : Term)
    : (t.instantiate find).callees = t.callees.map (Callee.instantiate find) :=
  callees_mapParts ..

theorem mapParts_id (t : Term) : t.mapParts id id = t := by
  induction t with
  | seq a b iha ihb | tryCatch a b iha ihb | condition _ a b iha ihb =>
      simp only [mapParts, iha, ihb, id]
  | loop _ body ih | recGuard _ body ih => simp only [mapParts, ih, id]
  | _ => rfl

theorem mapParts_mapParts (first second : Callee → Callee) (t : Term)
    : (t.mapParts id first).mapParts id second
      = t.mapParts id fun callee => second (first callee) := by
  induction t with
  | seq a b iha ihb | tryCatch a b iha ihb | condition _ a b iha ihb =>
      simp only [mapParts, iha, ihb, id]
  | loop _ body ih | recGuard _ body ih => simp only [mapParts, ih, id]
  | _ => rfl

/-- What is done to callees that do not occur plays no part. -/
theorem mapParts_congr {onCallee other : Callee → Callee} {t : Term}
    (same : ∀ callee ∈ t.callees, onCallee callee = other callee) (onExpr : Expr → Expr)
    : t.mapParts onExpr onCallee = t.mapParts onExpr other := by
  induction t with
  | seq a b iha ihb | tryCatch a b iha ihb | condition _ a b iha ihb =>
      simp only [callees_seq, callees_tryCatch, callees_condition, List.forall_mem_append] at same
      simp only [mapParts, iha same.1, ihb same.2]
  | loop _ body ih | recGuard _ body ih => simp only [mapParts, ih same]
  | call _ callee _ _ => simp only [mapParts, same callee List.mem_cons_self]
  | _ => rfl

end Term

-----------------------------------------------------------------------------------------
-- Monotonicity
-----------------------------------------------------------------------------------------

/-- The callee is a constant, and one of the cluster if it is passed a decremented measure. -/
def Callee.StaysIn (cluster : List ConstId) (callee : Callee) : Prop :=
  ∃ k, callee.target = .const k ∧ ∀ m, callee.measure = .pred m → k ∈ cluster

/-- A term is found monotone exactly if its callees stay in the cluster, by induction on it. -/
theorem Term.checkMono_eq_ok_iff {cluster : List ConstId} {t : Term}
    : t.checkMono cluster = .ok () ↔ ∀ callee ∈ t.callees, callee.StaysIn cluster := by
  induction t with
  | seq a b iha ihb | tryCatch a b iha ihb | condition _ a b iha ihb =>
      simp only [checkMono, bind_eq_ok_iff, callees_seq, callees_tryCatch, callees_condition,
        List.forall_mem_append, iha, ihb]
      constructor
      · intro h
        obtain ⟨_, first, second⟩ := h
        exact ⟨first, second⟩
      · intro h
        exact ⟨(), h.1, h.2⟩
  | loop _ body ih | recGuard _ body ih => exact ih
  | call _ callee _ _ =>
      obtain ⟨target, measure⟩ := callee
      simp only [callees_call, List.forall_mem_singleton, Callee.StaysIn]
      cases target with
      | placeholder p => simp [checkMono]
      | const k => cases measure <;> simp [checkMono]
  | _ => simp [checkMono, callees, calleesBefore]

/-- A cluster is found monotone if all its constants are defined, with callees that stay in it. -/
theorem monoCluster_eq_ok_iff {total : Bool} {env : Environment} {cluster : List ConstId}
    {defs : ConstId → Option Term} {thm : Theorem}
    : monoCluster total env cluster defs = .ok thm
      ↔ (∀ k ∈ cluster,
          ∃ body, defs k = some body ∧ ∀ callee ∈ body.callees, callee.StaysIn cluster)
        ∧ thm = ⟨total, env, .monoAll cluster, .empty, none⟩ := by
  simp only [monoCluster, bind_eq_ok_iff, forM_eq_ok_iff, exists_const]
  refine and_congr (forall₂_congr fun k _ => ?_) ?_
  · cases found : defs k with
    | none => simp
    | some body => simp [Term.checkMono_eq_ok_iff]
  · constructor
    · intro same
      cases same
      rfl
    · rintro rfl
      rfl

end Monadize
