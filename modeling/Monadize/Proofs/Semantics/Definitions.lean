import Monadize.Proofs.Semantics.Interpretation
import Monadize.Proofs.FiniteMap
import Monadize.Proofs.Term.Callees
import Monadize.Proof.Cluster

/-! What it is to interpret constants by their definitions. Where recursive calls are under a guard
and all others leave the definitions, there is such an interpretation: it is built measure by
measure.
-/

namespace Monadize

variable {σ ν : Type*}

-----------------------------------------------------------------------------------------
-- What a term means depends on its callees
-----------------------------------------------------------------------------------------

namespace Term

/-- A term whose callees are replaced by others that mean the same means the same, by induction on
the term.
-/
theorem denote_mapParts (I : Interpretation σ ν) {link link' : Linking σ}
    {measures : MeasureId → Nat} {replace : Callee → Callee} {t : Term}
    (same : ∀ callee ∈ t.callees, (replace callee).denote link measures
      = callee.denote link' measures)
    : (t.mapParts id replace).denote I link measures = t.denote I link' measures := by
  induction t with
  | seq a b iha ihb | tryCatch a b iha ihb | condition _ a b iha ihb =>
      simp only [callees_seq, callees_tryCatch, callees_condition, List.forall_mem_append] at same
      simp only [mapParts, denote, iha same.1, ihb same.2, id]
  | loop _ body ih | recGuard _ body ih => simp only [mapParts, denote, ih same, id]
  | call _ callee _ _ =>
      simp only [mapParts, denote, same callee (List.mem_singleton.mpr rfl), id]
  | _ => rfl

theorem denote_congr (I : Interpretation σ ν) {link link' : Linking σ} {measures : MeasureId → Nat}
    {t : Term}
    (same : ∀ callee ∈ t.callees, callee.denote link measures = callee.denote link' measures)
    : t.denote I link measures = t.denote I link' measures := by
  have mapped : (t.mapParts id id).denote I link measures = t.denote I link' measures :=
    denote_mapParts I same
  rwa [mapParts_id] at mapped

/-- A guarded term fails at measure zero. -/
theorem denote_zero_of_isRecGuard {t : Term} (guarded : Member.isRecGuard t = true)
    (I : Interpretation σ ν) (link : Linking σ)
    : t.denote I link (fun _ => 0) = .fail := by
  cases t with
  | recGuard m body => rfl
  | _ => cases guarded

end Term

-----------------------------------------------------------------------------------------
-- Interpreting definitions
-----------------------------------------------------------------------------------------

/-- The constants are interpreted by their definitions at every measure, and all else as in
`base`.
-/
structure Linking.Interprets (link : Linking σ) (I : Interpretation σ ν) (base : Linking σ)
    (defs : List (ConstId × Term)) : Prop where
  unused : link.unused = base.unused
  outside : ∀ ref, (∀ k ∈ defs.map Prod.fst, ref ≠ .const k) → link.callee ref = base.callee ref
  defines
    : ∀ k body,
        (k, body) ∈ defs → ∀ n, link.callee (.const k) n = body.denote I link fun _ => n

/-- Each constant is defined once. A definition with a call at the decremented measure is guarded,
and all other calls are of constants that are not among the defined ones.
-/
structure Stratified (defs : List (ConstId × Term)) : Prop where
  once : (defs.map Prod.fst).Nodup
  guarded
    : ∀ k body, (k, body) ∈ defs → ∀ callee ∈ body.callees, ∀ m,
        callee.measure = .pred m → Member.isRecGuard body = true
  outside
    : ∀ k body, (k, body) ∈ defs → ∀ callee ∈ body.callees,
        (∀ m, callee.measure ≠ .pred m) → ∀ j ∈ defs.map Prod.fst, callee.target ≠ .const j

namespace Linking

/-- The defined constants stand for the given computations at whatever measure. -/
def withConsts (base : Linking σ) (defs : List (ConstId × Term)) (consts : ConstId → Computation σ)
    : Linking σ where
  callee ref n :=
    match ref with
    | .const k => if k ∈ defs.map Prod.fst then consts k else base.callee (.const k) n
    | .placeholder p => base.callee (.placeholder p) n
  unused := base.unused

/-- The definitions at a measure, in terms of those at the measure before. -/
def level (I : Interpretation σ ν) (base : Linking σ) (defs : List (ConstId × Term))
    : Nat → ConstId → Computation σ
  | 0, k =>
      (((FiniteMap.ofList defs).find? k).getD .fail).denote I
        (base.withConsts defs fun _ => .fail) fun _ => 0
  | n + 1, k =>
      (((FiniteMap.ofList defs).find? k).getD .fail).denote I
        (base.withConsts defs (level I base defs n)) fun _ => n + 1

/-- The constants at every measure. -/
def define (I : Interpretation σ ν) (base : Linking σ) (defs : List (ConstId × Term))
    : Linking σ where
  callee ref n := (base.withConsts defs (level I base defs n)).callee ref n
  unused := base.unused

variable {I : Interpretation σ ν} {base : Linking σ} {defs : List (ConstId × Term)}

theorem withConsts_outside {ref : CalleeRef} (outside : ∀ k ∈ defs.map Prod.fst, ref ≠ .const k)
    (consts : ConstId → Computation σ) (n : Nat)
    : (base.withConsts defs consts).callee ref n = base.callee ref n := by
  cases ref with
  | placeholder p => rfl
  | const k =>
      refine if_neg ?_
      intro defined
      exact outside k defined rfl

/-- A callee that is passed the decremented measure means at a positive measure what it means at the
one before.
-/
theorem denote_pred_define {callee : Callee} {m : MeasureId} (passed : callee.measure = .pred m)
    (n : Nat)
    : callee.denote (base.withConsts defs (level I base defs n)) (fun _ => n + 1)
      = callee.denote (define I base defs) (fun _ => n + 1) := by
  obtain ⟨target, measure⟩ := callee
  cases passed
  rfl

/-- A callee that is not defined means the same whatever the defined constants stand for. -/
theorem denote_outside {callee : Callee} (passed : ∀ m, callee.measure ≠ .pred m)
    (outside : ∀ k ∈ defs.map Prod.fst, callee.target ≠ .const k)
    (consts : ConstId → Computation σ) (measures : MeasureId → Nat)
    : callee.denote (base.withConsts defs consts) measures
      = callee.denote (define I base defs) measures := by
  have same (n : Nat) : (base.withConsts defs consts).callee callee.target n
      = (define I base defs).callee callee.target n := by
    rw [withConsts_outside outside]
    exact (withConsts_outside outside _ n).symm
  obtain ⟨target, measure⟩ := callee
  cases measure with
  | pred m => exact absurd rfl (passed m)
  | managed => exact congrArg Computation.managed (funext same)
  | unused => exact same base.unused

/-- Stratified definitions can be interpreted. -/
theorem interprets_define (I : Interpretation σ ν) (base : Linking σ) (h : Stratified defs)
    : (define I base defs).Interprets I base defs where
  unused := rfl
  outside ref outside := funext fun n => withConsts_outside outside _ n
  defines k body defined n := by
    have found : (FiniteMap.ofList defs).find? k = some body :=
      (FiniteMap.find?_ofList_eq_some_iff (FiniteMap.functional_of_nodup h.once)).mpr defined
    have here : (define I base defs).callee (.const k) n = level I base defs n k :=
      if_pos (List.mem_map_of_mem defined)
    rw [here]
    cases n with
    | zero =>
        rw [level, found, Option.getD_some]
        -- a body with a recursive call fails on both sides
        by_cases guarded : Member.isRecGuard body = true
        · rw [Term.denote_zero_of_isRecGuard guarded, Term.denote_zero_of_isRecGuard guarded]
        · refine Term.denote_congr I ?_
          intro callee called
          have passed : ∀ m, callee.measure ≠ .pred m := fun m passed =>
            guarded (h.guarded k body defined callee called m passed)
          exact denote_outside passed (h.outside k body defined callee called passed) _ _
    | succ n =>
        rw [level, found, Option.getD_some]
        refine Term.denote_congr I ?_
        intro callee called
        by_cases recursive : ∃ m, callee.measure = .pred m
        · obtain ⟨m, passed⟩ := recursive
          exact denote_pred_define passed n
        · have passed := not_exists.mp recursive
          exact denote_outside passed (h.outside k body defined callee called passed) _ _

end Linking

end Monadize
