import Mathlib.Data.List.Basic
import Monadize.Expr.Basic

/-! The names in an expression: those that occur free, those that are bound, and those that are bound
around the free occurrences of a given name. Substitution replaces the free occurrences of a name
as they are, so it is the last ones that can get in its way.
-/

namespace Monadize

namespace Expr

mutual
def freeNames : Expr → List Name
  | .var x => [x]
  | .const _ => []
  | .num _ => []
  | .bool _ => []
  | .not e => e.freeNames
  | .and a b => a.freeNames ++ b.freeNames
  | .or a b => a.freeNames ++ b.freeNames
  | .eq a b => a.freeNames ++ b.freeNames
  | .app fn args => fn.freeNames ++ freeNamesAll args
  | .lam x _ body => body.freeNames.filter (· ≠ x)
  | .univ => []
  | .empty => []
  | .collect x body => body.freeNames.filter (· ≠ x)
  | .mem elem set => elem.freeNames ++ set.freeNames
  | .field state _ => state.freeNames
  | .update state _ value => state.freeNames ++ value.freeNames
  | .arbitrary => []

def freeNamesAll : List Expr → List Name
  | [] => []
  | e :: es => e.freeNames ++ freeNamesAll es
end

mutual
/-- The names bound in an expression, as often as they are. -/
def binders : Expr → List Name
  | .var _ => []
  | .const _ => []
  | .num _ => []
  | .bool _ => []
  | .not e => e.binders
  | .and a b => a.binders ++ b.binders
  | .or a b => a.binders ++ b.binders
  | .eq a b => a.binders ++ b.binders
  | .app fn args => fn.binders ++ bindersAll args
  | .lam x _ body => x :: body.binders
  | .univ => []
  | .empty => []
  | .collect x body => x :: body.binders
  | .mem elem set => elem.binders ++ set.binders
  | .field state _ => state.binders
  | .update state _ value => state.binders ++ value.binders
  | .arbitrary => []

def bindersAll : List Expr → List Name
  | [] => []
  | e :: es => e.binders ++ bindersAll es
end

mutual
/-- The names bound around free occurrences of `w`. -/
def enclosing (w : Name) : Expr → List Name
  | .var _ => []
  | .const _ => []
  | .num _ => []
  | .bool _ => []
  | .not e => e.enclosing w
  | .and a b => a.enclosing w ++ b.enclosing w
  | .or a b => a.enclosing w ++ b.enclosing w
  | .eq a b => a.enclosing w ++ b.enclosing w
  | .app fn args => fn.enclosing w ++ enclosingAll w args
  | .lam x _ body => if x ≠ w ∧ w ∈ body.freeNames then x :: body.enclosing w else []
  | .univ => []
  | .empty => []
  | .collect x body => if x ≠ w ∧ w ∈ body.freeNames then x :: body.enclosing w else []
  | .mem elem set => elem.enclosing w ++ set.enclosing w
  | .field state _ => state.enclosing w
  | .update state _ value => state.enclosing w ++ value.enclosing w
  | .arbitrary => []

def enclosingAll (w : Name) : List Expr → List Name
  | [] => []
  | e :: es => e.enclosing w ++ enclosingAll w es
end

attribute [local simp] freeNames freeNamesAll binders bindersAll enclosing enclosingAll

theorem mem_freeNamesAll {w : Name} {es : List Expr}
    : w ∈ freeNamesAll es ↔ ∃ e ∈ es, w ∈ e.freeNames := by
  induction es with
  | nil => simp [freeNamesAll]
  | cons e es ih => simp [freeNamesAll, ih]

theorem mem_bindersAll {w : Name} {es : List Expr}
    : w ∈ bindersAll es ↔ ∃ e ∈ es, w ∈ e.binders := by
  induction es with
  | nil => simp [bindersAll]
  | cons e es ih => simp [bindersAll, ih]

theorem sublist_bindersAll {e : Expr} {es : List Expr} (among : e ∈ es)
    : e.binders.Sublist (bindersAll es) := by
  induction es with
  | nil => cases among
  | cons first es ih =>
      rcases List.mem_cons.mp among with rfl | later
      · exact List.sublist_append_left _ _
      · exact (ih later).trans (List.sublist_append_right _ _)

theorem mem_enclosingAll {w y : Name} {es : List Expr}
    : y ∈ enclosingAll w es ↔ ∃ e ∈ es, y ∈ e.enclosing w := by
  induction es with
  | nil => simp [enclosingAll]
  | cons e es ih => simp [enclosingAll, ih]

/-- Something is bound around free occurrences only if there are some. -/
theorem mem_freeNames_of_enclosing {e : Expr} {w y : Name} (around : y ∈ e.enclosing w)
    : w ∈ e.freeNames := by
  induction e with
  | var | const | num | bool | univ | empty | arbitrary => simp [enclosing] at around
  | not e ih | field e _ ih => exact ih around
  | and a b iha ihb | or a b iha ihb | eq a b iha ihb | mem a b iha ihb | update a _ b iha ihb =>
      simp only [enclosing, List.mem_append] at around
      simp only [freeNames, List.mem_append]
      exact around.imp iha ihb
  | app fn args ihf ihargs =>
      simp only [enclosing, List.mem_append, mem_enclosingAll] at around
      simp only [freeNames, List.mem_append, mem_freeNamesAll]
      refine around.imp ihf ?_
      rintro ⟨arg, among, inside⟩
      exact ⟨arg, among, ihargs arg among inside⟩
  | lam x _ body ih | collect x body ih =>
      simp only [enclosing] at around
      split at around
      · next both => simpa [freeNames] using ⟨both.2, Ne.symm both.1⟩
      · cases around

theorem mem_binders_of_enclosing {e : Expr} {w y : Name} (around : y ∈ e.enclosing w)
    : y ∈ e.binders := by
  induction e with
  | var | const | num | bool | univ | empty | arbitrary => simp [enclosing] at around
  | not e ih | field e _ ih => exact ih around
  | and a b iha ihb | or a b iha ihb | eq a b iha ihb | mem a b iha ihb | update a _ b iha ihb =>
      simp only [enclosing, List.mem_append] at around
      simp only [binders, List.mem_append]
      exact around.imp iha ihb
  | app fn args ihf ihargs =>
      simp only [enclosing, List.mem_append, mem_enclosingAll] at around
      simp only [binders, List.mem_append, mem_bindersAll]
      refine around.imp ihf ?_
      rintro ⟨arg, among, inside⟩
      exact ⟨arg, among, ihargs arg among inside⟩
  | lam x _ body ih | collect x body ih =>
      simp only [enclosing] at around
      split at around
      · rcases List.mem_cons.mp around with rfl | inside
        · exact List.mem_cons_self
        · exact List.mem_cons_of_mem x (ih inside)
      · cases around

-----------------------------------------------------------------------------------------
-- Substitution
-----------------------------------------------------------------------------------------

theorem mem_freeNames_subst {e value : Expr} {x w : Name} (free : w ∈ (e.subst x value).freeNames)
    : w ∈ e.freeNames ∧ w ≠ x ∨ w ∈ value.freeNames := by
  induction e with
  | var y =>
      by_cases same : y = x
      · simp only [subst, same, if_true] at free
        exact .inr free
      · simp only [subst, same, if_false, freeNames, List.mem_singleton] at free
        subst free
        exact .inl ⟨List.mem_singleton.mpr rfl, same⟩
  | const | num | bool | univ | empty | arbitrary => cases free
  | not e ih | field e _ ih => exact ih free
  | and a b iha ihb | or a b iha ihb | eq a b iha ihb | mem a b iha ihb | update a _ b iha ihb =>
      simp only [subst, freeNames, List.mem_append] at free ⊢
      rcases free with left | right
      · exact (iha left).imp_left fun both => ⟨.inl both.1, both.2⟩
      · exact (ihb right).imp_left fun both => ⟨.inr both.1, both.2⟩
  | app fn args ihf ihargs =>
      simp only [subst, freeNames, List.mem_append, mem_freeNamesAll, substAll_eq_map,
        List.mem_map] at free ⊢
      rcases free with left | ⟨_, ⟨arg, among, rfl⟩, inside⟩
      · exact (ihf left).imp_left fun both => ⟨.inl both.1, both.2⟩
      · exact (ihargs arg among inside).imp_left
          fun both => ⟨.inr ⟨arg, among, both.1⟩, both.2⟩
  | lam y _ body ih | collect y body ih =>
      by_cases same : y = x
      · simp only [subst, same, if_true] at free
        simp only [freeNames, List.mem_filter, decide_eq_true_eq] at free
        simp only [freeNames, List.mem_filter, decide_eq_true_eq, same]
        exact .inl ⟨free, free.2⟩
      · simp only [subst, same, if_false, freeNames, List.mem_filter, decide_eq_true_eq] at free ⊢
        exact (ih free.1).imp_left fun both => ⟨⟨both.1, free.2⟩, both.2⟩

theorem mem_binders_subst {e value : Expr} {x w : Name} (bound : w ∈ (e.subst x value).binders)
    : w ∈ e.binders ∨ w ∈ value.binders := by
  induction e with
  | var y =>
      by_cases same : y = x
      · simp only [subst, same, if_true] at bound
        exact .inr bound
      · simp [subst, same, binders] at bound
  | const | num | bool | univ | empty | arbitrary => cases bound
  | not e ih | field e _ ih => exact ih bound
  | and a b iha ihb | or a b iha ihb | eq a b iha ihb | mem a b iha ihb | update a _ b iha ihb =>
      simp only [subst, binders, List.mem_append] at bound ⊢
      rcases bound with left | right
      · exact (iha left).imp_left .inl
      · exact (ihb right).imp_left .inr
  | app fn args ihf ihargs =>
      simp only [subst, binders, List.mem_append, mem_bindersAll, substAll_eq_map,
        List.mem_map] at bound ⊢
      rcases bound with left | ⟨_, ⟨arg, among, rfl⟩, inside⟩
      · exact (ihf left).imp_left .inl
      · exact (ihargs arg among inside).imp_left fun here => .inr ⟨arg, among, here⟩
  | lam y _ body ih | collect y body ih =>
      by_cases same : y = x
      · simp only [subst, same, if_true] at bound
        rw [same]
        exact .inl bound
      · simp only [subst, same, if_false, binders, List.mem_cons] at bound ⊢
        rcases bound with here | inside
        · exact .inl (.inl here)
        · exact (ih inside).imp_left .inr

end Expr

end Monadize
