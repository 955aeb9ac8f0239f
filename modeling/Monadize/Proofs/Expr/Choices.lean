import Monadize.Predicate
import Monadize.Proofs.Expr.Denotation

/-! What expressions can mean if the unspecified value is left open: each occurrence of it stands
for any value, and all else is as in the denotation.
-/

namespace Monadize

namespace Expr

mutual
/-- The unspecified value does not occur. -/
def Specified : Expr → Prop
  | .not e => e.Specified
  | .and a b => a.Specified ∧ b.Specified
  | .or a b => a.Specified ∧ b.Specified
  | .eq a b => a.Specified ∧ b.Specified
  | .app fn args => fn.Specified ∧ SpecifiedAll args
  | .lam _ _ body => body.Specified
  | .collect _ body => body.Specified
  | .mem elem set => elem.Specified ∧ set.Specified
  | .field state _ => state.Specified
  | .update state _ value => state.Specified ∧ value.Specified
  | .arbitrary => False
  | _ => True

def SpecifiedAll : List Expr → Prop
  | [] => True
  | e :: es => e.Specified ∧ SpecifiedAll es
end

theorem SpecifiedAll.of_mem {es : List Expr} (all : SpecifiedAll es) {e : Expr} (among : e ∈ es)
    : e.Specified := by
  induction es with
  | nil => cases among
  | cons first rest ih =>
      obtain ⟨here, later⟩ := all
      rcases List.mem_cons.mp among with rfl | among
      · exact here
      · exact ih later among

variable {α ω : Type} {schema : Schema α}

theorem State.set_get (s : State schema) (name : Name)
    : s.set name (s.get name) (s.fits name) = s := by
  obtain ⟨get, fits⟩ := s
  simp only [set, Function.update_eq_self]

namespace Model

variable (M : Model schema ω)

open Classical in
mutual
/-- The expression can have the value. An argument gets its value before it is bound, and the body
of an abstraction gets one for each state.
-/
def Possible : Expr → Valuation schema ω → Value schema ω → Prop
  | .var x, ρ, v => v = ρ x
  | .const c, _, v => M.const c = some v
  | .num n, _, v => v = .base (.num n)
  | .bool b, _, v => v = .truth b
  | .not e, ρ, v => ∃ b, Possible e ρ (.truth b) ∧ v = .truth (!b)
  | .and a b, ρ, v =>
      ∃ p q, Possible a ρ (.truth p) ∧ Possible b ρ (.truth q) ∧ v = .truth (p && q)
  | .or a b, ρ, v =>
      ∃ p q, Possible a ρ (.truth p) ∧ Possible b ρ (.truth q) ∧ v = .truth (p || q)
  | .eq a b, ρ, v =>
      ∃ p q, Possible a ρ p ∧ Possible b ρ q ∧ p.kind = q.kind ∧ v = .truth (decide (p = q))
  | .app fn args, ρ, v =>
      match fn, args with
      | .lam x _ body, [arg] => ∃ w, Possible arg ρ w ∧ Possible body (Function.update ρ x w) v
      | fn, args => ∃ f vs, Possible fn ρ f ∧ PossibleAll args ρ vs ∧ M.apply f vs = some v
  | .lam x _ body, ρ, v =>
      ∃ f, (∀ s, Possible body (Function.update ρ x (.state s)) (f s)) ∧ v = .fn f
  | .univ, _, v => v = .set fun _ => true
  | .empty, _, v => v = .set fun _ => false
  | .collect x body, ρ, v =>
      ∃ members,
        (∀ s, Possible body (Function.update ρ x (.state s)) (.truth (members s)))
        ∧ v = .set members
  | .mem elem set, ρ, v =>
      ∃ s members,
        Possible elem ρ (.state s) ∧ Possible set ρ (.set members) ∧ v = .truth (members s)
  | .field state name, ρ, v => ∃ s, Possible state ρ (.state s) ∧ v = .base (s.get name)
  | .update state name value, ρ, v =>
      ∃ s b fit,
        Possible state ρ (.state s) ∧ Possible value ρ (.base b) ∧ v = .state (s.set name b fit)
  | .arbitrary, _, _ => True

def PossibleAll : List Expr → Valuation schema ω → List (Value schema ω) → Prop
  | [], _, vs => vs = []
  | e :: es, ρ, vs => ∃ w ws, Possible e ρ w ∧ PossibleAll es ρ ws ∧ vs = w :: ws
end

attribute [local simp] Possible PossibleAll

/-- A state transformer can take the state `s` to the state `t`. -/
def Leads (f : Expr) (ρ : Valuation schema ω) (s t : State schema) : Prop :=
  ∃ g, M.Possible f ρ g ∧ M.apply g [.state s] = some (.state t)

variable {M} {ρ : Valuation schema ω}

-----------------------------------------------------------------------------------------
-- Specified expressions
-----------------------------------------------------------------------------------------

theorem possible_app {fn : Expr} {args : List Expr} (stuck : isRedex fn args.length = false)
    {v : Value schema ω}
    : M.Possible (.app fn args) ρ v
      ↔ ∃ f vs, M.Possible fn ρ f ∧ M.PossibleAll args ρ vs ∧ M.apply f vs = some v := by
  rw [Possible]
  intro x type body arg same single
  subst same single
  cases stuck

theorem possibleAll_iff_denote {es : List Expr}
    (each : ∀ e ∈ es, ∀ v, M.Possible e ρ v ↔ M.denote e ρ = some v) {vs : List (Value schema ω)}
    : M.PossibleAll es ρ vs ↔ List.Forall₂ (fun e v => M.denote e ρ = some v) es vs := by
  induction es generalizing vs with
  | nil => simp
  | cons e es ih =>
      obtain ⟨first, others⟩ := List.forall_mem_cons.mp each
      simp only [PossibleAll, first, ih others, List.forall₂_cons_left_iff]

/-- A specified expression can only have the value that it denotes, by induction on it. -/
theorem possible_iff_denote {e : Expr} (specified : e.Specified) {v : Value schema ω}
    : M.Possible e ρ v ↔ M.denote e ρ = some v := by
  induction e using redexInduction generalizing ρ v with
  | var | num | bool | univ | empty => simp [denote, eq_comm]
  | const c => rw [Possible, denote]
  | not e ih => simp only [Possible, denote_not, ih specified]
  | and a b iha ihb => simp only [Possible, denote_and, iha specified.1, ihb specified.2]
  | or a b iha ihb => simp only [Possible, denote_or, iha specified.1, ihb specified.2]
  | eq a b iha ihb => simp only [Possible, denote_eq, iha specified.1, ihb specified.2]
  | redex x type body arg ihbody iharg =>
      obtain ⟨function, operand, _⟩ := specified
      simp only [Possible, denote_redex, ihbody function, iharg operand]
  | app fn args stuck ihf ihargs =>
      obtain ⟨function, operands⟩ := specified
      have each (arg : Expr) (among : arg ∈ args) (v : Value schema ω)
          : M.Possible arg ρ v ↔ M.denote arg ρ = some v :=
        ihargs arg among (operands.of_mem among)
      simp only [possible_app stuck, denote_app stuck, ihf function, possibleAll_iff_denote each]
  | lam x type body ih => simp only [Possible, denote_lam, ih specified]
  | collect x body ih => simp only [Possible, denote_collect, ih specified]
  | mem elem set iha ihb => simp only [Possible, denote_mem, iha specified.1, ihb specified.2]
  | field state name ih => simp only [Possible, denote_field, ih specified]
  | update state name value iha ihb =>
      simp only [Possible, denote_update, iha specified.1, ihb specified.2]
  | arbitrary => exact specified.elim

theorem leads_iff_denote {f : Expr} (specified : f.Specified) {s t : State schema}
    : M.Leads f ρ s t
      ↔ (M.denote f ρ).bind (fun g => M.apply g [.state s]) = some (.state t) := by
  simp only [Leads, possible_iff_denote specified, Option.bind_eq_some_iff]

-----------------------------------------------------------------------------------------
-- Initializing a component
-----------------------------------------------------------------------------------------

/-- An unspecified component can get every value that it can hold, and nothing else changes. -/
theorem leads_returnInit_iff {world slot : Name} {s t : State schema}
    : M.Leads (returnInit world slot) ρ s t ↔ ∃ b fit, t = s.set slot b fit := by
  constructor
  · intro ⟨g, ⟨f, bodies, same⟩, applied⟩
    subst same
    obtain ⟨s', b, fit, here, _, value⟩ := bodies s
    rw [Possible, Function.update_self] at here
    cases here
    cases (Option.some.inj applied).symm.trans value
    exact ⟨b, fit, rfl⟩
  · intro ⟨b, fit, same⟩
    subst same
    refine ⟨.fn fun s => .state (s.set slot b fit), ⟨_, fun s => ?_, rfl⟩, rfl⟩
    exact ⟨s, b, fit, by rw [Possible, Function.update_self], trivial, rfl⟩

end Model

end Expr

end Monadize
