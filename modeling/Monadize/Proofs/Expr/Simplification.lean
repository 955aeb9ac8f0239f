import Mathlib.Data.List.Forall2
import Monadize.Expr.Simplify
import Monadize.Proofs.Except
import Monadize.Proofs.Expr.Names

/-! Simplification as a relation: `Simplifies e r` says that the recursion on `e` is finite and
returns `r`, with one rule for each way a node can go. Every result is in normal form, and an
expression in normal form is its own result.
-/

namespace Monadize

/-- Every item is taken to its result exactly if the two lists match pairwise. -/
theorem mapM_eq_some_iff {α β : Type} {step : α → Option β} {items : List α} {results : List β}
    : items.mapM step = some results ↔ List.Forall₂ (fun a b => step a = some b) items results := by
  induction items generalizing results with
  | nil => simp [eq_comm]
  | cons item items ih =>
      simp only [List.mapM_cons, Option.bind_eq_bind, Option.pure_def, Option.bind_eq_some_iff, ih,
        Option.some.injEq, List.forall₂_cons_left_iff]
      constructor
      · rintro ⟨first, found, others, matched, rfl⟩
        exact ⟨first, others, found, matched, rfl⟩
      · rintro ⟨first, others, found, matched, rfl⟩
        exact ⟨first, found, others, matched, rfl⟩

theorem exists_zipped {α β : Type} {left : List α} {right : List β}
    (length : left.length = right.length) {b : β} (among : b ∈ right)
    : ∃ a ∈ left, (a, b) ∈ left.zip right := by
  have zipped : List.Forall₂ (fun a b => (a, b) ∈ left.zip right) left right :=
    List.forall₂_iff_zip.mpr ⟨length, id⟩
  exact exists_left_of_mem zipped among

/-- Two lists that are related to a third one, element by element. -/
theorem related_of_common {α β γ : Type} {R : α → β → Prop} {Q : α → γ → Prop} {P : γ → β → Prop}
    {items : List α} {left : List β} {right : List γ}
    (each : ∀ a ∈ items, ∀ b c, R a b → Q a c → P c b) (first : List.Forall₂ R items left)
    (second : List.Forall₂ Q items right)
    : List.Forall₂ P right left := by
  induction first generalizing right with
  | nil =>
      cases second
      exact .nil
  | @cons a b _ _ here _ ih =>
      cases second with
      | cons there others =>
          refine .cons (each a List.mem_cons_self b _ here there) (ih ?_ others)
          exact fun a among => each a (List.mem_cons_of_mem _ among)

namespace Expr

/-- An abstraction that meets a single argument. -/
def isRedex : (fn : Expr) → (arity : Nat) → Bool
  | .lam _ _ _, 1 => true
  | _, _ => false

/-- The sets in which membership is decided or unfolded. -/
def isSetForm : Expr → Bool
  | .univ => true
  | .empty => true
  | .collect _ _ => true
  | _ => false

def isUpdate : Expr → Bool
  | .update _ _ _ => true
  | _ => false

/-- The recursion of simplification on the first expression is finite, with the second as its
result. -/
inductive Simplifies : Expr → Expr → Prop
  | var (x) : Simplifies (.var x) (.var x)
  | const (c) : Simplifies (.const c) (.const c)
  | num (n) : Simplifies (.num n) (.num n)
  | bool (b) : Simplifies (.bool b) (.bool b)
  | univ : Simplifies .univ .univ
  | empty : Simplifies .empty .empty
  | arbitrary : Simplifies .arbitrary .arbitrary
  | not {e e'} (part : Simplifies e e') : Simplifies (.not e) (foldNot e')
  | and {a a' b b'} (left : Simplifies a a') (right : Simplifies b b')
    : Simplifies (.and a b) (foldAnd a' b')
  | or {a a' b b'} (left : Simplifies a a') (right : Simplifies b b')
    : Simplifies (.or a b) (foldOr a' b')
  | eq {a a' b b'} (left : Simplifies a a') (right : Simplifies b b')
    : Simplifies (.eq a b) (foldEq a' b')
  | beta {fn x type body arg arg' r} (head : Simplifies fn (.lam x type body))
    (operand : Simplifies arg arg') (reduct : Simplifies (body.subst x arg') r)
    : Simplifies (.app fn [arg]) r
  | app {fn fn' args args'} (head : Simplifies fn fn') (stuck : isRedex fn' args.length = false)
    (length : args.length = args'.length)
    (operands : ∀ pair ∈ args.zip args', Simplifies pair.1 pair.2)
    : Simplifies (.app fn args) (.app fn' args')
  | lam {x type body body'} (part : Simplifies body body')
    : Simplifies (.lam x type body) (.lam x type body')
  | collect {x body body'} (part : Simplifies body body')
    : Simplifies (.collect x body) (foldCollect x body')
  | memUniv {elem set} (form : Simplifies set .univ) : Simplifies (.mem elem set) (.bool true)
  | memEmpty {elem set} (form : Simplifies set .empty) : Simplifies (.mem elem set) (.bool false)
  | memCollect {elem set x body r} (form : Simplifies set (.collect x body))
    (reduct : Simplifies (body.subst x elem) r)
    : Simplifies (.mem elem set) r
  | mem {elem elem' set set'} (form : Simplifies set set') (stuck : isSetForm set' = false)
    (part : Simplifies elem elem')
    : Simplifies (.mem elem set) (.mem elem' set')
  | fieldSame {state inner name value} (form : Simplifies state (.update inner name value))
    : Simplifies (.field state name) value
  | fieldOther {state inner other value name r} (form : Simplifies state (.update inner other value))
    (differ : other ≠ name) (inside : Simplifies (.field inner name) r)
    : Simplifies (.field state name) r
  | field {state state' name} (form : Simplifies state state') (stuck : isUpdate state' = false)
    : Simplifies (.field state name) (.field state' name)
  | update {state state' name value value'} (left : Simplifies state state')
    (right : Simplifies value value')
    : Simplifies (.update state name value) (.update state' name value')

theorem Simplifies.apply {fn fn' : Expr} {args args' : List Expr} (head : Simplifies fn fn')
    (stuck : isRedex fn' args.length = false) (operands : List.Forall₂ Simplifies args args')
    : Simplifies (.app fn args) (.app fn' args') :=
  .app head stuck operands.length_eq fun _ among => (List.forall₂_iff_zip.mp operands).2 among

/-- Soundness of the rules' shape: what the bounded recursion returns, the relation has, by
induction on the bound.
-/
theorem Simplifies.of_simplify? {depth : Nat} {e r : Expr} (done : simplify? depth e = some r)
    : Simplifies e r := by
  induction depth generalizing e r with
  | zero => cases done
  | succ depth ih =>
      cases e with
      | var | const | num | bool | univ | empty | arbitrary =>
          cases done
          constructor
      | not e =>
          simp only [simplify?, Option.bind_eq_bind, Option.pure_def, Option.bind_eq_some_iff,
            Option.some.injEq] at done
          obtain ⟨e', part, rfl⟩ := done
          exact .not (ih part)
      | and a b =>
          simp only [simplify?, Option.bind_eq_bind, Option.pure_def, Option.bind_eq_some_iff,
            Option.some.injEq] at done
          obtain ⟨a', left, b', right, rfl⟩ := done
          exact .and (ih left) (ih right)
      | or a b =>
          simp only [simplify?, Option.bind_eq_bind, Option.pure_def, Option.bind_eq_some_iff,
            Option.some.injEq] at done
          obtain ⟨a', left, b', right, rfl⟩ := done
          exact .or (ih left) (ih right)
      | eq a b =>
          simp only [simplify?, Option.bind_eq_bind, Option.pure_def, Option.bind_eq_some_iff,
            Option.some.injEq] at done
          obtain ⟨a', left, b', right, rfl⟩ := done
          exact .eq (ih left) (ih right)
      | app fn args =>
          simp only [simplify?, Option.bind_eq_bind, Option.bind_eq_some_iff] at done
          obtain ⟨fn', head, done⟩ := done
          split at done
          · obtain ⟨arg', operand, reduct⟩ := Option.bind_eq_some_iff.mp done
            exact .beta (ih head) (ih operand) (ih reduct)
          · next stuck =>
              simp only [Option.pure_def, Option.bind_eq_some_iff, Option.some.injEq,
                mapM_eq_some_iff] at done
              obtain ⟨args', operands, rfl⟩ := done
              refine .apply (ih head) ?_ (operands.imp fun _ _ => ih)
              unfold isRedex
              split
              · next x type body single =>
                  obtain ⟨arg, rfl⟩ := List.length_eq_one_iff.mp single
                  exact (stuck x type body arg rfl rfl).elim
              · rfl
      | lam x type body =>
          simp only [simplify?, Option.bind_eq_bind, Option.pure_def, Option.bind_eq_some_iff,
            Option.some.injEq] at done
          obtain ⟨body', part, rfl⟩ := done
          exact .lam (ih part)
      | collect x body =>
          simp only [simplify?, Option.bind_eq_bind, Option.pure_def, Option.bind_eq_some_iff,
            Option.some.injEq] at done
          obtain ⟨body', part, rfl⟩ := done
          exact .collect (ih part)
      | mem elem set =>
          simp only [simplify?, Option.bind_eq_bind, Option.bind_eq_some_iff] at done
          obtain ⟨set', form, done⟩ := done
          split at done
          · cases done
            exact .memUniv (ih form)
          · cases done
            exact .memEmpty (ih form)
          · exact .memCollect (ih form) (ih done)
          · next noUniv noEmpty noCollect =>
              simp only [Option.pure_def, Option.bind_eq_some_iff, Option.some.injEq] at done
              obtain ⟨elem', part, rfl⟩ := done
              refine .mem (ih form) ?_ (ih part)
              unfold isSetForm
              split
              · exact (noUniv rfl).elim
              · exact (noEmpty rfl).elim
              · next x body => exact (noCollect x body rfl).elim
              · rfl
      | field state name =>
          simp only [simplify?, Option.bind_eq_bind, Option.bind_eq_some_iff] at done
          obtain ⟨state', form, done⟩ := done
          split at done
          · next inner other value =>
              by_cases same : other = name
              · subst same
                rw [if_pos rfl] at done
                cases done
                exact .fieldSame (ih form)
              · rw [if_neg same] at done
                exact .fieldOther (ih form) same (ih done)
          · next noUpdate =>
              cases done
              refine .field (ih form) ?_
              unfold isUpdate
              split
              · next inner other value => exact (noUpdate inner other value rfl).elim
              · rfl
      | update state name value =>
          simp only [simplify?, Option.bind_eq_bind, Option.pure_def, Option.bind_eq_some_iff,
            Option.some.injEq] at done
          obtain ⟨state', left, value', right, rfl⟩ := done
          exact .update (ih left) (ih right)

/-- A bound for what holds one level deeper is a bound for what holds. -/
theorem exists_bound_of_succ {P : Nat → Prop} (least : Nat)
    (deeper : ∀ depth, least ≤ depth → P (depth + 1))
    : ∃ least, ∀ depth, least ≤ depth → P depth := by
  refine ⟨least + 1, fun depth enough => ?_⟩
  obtain ⟨depth, rfl⟩ := Nat.exists_eq_add_of_le' (Nat.le_of_add_left_le enough)
  exact deeper depth (by omega)

theorem exists_common_bound {α : Type} {P : α → Nat → Prop} {items : List α}
    (each : ∀ item ∈ items, ∃ least, ∀ depth, least ≤ depth → P item depth)
    : ∃ least, ∀ depth, least ≤ depth → ∀ item ∈ items, P item depth := by
  induction items with
  | nil => exact ⟨0, fun _ _ _ among => nomatch among⟩
  | cons item items ih =>
      obtain ⟨m, first⟩ := each item List.mem_cons_self
      obtain ⟨n, others⟩ := ih fun item among => each item (List.mem_cons_of_mem _ among)
      refine ⟨m + n, fun depth enough => List.forall_mem_cons.mpr ⟨?_, ?_⟩⟩
      · exact first depth (by omega)
      · exact others depth (by omega)

/-- Completeness: a finite recursion fits into every depth from some point on, by induction on the
relation.
-/
theorem Simplifies.eventually {e r : Expr} (h : Simplifies e r)
    : ∃ least, ∀ depth, least ≤ depth → simplify? depth e = some r := by
  induction h with
  | var | const | num | bool | univ | empty | arbitrary =>
      exact exists_bound_of_succ 0 fun depth _ => rfl
  | not _ ih | collect _ ih | lam _ ih | memUniv _ ih | memEmpty _ ih | fieldSame _ ih =>
      obtain ⟨least, returns⟩ := ih
      refine exists_bound_of_succ least fun depth enough => ?_
      simp [simplify?, returns depth enough]
  | and _ _ iha ihb | or _ _ iha ihb | eq _ _ iha ihb | update _ _ iha ihb
  | memCollect _ _ iha ihb =>
      obtain ⟨m, left⟩ := iha
      obtain ⟨n, right⟩ := ihb
      refine exists_bound_of_succ (m + n) fun depth enough => ?_
      simp [simplify?, left depth (by omega), right depth (by omega)]
  | beta _ _ _ ihf iharg ihr =>
      obtain ⟨m, head⟩ := ihf
      obtain ⟨n, operand⟩ := iharg
      obtain ⟨k, reduct⟩ := ihr
      refine exists_bound_of_succ (m + n + k) fun depth enough => ?_
      simp [simplify?, head depth (by omega), operand depth (by omega), reduct depth (by omega)]
  | @app _ fn' args args' _ stuck length _ ihf ihargs =>
      obtain ⟨m, head⟩ := ihf
      obtain ⟨n, operands⟩ := exists_common_bound ihargs
      refine exists_bound_of_succ (m + n) fun depth enough => ?_
      have all : args.mapM (simplify? depth) = some args' := by
        rw [mapM_eq_some_iff, List.forall₂_iff_zip]
        exact ⟨length, fun among => operands depth (by omega) _ among⟩
      simp only [simplify?, head depth (by omega), Option.bind_eq_bind, Option.bind_some]
      split
      · cases stuck
      · rw [all]
        rfl
  | @mem _ _ _ set' _ stuck _ ihset ihelem =>
      obtain ⟨m, form⟩ := ihset
      obtain ⟨n, part⟩ := ihelem
      refine exists_bound_of_succ (m + n) fun depth enough => ?_
      simp only [simplify?, form depth (by omega), part depth (by omega), Option.bind_eq_bind,
        Option.bind_some]
      split
      · cases stuck
      · cases stuck
      · cases stuck
      · rfl
  | fieldOther _ differ _ ihform ihinside =>
      obtain ⟨m, form⟩ := ihform
      obtain ⟨n, inside⟩ := ihinside
      refine exists_bound_of_succ (m + n) fun depth enough => ?_
      simp [simplify?, form depth (by omega), inside depth (by omega), differ]
  | field _ stuck ih =>
      obtain ⟨m, form⟩ := ih
      refine exists_bound_of_succ m fun depth enough => ?_
      simp only [simplify?, form depth enough, Option.bind_eq_bind, Option.bind_some]
      split
      · cases stuck
      · rfl

/-- Two finite recursions on one expression fit into a common depth, so they return the same. -/
theorem Simplifies.unique {e r r' : Expr} (first : Simplifies e r) (second : Simplifies e r')
    : r = r' := by
  obtain ⟨m, left⟩ := first.eventually
  obtain ⟨n, right⟩ := second.eventually
  have same := (left (m + n) (by omega)).symm.trans (right (m + n) (by omega))
  exact Option.some.inj same

-----------------------------------------------------------------------------------------
-- Normal forms
-----------------------------------------------------------------------------------------

/-- No law applies at any node. -/
inductive IsNormal : Expr → Prop
  | var (x) : IsNormal (.var x)
  | const (c) : IsNormal (.const c)
  | num (n) : IsNormal (.num n)
  | bool (b) : IsNormal (.bool b)
  | univ : IsNormal .univ
  | empty : IsNormal .empty
  | arbitrary : IsNormal .arbitrary
  | not {e} (part : IsNormal e) (stuck : foldNot e = .not e) : IsNormal (.not e)
  | and {a b} (left : IsNormal a) (right : IsNormal b) (stuck : foldAnd a b = .and a b)
    : IsNormal (.and a b)
  | or {a b} (left : IsNormal a) (right : IsNormal b) (stuck : foldOr a b = .or a b)
    : IsNormal (.or a b)
  | eq {a b} (left : IsNormal a) (right : IsNormal b) (stuck : foldEq a b = .eq a b)
    : IsNormal (.eq a b)
  | app {fn args} (head : IsNormal fn) (operands : ∀ arg ∈ args, IsNormal arg)
    (stuck : isRedex fn args.length = false)
    : IsNormal (.app fn args)
  | lam {x type body} (part : IsNormal body) : IsNormal (.lam x type body)
  | collect {x body} (part : IsNormal body) (stuck : foldCollect x body = .collect x body)
    : IsNormal (.collect x body)
  | mem {elem set} (part : IsNormal elem) (form : IsNormal set) (stuck : isSetForm set = false)
    : IsNormal (.mem elem set)
  | field {state name} (form : IsNormal state) (stuck : isUpdate state = false)
    : IsNormal (.field state name)
  | update {state name value} (left : IsNormal state) (right : IsNormal value)
    : IsNormal (.update state name value)

theorem IsNormal.lam_body {x : Name} {type : Option Name} {body : Expr}
    (h : (Expr.lam x type body).IsNormal)
    : body.IsNormal := by
  cases h with
  | lam part => exact part

theorem IsNormal.collect_body {x : Name} {body : Expr} (h : (Expr.collect x body).IsNormal)
    : body.IsNormal := by
  cases h with
  | collect part _ => exact part

/-! What can become of a node over simplified parts. -/

theorem foldNot_cases (e : Expr)
    : foldNot e = .not e ∨ (∃ b, foldNot e = .bool b) ∨ e = .not (foldNot e) := by
  unfold foldNot
  split
  · next b => exact .inr (.inl ⟨!b, rfl⟩)
  · exact .inr (.inr rfl)
  · exact .inl rfl

theorem foldAnd_cases (a b : Expr)
    : foldAnd a b = .and a b ∨ (∃ c, foldAnd a b = .bool c) ∨ foldAnd a b = a ∨ foldAnd a b = b := by
  unfold foldAnd
  split_ifs
  · exact .inr (.inr (.inr rfl))
  · exact .inr (.inr (.inl rfl))
  · exact .inr (.inl ⟨false, rfl⟩)
  · exact .inr (.inr (.inl rfl))
  · exact .inl rfl

theorem foldOr_cases (a b : Expr)
    : foldOr a b = .or a b ∨ (∃ c, foldOr a b = .bool c) ∨ foldOr a b = a ∨ foldOr a b = b := by
  unfold foldOr
  split_ifs
  · exact .inr (.inr (.inr rfl))
  · exact .inr (.inr (.inl rfl))
  · exact .inr (.inl ⟨true, rfl⟩)
  · exact .inr (.inr (.inl rfl))
  · exact .inl rfl

theorem foldEq_cases (a b : Expr) : foldEq a b = .eq a b ∨ ∃ c, foldEq a b = .bool c := by
  unfold foldEq
  split_ifs
  · exact .inr ⟨true, rfl⟩
  · split
    · exact .inr ⟨false, rfl⟩
    · exact .inl rfl

theorem foldCollect_cases (x : Name) (body : Expr)
    : foldCollect x body = .collect x body ∨ foldCollect x body = .univ
      ∨ foldCollect x body = .empty := by
  unfold foldCollect
  split
  · exact .inr (.inl rfl)
  · exact .inr (.inr rfl)
  · exact .inl rfl

/-- Every result is in normal form, by induction on the relation: a reduct is a result itself, and
a node that is kept is one on which its law does nothing.
-/
theorem Simplifies.isNormal {e r : Expr} (h : Simplifies e r) : r.IsNormal := by
  induction h with
  | var | const | num | bool | univ | empty | arbitrary => constructor
  | @not _ e' _ ih =>
      rcases foldNot_cases e' with kept | ⟨b, value⟩ | inner
      · rw [kept]
        exact .not ih kept
      · rw [value]
        exact .bool b
      · rw [inner] at ih
        cases ih with
        | not part _ => exact part
  | @and _ a' _ b' _ _ iha ihb =>
      rcases foldAnd_cases a' b' with kept | ⟨c, value⟩ | left | right
      · rw [kept]
        exact .and iha ihb kept
      · rw [value]
        exact .bool c
      · rwa [left]
      · rwa [right]
  | @or _ a' _ b' _ _ iha ihb =>
      rcases foldOr_cases a' b' with kept | ⟨c, value⟩ | left | right
      · rw [kept]
        exact .or iha ihb kept
      · rw [value]
        exact .bool c
      · rwa [left]
      · rwa [right]
  | @eq _ a' _ b' _ _ iha ihb =>
      rcases foldEq_cases a' b' with kept | ⟨c, value⟩
      · rw [kept]
        exact .eq iha ihb kept
      · rw [value]
        exact .bool c
  | beta _ _ _ _ _ ihr => exact ihr
  | @app _ _ args args' _ stuck length _ ihf ihargs =>
      refine .app ihf (fun arg among => ?_) (length ▸ stuck)
      obtain ⟨_, _, zipped⟩ := exists_zipped length among
      exact ihargs _ zipped
  | lam _ ih => exact .lam ih
  | @collect x _ body' _ ih =>
      rcases foldCollect_cases x body' with kept | full | none
      · rw [kept]
        exact .collect ih kept
      · rw [full]
        exact .univ
      · rw [none]
        exact .empty
  | memUniv => exact .bool true
  | memEmpty => exact .bool false
  | memCollect _ _ _ ihr => exact ihr
  | mem _ stuck _ ihset ihelem => exact .mem ihelem ihset stuck
  | fieldSame _ ih =>
      cases ih with
      | update _ right => exact right
  | fieldOther _ _ _ _ ihr => exact ihr
  | field _ stuck ih => exact .field ih stuck
  | update _ _ iha ihb => exact .update iha ihb

theorem IsNormal.simplifies {e : Expr} (h : e.IsNormal) : Simplifies e e := by
  induction h with
  | var | const | num | bool | univ | empty | arbitrary => constructor
  | not _ stuck ih => simpa only [stuck] using ih.not
  | and _ _ stuck iha ihb => simpa only [stuck] using iha.and ihb
  | or _ _ stuck iha ihb => simpa only [stuck] using iha.or ihb
  | eq _ _ stuck iha ihb => simpa only [stuck] using iha.eq ihb
  | app _ _ stuck ihf ihargs =>
      exact .apply ihf stuck (List.forall₂_same.mpr ihargs)
  | lam _ ih => exact ih.lam
  | @collect x _ _ stuck ih => simpa only [stuck] using ih.collect (x := x)
  | mem _ _ stuck ihelem ihset => exact .mem ihset stuck ihelem
  | field _ stuck ih => exact .field ih stuck
  | update _ _ iha ihb => exact iha.update ihb

theorem IsNormal.eq_of_simplifies {e r : Expr} (h : e.IsNormal) (done : Simplifies e r) : r = e :=
  done.unique h.simplifies

theorem IsNormal.eq_field_of_simplifies {state r : Expr} {name : Name} (h : state.IsNormal)
    (stuck : isUpdate state = false) (done : Simplifies (.field state name) r)
    : r = .field state name := by
  cases done with
  | fieldSame form | fieldOther form =>
      rw [← h.eq_of_simplifies form] at stuck
      cases stuck
  | field form => rw [h.eq_of_simplifies form]

/-- The two ways of an application, with its arguments as they come. -/
theorem Simplifies.app_inv {fn r : Expr} {args : List Expr} (h : Simplifies (.app fn args) r)
    : (∃ x type body arg arg',
        args = [arg]
        ∧ Simplifies fn (.lam x type body)
        ∧ Simplifies arg arg'
        ∧ Simplifies (body.subst x arg') r)
      ∨ ∃ fn' args',
          Simplifies fn fn'
          ∧ isRedex fn' args.length = false
          ∧ List.Forall₂ Simplifies args args'
          ∧ r = .app fn' args' := by
  cases h with
  | beta head operand reduct => exact .inl ⟨_, _, _, _, _, rfl, head, operand, reduct⟩
  | app head stuck length operands =>
      exact .inr ⟨_, _, head, stuck, List.forall₂_iff_zip.mpr ⟨length, operands _⟩, rfl⟩

/-- A component is read off the simplified state. -/
theorem simplifies_field_iff {state r : Expr} {name : Name}
    : Simplifies (.field state name) r
      ↔ ∃ state', Simplifies state state' ∧ Simplifies (.field state' name) r := by
  constructor
  · intro h
    cases h with
    | fieldSame form => exact ⟨_, form, .fieldSame form.isNormal.simplifies⟩
    | fieldOther form differ inside =>
        exact ⟨_, form, .fieldOther form.isNormal.simplifies differ inside⟩
    | field form stuck => exact ⟨_, form, .field form.isNormal.simplifies stuck⟩
  · intro ⟨state', first, h⟩
    cases h with
    | fieldSame form => exact .fieldSame (first.isNormal.eq_of_simplifies form ▸ first)
    | fieldOther form differ inside =>
        exact .fieldOther (first.isNormal.eq_of_simplifies form ▸ first) differ inside
    | field form stuck =>
        rw [first.isNormal.eq_of_simplifies form] at stuck ⊢
        exact .field first stuck

-----------------------------------------------------------------------------------------
-- Names of a result
-----------------------------------------------------------------------------------------

/-- A list of names of an expression that collects those of its parts, wherever nothing is bound. -/
structure Gathers (names : Expr → List Name) : Prop where
  bool (b : Bool) : names (.bool b) = []
  univ : names .univ = []
  empty : names .empty = []
  not (e : Expr) : names (.not e) = names e
  and (a b : Expr) : names (.and a b) = names a ++ names b
  or (a b : Expr) : names (.or a b) = names a ++ names b
  eq (a b : Expr) : names (.eq a b) = names a ++ names b
  app (fn : Expr) (args : List Expr) (w : Name)
    : w ∈ names (.app fn args) ↔ w ∈ names fn ∨ ∃ arg ∈ args, w ∈ names arg
  lam (x : Name) (type : Option Name) (body : Expr) : names (.lam x type body) = names (.collect x body)
  mem (elem set : Expr) : names (.mem elem set) = names elem ++ names set
  field (state : Expr) (name : Name) : names (.field state name) = names state
  update (state : Expr) (name : Name) (value : Expr)
    : names (.update state name value) = names state ++ names value

theorem gathers_freeNames : Gathers freeNames where
  bool _ := rfl
  univ := rfl
  empty := rfl
  not _ := rfl
  and _ _ := rfl
  or _ _ := rfl
  eq _ _ := rfl
  app fn args w := by rw [freeNames, List.mem_append, mem_freeNamesAll]
  lam _ _ _ := rfl
  mem _ _ := rfl
  field _ _ := rfl
  update _ _ _ := rfl

theorem gathers_binders : Gathers binders where
  bool _ := rfl
  univ := rfl
  empty := rfl
  not _ := rfl
  and _ _ := rfl
  or _ _ := rfl
  eq _ _ := rfl
  app fn args w := by rw [binders, List.mem_append, mem_bindersAll]
  lam _ _ _ := rfl
  mem _ _ := rfl
  field _ _ := rfl
  update _ _ _ := rfl

theorem gathers_enclosing (w : Name) : Gathers (enclosing w) where
  bool _ := rfl
  univ := rfl
  empty := rfl
  not _ := rfl
  and _ _ := rfl
  or _ _ := rfl
  eq _ _ := rfl
  app fn args y := by rw [enclosing, List.mem_append, mem_enclosingAll]
  lam _ _ _ := rfl
  mem _ _ := rfl
  field _ _ := rfl
  update _ _ _ := rfl

namespace Gathers

variable {names : Expr → List Name} (gathers : Gathers names) {w : Name}

include gathers

theorem of_foldNot {e : Expr} (found : w ∈ names (foldNot e)) : w ∈ names e := by
  rcases foldNot_cases e with kept | ⟨b, value⟩ | inner
  · rwa [kept, gathers.not] at found
  · rw [value, gathers.bool] at found
    cases found
  · rwa [inner, gathers.not]

theorem of_foldAnd {a b : Expr} (found : w ∈ names (foldAnd a b)) : w ∈ names a ∨ w ∈ names b := by
  rcases foldAnd_cases a b with kept | ⟨c, value⟩ | left | right
  · rwa [kept, gathers.and, List.mem_append] at found
  · rw [value, gathers.bool] at found
    cases found
  · exact .inl (left ▸ found)
  · exact .inr (right ▸ found)

theorem of_foldOr {a b : Expr} (found : w ∈ names (foldOr a b)) : w ∈ names a ∨ w ∈ names b := by
  rcases foldOr_cases a b with kept | ⟨c, value⟩ | left | right
  · rwa [kept, gathers.or, List.mem_append] at found
  · rw [value, gathers.bool] at found
    cases found
  · exact .inl (left ▸ found)
  · exact .inr (right ▸ found)

theorem of_foldEq {a b : Expr} (found : w ∈ names (foldEq a b)) : w ∈ names a ∨ w ∈ names b := by
  rcases foldEq_cases a b with kept | ⟨c, value⟩
  · rwa [kept, gathers.eq, List.mem_append] at found
  · rw [value, gathers.bool] at found
    cases found

theorem of_foldCollect {x : Name} {body : Expr} (found : w ∈ names (foldCollect x body))
    : w ∈ names (.collect x body) := by
  rcases foldCollect_cases x body with kept | full | none
  · rwa [kept] at found
  · rw [full, gathers.univ] at found
    cases found
  · rw [none, gathers.empty] at found
    cases found

/-- The names of a result are among those of the expression, if the names under a binder are and
substitution adds only the names of what it puts in; by induction on the relation.
-/
theorem of_simplifies
    (bound : ∀ {x body body'}, (∀ w ∈ names body', w ∈ names body)
      → ∀ w ∈ names (.collect x body'), w ∈ names (.collect x body))
    (substituted : ∀ {x body value w}, w ∈ names (body.subst x value)
      → w ∈ names (.collect x body) ∨ w ∈ names value)
    {e r : Expr} (h : Simplifies e r)
    : ∀ w ∈ names r, w ∈ names e := by
  induction h with
  | var | const | num | bool | univ | empty | arbitrary => exact fun _ found => found
  | not _ ih =>
      intro w found
      rw [gathers.not]
      exact ih w (gathers.of_foldNot found)
  | and _ _ iha ihb =>
      intro w found
      rw [gathers.and, List.mem_append]
      exact (gathers.of_foldAnd found).imp (iha w) (ihb w)
  | or _ _ iha ihb =>
      intro w found
      rw [gathers.or, List.mem_append]
      exact (gathers.of_foldOr found).imp (iha w) (ihb w)
  | eq _ _ iha ihb =>
      intro w found
      rw [gathers.eq, List.mem_append]
      exact (gathers.of_foldEq found).imp (iha w) (ihb w)
  | @beta fn x type body arg _ _ _ _ _ ihf iharg ihr =>
      intro w found
      rw [gathers.app]
      refine (substituted (ihr w found)).imp (fun head => ihf w ?_) fun operand => ?_
      · rwa [gathers.lam]
      · exact ⟨arg, List.mem_singleton.mpr rfl, iharg w operand⟩
  | app _ _ length _ ihf ihargs =>
      intro w found
      rw [gathers.app] at found ⊢
      refine found.imp (ihf w) fun ⟨arg', among, inside⟩ => ?_
      obtain ⟨arg, member, zipped⟩ := exists_zipped length among
      exact ⟨arg, member, ihargs _ zipped w inside⟩
  | lam _ ih =>
      intro w found
      rw [gathers.lam] at found ⊢
      exact bound ih w found
  | collect _ ih =>
      intro w found
      exact bound ih w (gathers.of_foldCollect found)
  | memUniv | memEmpty =>
      intro w found
      rw [gathers.bool] at found
      cases found
  | memCollect _ _ ihset ihr =>
      intro w found
      rw [gathers.mem, List.mem_append]
      exact (substituted (ihr w found)).symm.imp_right (ihset w)
  | mem _ _ _ ihset ihelem =>
      intro w found
      rw [gathers.mem, List.mem_append] at found ⊢
      exact found.imp (ihelem w) (ihset w)
  | fieldSame _ ih =>
      intro w found
      rw [gathers.field]
      exact ih w (by rw [gathers.update]; exact List.mem_append_right _ found)
  | fieldOther _ _ _ ihform ihinside =>
      intro w found
      have inner := ihinside w found
      rw [gathers.field] at inner ⊢
      exact ihform w (by rw [gathers.update]; exact List.mem_append_left _ inner)
  | field _ _ ih =>
      intro w found
      rw [gathers.field] at found ⊢
      exact ih w found
  | update _ _ iha ihb =>
      intro w found
      rw [gathers.update, List.mem_append] at found ⊢
      exact found.imp (iha w) (ihb w)

end Gathers

theorem Simplifies.freeNames_subset {e r : Expr} (h : Simplifies e r)
    : ∀ w ∈ r.freeNames, w ∈ e.freeNames := by
  refine gathers_freeNames.of_simplifies (fun {x body body'} inside w found => ?_)
    (fun {x body value w} found => ?_) h
  · simp only [freeNames, List.mem_filter] at found ⊢
    exact ⟨inside w found.1, found.2⟩
  · simpa [freeNames] using mem_freeNames_subst found

theorem Simplifies.binders_subset {e r : Expr} (h : Simplifies e r)
    : ∀ w ∈ r.binders, w ∈ e.binders := by
  refine gathers_binders.of_simplifies (fun {x body body'} inside w found => ?_)
    (fun {x body value w} found => ?_) h
  · simp only [binders, List.mem_cons] at found ⊢
    exact found.imp_right (inside w)
  · exact (mem_binders_subst found).imp_left (List.mem_cons_of_mem x)

end Expr

end Monadize
