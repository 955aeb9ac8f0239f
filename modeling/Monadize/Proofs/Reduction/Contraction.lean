import Monadize.Proofs.Term.Places
import Monadize.Reduction.Normalize

/-! What a rule can do to a node, in one relation over all rules. What reductions keep of a term is
read off it, and the rules are not opened again.
-/

namespace Monadize

/-- Some rule leads from the node to the term. A recursion guard is no such node. -/
inductive Term.Contracts : Term → Term → Prop
  | guardTrue {p : Expr} (const : p.isConstPred true = true) : Contracts (.guard p) .skip
  | guardFalse {p : Expr} (const : p.isConstPred false = true) : Contracts (.guard p) .fail
  | guardSimp {p q : Expr} (simplified : Rule.simplified? p = some q)
    : Contracts (.guard p) (.guard q)
  | seqSkipLeft (b : Term) : Contracts (.seq .skip b) b
  | seqSkipRight (a : Term) : Contracts (.seq a .skip) a
  | seqFail (b : Term) : Contracts (.seq .fail b) .fail
  | modifyFail (f : Expr) : Contracts (.seq (.modify f) .fail) .fail
  | initFail (f : Expr) : Contracts (.seq (.init f) .fail) .fail
  | conditionTrue {p : Expr} (const : p.isConstPred true = true) (a b : Term)
    : Contracts (.condition p a b) a
  | conditionFalse {p : Expr} (const : p.isConstPred false = true) (a b : Term)
    : Contracts (.condition p a b) b
  | conditionSame (p : Expr) (a : Term) : Contracts (.condition p a a) a
  | conditionSimp {p q : Expr} (simplified : Rule.simplified? p = some q) (a b : Term)
    : Contracts (.condition p a b) (.condition q a b)
  | loopFalse {p : Expr} (const : p.isConstPred false = true) (body : Term)
    : Contracts (.loop p body) .skip
  | loopSimp {p q : Expr} (simplified : Rule.simplified? p = some q) (body : Term)
    : Contracts (.loop p body) (.loop q body)
  | catchNoThrow {body : Term} (quiet : body.mayThrow = false) (handler : Term)
    : Contracts (.tryCatch body handler) body
  | catchThrow (handler : Term) : Contracts (.tryCatch .throw handler) handler
  | catchRethrow (body : Term) : Contracts (.tryCatch body .throw) body
  | seqThrow (b : Term) : Contracts (.seq .throw b) .throw

-----------------------------------------------------------------------------------------
-- The rules, one by one
-----------------------------------------------------------------------------------------

namespace Rule

variable {t t' : Term}

theorem contracts_guardTrue (h : guardTrue.apply t = some t') : t.Contracts t' := by
  cases t with
  | guard p =>
      obtain ⟨const, rfl⟩ := by simpa [guardTrue] using h
      exact .guardTrue const
  | _ => cases h

theorem contracts_guardFalse (h : guardFalse.apply t = some t') : t.Contracts t' := by
  cases t with
  | guard p =>
      obtain ⟨const, rfl⟩ := by simpa [guardFalse] using h
      exact .guardFalse const
  | _ => cases h

theorem contracts_guardSimp (h : guardSimp.apply t = some t') : t.Contracts t' := by
  cases t with
  | guard p =>
      obtain ⟨q, simplified, rfl⟩ := Option.map_eq_some_iff.mp h
      exact .guardSimp simplified
  | _ => cases h

theorem contracts_seqSkipLeft (h : seqSkipLeft.apply t = some t') : t.Contracts t' := by
  cases t with
  | seq a b =>
      cases a with
      | skip =>
          cases h
          exact .seqSkipLeft _
      | _ => cases h
  | _ => cases h

theorem contracts_seqSkipRight (h : seqSkipRight.apply t = some t') : t.Contracts t' := by
  cases t with
  | seq a b =>
      cases b with
      | skip =>
          cases h
          exact .seqSkipRight _
      | _ => cases h
  | _ => cases h

theorem contracts_seqFail (h : seqFail.apply t = some t') : t.Contracts t' := by
  cases t with
  | seq a b =>
      cases a with
      | fail =>
          cases h
          exact .seqFail b
      | _ => cases h
  | _ => cases h

theorem contracts_updateThenFail (h : updateThenFail.apply t = some t') : t.Contracts t' := by
  cases t with
  | seq a b =>
      cases a with
      | modify f =>
          cases b with
          | fail =>
              cases h
              exact .modifyFail f
          | _ => cases h
      | init f =>
          cases b with
          | fail =>
              cases h
              exact .initFail f
          | _ => cases h
      | _ => cases h
  | _ => cases h

theorem contracts_conditionTrue (h : conditionTrue.apply t = some t') : t.Contracts t' := by
  cases t with
  | condition p a b =>
      obtain ⟨const, rfl⟩ := by simpa [conditionTrue] using h
      exact .conditionTrue const a b
  | _ => cases h

theorem contracts_conditionFalse (h : conditionFalse.apply t = some t') : t.Contracts t' := by
  cases t with
  | condition p a b =>
      obtain ⟨const, rfl⟩ := by simpa [conditionFalse] using h
      exact .conditionFalse const a b
  | _ => cases h

theorem contracts_conditionSame (h : conditionSame.apply t = some t') : t.Contracts t' := by
  cases t with
  | condition p a b =>
      obtain ⟨rfl, rfl⟩ := by simpa [conditionSame] using h
      exact .conditionSame p a
  | _ => cases h

theorem contracts_conditionSimp (h : conditionSimp.apply t = some t') : t.Contracts t' := by
  cases t with
  | condition p a b =>
      obtain ⟨q, simplified, rfl⟩ := Option.map_eq_some_iff.mp h
      exact .conditionSimp simplified a b
  | _ => cases h

theorem contracts_loopFalse (h : loopFalse.apply t = some t') : t.Contracts t' := by
  cases t with
  | loop p body =>
      obtain ⟨const, rfl⟩ := by simpa [loopFalse] using h
      exact .loopFalse const body
  | _ => cases h

theorem contracts_loopSimp (h : loopSimp.apply t = some t') : t.Contracts t' := by
  cases t with
  | loop p body =>
      obtain ⟨q, simplified, rfl⟩ := Option.map_eq_some_iff.mp h
      exact .loopSimp simplified body
  | _ => cases h

theorem contracts_catchNoThrow (h : catchNoThrow.apply t = some t') : t.Contracts t' := by
  cases t with
  | tryCatch body handler =>
      obtain ⟨quiet, rfl⟩ := by simpa [catchNoThrow] using h
      exact .catchNoThrow quiet handler
  | _ => cases h

theorem contracts_catchThrow (h : catchThrow.apply t = some t') : t.Contracts t' := by
  cases t with
  | tryCatch body handler =>
      cases body with
      | throw =>
          cases h
          exact .catchThrow _
      | _ => cases h
  | _ => cases h

theorem contracts_catchRethrow (h : catchRethrow.apply t = some t') : t.Contracts t' := by
  cases t with
  | tryCatch body handler =>
      cases handler with
      | throw =>
          cases h
          exact .catchRethrow _
      | _ => cases h
  | _ => cases h

theorem contracts_seqThrow (h : seqThrow.apply t = some t') : t.Contracts t' := by
  cases t with
  | seq a b =>
      cases a with
      | throw =>
          cases h
          exact .seqThrow b
      | _ => cases h
  | _ => cases h

end Rule

-----------------------------------------------------------------------------------------
-- Rule sets
-----------------------------------------------------------------------------------------

namespace RuleSet

/-- Every rule of every set contracts. -/
theorem contracts_of_apply {set : RuleSet} {rule : Rule} (member : rule ∈ set.rules) {t t' : Term}
    (applied : rule.apply t = some t')
    : t.Contracts t' := by
  cases set with
  | guards =>
      simp only [rules, List.mem_cons, List.not_mem_nil, or_false] at member
      rcases member with rfl | rfl | rfl
      · exact Rule.contracts_guardTrue applied
      · exact Rule.contracts_guardFalse applied
      · exact Rule.contracts_guardSimp applied
  | peephole =>
      simp only [rules, List.mem_cons, List.not_mem_nil, or_false] at member
      rcases member with rfl | rfl | rfl | rfl | rfl | rfl | rfl | rfl | rfl | rfl
      · exact Rule.contracts_seqSkipLeft applied
      · exact Rule.contracts_seqSkipRight applied
      · exact Rule.contracts_seqFail applied
      · exact Rule.contracts_updateThenFail applied
      · exact Rule.contracts_conditionTrue applied
      · exact Rule.contracts_conditionFalse applied
      · exact Rule.contracts_conditionSame applied
      · exact Rule.contracts_loopFalse applied
      · exact Rule.contracts_conditionSimp applied
      · exact Rule.contracts_loopSimp applied
  | handlers =>
      simp only [rules, List.mem_cons, List.not_mem_nil, or_false] at member
      rcases member with rfl | rfl
      · exact Rule.contracts_catchNoThrow applied
      · exact Rule.contracts_catchThrow applied
  | exceptions =>
      simp only [rules, List.mem_cons, List.not_mem_nil, or_false] at member
      rcases member with rfl | rfl
      · exact Rule.contracts_catchRethrow applied
      · exact Rule.contracts_seqThrow applied

end RuleSet

-----------------------------------------------------------------------------------------
-- Compatible relations
-----------------------------------------------------------------------------------------

/-- A relation that holds of every contraction, and of nodes if it does of their parts. -/
structure Term.Compatible (R : Term → Term → Prop) : Prop where
  contracts : ∀ {t t'}, t.Contracts t' → R t t'
  refl : ∀ t, R t t
  trans : ∀ {a b c}, R a b → R b c → R a c
  seq : ∀ {a b a' b'}, R a a' → R b b' → R (.seq a b) (.seq a' b')
  tryCatch : ∀ {a b a' b'}, R a a' → R b b' → R (.tryCatch a b) (.tryCatch a' b')
  condition : ∀ p {a b a' b'}, R a a' → R b b' → R (.condition p a b) (.condition p a' b')
  loop : ∀ p {body body'}, R body body' → R (.loop p body) (.loop p body')
  recGuard : ∀ m {body body'}, R body body' → R (.recGuard m body) (.recGuard m body')

namespace Term.Compatible

variable {R : Term → Term → Prop}

theorem inFrame (compatible : Compatible R) (frame : Frame) {t t' : Term} (h : R t t')
    : R (frame.fill t) (frame.fill t') := by
  cases frame with
  | seqFirst second => exact compatible.seq h (compatible.refl second)
  | seqSecond first => exact compatible.seq (compatible.refl first) h
  | catchBody handler => exact compatible.tryCatch h (compatible.refl handler)
  | catchHandler body => exact compatible.tryCatch (compatible.refl body) h
  | conditionLeft pred right => exact compatible.condition pred h (compatible.refl right)
  | conditionRight pred left => exact compatible.condition pred (compatible.refl left) h
  | loopBody pred => exact compatible.loop pred h
  | guardBody measure => exact compatible.recGuard measure h

/-- Related parts give related terms around them, by induction on the place. -/
theorem fill (compatible : Compatible R) (place : List Frame) {t t' : Term} (h : R t t')
    : R (Term.fill place t) (Term.fill place t') := by
  induction place with
  | nil => exact h
  | cons frame _ ih => exact compatible.inFrame frame ih

end Term.Compatible

end Monadize
