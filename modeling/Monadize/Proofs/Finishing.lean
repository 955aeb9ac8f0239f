import Monadize.Finishing
import Monadize.Proof.Cluster
import Monadize.Proofs.Reduction.Rewriting
import Monadize.Proofs.Term.Callees
import Monadize.Proofs.Term.Guards

/-! Finishing the theorem of a function always succeeds. The steps that it records, in their order,
rewrite the whole term from what it is after the return slot is initialized to what it is in the
end. So neither a callee nor a recursion guard comes in, and a guard stays at the root.
-/

namespace Monadize

/-- The records of passes, each with the label of its pass and the steps of the pass's rule sets. -/
inductive Pass.Recorded : List Pass → Term → List TraceRecord → Term → Prop
  | nil (t) : Recorded [] t [] t
  | cons {pass passes steps records t t' t''} (first : RuleSet.RewritesAll pass.sets t steps t')
    (rest : Recorded passes t' records t'')
    : Recorded (pass :: passes) t (⟨pass.label, steps⟩ :: records) t''

theorem Pass.Recorded.labels {passes : List Pass} {records : List TraceRecord} {t t' : Term}
    (h : Recorded passes t records t')
    : records.map (·.label) = passes.map (·.label) := by
  induction h with
  | nil => rfl
  | cons _ _ ih => rw [List.map_cons, List.map_cons, ih]

/-- The records put together are one rewriting sequence. -/
theorem Pass.Recorded.rewritesAll {passes : List Pass} {records : List TraceRecord} {t t' : Term}
    (h : Recorded passes t records t')
    : RuleSet.RewritesAll (passes.flatMap (·.sets)) t (records.flatMap (·.steps)) t' := by
  induction h with
  | nil t => exact .nil t
  | cons first _ ih => exact first.append ih

/-- The term with its return slot initialized, if there is one: directly under an outermost
recursion guard, and otherwise in front.
-/
def Term.initialized (world : Name) : (slot : Option Name) → Term → Term
  | none, t => t
  | some slot, .recGuard m body => .recGuard m (.seq (.init (Expr.returnInit world slot)) body)
  | some slot, t => .seq (.init (Expr.returnInit world slot)) t

namespace Theorem

variable (total : Bool) (env : Environment) (proc : Name) (hyps : FiniteMap PlaceholderId Hyp)
  (measure : Option MeasureId)

theorem initSlot_eq (term : Term) (slot : Name)
    : initSlot ⟨total, env, .callCorres term proc, hyps, measure⟩ slot
      = .ok ⟨total, env, .callCorres (term.initialized env.world (some slot)) proc, hyps,
          measure⟩ := by
  cases term <;> rfl

theorem reduceAll_rewrites (sets : List RuleSet) (term : Term)
    : ∃ term' steps,
        reduceAll ⟨total, env, .callCorres term proc, hyps, measure⟩ sets
          = .ok (⟨total, env, .callCorres term' proc, hyps, measure⟩, steps)
        ∧ RuleSet.RewritesAll sets term steps term' := by
  induction sets generalizing term with
  | nil => exact ⟨term, [], rfl, .nil term⟩
  | cons set rest ih =>
      obtain ⟨term', steps, reduced, rewrites⟩ := ih (set.normalize term).1
      refine ⟨term', (set.normalize term).2 ++ steps, ?_, .cons (.normalize set term) rewrites⟩
      simp only [reduceAll, bind_eq_ok_iff]
      exact ⟨_, rfl, _, reduced, rfl⟩

theorem runPasses_recorded (passes : List Pass) (term : Term)
    : ∃ term' records,
        runPasses ⟨total, env, .callCorres term proc, hyps, measure⟩ passes
          = .ok (⟨total, env, .callCorres term' proc, hyps, measure⟩, records)
        ∧ Pass.Recorded passes term records term' := by
  induction passes generalizing term with
  | nil => exact ⟨term, [], rfl, .nil term⟩
  | cons pass rest ih =>
      obtain ⟨middle, steps, first, rewrites⟩ :=
        reduceAll_rewrites total env proc hyps measure pass.sets term
      obtain ⟨term', records, second, recorded⟩ := ih middle
      refine ⟨term', ⟨pass.label, steps⟩ :: records, ?_, .cons rewrites recorded⟩
      simp only [runPasses, bind_eq_ok_iff]
      exact ⟨_, first, _, second, rfl⟩

/-- What finishing does before the passes, and with the records after them. -/
theorem finish_eq {term final : Term} {records : List TraceRecord} (slot : Option Name)
    (optimize trace : Bool)
    (passed : runPasses
        ⟨total, env, .callCorres (term.initialized env.world slot) proc, hyps, measure⟩
        (Pass.all optimize)
      = .ok (⟨total, env, .callCorres final proc, hyps, measure⟩, records))
    : finish ⟨total, env, .callCorres term proc, hyps, measure⟩ slot optimize trace
      = .ok ⟨⟨total, env, .callCorres final proc, hyps, measure⟩, if trace then records else [],
          (records.map (·.steps.length)).foldr (· + ·) 0⟩ := by
  cases slot with
  | none =>
      simp only [finish, bind_eq_ok_iff]
      exact ⟨_, rfl, _, passed, rfl⟩
  | some slot =>
      simp only [finish, bind_eq_ok_iff]
      exact ⟨_, initSlot_eq total env proc hyps measure term slot, _, passed, rfl⟩

/-- Traces are faithful. With a trace, finishing gives a record for each of the three passes, and
the recorded steps are a rewriting sequence of the whole term, record by record and put together:
from the term with its return slot initialized to the term in the end. Without a trace it gives the
same theorem.
-/
theorem finish_trace_faithful (term : Term) (slot : Option Name) (optimize : Bool)
    : ∃ final records steps,
        finish ⟨total, env, .callCorres term proc, hyps, measure⟩ slot optimize true
          = .ok ⟨⟨total, env, .callCorres final proc, hyps, measure⟩, records, steps⟩
        ∧ finish ⟨total, env, .callCorres term proc, hyps, measure⟩ slot optimize false
          = .ok ⟨⟨total, env, .callCorres final proc, hyps, measure⟩, [], steps⟩
        ∧ records.map (·.label) = ["guard opt", "peephole opt", "exception opt"]
        ∧ Pass.Recorded (Pass.all optimize) (term.initialized env.world slot) records final
        ∧ RuleSet.RewritesAll ((Pass.all optimize).flatMap (·.sets))
            (term.initialized env.world slot) (records.flatMap (·.steps)) final := by
  obtain ⟨final, records, passed, recorded⟩ := runPasses_recorded total env proc hyps measure
    (Pass.all optimize) (term.initialized env.world slot)
  refine ⟨final, records, _, finish_eq total env proc hyps measure slot optimize true passed,
    finish_eq total env proc hyps measure slot optimize false passed, recorded.labels, recorded,
    recorded.rewritesAll⟩

end Theorem

-----------------------------------------------------------------------------------------
-- What finishing keeps
-----------------------------------------------------------------------------------------

/-- The second term has no callee and no guard that the first has not, and keeps a guard at the root
of the first.
-/
structure Term.Trims (t t' : Term) : Prop where
  callees : t'.callees ⊆ t.callees
  guards : t'.guards ⊆ t.guards
  guarded
    : ∀ m body,
        t = .recGuard m body → ∃ body', t' = .recGuard m body' ∧ body'.guards ⊆ body.guards

namespace Term.Trims

theorem refl (t : Term) : t.Trims t :=
  ⟨List.Subset.refl _, List.Subset.refl _, fun _ body same => ⟨body, same, List.Subset.refl _⟩⟩

theorem trans {a b c : Term} (first : a.Trims b) (second : b.Trims c) : a.Trims c where
  callees := List.Subset.trans second.callees first.callees
  guards := List.Subset.trans second.guards first.guards
  guarded m body same := by
    obtain ⟨inner, middle, fewer⟩ := first.guarded m body same
    obtain ⟨inner', last, fewest⟩ := second.guarded m inner middle
    exact ⟨inner', last, List.Subset.trans fewest fewer⟩

theorem of_rewrites {set : RuleSet} {t t' : Term} {steps : List Reduction}
    (h : set.Rewrites t steps t')
    : t.Trims t' where
  callees := h.related compatible_callees
  guards := h.related compatible_guards
  guarded m body same := by
    subst same
    obtain ⟨body', rfl, inside⟩ := h.of_recGuard
    exact ⟨body', rfl, inside.related compatible_guards⟩

theorem of_rewritesAll {sets : List RuleSet} {t t' : Term} {steps : List Reduction}
    (h : RuleSet.RewritesAll sets t steps t')
    : t.Trims t' := by
  induction h with
  | nil t => exact refl t
  | cons first _ ih => exact (of_rewrites first).trans ih

/-- Under a guard or in front, the initialization has neither a callee nor a guard. -/
theorem initialized (world : Name) (slot : Option Name) (t : Term)
    : t.Trims (t.initialized world slot) := by
  cases slot with
  | none => exact refl t
  | some slot =>
      cases t with
      | recGuard m body =>
          refine ⟨?_, List.Subset.refl _, ?_⟩
          · rw [Term.initialized, callees_recGuard, callees_recGuard, callees_seq]
            exact List.Subset.refl _
          · intro _ _ same
            cases same
            exact ⟨_, rfl, List.Subset.refl _⟩
      | _ =>
          refine ⟨?_, List.Subset.refl _, nofun⟩
          rw [Term.initialized, callees_seq]
          · exact List.Subset.refl _
          · exact nofun

end Term.Trims

/-- The theorem of a function is finished without complaint. -/
theorem Theorem.finish_callCorres (total : Bool) (env : Environment) (proc : Name)
    (hyps : FiniteMap PlaceholderId Hyp) (measure : Option MeasureId) (term : Term)
    (slot : Option Name) (optimize trace : Bool)
    : ∃ term' traces steps,
        finish ⟨total, env, .callCorres term proc, hyps, measure⟩ slot optimize trace
          = .ok ⟨⟨total, env, .callCorres term' proc, hyps, measure⟩, traces, steps⟩
        ∧ term.Trims term' := by
  obtain ⟨final, records, passed, recorded⟩ := runPasses_recorded total env proc hyps measure
    (Pass.all optimize) (term.initialized env.world slot)
  refine ⟨final, _, _, finish_eq total env proc hyps measure slot optimize trace passed, ?_⟩
  exact (Term.Trims.initialized env.world slot term).trans (.of_rewritesAll recorded.rewritesAll)

end Monadize
