import Monadize.Proof.Cluster
import Monadize.Proofs.Except
import Monadize.Proofs.FiniteMap
import Monadize.Proofs.Term.Callees

/-! When a cluster can be closed: every hypothesis of every member is discharged, and members with
an induction hypothesis are guarded.
-/

namespace Monadize

/-- The procedure that a correspondence is about. -/
def Theorem.proc (thm : Theorem) : Name :=
  match thm.judgement with
  | .callCorres _ proc => proc
  | _ => ""

theorem Theorem.proc_eq {thm : Theorem} {term : Term} {proc : Name}
    (judged : thm.judgement = .callCorres term proc)
    : thm.proc = proc := by
  simp only [Theorem.proc, judged]

namespace Member

/-- The procedure that a member is about. -/
def proc (m : Member) : Name := m.thm.proc

/-- The member is about a call, in the given environment and with the given termination flag. -/
def Agrees (total : Bool) (env : Environment) (m : Member) : Prop :=
  (∃ term, m.thm.judgement = .callCorres term m.proc) ∧ m.thm.total = total ∧ m.thm.env = env

theorem proc_eq {m : Member} {term : Term} {proc : Name}
    (judged : m.thm.judgement = .callCorres term proc)
    : m.proc = proc :=
  Theorem.proc_eq judged

/-- Members are registered with their procedures if they agree with the context, by induction on
them.
-/
theorem register_eq_ok_iff {ctx ctx' : Context} {members : List Member}
    : register ctx members = .ok ctx'
      ↔ (∀ m ∈ members, m.Agrees ctx.total ctx.env)
        ∧ ctx'
          = { ctx with
              procs := ctx.procs.insertAll (members.map fun m => (m.const, m.proc)) } := by
  induction members generalizing ctx with
  | nil =>
      simp only [register, Except.ok.injEq, List.not_mem_nil, false_implies, implies_true, true_and]
      exact eq_comm
  | cons m rest ih =>
      rw [List.forall_mem_cons, List.map_cons]
      simp only [register]
      split
      · next term proc judged =>
          cases proc_eq judged
          split
          · next differs =>
              refine iff_of_false nofun ?_
              rintro ⟨⟨⟨_, total, env⟩, _⟩, _⟩
              exact differs.elim (· total) (· env)
          · next agrees =>
              obtain ⟨total, env⟩ := not_or.mp agrees
              have here : m.Agrees ctx.total ctx.env :=
                ⟨⟨term, judged⟩, not_not.mp total, not_not.mp env⟩
              rw [and_iff_right here]
              exact ih
      · next other =>
          refine iff_of_false nofun ?_
          rintro ⟨⟨⟨⟨term, judged⟩, _⟩, _⟩, _⟩
          exact other term m.proc judged

/-- A theorem about a constant discharges a hypothesis about its procedure that is not one of an
induction.
-/
theorem discharge_defined_eq_ok_iff {ctx : Context} {proc : Name} {hyp : Hyp} {thm : Theorem}
    {k : ConstId}
    : discharge ctx proc hyp (.defined thm) = .ok k
      ↔ thm.judgement = .fnCorres k hyp.proc
        ∧ hyp.recursive = false
        ∧ thm.hyps.isEmpty = true
        ∧ thm.total = ctx.total
        ∧ thm.env = ctx.env := by
  simp only [discharge]
  split
  · next k' proc' judged =>
      rw [judged]
      split
      · next wrong =>
          refine iff_of_false nofun ?_
          rintro ⟨same, external, closed, _⟩
          cases same
          simp [external, closed] at wrong
      · next right =>
          split
          · next differs =>
              refine iff_of_false nofun ?_
              rintro ⟨_, _, _, total, env⟩
              exact differs.elim (· total) (· env)
          · next agrees =>
              simp only [not_or, not_not, Bool.not_eq_true, Bool.not_eq_false'] at right agrees
              obtain ⟨external, rfl, closed⟩ := right
              constructor
              · intro same
                cases same
                exact ⟨rfl, external, closed, agrees⟩
              · rintro ⟨same, _⟩
                cases same
                rfl
  · next other =>
      refine iff_of_false nofun ?_
      rintro ⟨judged, _⟩
      exact other k hyp.proc judged

/-- A member of the cluster discharges an induction hypothesis about its procedure. -/
theorem discharge_sibling_eq_ok_iff {ctx : Context} {proc : Name} {hyp : Hyp} {j k : ConstId}
    : discharge ctx proc hyp (.sibling j) = .ok k
      ↔ j = k ∧ hyp.recursive = true ∧ ctx.procs.find? k = some hyp.proc := by
  simp only [discharge]
  split
  · next wrong =>
      refine iff_of_false (fun same => by cases same) ?_
      rintro ⟨rfl, recursive, known⟩
      simp [recursive, known] at wrong
  · next right =>
      simp only [not_or, not_not, Bool.not_eq_true, Bool.not_eq_false'] at right
      constructor
      · intro same
        cases same
        exact ⟨rfl, right⟩
      · rintro ⟨rfl, _⟩
        rfl

/-- The hypothesis is bound, and its binding discharges it by the constant. -/
def Discharges (ctx : Context) (m : Member) (p : PlaceholderId) (hyp : Hyp) (k : ConstId) : Prop :=
  ∃ binding, m.bindings.find? p = some binding ∧ discharge ctx m.proc hyp binding = .ok k

/-- A hypothesis is discharged by the theorem of a constant from outside, or by induction for a
member of the cluster.
-/
theorem Discharges.cases {ctx : Context} {m : Member} {p : PlaceholderId} {hyp : Hyp} {k : ConstId}
    (h : Discharges ctx m p hyp k)
    : (hyp.recursive = false
        ∧ ∃ thm,
            m.bindings.find? p = some (.defined thm)
            ∧ thm.judgement = .fnCorres k hyp.proc
            ∧ thm.hyps.isEmpty = true
            ∧ thm.total = ctx.total
            ∧ thm.env = ctx.env)
      ∨ (hyp.recursive = true ∧ ctx.procs.find? k = some hyp.proc) := by
  obtain ⟨binding, bound, discharged⟩ := h
  cases binding with
  | defined thm =>
      obtain ⟨judged, external, rest⟩ := discharge_defined_eq_ok_iff.mp discharged
      exact .inl ⟨external, thm, bound, judged, rest⟩
  | sibling j => exact .inr (discharge_sibling_eq_ok_iff.mp discharged).2

/-- Hypotheses are discharged together if each of them is, by induction on them. -/
theorem dischargeAll_eq_ok_iff {ctx : Context} {m : Member} {hyps : List (PlaceholderId × Hyp)}
    {consts : List (PlaceholderId × ConstId)}
    : dischargeAll ctx m.proc m.bindings hyps = .ok consts
      ↔ List.Forall₂
          (fun entry const => const.1 = entry.1 ∧ Discharges ctx m entry.1 entry.2 const.2)
          hyps consts := by
  induction hyps generalizing consts with
  | nil =>
      rw [List.forall₂_nil_left_iff]
      simp only [dischargeAll, Except.ok.injEq]
      exact eq_comm
  | cons first rest ih =>
      obtain ⟨p, hyp⟩ := first
      rw [List.forall₂_cons_left_iff]
      simp only [dischargeAll]
      split
      · next unbound =>
          refine iff_of_false nofun ?_
          rintro ⟨_, _, ⟨_, _, bound, _⟩, _⟩
          cases unbound.symm.trans bound
      · next binding bound =>
          simp only [bind_eq_ok_iff, ih]
          constructor
          · rintro ⟨k, discharged, others, related, same⟩
            cases same
            exact ⟨(p, k), others, ⟨rfl, binding, bound, discharged⟩, related, rfl⟩
          · rintro ⟨⟨_, k⟩, others, ⟨rfl, _, boundToo, discharged⟩, related, rfl⟩
            cases bound.symm.trans boundToo
            exact ⟨k, discharged, others, related, rfl⟩

section Constants

variable {ctx : Context} {m : Member} {hyps : List (PlaceholderId × Hyp)}
  {consts : List (PlaceholderId × ConstId)}
  (discharged
    : List.Forall₂ (fun entry const => const.1 = entry.1 ∧ Discharges ctx m entry.1 entry.2 const.2)
        hyps consts)

include discharged

/-- Every hypothesis has a constant. -/
theorem exists_find?_consts {p : PlaceholderId} {hyp : Hyp} (assumed : (p, hyp) ∈ hyps)
    : ∃ k, (FiniteMap.ofList consts).find? p = some k := by
  obtain ⟨const, listed, same, _⟩ := exists_right_of_mem discharged assumed
  obtain ⟨k, found, _⟩ := FiniteMap.exists_find?_insertAll .empty ⟨const, listed, same⟩
  exact ⟨k, found⟩

/-- A constant discharges a hypothesis on its placeholder. -/
theorem discharges_of_find?_consts {p : PlaceholderId} {k : ConstId}
    (found : (FiniteMap.ofList consts).find? p = some k)
    : ∃ hyp, (p, hyp) ∈ hyps ∧ Discharges ctx m p hyp k := by
  have listed := FiniteMap.mem_entries_ofList (FiniteMap.mem_entries_of_find? found)
  obtain ⟨⟨q, hyp⟩, assumed, same, discharges⟩ := exists_left_of_mem discharged listed
  cases same
  exact ⟨hyp, assumed, discharges⟩

section Callees

variable {term : Term}
  (placed
    : ∀ callee ∈ term.callees, ∃ p hyp, callee.target = .placeholder p ∧ (p, hyp) ∈ hyps)

include placed

/-- If all callees are placeholders with a hypothesis, each becomes a constant that discharges it.
-/
theorem exists_of_mem_callees_instantiate {callee : Callee}
    (member : callee ∈ (term.instantiate (FiniteMap.ofList consts).find?).callees)
    : ∃ p hyp k,
        callee.target = .const k ∧ ⟨.placeholder p, callee.measure⟩ ∈ term.callees
        ∧ (p, hyp) ∈ hyps ∧ Discharges ctx m p hyp k := by
  rw [Term.callees_instantiate] at member
  obtain ⟨⟨target, measure⟩, original, rfl⟩ := List.mem_map.mp member
  obtain ⟨p, _, rfl, assumed⟩ := placed _ original
  obtain ⟨k, const⟩ := exists_find?_consts discharged assumed
  obtain ⟨hyp, assumed', discharges⟩ := discharges_of_find?_consts discharged const
  simp only [Callee.instantiate, const]
  exact ⟨p, hyp, k, rfl, original, assumed', discharges⟩

theorem hasPlaceholders_instantiate
    : (term.instantiate (FiniteMap.ofList consts).find?).hasPlaceholders = false := by
  rw [Term.hasPlaceholders, List.any_eq_false]
  intro callee member
  obtain ⟨_, _, k, target, _⟩ := exists_of_mem_callees_instantiate discharged placed member
  simp [target, CalleeRef.isPlaceholder]

end Callees

end Constants

/-- A member is closed if its hypotheses are discharged, it is guarded in case one of them is an
induction hypothesis, and no placeholder is left.
-/
theorem close_eq_ok_iff {ctx : Context} {m : Member} {row : (ConstId × Term) × Theorem}
    : close ctx m = .ok row
      ↔ ∃ term consts,
          m.thm.judgement = .callCorres term m.proc
          ∧ List.Forall₂
              (fun entry const => const.1 = entry.1 ∧ Discharges ctx m entry.1 entry.2 const.2)
              m.thm.hyps.entries consts
          ∧ (∀ hyp ∈ m.thm.hyps.values, hyp.recursive = true → isRecGuard term = true)
          ∧ (term.instantiate (FiniteMap.ofList consts).find?).hasPlaceholders = false
          ∧ row
            = ((m.const, term.instantiate (FiniteMap.ofList consts).find?),
                ⟨ctx.total, ctx.env, .fnCorres m.const m.proc, .empty, none⟩) := by
  unfold close
  split
  · next term proc judged =>
      cases proc_eq judged
      have guardedIff : (m.thm.hyps.values.any (·.recursive) && !isRecGuard term) = false
          ↔ ∀ hyp ∈ m.thm.hyps.values, hyp.recursive = true → isRecGuard term = true := by
        rw [Bool.and_eq_false_imp, List.any_eq_true]
        constructor
        · intro h hyp assumed recursive
          simpa using h ⟨hyp, assumed, recursive⟩
        · rintro h ⟨hyp, assumed, recursive⟩
          simp [h hyp assumed recursive]
      simp only [bind_eq_ok_iff, dischargeAll_eq_ok_iff]
      constructor
      · rintro ⟨consts, discharged, rest⟩
        split at rest
        · cases rest
        · next guarded =>
            split at rest
            · cases rest
            · next placed =>
                cases rest
                exact ⟨term, consts, judged, discharged,
                  guardedIff.mp (Bool.eq_false_iff.mpr guarded), Bool.eq_false_iff.mpr placed, rfl⟩
      · rintro ⟨term', consts, judgedToo, discharged, guarded, placed, rfl⟩
        cases judged.symm.trans judgedToo
        refine ⟨consts, discharged, ?_⟩
        rw [if_neg (Bool.eq_false_iff.mp (guardedIff.mpr guarded)),
          if_neg (Bool.eq_false_iff.mp placed)]
        rfl
  · next other =>
      refine iff_of_false (fun same => by cases same) ?_
      rintro ⟨term, _, judged, _⟩
      exact other term m.proc judged

/-- What it takes to close a member. -/
structure Closable (ctx : Context) (m : Member) (term : Term) : Prop where
  judgement : m.thm.judgement = .callCorres term m.proc
  discharged
    : ∀ p hyp, (p, hyp) ∈ m.thm.hyps.entries → ∃ k, Discharges ctx m p hyp k
  guarded : ∀ hyp ∈ m.thm.hyps.values, hyp.recursive = true → isRecGuard term = true
  placed
    : ∀ callee ∈ term.callees,
        ∃ p hyp, callee.target = .placeholder p ∧ m.thm.hyps.find? p = some hyp

/-- A closable member is defined by its term with a constant for each placeholder, the one that
discharges its hypothesis.
-/
theorem Closable.close_eq_ok {ctx : Context} {m : Member} {term : Term} (h : Closable ctx m term)
    : ∃ body,
        close ctx m
          = .ok ((m.const, body), ⟨ctx.total, ctx.env, .fnCorres m.const m.proc, .empty, none⟩)
        ∧ ∀ callee ∈ body.callees,
            ∃ p hyp k,
              callee.target = .const k ∧ ⟨.placeholder p, callee.measure⟩ ∈ term.callees
              ∧ (p, hyp) ∈ m.thm.hyps.entries ∧ Discharges ctx m p hyp k := by
  obtain ⟨consts, discharged⟩
      : ∃ consts, dischargeAll ctx m.proc m.bindings m.thm.hyps.entries = .ok consts := by
    have each : ∀ entry ∈ m.thm.hyps.entries,
        ∃ const : PlaceholderId × ConstId,
          const.1 = entry.1 ∧ Discharges ctx m entry.1 entry.2 const.2 := by
      intro entry assumed
      obtain ⟨k, discharges⟩ := h.discharged entry.1 entry.2 assumed
      exact ⟨(entry.1, k), rfl, discharges⟩
    obtain ⟨consts, related⟩ := exists_related each
    exact ⟨consts, dischargeAll_eq_ok_iff.mpr related⟩
  have related := dischargeAll_eq_ok_iff.mp discharged
  have placed : ∀ callee ∈ term.callees,
      ∃ p hyp, callee.target = .placeholder p ∧ (p, hyp) ∈ m.thm.hyps.entries := by
    intro callee called
    obtain ⟨p, hyp, target, assumed⟩ := h.placed callee called
    exact ⟨p, hyp, target, FiniteMap.mem_entries_of_find? assumed⟩
  refine ⟨_, ?_, fun _ => exists_of_mem_callees_instantiate related placed⟩
  exact close_eq_ok_iff.mpr ⟨term, consts, h.judgement, related, h.guarded,
    hasPlaceholders_instantiate related placed, rfl⟩

end Member

/-- What members with a common termination flag and environment are closed in. -/
def Member.contextOf (members : List Member) (total : Bool) (env : Environment) : Member.Context :=
  ⟨Member.closingLemma members, total, env,
    FiniteMap.ofList (members.map fun m => (m.const, m.proc))⟩

/-- A constant with a procedure is that of a member. -/
theorem Member.find?_procs_contextOf {members : List Member} {total : Bool} {env : Environment}
    {k : ConstId} {proc : Name}
    (found : (Member.contextOf members total env).procs.find? k = some proc)
    : ∃ m ∈ members, m.const = k ∧ m.proc = proc := by
  have listed := FiniteMap.mem_entries_ofList (FiniteMap.mem_entries_of_find? found)
  obtain ⟨m, among, same⟩ := List.mem_map.mp listed
  cases same
  exact ⟨m, among, rfl, rfl⟩

/-- A cluster is closed member by member, if there are some and they agree with each other. -/
theorem closeCluster_eq_ok_iff {members : List Member} {closed : ClosedCluster}
    : closeCluster members = .ok closed
      ↔ ∃ total env rows,
          members ≠ []
          ∧ (∀ m ∈ members, m.Agrees total env)
          ∧ List.Forall₂
              (fun m row => Member.close (Member.contextOf members total env) m = .ok row)
              members rows
          ∧ closed = ⟨rows.map (·.1), rows.map (·.2)⟩ := by
  cases members with
  | nil =>
      refine iff_of_false nofun ?_
      rintro ⟨_, _, _, nonempty, _⟩
      exact nonempty rfl
  | cons first rest =>
      simp only [closeCluster, bind_eq_ok_iff, Member.register_eq_ok_iff, mapM_eq_ok_iff]
      constructor
      · rintro ⟨ctx, ⟨agree, rfl⟩, rows, related, same⟩
        cases same
        exact ⟨_, _, rows, by simp, agree, related, rfl⟩
      · rintro ⟨total, env, rows, _, agree, related, rfl⟩
        obtain ⟨_, rfl, rfl⟩ := agree first List.mem_cons_self
        exact ⟨_, ⟨agree, rfl⟩, rows, related, rfl⟩

end Monadize
