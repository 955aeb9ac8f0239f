import Monadize.Proofs.Kernel.Validity
import Monadize.Proofs.Semantics.Definitions

/-! Closing a cluster is sound. Its definitions can be interpreted, and each constant then
corresponds to a call of its procedure at every measure, by induction on the measure for all members
at once.
-/

namespace Monadize

variable {σ ν : Type*}

namespace Member

-----------------------------------------------------------------------------------------
-- What closing a cluster gives
-----------------------------------------------------------------------------------------

/-- The member is closed with the constants of `find`: each discharges the hypothesis on its
placeholder, and the term is guarded if one of these is an induction hypothesis.
-/
structure ClosedWith (ctx : Context) (m : Member) (term : Term)
    (find : PlaceholderId → Option ConstId) : Prop where
  judgement : m.thm.judgement = .callCorres term m.proc
  discharged
    : ∀ p hyp, m.thm.hyps.find? p = some hyp → ∃ k, find p = some k ∧ Discharges ctx m p hyp k
  guarded : ∀ hyp ∈ m.thm.hyps.values, hyp.recursive = true → isRecGuard term = true

/-- A cluster of scoped theorems is closed with constants for all their placeholders. -/
theorem closedWith_of_closeCluster {members : List Member} {closed : ClosedCluster}
    (within : ∀ m ∈ members, m.thm.Scoped) (success : closeCluster members = .ok closed)
    : ∃ total env,
        (∀ m ∈ members, m.Agrees total env)
        ∧ List.Forall₂
            (fun m d =>
              ∃ term find,
                m.ClosedWith (contextOf members total env) term find
                ∧ d = (m.const, term.instantiate find))
            members closed.defs
        ∧ closed.thms
          = members.map fun m =>
              ⟨m.thm.total, m.thm.env, .fnCorres m.const m.proc, .empty, none⟩ := by
  obtain ⟨total, env, rows, _, agree, related, rfl⟩ := closeCluster_eq_ok_iff.mp success
  have each := (List.forall₂_and_left _ _).mpr ⟨fun m among => among, related⟩
  refine ⟨total, env, agree, ?_, ?_⟩
  · refine List.forall₂_map_right_iff.mpr (each.imp ?_)
    rintro m row ⟨among, closed⟩
    obtain ⟨term, consts, judged, discharged, guarded, _, rfl⟩ := close_eq_ok_iff.mp closed
    refine ⟨term, (FiniteMap.ofList consts).find?, ⟨judged, ?_, guarded⟩, rfl⟩
    intro p hyp assumed
    have listed := FiniteMap.mem_entries_of_find? assumed
    obtain ⟨k, found⟩ := exists_find?_consts discharged listed
    obtain ⟨other, listedToo, discharges⟩ := discharges_of_find?_consts discharged found
    cases (within m among).functional p hyp other listed listedToo
    exact ⟨k, found, discharges⟩
  · refine eq_map_of_related (List.forall₂_map_left_iff.mpr (List.Forall₂.flip (each.imp ?_)))
    rintro m row ⟨among, closed⟩
    obtain ⟨_, _, _, _, _, _, rfl⟩ := close_eq_ok_iff.mp closed
    obtain ⟨_, rfl, rfl⟩ := agree m among
    rfl

/-- The definitions are those of the members' constants, in order. -/
theorem consts_of_closedWith {members : List Member} {defs : List (ConstId × Term)} {ctx : Context}
    (defines
      : List.Forall₂
          (fun m d =>
            ∃ term find, m.ClosedWith ctx term find ∧ d = (m.const, term.instantiate find))
          members defs)
    : defs.map Prod.fst = members.map (·.const) := by
  refine eq_map_of_related (List.forall₂_map_left_iff.mpr (List.Forall₂.flip (defines.imp ?_)))
  rintro m d ⟨term, find, _, rfl⟩
  rfl

/-- No member is defined as a constant that a binding has the theorem of. -/
def Apart (members : List Member) : Prop :=
  ∀ m ∈ members, ∀ p thm k proc,
    m.bindings.find? p = some (.defined thm) → thm.judgement = .fnCorres k proc
    → k ∉ members.map (·.const)

section Closed

variable {members : List Member} {total : Bool} {env : Environment} {m : Member} {term : Term}
  {find : PlaceholderId → Option ConstId}
  (closed : m.ClosedWith (contextOf members total env) term find) (derivable : m.thm.Derivable)

include closed

theorem ClosedWith.term? : m.thm.term? = some term := by
  simp only [Theorem.term?, closed.judgement]

include derivable

/-- A callee of the definition stands for one of the term. At the decremented measure it is called
under a guard, and otherwise it is a constant from outside.
-/
theorem ClosedWith.callee (apart : Apart members) (among : m ∈ members) {callee : Callee}
    (called : callee ∈ (term.instantiate find).callees)
    : ((∃ n, callee.measure = .pred n) ∧ isRecGuard (term.instantiate find) = true)
      ∨ ((∀ n, callee.measure ≠ .pred n)
        ∧ ∃ k, callee.target = .const k ∧ k ∉ members.map (·.const)) := by
  rw [Term.callees_instantiate] at called
  obtain ⟨original, inside, rfl⟩ := List.mem_map.mp called
  have external {p : PlaceholderId} {hyp : Hyp} (assumed : m.thm.hyps.find? p = some hyp)
      (external : hyp.recursive = false)
      : ∃ k, find p = some k ∧ k ∉ members.map (·.const) := by
    obtain ⟨k, found, discharges⟩ := closed.discharged p hyp assumed
    rcases discharges.cases with ⟨_, thm, bound, judged, _⟩ | ⟨recursive, _⟩
    · exact ⟨k, found, apart m among p thm k hyp.proc bound judged⟩
    · cases external.symm.trans recursive
  cases derivable.scoped.callees term closed.term? original inside with
  | @pred p hyp n assumed recursive own =>
      have listed : hyp ∈ m.thm.hyps.values :=
        List.mem_map_of_mem (FiniteMap.mem_entries_of_find? assumed)
      have guarded := closed.guarded hyp listed recursive
      refine .inl ⟨⟨n, ?_⟩, ?_⟩
      · obtain ⟨k, found, _⟩ := closed.discharged p hyp assumed
        simp only [Callee.instantiate, found]
      · cases term with
        | recGuard => rfl
        | _ => cases guarded
  | @managed p hyp assumed external' =>
      obtain ⟨k, found, outside⟩ := external assumed external'
      simp only [Callee.instantiate, found]
      exact .inr ⟨fun _ passed => (by cases passed), k, rfl, outside⟩
  | @unused p hyp assumed external' =>
      obtain ⟨k, found, outside⟩ := external assumed external'
      simp only [Callee.instantiate, found]
      exact .inr ⟨fun _ passed => (by cases passed), k, rfl, outside⟩

end Closed

/-- The definitions of a closed cluster are stratified. -/
theorem stratified_of_closedWith {members : List Member} {total : Bool} {env : Environment}
    {defs : List (ConstId × Term)} (derivable : ∀ m ∈ members, m.thm.Derivable)
    (distinct : (members.map (·.const)).Nodup) (apart : Apart members)
    (defines
      : List.Forall₂
          (fun m d =>
            ∃ term find,
              m.ClosedWith (contextOf members total env) term find
              ∧ d = (m.const, term.instantiate find))
          members defs)
    : Stratified defs := by
  have consts := consts_of_closedWith defines
  refine ⟨consts ▸ distinct, ?_, ?_⟩
  · intro k body defined callee called n passed
    obtain ⟨m, among, term, find, closed, same⟩ := exists_left_of_mem defines defined
    cases same
    rcases closed.callee (derivable m among) apart among called with ⟨_, guarded⟩ | ⟨other, _⟩
    · exact guarded
    · exact absurd passed (other n)
  · intro k body defined callee called passed j inside constant
    obtain ⟨m, among, term, find, closed, same⟩ := exists_left_of_mem defines defined
    cases same
    rcases closed.callee (derivable m among) apart among called with
      ⟨⟨n, recursive⟩, _⟩ | ⟨_, k', target, outside⟩
    · exact absurd recursive (passed n)
    · cases constant.symm.trans target
      exact outside (consts ▸ inside)

end Member

-----------------------------------------------------------------------------------------
-- Induction on the measure
-----------------------------------------------------------------------------------------

/-- Placeholders stand for their constants, those of an induction only below the measure. -/
def Linking.below (link : Linking σ) (find : PlaceholderId → Option ConstId)
    (hyps : FiniteMap PlaceholderId Hyp) (n : Nat)
    : Linking σ where
  callee ref j :=
    match ref with
    | .const k => link.callee (.const k) j
    | .placeholder p =>
        match find p, hyps.find? p with
        | some k, some hyp =>
            if hyp.recursive = true ∧ n ≤ j then .fail else link.callee (.const k) j
        | _, _ => .fail
  unused := link.unused

theorem Linking.callee_below {link : Linking σ} {find : PlaceholderId → Option ConstId}
    {hyps : FiniteMap PlaceholderId Hyp} {p : PlaceholderId} {k : ConstId} {hyp : Hyp}
    (found : find p = some k) (assumed : hyps.find? p = some hyp) (n j : Nat)
    : (link.below find hyps n).callee (.placeholder p) j
      = if hyp.recursive = true ∧ n ≤ j then .fail else link.callee (.const k) j := by
  simp only [below, found, assumed]

namespace Member.ClosedWith

variable {members : List Member} {total : Bool} {env : Environment} {m : Member} {term : Term}
  {find : PlaceholderId → Option ConstId}
  (closed : m.ClosedWith (contextOf members total env) term find)

include closed

/-- The placeholders below a measure satisfy the hypotheses if all members correspond below it and
the constants from outside do at every measure.
-/
theorem satisfies {I : Interpretation σ ν} {link : Linking σ} {n : Nat}
    (earlier
      : ∀ j < n, ∀ other ∈ members,
          Corresponds total (link.callee (.const other.const) j) (env.behaviour I other.proc))
    (outside
      : ∀ p thm k proc,
          m.bindings.find? p = some (.defined thm) → thm.judgement = .fnCorres k proc
          → thm.hyps.isEmpty = true → thm.total = total → thm.env = env
          → ∀ j, Corresponds total (link.callee (.const k) j) (env.behaviour I proc))
    : (link.below find m.thm.hyps n).Satisfies I total env m.thm.hyps := by
  intro p hyp assumed j
  obtain ⟨k, found, discharges⟩ := closed.discharged p hyp assumed
  rw [Linking.callee_below found assumed]
  rcases discharges.cases with
    ⟨external, thm, bound, judged, closed, total, env⟩ | ⟨recursive, known⟩
  · rw [if_neg (by simp [external])]
    exact outside p thm k hyp.proc bound judged closed total env j
  · by_cases later : n ≤ j
    · rw [if_pos ⟨recursive, later⟩]
      exact .fail _
    · rw [if_neg fun h => later h.2]
      obtain ⟨other, among, rfl, proc⟩ := find?_procs_contextOf known
      rw [← proc]
      exact earlier j (Nat.lt_of_not_le later) other among

/-- At a measure, the definition means what the term means with the placeholders below it, unless it
is guarded and the measure is zero.
-/
theorem denote_instantiate (derivable : m.thm.Derivable) (I : Interpretation σ ν)
    (link : Linking σ) {n : Nat} (positive : isRecGuard term = true → 0 < n)
    : (term.instantiate find).denote I link (fun _ => n)
      = term.denote I (link.below find m.thm.hyps n) fun _ => n := by
  refine Term.denote_mapParts I ?_
  intro callee called
  cases derivable.scoped.callees term closed.term? callee called with
  | @pred p hyp _ assumed recursive _ =>
      obtain ⟨k, found, _⟩ := closed.discharged p hyp assumed
      have listed : hyp ∈ m.thm.hyps.values :=
        List.mem_map_of_mem (FiniteMap.mem_entries_of_find? assumed)
      have inside : ¬ n ≤ n - 1 := by
        have := positive (closed.guarded hyp listed recursive)
        omega
      simp only [Callee.instantiate, found, Callee.denote]
      rw [Linking.callee_below found assumed, if_neg fun h => inside h.2]
  | @managed p hyp assumed external =>
      obtain ⟨k, found, _⟩ := closed.discharged p hyp assumed
      simp only [Callee.instantiate, found, Callee.denote]
      refine congrArg Computation.managed (funext fun j => ?_)
      rw [Linking.callee_below found assumed, if_neg (by simp [external])]
  | @unused p hyp assumed external =>
      obtain ⟨k, found, _⟩ := closed.discharged p hyp assumed
      simp only [Callee.instantiate, found, Callee.denote]
      rw [Linking.callee_below found assumed, if_neg (by simp [external])]
      rfl

/-- If all members correspond below a measure, the definition of this one does at the measure. -/
theorem corresponds (derivable : m.thm.Derivable) (agrees : m.Agrees total env)
    {I : Interpretation σ ν} (valid : ∀ link : Linking σ, m.thm.Valid I link) {link : Linking σ}
    {n : Nat}
    (earlier
      : ∀ j < n, ∀ other ∈ members,
          Corresponds total (link.callee (.const other.const) j) (env.behaviour I other.proc))
    (outside
      : ∀ p thm k proc,
          m.bindings.find? p = some (.defined thm) → thm.judgement = .fnCorres k proc
          → thm.hyps.isEmpty = true → thm.total = total → thm.env = env
          → ∀ j, Corresponds total (link.callee (.const k) j) (env.behaviour I proc))
    : Corresponds total ((term.instantiate find).denote I link fun _ => n)
        (env.behaviour I m.proc) := by
  by_cases positive : isRecGuard term = true → 0 < n
  · obtain ⟨_, rfl, rfl⟩ := agrees
    rw [closed.denote_instantiate derivable I link positive]
    have holds := valid _ (closed.satisfies earlier outside)
    rw [closed.judgement] at holds
    exact holds fun _ => n
  -- a guarded definition fails at measure zero
  · rw [Classical.not_imp] at positive
    obtain ⟨guarded, zero⟩ := positive
    obtain rfl : n = 0 := by omega
    cases term with
    | recGuard => exact .fail _
    | _ => cases guarded

end Member.ClosedWith

/-- A theorem about a constant without hypotheses says that the constant corresponds. -/
theorem Theorem.Valid.corresponds {I : Interpretation σ ν} {link : Linking σ} {thm : Theorem}
    (h : thm.Valid I link) (closed : thm.hyps.isEmpty = true) {k : ConstId} {proc : Name}
    (judged : thm.judgement = .fnCorres k proc) (n : Nat)
    : Corresponds thm.total (link.callee (.const k) n) (thm.env.behaviour I proc) := by
  have satisfied : link.Satisfies I thm.total thm.env thm.hyps := by
    intro p hyp assumed
    have listed := FiniteMap.mem_entries_of_find? assumed
    rw [List.isEmpty_iff.mp closed] at listed
    cases listed
  have holds := h satisfied
  rw [judged] at holds
  exact holds n

/-- Closing a cluster is sound. Let all members be made by the kernel, with distinct constants that
are none of those defined before. Then the definitions of the cluster can be interpreted, on top of
any interpretation of the other constants. If the theorems of the members are valid, and those of
the constants defined before are, then the theorems about the members' constants have no hypotheses
and are valid however the definitions are interpreted. Witness: induction on the measure, for all
members at once.
-/
theorem closeCluster_valid {members : List Member} {closed : ClosedCluster}
    (derivable : ∀ m ∈ members, m.thm.Derivable) (distinct : (members.map (·.const)).Nodup)
    (apart : Member.Apart members) (success : closeCluster members = .ok closed)
    (I : Interpretation σ ν) (base : Linking σ)
    (valid : ∀ m ∈ members, ∀ link : Linking σ, m.thm.Valid I link)
    (defined
      : ∀ m ∈ members, ∀ p thm, m.bindings.find? p = some (.defined thm) → thm.Valid I base)
    : (∃ link : Linking σ, link.Interprets I base closed.defs)
      ∧ closed.defs.map Prod.fst = members.map (·.const)
      ∧ closed.thms
        = members.map (fun m =>
            ⟨m.thm.total, m.thm.env, .fnCorres m.const m.proc, .empty, none⟩)
      ∧ ∀ link : Linking σ,
          link.Interprets I base closed.defs → ∀ thm ∈ closed.thms, thm.Valid I link := by
  obtain ⟨total, env, agree, defines, thms⟩ :=
    Member.closedWith_of_closeCluster (fun m among => (derivable m among).scoped) success
  have consts := Member.consts_of_closedWith defines
  have stratified := Member.stratified_of_closedWith derivable distinct apart defines
  refine ⟨⟨_, Linking.interprets_define I base stratified⟩, consts, thms, ?_⟩
  intro link interprets
  have outside : ∀ m ∈ members, ∀ p thm k proc,
      m.bindings.find? p = some (.defined thm) → thm.judgement = .fnCorres k proc
      → thm.hyps.isEmpty = true → thm.total = total → thm.env = env
      → ∀ j, Corresponds total (link.callee (.const k) j) (env.behaviour I proc) := by
    rintro m among p thm k proc bound judged closed rfl rfl j
    have old : link.callee (.const k) = base.callee (.const k) := by
      refine interprets.outside _ ?_
      intro k' new same
      cases same
      exact apart m among p thm k proc bound judged (consts ▸ new)
    rw [old]
    exact (defined m among p thm bound).corresponds closed judged j
  have corresponds : ∀ n, ∀ m ∈ members,
      Corresponds total (link.callee (.const m.const) n) (env.behaviour I m.proc) := by
    intro n
    induction n using Nat.strongRecOn with
    | ind n earlier =>
        intro m among
        obtain ⟨_, new, term, find, closed, rfl⟩ := exists_right_of_mem defines among
        rw [interprets.defines m.const _ new n]
        exact closed.corresponds (derivable m among) (agree m among) (valid m among) earlier
          (outside m among)
  rw [thms]
  intro thm listed
  obtain ⟨m, among, rfl⟩ := List.mem_map.mp listed
  obtain ⟨_, rfl, rfl⟩ := agree m among
  exact fun _ n => corresponds n m among

namespace Member

/-- A call that passes the state on. -/
def callOf (callee : Callee) : Term :=
  .call .univ callee .univ (Expr.resultHandler "w" "t" "s" (.var "t"))

/-- Procedures that call each other: `ping` until the state leaves the set, `pong` after a step of
`tick`.
-/
def rally : Environment :=
  let call (proc : Name) : Stmt := .call .univ proc .univ ["t", "s"] (.assign (.var "t"))
  ⟨0, "w", ⟨[("ping", .cond .univ (call "pong") .skip), ("pong", .seq (call "tick") (call "ping")),
    ("tick", .assign (.num 1))]⟩⟩

def rallyTick : Theorem := ⟨true, rally, .fnCorres 7 "tick", .empty, none⟩

def rallyPing : Member where
  thm :=
    ⟨true, rally,
      .callCorres
        (.recGuard 0 (.condition (Expr.predOfSet "w" .univ)
          (callOf ⟨.placeholder 0, .pred 0⟩) .skip)) "ping",
      ⟨[(0, ⟨"pong", true⟩)]⟩, some 0⟩
  const := 0
  bindings := ⟨[(0, .sibling 1)]⟩

def rallyPong : Member where
  thm :=
    ⟨true, rally,
      .callCorres
        (.recGuard 0 (.seq (callOf ⟨.placeholder 0, .unused⟩) (callOf ⟨.placeholder 1, .pred 0⟩)))
        "pong",
      ⟨[(0, ⟨"tick", false⟩), (1, ⟨"ping", true⟩)]⟩, some 0⟩
  const := 1
  bindings := ⟨[(0, .defined rallyTick), (1, .sibling 0)]⟩

/-- The theorem of `ping` is made by the kernel and valid. -/
theorem rallyPing_thm (link : Linking Nat)
    : rallyPing.thm.Derivable ∧ rallyPing.thm.Valid .belowThree link :=
  Theorem.derivable_and_valid_of_body
    ⟨true, rally, .corres
      (.condition (Expr.predOfSet "w" .univ) (callOf ⟨.placeholder 0, .pred 0⟩) .skip)
      (.cond .univ (.call .univ "pong" .univ ["t", "s"] (.assign (.var "t"))) .skip)⟩
    (.apply .condition [.apply .callRecursive [.hyp 0], .leaf .skip]) [⟨"pong", true⟩] 0 "ping" rfl
    ⟨fun _ => Iff.rfl, fun _ _ _ => rfl, trivial⟩ rfl

/-- So is that of `pong`. -/
theorem rallyPong_thm (link : Linking Nat)
    : rallyPong.thm.Derivable ∧ rallyPong.thm.Valid .belowThree link :=
  Theorem.derivable_and_valid_of_body
    ⟨true, rally, .corres
      (.seq (callOf ⟨.placeholder 0, .unused⟩) (callOf ⟨.placeholder 1, .pred 0⟩))
      (.seq (.call .univ "tick" .univ ["t", "s"] (.assign (.var "t")))
        (.call .univ "ping" .univ ["t", "s"] (.assign (.var "t"))))⟩
    (.apply .seq [.apply .callExternal [.hyp 0], .apply .callRecursive [.hyp 1]])
    [⟨"tick", false⟩, ⟨"ping", true⟩] 0 "pong" rfl ⟨fun _ _ _ => rfl, fun _ _ _ => rfl⟩ rfl

theorem rally_derivable : ∀ m ∈ [rallyPing, rallyPong], m.thm.Derivable := by
  let link : Linking Nat := ⟨fun _ _ => .fail, 0⟩
  simpa using ⟨(rallyPing_thm link).1, (rallyPong_thm link).1⟩

theorem eq_rallyTick {m : Member} (among : m ∈ [rallyPing, rallyPong]) {p : PlaceholderId}
    {thm : Theorem} (found : m.bindings.find? p = some (.defined thm))
    : thm = rallyTick := by
  have listed := FiniteMap.mem_entries_of_find? found
  rcases List.mem_pair.mp among with rfl | rfl
  · simp [rallyPing] at listed
  · obtain ⟨_, same⟩ : p = 0 ∧ thm = rallyTick := by simpa [rallyPong] using listed
    exact same

theorem rally_apart : Apart [rallyPing, rallyPong] := by
  intro m among p thm k proc found judged
  cases eq_rallyTick among found
  cases judged
  decide

end Member

/-- Two procedures that call each other, one of which also calls a procedure defined before. -/
theorem closeCluster_valid_rally
    : ∃ closed,
        closeCluster [Member.rallyPing, Member.rallyPong] = .ok closed
        ∧ ∃ link : Linking Nat,
            link.Interprets .belowThree ⟨fun _ _ => .modify (· + 1), 0⟩ closed.defs
            ∧ ∀ n,
                Corresponds true (link.callee (.const 0) n)
                    (Member.rally.behaviour .belowThree "ping")
                ∧ Corresponds true (link.callee (.const 1) n)
                    (Member.rally.behaviour .belowThree "pong") := by
  let base : Linking Nat := ⟨fun _ _ => .modify (· + 1), 0⟩
  obtain ⟨closed, success⟩
      : ∃ closed, closeCluster [Member.rallyPing, Member.rallyPong] = .ok closed := ⟨_, rfl⟩
  have tick : Member.rallyTick.Valid .belowThree base := by
    intro _ n
    have counts : Corresponds true _
        ((Stmt.assign (.num 1)).behaviour .belowThree Member.rally fun _ => 0) :=
      .modify (.num 1)
    exact counts
  have valid : ∀ m ∈ [Member.rallyPing, Member.rallyPong], ∀ link : Linking Nat,
      m.thm.Valid .belowThree link := by
    intro m among link
    rcases List.mem_pair.mp among with rfl | rfl
    · exact (Member.rallyPing_thm link).2
    · exact (Member.rallyPong_thm link).2
  have defined : ∀ m ∈ [Member.rallyPing, Member.rallyPong], ∀ p thm,
      m.bindings.find? p = some (.defined thm) → thm.Valid .belowThree base := by
    intro m among p thm found
    cases Member.eq_rallyTick among found
    exact tick
  obtain ⟨⟨link, interprets⟩, _, thms, sound⟩ :=
    closeCluster_valid Member.rally_derivable (by decide) Member.rally_apart success .belowThree base
      valid defined
  have each := sound link interprets
  rw [thms] at each
  refine ⟨closed, success, link, interprets, fun n => ⟨?_, ?_⟩⟩
  · exact (each _ List.mem_cons_self).corresponds rfl rfl n
  · exact (each _ (List.mem_cons_of_mem _ List.mem_cons_self)).corresponds rfl rfl n

end Monadize
