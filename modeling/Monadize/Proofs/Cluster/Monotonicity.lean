import Monadize.Proofs.Cluster.Soundness

/-! The definitions of a closed cluster are monotone in their measure: where one cannot fail at some
measure, it cannot fail at a larger one, and ends alike. Every construct of terms keeps this, and
recursive calls have it by induction on the measure.
-/

namespace Monadize

variable {σ ν : Type*}

-----------------------------------------------------------------------------------------
-- Constructs
-----------------------------------------------------------------------------------------

namespace Computation

theorem Persists.refl (a : Computation σ) : a.Persists a :=
  fun _ safe => ⟨safe, fun _ => Iff.rfl⟩

/-- Nothing is asked of what takes the place of a failure. -/
theorem Persists.fail (a : Computation σ) : fail.Persists a :=
  fun _ safe => absurd trivial safe

/-- What runs after a computation, where that ends in the given way. -/
theorem Persists.after {a a' b b' : Computation σ} (ha : a.Persists a') (hb : b.Persists b')
    (way : σ → Ending σ) {s : σ} (safe : ¬ (a.fails s ∨ ∃ t, a.ends s (way t) ∧ b.fails t))
    : ¬ (a'.fails s ∨ ∃ t, a'.ends s (way t) ∧ b'.fails t)
      ∧ ∀ o, (∃ t, a'.ends s (way t) ∧ b'.ends t o) ↔ ∃ t, a.ends s (way t) ∧ b.ends t o := by
  obtain ⟨first, second⟩ := not_or.mp safe
  obtain ⟨first', same⟩ := ha s first
  have later (t : σ) (here : a.ends s (way t)) := hb t fun fails => second ⟨t, here, fails⟩
  refine ⟨?_, fun o => exists_congr fun t => ?_⟩
  · intro fails
    rcases fails with now | ⟨t, here, next⟩
    · exact first' now
    · exact (later t ((same _).mp here)).1 next
  · rw [same]
    exact and_congr_right fun here => (later t here).2 o

theorem Persists.seq {a a' b b' : Computation σ} (ha : a.Persists a') (hb : b.Persists b')
    : (a.seq b).Persists (a'.seq b') := by
  intro s safe
  obtain ⟨_, same⟩ := ha s (not_or.mp safe).1
  obtain ⟨safe', later⟩ := ha.after hb .normal safe
  exact ⟨safe', fun o => or_congr (later o) (exists_congr fun t => and_congr_right' (same _))⟩

theorem Persists.tryCatch {a a' b b' : Computation σ} (ha : a.Persists a') (hb : b.Persists b')
    : (a.tryCatch b).Persists (a'.tryCatch b') := by
  intro s safe
  obtain ⟨_, same⟩ := ha s (not_or.mp safe).1
  obtain ⟨safe', later⟩ := ha.after hb .exception safe
  exact ⟨safe', fun o => or_congr (exists_congr fun t => and_congr_right' (same _)) (later o)⟩

theorem Persists.condition (p : σ → Prop) {a a' b b' : Computation σ} (ha : a.Persists a')
    (hb : b.Persists b')
    : (condition p a b).Persists (condition p a' b') := by
  intro s safe
  obtain ⟨left, right⟩ := not_or.mp safe
  by_cases holds : p s
  · obtain ⟨safe', same⟩ := ha s fun fails => left ⟨holds, fails⟩
    simp [Computation.condition, holds, safe', same]
  · obtain ⟨safe', same⟩ := hb s fun fails => right ⟨holds, fails⟩
    simp [Computation.condition, holds, safe', same]

theorem loopEnds_iff_of_exit {p : σ → Prop} (a : Computation σ) {s : σ} (exit : ¬ p s)
    (o : Ending σ)
    : LoopEnds p a s o ↔ o = .normal s := by
  constructor
  · intro ends
    cases ends with
    | done => rfl
    | round enter | leave enter => exact absurd enter exit
  · intro same
    exact same ▸ .done exit

/-- A loop that is entered ends like its body and the loop again. -/
theorem loopEnds_iff_of_enter {p : σ → Prop} (a : Computation σ) {s : σ} (enter : p s)
    (o : Ending σ)
    : LoopEnds p a s o
      ↔ (∃ t, a.ends s (.normal t) ∧ LoopEnds p a t o)
        ∨ ∃ t, o = .exception t ∧ a.ends s (.exception t) := by
  constructor
  · intro ends
    cases ends with
    | done exit => exact absurd enter exit
    | round _ here rest => exact .inl ⟨_, here, rest⟩
    | leave _ here => exact .inr ⟨_, rfl, here⟩
  · intro ends
    rcases ends with ⟨t, here, rest⟩ | ⟨t, rfl, here⟩
    · exact .round enter here rest
    · exact .leave enter here

/-- By induction on the rounds that a loop may take before it cannot go on. -/
theorem Persists.loop (p : σ → Prop) {a a' : Computation σ} (ha : a.Persists a')
    : (loop p a).Persists (loop p a') := by
  intro s safe
  have rounds : LoopSafe p a s := not_not.mp safe
  suffices both : LoopSafe p a' s ∧ ∀ o, LoopEnds p a' s o ↔ LoopEnds p a s o from
    ⟨not_not.mpr both.1, both.2⟩
  clear safe
  induction rounds with
  | @done s exit =>
      refine ⟨.done exit, fun o => ?_⟩
      rw [loopEnds_iff_of_exit a' exit, loopEnds_iff_of_exit a exit]
  | @round s enter body _ ih =>
      obtain ⟨body', same⟩ := ha s body
      refine ⟨.round enter body' fun t here => (ih t ((same _).mp here)).1, fun o => ?_⟩
      rw [loopEnds_iff_of_enter a' enter, loopEnds_iff_of_enter a enter]
      refine or_congr (exists_congr fun t => ?_) (exists_congr fun t => and_congr_right' (same _))
      rw [same]
      exact and_congr_right fun here => (ih t here).2 o

theorem Persists.call (setup : σ → σ) {a a' : Computation σ} (ha : a.Persists a')
    (cleanup : σ → σ → σ) (result : σ → σ → σ → σ)
    : (call setup a cleanup result).Persists (call setup a' cleanup result) := by
  intro s safe
  obtain ⟨runs, returns⟩ := not_or.mp safe
  obtain ⟨runs', same⟩ := ha (setup s) runs
  refine ⟨?_, fun o => exists_congr fun t => and_congr_left' (same _)⟩
  intro fails
  rcases fails with now | ⟨t, thrown⟩
  · exact runs' now
  · exact returns ⟨t, (same _).mp thrown⟩

/-- A guard that lets a measure through lets through all larger ones. -/
theorem Persists.recGuard {m n : Nat} (le : m ≤ n) {a a' : Computation σ} (ha : a.Persists a')
    : (recGuard m a).Persists (recGuard n a') := by
  unfold Computation.recGuard
  by_cases zero : m = 0
  · rw [if_pos zero]
    exact .fail _
  · rw [if_neg zero, if_neg (by omega)]
    exact ha

end Computation

/-- A term persists from some measures to larger ones if its callees do, by induction on it. -/
theorem Term.denote_persists (I : Interpretation σ ν) {link : Linking σ}
    {measures measures' : MeasureId → Nat} (le : ∀ m, measures m ≤ measures' m) {t : Term}
    (callees
      : ∀ callee ∈ t.callees,
          (callee.denote link measures).Persists (callee.denote link measures'))
    : (t.denote I link measures).Persists (t.denote I link measures') := by
  induction t with
  | seq a b iha ihb =>
      simp only [callees_seq, List.forall_mem_append] at callees
      exact (iha callees.1).seq (ihb callees.2)
  | tryCatch a b iha ihb =>
      simp only [callees_tryCatch, List.forall_mem_append] at callees
      exact (iha callees.1).tryCatch (ihb callees.2)
  | condition p a b iha ihb =>
      simp only [callees_condition, List.forall_mem_append] at callees
      exact (iha callees.1).condition _ (ihb callees.2)
  | loop p body ih => exact (ih callees).loop _
  | recGuard m body ih => exact (ih callees).recGuard (le m)
  | call setup callee cleanup result => exact (callees callee List.mem_cons_self).call _ _ _
  | skip | throw | fail | modify | guard | init | spec => exact .refl _

-----------------------------------------------------------------------------------------
-- Definitions
-----------------------------------------------------------------------------------------

/-- A callee that is not passed the decremented measure does not depend on the measure. -/
theorem Callee.denote_eq {callee : Callee} (passed : ∀ m, callee.measure ≠ .pred m)
    (link : Linking σ) (measures measures' : MeasureId → Nat)
    : callee.denote link measures = callee.denote link measures' := by
  obtain ⟨target, measure⟩ := callee
  cases measure with
  | pred m => exact absurd rfl (passed m)
  | managed | unused => rfl

/-- Stratified definitions whose recursive calls stay among them persist from each measure to all
larger ones. By induction on the smaller one, for all definitions at once: a recursive call is under
a guard, which fails at zero, and passes the measure before.
-/
theorem Linking.Interprets.persists {I : Interpretation σ ν} {link base : Linking σ}
    {defs : List (ConstId × Term)} (interprets : link.Interprets I base defs)
    (stratified : Stratified defs)
    (stays
      : ∀ k body, (k, body) ∈ defs → ∀ callee ∈ body.callees, callee.StaysIn (defs.map Prod.fst))
    (m : Nat)
    : ∀ n, m ≤ n → ∀ k body, (k, body) ∈ defs
      → (body.denote I link fun _ => m).Persists (body.denote I link fun _ => n) := by
  induction m with
  | zero =>
      intro n _ k body defined
      by_cases guarded : Member.isRecGuard body = true
      · rw [Term.denote_zero_of_isRecGuard guarded]
        exact .fail _
      · refine Term.denote_persists I (fun _ => Nat.zero_le n) fun callee called => ?_
        have passed (m : MeasureId) : callee.measure ≠ .pred m := fun passed =>
          guarded (stratified.guarded k body defined callee called m passed)
        rw [Callee.denote_eq passed]
        exact .refl _
  | succ m ih =>
      intro n le k body defined
      refine Term.denote_persists I (fun _ => le) fun callee called => ?_
      by_cases recursive : ∃ m, callee.measure = .pred m
      · obtain ⟨id, passed⟩ := recursive
        obtain ⟨j, target, inside⟩ := stays k body defined callee called
        obtain ⟨⟨_, other⟩, also, rfl⟩ := List.mem_map.mp (inside id passed)
        simp only [Callee.denote, passed, target]
        rw [interprets.defines _ other also, interprets.defines _ other also]
        exact ih (n - 1) (by omega) _ other also
      · rw [Callee.denote_eq (not_exists.mp recursive)]
        exact .refl _

-----------------------------------------------------------------------------------------
-- Clusters
-----------------------------------------------------------------------------------------

/-- Every callee of a closed member is a constant, and one of the cluster if it is passed the
decremented measure: only members discharge induction hypotheses.
-/
theorem Member.ClosedWith.staysIn {members : List Member} {total : Bool} {env : Environment}
    {m : Member} {term : Term} {find : PlaceholderId → Option ConstId}
    (closed : m.ClosedWith (contextOf members total env) term find) (derivable : m.thm.Derivable)
    {callee : Callee} (called : callee ∈ (term.instantiate find).callees)
    : callee.StaysIn (members.map (·.const)) := by
  rw [Term.callees_instantiate] at called
  obtain ⟨original, inside, rfl⟩ := List.mem_map.mp called
  cases derivable.scoped.callees term closed.term? original inside with
  | @pred p hyp _ assumed recursive _ =>
      obtain ⟨k, found, discharges⟩ := closed.discharged p hyp assumed
      simp only [Callee.instantiate, found]
      refine ⟨k, rfl, fun _ _ => ?_⟩
      rcases discharges.cases with ⟨external, _⟩ | ⟨_, known⟩
      · cases external.symm.trans recursive
      · obtain ⟨other, among, rfl, _⟩ := find?_procs_contextOf known
        exact List.mem_map_of_mem among
  | @managed p hyp assumed _ | @unused p hyp assumed _ =>
      obtain ⟨k, found, _⟩ := closed.discharged p hyp assumed
      simp only [Callee.instantiate, found]
      exact ⟨k, rfl, fun _ passed => by cases passed⟩

/-- Monotonicity is sound. Let a cluster be closed from theorems of the kernel, with distinct
constants that are none of those defined before. Then its definitions are found monotone. However
they and the other constants are interpreted, the joint theorem and its conjuncts are valid: where a
definition cannot fail at a measure, it cannot fail at larger ones, and ends in the same ways, both
normal and by an exception.
-/
theorem monoCluster_valid {members : List Member} {closed : ClosedCluster}
    (derivable : ∀ m ∈ members, m.thm.Derivable) (distinct : (members.map (·.const)).Nodup)
    (apart : Member.Apart members) (success : closeCluster members = .ok closed)
    {defs : ConstId → Option Term}
    (stored : ∀ k body, (k, body) ∈ closed.defs → defs k = some body) (total : Bool)
    (env : Environment) (I : Interpretation σ ν) (base : Linking σ)
    : ∃ thm parts,
        monoCluster total env (members.map (·.const)) defs = .ok thm
        ∧ thm.split = .ok parts
        ∧ parts.map (·.judgement) = members.map (fun m => .mono m.const)
        ∧ (∃ link : Linking σ, link.Interprets I base closed.defs)
        ∧ ∀ link : Linking σ,
            link.Interprets I base closed.defs
            → thm.Valid I link
              ∧ (∀ part ∈ parts, part.Valid I link)
              ∧ ∀ member ∈ members,
                  ∃ body,
                    (member.const, body) ∈ closed.defs
                    ∧ ∀ m n, m ≤ n
                      → (body.denote I link fun _ => m).Persists
                          (body.denote I link fun _ => n) := by
  obtain ⟨total', env', agree, defines, thms⟩ :=
    Member.closedWith_of_closeCluster (fun m among => (derivable m among).scoped) success
  have consts := Member.consts_of_closedWith defines
  have stratified := Member.stratified_of_closedWith derivable distinct apart defines
  have stays : ∀ k body, (k, body) ∈ closed.defs →
      ∀ callee ∈ body.callees, callee.StaysIn (members.map (·.const)) := by
    intro k body defined callee called
    obtain ⟨m, among, term, find, with', same⟩ := exists_left_of_mem defines defined
    cases same
    exact with'.staysIn (derivable m among) called
  have own : ∀ member ∈ members, ∃ body, (member.const, body) ∈ closed.defs := by
    intro member among
    obtain ⟨_, defined, term, find, _, rfl⟩ := exists_right_of_mem defines among
    exact ⟨_, defined⟩
  have monotone : monoCluster total env (members.map (·.const)) defs
      = .ok ⟨total, env, .monoAll (members.map (·.const)), .empty, none⟩ := by
    refine monoCluster_eq_ok_iff.mpr ⟨fun k listed => ?_, rfl⟩
    obtain ⟨member, among, rfl⟩ := List.mem_map.mp listed
    obtain ⟨body, defined⟩ := own member among
    exact ⟨body, stored _ _ defined, stays _ _ defined⟩
  refine ⟨_, _, monotone, rfl, ?_, ⟨_, Linking.interprets_define I base stratified⟩, ?_⟩
  · simp only [List.map_map, Function.comp_def]
  intro link interprets
  have persists := interprets.persists stratified (consts ▸ stays)
  have holds : ∀ k ∈ members.map (·.const), ∀ m n, m ≤ n
      → (link.callee (.const k) m).Persists (link.callee (.const k) n) := by
    intro k listed m n le
    obtain ⟨member, among, rfl⟩ := List.mem_map.mp listed
    obtain ⟨body, defined⟩ := own member among
    rw [interprets.defines _ body defined, interprets.defines _ body defined]
    exact persists m n le _ body defined
  refine ⟨fun _ => holds, ?_, ?_⟩
  · intro part listed
    obtain ⟨k, among, rfl⟩ := List.mem_map.mp listed
    exact fun _ => holds k among
  · intro member among
    obtain ⟨body, defined⟩ := own member among
    exact ⟨body, defined, fun m n le => persists m n le _ body defined⟩

/-- Witness: the two procedures that call each other are monotone, with a counter in the place of
the procedure defined before.
-/
theorem monoCluster_valid_rally
    : ∃ closed thm,
        closeCluster [Member.rallyPing, Member.rallyPong] = .ok closed
        ∧ monoCluster true Member.rally [0, 1] (FiniteMap.ofList closed.defs).find? = .ok thm
        ∧ ∃ link : Linking Nat,
            link.Interprets .belowThree ⟨fun _ _ => .modify (· + 1), 0⟩ closed.defs
            ∧ ∀ k ∈ [0, 1], ∀ m n, m ≤ n
              → (link.callee (.const k) m).Persists (link.callee (.const k) n) := by
  obtain ⟨closed, success, once⟩
      : ∃ closed,
          closeCluster [Member.rallyPing, Member.rallyPong] = .ok closed
          ∧ closed.defs.map Prod.fst = [0, 1] :=
    ⟨_, rfl, rfl⟩
  have functional := FiniteMap.functional_of_nodup (once ▸ (by decide : [0, 1].Nodup))
  obtain ⟨thm, _, monotone, _, _, ⟨link, interprets⟩, sound⟩ :=
    monoCluster_valid Member.rally_derivable (by decide) Member.rally_apart success
      (fun k body => (FiniteMap.find?_ofList_eq_some_iff functional).mpr) true Member.rally
      .belowThree ⟨fun _ _ => .modify (· + 1), 0⟩
  refine ⟨closed, thm, success, monotone, link, interprets, ?_⟩
  obtain ⟨_, rfl⟩ := monoCluster_eq_ok_iff.mp monotone
  exact (sound link interprets).1 nofun

end Monadize
