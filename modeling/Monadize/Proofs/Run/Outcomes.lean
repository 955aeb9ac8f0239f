import Mathlib.Data.List.Permutation
import Monadize.Json.Writer
import Monadize.Proofs.Run.Course
import Monadize.Proofs.Run.Registration

/-! The outcomes of a run over a program on its own. Every cluster up to the first one that breaks
has its outcome by the text of the program alone: it is registered if all of its functions are
supported, and refused as unsupported otherwise.
-/

namespace Monadize

/-- What becomes of the clusters of a program on its own, from an empty store. -/
def Program.run (program : Program) (settings : Settings) : List Run.Item :=
  let (plan, current) := Plan.ofProgram program .empty
  (Run.sequential plan settings current .empty .empty none).1

namespace Run

variable {program : Program} {settings : Settings} {id : ClusterId} {state : RunState}

-----------------------------------------------------------------------------------------
-- One cluster
-----------------------------------------------------------------------------------------

/-- The outcome of a cluster as the text of the program has it. -/
inductive Settles (program : Program) (id : ClusterId) (members : List Name)
    : Except CompileError RunState → Prop
  | registered (supported : program.Supports members) (whole : ¬ program.Breaks id)
      (state : RunState)
      : Settles program id members (.ok state)
  | unsupported (refused : ¬ program.Supports members) (whole : ¬ program.Breaks id)
      (what : Unsupported)
      : Settles program id members (.error (.unsupported what))
  | broken (breaks : program.Breaks id) (func : Option Name) (e : ProofError)
      : Settles program id members (.error (.proof func e))

/-- A run that has reached a cluster settles it and goes on, unless the cluster breaks. -/
theorem Reaches.step (distinct : program.Distinct) (reaches : Reaches program settings id state)
    {members : List Name} (here : program.clusters[id]? = some members)
    : Settles program id members (item (Plan.ofProgram program .empty).1 settings state id).outcome
      ∧ (∀ next,
          (item (Plan.ofProgram program .empty).1 settings state id).outcome = .ok next
          → Reaches program settings (id + 1) next)
      ∧ (∀ what,
          (item (Plan.ofProgram program .empty).1 settings state id).outcome
            = .error (.unsupported what)
          → Reaches program settings (id + 1) state) := by
  have known : ∀ name ∈ members, ∃ d ∈ program.functions, d.name = name :=
    fun name member => Program.exists_declaration here member
  have found : ∀ name ∈ members,
      ∃ f, (program.scope settings state.functions).functions.find? name = some f := by
    intro name member
    obtain ⟨d, declared, rfl⟩ := known name member
    exact reaches.declared d declared
  have cluster : (Plan.ofProgram program .empty).1.graph.clusters[id]?.getD [] = members := by
    rw [show (Plan.ofProgram program .empty).1.graph.clusters[id]? = some members from here,
      Option.getD_some]
  -- how the functions compile in the scope, and what that says about the program
  have ends := Cluster.ends_compileMembers found id 0
  have breaks := reaches.breaks_iff distinct here
  have supports := reaches.supports_iff distinct known
  rw [outcome_item]
  simp only [Run.cluster, cluster, Cluster.compile, Reported.result_bind, Reported.result_tell,
    Reported.result_ofExcept, Reported.result_pure, Except.bind]
  rw [show (Plan.ofProgram program .empty).1.scope settings state.functions
    = program.scope settings state.functions from rfl]
  generalize (Cluster.compileMembers (program.scope settings state.functions) id 0 members).result
    = result at ends
  cases ends with
  | @compiled compiled supported whole compiles =>
      obtain ⟨store, committed, result, next⟩ :=
        reaches.commit distinct here compiles (supports.mp supported)
      simp only [result]
      refine ⟨.registered (supports.mp supported) (breaks.not.mp whole) _, ?_, ?_⟩
      · intro after same
        cases same
        exact next
      · intro _ same
        cases same
  | @unsupported what refused whole =>
      refine ⟨.unsupported (supports.not.mp refused) (breaks.not.mp whole) what, ?_, ?_⟩
      · intro _ same
        cases same
      · intro _ _
        exact reaches.skip here (supports.not.mp refused)
  | @broken func e broken =>
      refine ⟨.broken (breaks.mp broken) func e, ?_, ?_⟩
      · intro _ same
        cases same
      · intro _ same
        cases same

-----------------------------------------------------------------------------------------
-- All clusters
-----------------------------------------------------------------------------------------

/-- The items of a run from cluster `id` on. It ends behind the last cluster, or with one that
breaks.
-/
inductive Covers (program : Program) : ClusterId → List Item → Prop
  | done : Covers program program.clusters.length []
  | next {id : ClusterId} {members : List Name} {first : Item} {items : List Item}
      (here : program.clusters[id]? = some members)
      (settles : Settles program id members first.outcome)
      (whole : ¬ program.Breaks id)
      (rest : Covers program (id + 1) items)
      : Covers program id (first :: items)
  | stop {id : ClusterId} {members : List Name} {first : Item}
      (here : program.clusters[id]? = some members)
      (settles : Settles program id members first.outcome)
      (breaks : program.Breaks id)
      : Covers program id [first]

/-- A run settles its clusters in turn, by induction on their number. -/
theorem Reaches.covers (distinct : program.Distinct) {count : Nat}
    (reaches : Reaches program settings id state) (all : id + count = program.clusters.length)
    : Covers program id
        (clusters (Plan.ofProgram program .empty).1 settings state (List.range' id count)).1 := by
  induction count generalizing id state with
  | zero =>
      obtain rfl : id = program.clusters.length := all
      exact .done
  | succ count ih =>
      have inside : id < program.clusters.length :=
        all ▸ Nat.lt_add_of_pos_right (Nat.succ_pos count)
      have here : program.clusters[id]? = some program.clusters[id] :=
        List.getElem?_eq_getElem inside
      have later : id + 1 + count = program.clusters.length := by
        rw [← all, Nat.add_right_comm, Nat.add_assoc]
      obtain ⟨settles, registered, skipped⟩ := reaches.step distinct here
      rw [List.range'_succ, clusters]
      generalize outcome
        : (item (Plan.ofProgram program .empty).1 settings state id).outcome = result
        at settles registered skipped
      cases settles with
      | registered supported whole next =>
          refine .next here ?_ whole (ih (registered next rfl) later)
          rw [outcome]
          exact .registered supported whole next
      | unsupported refused whole what =>
          refine .next here ?_ whole (ih (skipped what rfl) later)
          rw [outcome]
          exact .unsupported refused whole what
      | broken breaks func e =>
          refine .stop here ?_ breaks
          rw [outcome]
          exact .broken breaks func e

/-- Every item of a run has the outcome of its cluster, by induction on the run. -/
theorem Covers.settles {items : List Item} (covers : Covers program id items) {i : Nat}
    {item : Item}
    (present : items[i]? = some item)
    : ∃ members,
        program.clusters[id + i]? = some members
        ∧ Settles program (id + i) members item.outcome := by
  induction covers generalizing i with
  | done => simp at present
  | @next id members first items here settles whole rest ih =>
      cases i with
      | zero =>
          obtain rfl : first = item := by simpa using present
          exact ⟨members, here, settles⟩
      | succ i =>
          have later := ih (by simpa using present)
          rwa [Nat.add_right_comm] at later
  | @stop id members first here settles breaks =>
      cases i with
      | zero =>
          obtain rfl : first = item := by simpa using present
          exact ⟨members, here, settles⟩
      | succ i => simp at present

/-- The cluster is registered, or refused as unsupported. -/
def Item.Succeeds (item : Item) : Prop :=
  (∃ state, item.outcome = .ok state) ∨ ∃ what, item.outcome = .error (.unsupported what)

/-- The kernel refused a step for the cluster. -/
def Item.Breaks (item : Item) : Prop := ∃ func e, item.outcome = .error (.proof func e)

theorem Settles.breaks_iff {members : List Name} {item : Item}
    (settles : Settles program id members item.outcome)
    : item.Breaks ↔ program.Breaks id := by
  unfold Item.Breaks
  generalize item.outcome = outcome at settles
  cases settles with
  | registered _ whole state => simp [whole]
  | unsupported _ whole what => simp [whole]
  | broken breaks func e => simp [breaks]

theorem Settles.succeeds_iff {members : List Name} {item : Item}
    (settles : Settles program id members item.outcome)
    : item.Succeeds ↔ ¬ item.Breaks := by
  unfold Item.Succeeds Item.Breaks
  generalize item.outcome = outcome at settles
  cases settles with
  | registered => simp
  | unsupported => simp
  | broken => simp

/-- A run has an item that breaks if one of its clusters does, by induction on the run. -/
theorem Covers.exists_breaks_iff {items : List Item} (covers : Covers program id items)
    : (∃ item ∈ items, item.Breaks) ↔ ∃ j, id ≤ j ∧ program.Breaks j := by
  induction covers with
  | done =>
      refine iff_of_false (by simp) ?_
      intro h
      obtain ⟨j, behind, _, _, _, _, cluster, _⟩ := h
      exact absurd (List.getElem?_eq_some_iff.mp cluster).1 (Nat.not_lt.mpr behind)
  | @next id members first items here settles whole rest ih =>
      simp only [List.exists_mem_cons_iff, settles.breaks_iff, whole, false_or, ih]
      constructor
      · intro h
        obtain ⟨j, behind, breaks⟩ := h
        exact ⟨j, Nat.le_of_succ_le behind, breaks⟩
      · intro h
        obtain ⟨j, behind, breaks⟩ := h
        rcases Nat.eq_or_lt_of_le behind with rfl | behind
        · exact absurd breaks whole
        · exact ⟨j, behind, breaks⟩
  | @stop id members first here settles breaks =>
      exact iff_of_true ⟨first, List.mem_cons_self, settles.breaks_iff.mpr breaks⟩
        ⟨id, Nat.le_refl id, breaks⟩

/-- A run whose items do not break has one for every cluster. -/
theorem Covers.length_eq {items : List Item} (covers : Covers program id items)
    (whole : ∀ item ∈ items, ¬ item.Breaks)
    : id + items.length = program.clusters.length := by
  induction covers with
  | done => exact Nat.add_zero _
  | @next id members first items here settles unbroken rest ih =>
      have later := ih fun item among => whole item (List.mem_cons_of_mem first among)
      rw [List.length_cons, ← later]
      exact (Nat.add_assoc id items.length 1).symm.trans (Nat.add_right_comm id items.length 1)
  | @stop id members first here settles breaks =>
      exact absurd (settles.breaks_iff.mpr breaks) (whole first List.mem_cons_self)

-----------------------------------------------------------------------------------------
-- From the text of a program
-----------------------------------------------------------------------------------------

/-- A run starts with the functions as analyzed and no constant. -/
theorem reaches_start (distinct : program.Distinct) (settings : Settings)
    : Reaches program settings 0
        ⟨.empty, (Plan.ofProgram program .empty).2.union .empty⟩ := by
  have none : ∀ name, ¬ program.RegistersBefore 0 name := by
    intro name h
    obtain ⟨i, before, _⟩ := h
    exact absurd before (Nat.not_lt_zero i)
  refine ⟨?_, ?_, nofun, Store.indexed_empty⟩
  · intro d declared
    obtain ⟨f, entry⟩
        : ∃ f, (d.name, f) ∈ (Plan.ofProgram program .empty).2.entries :=
      CallGraph.exists_mem_analyze declared
    obtain ⟨f', found, _⟩ := FiniteMap.exists_find?_insertAll (.empty : FunctionTable)
      ⟨_, entry, rfl⟩
    exact ⟨f', found⟩
  · intro name f found
    have entry := FiniteMap.mem_entries_ofList (FiniteMap.mem_entries_of_find? found)
    obtain ⟨d, declared, named, analyzed⟩ := CallGraph.analyzed_of_mem distinct.names entry
    refine ⟨d, declared, named, analyzed.name, analyzed.proc, fun _ => analyzed, ?_, ?_⟩
    · rw [analyzed.unregistered]
      exact iff_of_false (by simp) (none d.name)
    · intro registration registered
      cases analyzed.unregistered.symm.trans registered

theorem covers_run (distinct : program.Distinct) (settings : Settings)
    : Covers program 0 (program.run settings) := by
  have all : 0 + program.clusters.length = program.clusters.length := Nat.zero_add _
  have covers := (reaches_start distinct settings).covers distinct all
  rw [← List.range_eq_range'] at covers
  simpa [Program.run, sequential, Program.clusters, Plan.ofProgram] using covers

end Run

-----------------------------------------------------------------------------------------
-- When every cluster is registered or refused
-----------------------------------------------------------------------------------------

/-- Each cluster of a program is registered, refused as unsupported or broken by a step that the
kernel refuses; names are always found, and those of constants always free. A run gets to the end
without a broken cluster if and only if no function that is reached mistakes a procedure of no
function for that of a function in its table. A cluster is registered if and only if its functions
are supported and it is not broken. Witness: the invariant of the run, cluster by cluster.
-/
theorem Program.run_succeeds_iff {tag : Nat} {text : String} {program : Program}
    (parsed : Program.parse tag text = .ok program) (settings : Settings)
    : (∀ item ∈ program.run settings, item.Succeeds ∨ item.Breaks)
      ∧ (((program.run settings).length = program.clusters.length
            ∧ ∀ item ∈ program.run settings, item.Succeeds)
          ↔ ∀ id, ¬ program.Breaks id)
      ∧ ∀ id item,
          (program.run settings)[id]? = some item
          → ∃ members,
              program.clusters[id]? = some members
              ∧ ((∃ state, item.outcome = .ok state)
                  ↔ program.Supports members ∧ ¬ program.Breaks id) := by
  have covers := Run.covers_run (distinct_of_parse parsed) settings
  have settled : ∀ item ∈ program.run settings, item.Succeeds ↔ ¬ item.Breaks := by
    intro item among
    obtain ⟨i, present⟩ := List.mem_iff_getElem?.mp among
    obtain ⟨members, _, settles⟩ := covers.settles present
    exact settles.succeeds_iff
  refine ⟨?_, ?_, ?_⟩
  · intro item among
    rw [settled item among]
    exact (Classical.em item.Breaks).symm
  · have whole : (∀ item ∈ program.run settings, ¬ item.Breaks) ↔ ∀ id, ¬ program.Breaks id := by
      have broken := covers.exists_breaks_iff.not
      simpa only [Nat.zero_le, true_and, not_exists, not_and] using broken
    constructor
    · intro h
      exact whole.mp fun item among => (settled item among).mp (h.2 item among)
    · intro none
      have unbroken := whole.mpr none
      refine ⟨?_, fun item among => (settled item among).mpr (unbroken item among)⟩
      simpa only [Nat.zero_add] using covers.length_eq unbroken
  · intro id item present
    obtain ⟨members, here, settles⟩ := covers.settles present
    rw [Nat.zero_add] at here settles
    refine ⟨members, here, ?_⟩
    generalize item.outcome = outcome at settles
    cases settles with
    | registered supported whole state => exact iff_of_true ⟨state, rfl⟩ ⟨supported, whole⟩
    | unsupported refused whole what => simp [refused]
    | broken breaks func e => simp [breaks]

/-- A body that calls `x`, and then another procedure. -/
def Stmt.straying (stray : Name) : Stmt :=
  .seq (.call .univ "x" .univ ["t", "s"] (.assign .univ))
    (.call .univ stray .univ ["t", "s"] (.assign .univ))

namespace Program

/-- Two functions: `g`, which is procedure `x`, and `f`, which calls it and may stray. -/
def straying (stray : Name) : Program where
  file := "a"
  env := ⟨0, "w", ⟨[("x", .skip), ("y", .straying stray)]⟩⟩
  functions := [⟨"g", "x", none, false⟩, ⟨"f", "y", none, false⟩]

/-- The text of these functions. -/
def strayingText (stray : Name) : String :=
  Json.render (.mkObject [
    ("file", .string "a"),
    ("world", .string "w"),
    ("functions", .array [
      .mkObject [("name", .string "g"), ("proc", .string "x"), ("body", .string "Skip")],
      .mkObject [("name", .string "f"), ("proc", .string "y"),
        ("body", (Stmt.straying stray).toJson)]])])

theorem parse_strayingText
    : parse 0 (strayingText "g") = .ok (straying "g")
      ∧ parse 0 (strayingText "h") = .ok (straying "h") := by
  rw [strayingText, strayingText, Json.render, Json.render, parse_ofList, parse_ofList]
  decide +kernel

theorem clusters_straying : (straying "g").clusters = [["g"], ["f"]] := by
  unfold clusters
  cbv

/-- Wherever the body strays to, both functions are supported. -/
theorem supports_straying (stray : Name) (names : List Name) : (straying stray).Supports names := by
  intro d declared _ body defined
  rcases List.mem_pair.mp declared with rfl | rfl
  · cases defined
    trivial
  · cases defined
    exact ⟨⟨"t", "s", .univ, rfl, rfl⟩, ⟨"t", "s", .univ, rfl, rfl⟩⟩

/-- A call of procedure `h`, which is taken to belong to a function `h` that does not exist, is no
obstacle.
-/
theorem run_straying_succeeds
    : parse 0 (strayingText "h") = .ok (straying "h")
      ∧ ∀ settings,
          ((straying "h").run settings).length = (straying "h").clusters.length
          ∧ ∀ item ∈ (straying "h").run settings, item.Succeeds := by
  have parsed := parse_strayingText.2
  refine ⟨parsed, ?_⟩
  intro settings
  refine (run_succeeds_iff parsed settings).2.1.mpr ?_
  intro id breaks
  obtain ⟨_, f, _, g, _, _, caller, callee, mistakes, _⟩ := breaks
  obtain ⟨body, defined, _, proc, site, stray, guess⟩ := mistakes
  have outside : proc ≠ "x" := (stray ⟨"g", "x", none, false⟩ (by simp [straying])).symm
  rcases List.mem_pair.mp caller with rfl | rfl
  · cases defined
    simp [Stmt.callSites] at site
  · cases defined
    obtain rfl : proc = "h" := by
      simpa [Stmt.straying, Stmt.callSites, outside] using site
    rcases List.mem_pair.mp callee with rfl | rfl
    · exact absurd guess (by decide)
    · exact absurd guess (by decide)

/-- A call of procedure `g`, which belongs to no function, goes through the placeholder of the
function `g`, which stands for procedure `x`: the kernel refuses it under all settings.
-/
theorem run_straying_breaks
    : parse 0 (strayingText "g") = .ok (straying "g")
      ∧ ∀ settings, ∃ item ∈ (straying "g").run settings, item.Breaks := by
  have parsed := parse_strayingText.1
  refine ⟨parsed, ?_⟩
  intro settings
  refine (Run.covers_run (distinct_of_parse parsed) settings).exists_breaks_iff.mpr ?_
  refine ⟨1, Nat.zero_le 1, [], ⟨"f", "y", none, false⟩, [], ⟨"g", "x", none, false⟩, ?_,
    supports_straying "g" _, by simp [straying], by simp [straying], ?_, .inr ?_⟩
  · rw [clusters_straying]
    rfl
  · refine ⟨.straying "g", rfl, ?_, "g", ?_, ?_, rfl⟩
    all_goals simp [Stmt.straying, Stmt.callSites, straying]
  · exact ⟨0, Nat.zero_lt_one, ["g"], by rw [clusters_straying]; rfl, List.mem_singleton.mpr rfl,
      supports_straying "g" _⟩

end Program

end Monadize
