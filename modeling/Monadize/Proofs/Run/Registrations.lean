import Monadize.Proofs.Run.Sessions

/-! What the functions of a program are registered as, in a run in which they take the place of
older ones. A function is registered once, and as what it was compiled to, with the constants that
its callees are registered as.
-/

namespace Monadize

/-- The constant that a function is registered as. -/
def FunctionTable.const? (functions : FunctionTable) (name : Name) : Option ConstId :=
  ((functions.find? name).bind (·.registration)).map (·.const)

/-- What is registered of a function depends on the constants of its own callees only. -/
theorem Cluster.registration_congr {consts consts' : CalleeEntry → Option ConstId} {c : Compiled}
    (same : ∀ entry ∈ c.callees.entries, consts entry = consts' entry) (settings : Settings)
    (env : Environment) (measured : Bool) (k : ConstId)
    : registration settings env measured consts c k
      = registration settings env measured consts' c k := by
  have bound : (fun p : PlaceholderId => (c.callees.entries[p]?).bind consts)
      = fun p => (c.callees.entries[p]?).bind consts' := by
    funext p
    refine Option.bind_congr ?_
    intro entry present
    exact same entry (List.mem_of_getElem? present)
  have named : (fun p : PlaceholderId => (c.callees.entries[p]?).bind fun entry =>
        (consts entry).map fun k => (entry.func, k))
      = fun p => (c.callees.entries[p]?).bind fun entry =>
          (consts' entry).map fun k => (entry.func, k) := by
    funext p
    refine Option.bind_congr ?_
    intro entry present
    rw [same entry (List.mem_of_getElem? present)]
  simp only [registration, bound, named]

namespace Run

variable {program : Program} {settings : Settings} {base : RunState}

/-- What is registered stays. -/
def Persists (state next : RunState) : Prop :=
  ∀ name f,
    state.functions.find? name = some f
    → f.registration.isSome = true
    → next.functions.find? name = some f

/-- The function is registered as `c` was compiled, under the constant `k`. -/
def asCompiled (program : Program) (settings : Settings) (functions : FunctionTable) (f : Function)
    (c : Compiled) (k : ConstId)
    : Function :=
  { f with
    recCallees := c.recCallees
    registration := some
      (Cluster.registration settings program.env f.measured
        (fun entry => functions.const? entry.func) c k) }

/-- A run of the program has registered the given compiled functions so far, and nothing else. -/
structure Describes (program : Program) (settings : Settings) (base : RunState)
    (compiled : List Compiled) (state : RunState) : Prop where
  stage : Stage (opening program base) state
  once : (compiled.map (·.name)).Nodup
  others
    : ∀ name,
        name ∉ compiled.map (·.name)
        → state.functions.find? name = (opening program base).functions.find? name
  registered
    : ∀ c ∈ compiled,
        ∃ f k,
          base.store.size ≤ k
          ∧ (opening program base).functions.find? c.name = some f
          ∧ state.functions.find? c.name
            = some (asCompiled program settings state.functions f c k)
  built
    : ∀ c ∈ compiled, ∀ f,
        (opening program base).functions.find? c.name = some f
        → ∃ input,
            Stage (opening program base) input
            ∧ ((Plan.ofProgram program base.functions).1.scope settings input.functions).Builds f c
                c.term
  callees
    : ∀ c ∈ compiled, ∀ entry ∈ c.callees.entries,
        ∃ k, state.functions.const? entry.func = some k
  stored
    : ∀ k d,
        state.store.get? k = some d
        → base.store.size ≤ k
        → ∃ c ∈ compiled, state.functions.const? c.name = some k

theorem Persists.const? {state next : RunState} (persists : Persists state next) {name : Name}
    {k : ConstId} (const : state.functions.const? name = some k)
    : next.functions.const? name = some k := by
  obtain ⟨r, registered, rfl⟩ := Option.map_eq_some_iff.mp const
  obtain ⟨f, found, registered⟩ := Option.bind_eq_some_iff.mp registered
  rw [FunctionTable.const?, persists name f found (by rw [registered]; rfl), Option.bind_some,
    registered, Option.map_some]

namespace Describes

variable {compiled : List Compiled} {state : RunState}
  (describes : Describes program settings base compiled state)

include describes

/-- A function whose constant has no name in the store is not registered yet. -/
theorem not_mem_of_fresh {name : Name} (fresh : settings.constName name ∉ state.store.names)
    : name ∉ compiled.map (·.name) := by
  intro member
  obtain ⟨c, among, rfl⟩ := List.mem_map.mp member
  obtain ⟨f, k, _, _, found⟩ := describes.registered c among
  have held := describes.stage.consistent.held c.name _ _ found rfl
  exact fresh (List.mem_map_of_mem (List.mem_of_getElem? held.defined))

/-- A registered function has its constant. -/
theorem exists_const? {c : Compiled} (among : c ∈ compiled)
    : ∃ k,
        state.functions.const? c.name = some k
        ∧ state.store.names[k]? = some (settings.constName c.name) := by
  obtain ⟨f, k, _, _, found⟩ := describes.registered c among
  have held := describes.stage.consistent.held c.name _ _ found rfl
  refine ⟨k, ?_, ?_⟩
  · rw [FunctionTable.const?, found]
    rfl
  · rw [Store.names, List.getElem?_map, show state.store.consts[k]? = _ from held.defined]
    rfl

/-- No two functions of the run are registered as the same constant. -/
theorem name_eq_of_const? {c c' : Compiled} (first : c ∈ compiled) (second : c' ∈ compiled)
    (same : state.functions.const? c.name = state.functions.const? c'.name)
    : c.name = c'.name := by
  obtain ⟨k, const, named⟩ := describes.exists_const? first
  obtain ⟨k', const', named'⟩ := describes.exists_const? second
  obtain rfl : k = k' := Option.some.inj ((const.symm.trans same).trans const')
  exact settings.constName_injective (Option.some.inj (named.symm.trans named'))

theorem find?_of_fresh {name : Name} (fresh : settings.constName name ∉ state.store.names)
    : state.functions.find? name = (opening program base).functions.find? name :=
  describes.others name (describes.not_mem_of_fresh fresh)

end Describes

-----------------------------------------------------------------------------------------
-- One cluster
-----------------------------------------------------------------------------------------

namespace Settled

variable {input state next : RunState} {known knownInput compiled : List Compiled}
  (settled
    : Settled (Plan.ofProgram program base.functions).1 settings input.functions state compiled
        next)
  (distinct : program.Distinct) (supersedes : program.Supersedes base.functions)
  (fromInput : Describes program settings base knownInput input)
  (before : Describes program settings base known state)
  (older : input.store.Grows state.store) (since : Persists input state)

include settled fromInput before older in
/-- A function of the cluster is compiled as the run has it at the start. -/
theorem find?_input {c : Compiled} (among : c ∈ compiled)
    : input.functions.find? c.name = (opening program base).functions.find? c.name := by
  refine fromInput.find?_of_fresh fun taken => ?_
  exact settled.not_mem_names before.stage.consistent among (older.names_subset taken)

include settled before in
theorem find?_before {c : Compiled} (among : c ∈ compiled)
    : state.functions.find? c.name = (opening program base).functions.find? c.name :=
  before.find?_of_fresh (settled.not_mem_names before.stage.consistent among)

include settled distinct supersedes in
/-- A function of the cluster is as analyzed. -/
theorem analyzed {c : Compiled} (among : c ∈ compiled) {f : Function}
    (atStart : (opening program base).functions.find? c.name = some f)
    : ∃ d ∈ program.functions,
        d.name = c.name
        ∧ CallGraph.Analyzed program.env program.functions base.functions d f := by
  obtain ⟨d, declared, same⟩ := exists_declaration settled.cluster (List.mem_map_of_mem among)
  exact ⟨d, declared, same, analyzed_opening distinct supersedes declared (same ▸ atStart)⟩

include settled distinct supersedes before in
/-- Registering the cluster takes nothing away. -/
theorem persists : Persists state next := by
  intro name f found registered
  rcases settled.functions name with ⟨_, same⟩ | ⟨pair, paired, rfl, _⟩
  · exact same.trans found
  · have among := (List.of_mem_zip paired).1
    rw [settled.find?_before before among] at found
    obtain ⟨d, _, _, analyzed⟩ := settled.analyzed distinct supersedes among found
    rw [analyzed.unregistered] at registered
    cases registered

include settled in
/-- The constants of the cluster are those that its functions are registered as. -/
theorem const?_of_paired {pair : Compiled × ConstId}
    (paired : pair ∈ Cluster.numbered state.store compiled)
    : next.functions.const? pair.1.name = some pair.2 := by
  obtain ⟨f, _, changed⟩ := settled.find?_of_paired paired
  rw [FunctionTable.const?, changed]
  rfl

include settled distinct supersedes fromInput in
/-- A cluster is proved monotone if its functions are measured. -/
theorem isMeasured_eq {c : Compiled} (among : c ∈ compiled) {f : Function}
    (found : input.functions.find? c.name = some f)
    : Cluster.isMeasured input.functions compiled = f.measured := by
  refine Bool.eq_iff_iff.mpr (List.any_eq_true.trans ?_)
  constructor
  · rintro ⟨c', amongToo, measured⟩
    obtain ⟨g, foundOther, measured⟩ := (Option.any_eq_true _ _).mp measured
    exact (fromInput.stage.measured_eq distinct supersedes settled.cluster
      (List.mem_map_of_mem among) (List.mem_map_of_mem amongToo) found foundOther).trans measured
  · intro measured
    exact ⟨c, among, by rw [found]; exact measured⟩

include settled distinct supersedes fromInput before older since

/-- The constant that takes the place of a callee is what the callee is registered as. -/
theorem exists_const? {c : Compiled} (among : c ∈ compiled) {entry : CalleeEntry}
    (listed : entry ∈ c.callees.entries)
    : ∃ k,
        Cluster.calleeConst? input.functions state.store compiled entry = some k
        ∧ next.functions.const? entry.func = some k := by
  obtain ⟨f, term, found, builds⟩ := settled.built.builds c among
  have atStart := (settled.find?_input fromInput before older among).symm.trans found
  obtain ⟨d, declared, named, analyzed⟩ := settled.analyzed distinct supersedes among atStart
  rw [builds.callees] at listed
  obtain ⟨g, _, foundCallee, kept, _⟩ := Scope.mem_calleeTable.mp listed
  by_cases recursive : entry.func ∈ f.recCallees.elems
  · -- a recursive callee is in the same cluster, and compiled as well
    obtain ⟨j, there⟩ := List.mem_iff_getElem?.mp settled.cluster
    have own : d.name ∈ compiled.map (·.name) := named ▸ List.mem_map_of_mem among
    obtain ⟨c', amongToo, sameName⟩ := List.mem_map.mp
      ((CallGraph.exists_cluster_iff distinct.names there own).mp
        ((analyzed.mem_recCallees entry.func).mp recursive).2)
    obtain ⟨k, paired⟩ := Cluster.exists_paired List.length_range' amongToo
    refine ⟨k, Cluster.constOf?_eq_some_iff.mpr (.inl ⟨?_, ?_⟩), ?_⟩
    · exact (Scope.recursive_iff listed).mpr recursive
    · exact (Cluster.find?_siblings settled.registrable.distinct List.length_range').mpr
        ⟨c', paired, sameName⟩
    · exact sameName ▸ settled.const?_of_paired paired
  · obtain ⟨r, registered⟩ := Option.isSome_iff_exists.mp (kept.resolve_left recursive)
    have external : entry.recursive = false :=
      Bool.eq_false_iff.mpr (mt (Scope.recursive_iff listed).mp recursive)
    have const : input.functions.const? entry.func = some r.const := by
      rw [FunctionTable.const?, show input.functions.find? entry.func = some g from foundCallee,
        Option.bind_some, registered, Option.map_some]
    refine ⟨r.const, Cluster.constOf?_eq_some_iff.mpr
      (.inr ⟨external, g, r, foundCallee, registered, rfl⟩), ?_⟩
    exact (settled.persists distinct supersedes before).const? (since.const? const)

/-- The functions of the cluster are registered as they were compiled. -/
theorem find?_next {pair : Compiled × ConstId}
    (paired : pair ∈ Cluster.numbered state.store compiled)
    : ∃ f,
        (opening program base).functions.find? pair.1.name = some f
        ∧ next.functions.find? pair.1.name
          = some (asCompiled program settings next.functions f pair.1 pair.2) := by
  have among := (List.of_mem_zip paired).1
  obtain ⟨f, found, changed⟩ := settled.find?_of_paired paired
  have atStart := (settled.find?_input fromInput before older among).symm.trans found
  refine ⟨f, atStart, changed.trans (congrArg some ?_)⟩
  have consts : ∀ entry ∈ pair.1.callees.entries,
      Cluster.calleeConst? input.functions state.store compiled entry
      = next.functions.const? entry.func := by
    intro entry listed
    obtain ⟨k, first, second⟩ :=
      settled.exists_const? distinct supersedes fromInput before older since among listed
    rw [first, second]
  rw [asCompiled, Cluster.registrationOf,
    settled.isMeasured_eq distinct supersedes fromInput among found,
    Cluster.registration_congr consts]
  rfl

/-- A cluster that is registered adds its compiled functions. -/
theorem describes : Describes program settings base (known ++ compiled) next := by
  have persists := settled.persists distinct supersedes before
  have outside {c c' : Compiled} (old : c ∈ known) (new : c' ∈ compiled) : c.name ≠ c'.name := by
    intro same
    exact before.not_mem_of_fresh (settled.not_mem_names before.stage.consistent new)
      (same ▸ List.mem_map_of_mem old)
  constructor
  · exact settled.stage fromInput.stage before.stage older
  · rw [List.map_append]
    refine List.nodup_append.mpr ⟨before.once, settled.registrable.distinct, ?_⟩
    intro name old other new same
    obtain ⟨c, among, rfl⟩ := List.mem_map.mp old
    obtain ⟨c', amongToo, rfl⟩ := List.mem_map.mp new
    exact outside among amongToo same
  · intro name absent
    rw [List.map_append, List.mem_append, not_or] at absent
    exact (settled.find?_of_not_mem absent.2).trans (before.others name absent.1)
  · intro c among
    rcases List.mem_append.mp among with old | new
    · obtain ⟨f, k, bound, atStart, found⟩ := before.registered c old
      refine ⟨f, k, bound, atStart, (persists c.name _ found rfl).trans (congrArg some ?_)⟩
      unfold asCompiled
      rw [Cluster.registration_congr]
      intro entry listed
      obtain ⟨j, const⟩ := before.callees c old entry listed
      rw [const, persists.const? const]
    · obtain ⟨k, paired⟩ := Cluster.exists_paired List.length_range' new
      obtain ⟨f, atStart, found⟩ :=
        settled.find?_next distinct supersedes fromInput before older since paired
      have bound : state.store.size ≤ k := (List.mem_range'_1.mp (List.of_mem_zip paired).2).1
      exact ⟨f, k, Nat.le_trans (List.IsPrefix.length_le before.stage.grows) bound, atStart, found⟩
  · intro c among f atStart
    rcases List.mem_append.mp among with old | new
    · exact before.built c old f atStart
    · have found := (settled.find?_input fromInput before older new).trans atStart
      obtain ⟨term, builds⟩ := settled.built.builds_of_find? new found
      exact ⟨input, fromInput.stage, builds.term_eq ▸ builds⟩
  · intro c among entry listed
    rcases List.mem_append.mp among with old | new
    · obtain ⟨k, const⟩ := before.callees c old entry listed
      exact ⟨k, persists.const? const⟩
    · obtain ⟨k, _, const⟩ := settled.exists_const? distinct supersedes fromInput before
        older since new listed
      exact ⟨k, const⟩
  · intro k d stored bound
    rw [settled.store] at stored
    rcases Cluster.get?_of_get?_extended stored with old | ⟨pair, paired, rfl, _⟩
    · obtain ⟨c, among, const⟩ := before.stored k d old bound
      exact ⟨c, List.mem_append_left compiled among, persists.const? const⟩
    · exact ⟨pair.1, List.mem_append_right known (List.of_mem_zip paired).1,
        settled.const?_of_paired paired⟩

end Settled

-----------------------------------------------------------------------------------------
-- Whole runs
-----------------------------------------------------------------------------------------

/-- A run starts with nothing of its own registered. -/
theorem describes_opening (settings : Settings) (consistent : Consistent base)
    (distinct : program.Distinct)
    : Describes program settings base [] (opening program base) where
  stage := ⟨consistent.opening distinct, List.prefix_rfl, fun _ => rfl⟩
  once := .nil
  others _ _ := rfl
  registered := nofun
  built := nofun
  callees := nofun
  stored _ _ found bound :=
    absurd (List.getElem?_eq_some_iff.mp found).1 (Nat.not_lt.mpr bound)

/-- All along a run, the registered functions are as they were compiled. -/
theorem Course.describes {state : RunState} {states : List RunState}
    (course
      : Course (Plan.ofProgram program base.functions).1 settings (opening program base)
          (state :: states))
    (consistent : Consistent base) (distinct : program.Distinct)
    (supersedes : program.Supersedes base.functions)
    : ∃ compiled, Describes program settings base compiled state := by
  have each := course.forall
    (P := fun s => ∃ compiled, Describes program settings base compiled s)
    (R := fun a b => a.store.Grows b.store ∧ Persists a b)
    (fun s => ⟨List.prefix_rfl, fun _ _ found _ => found⟩)
    (fun first second => ⟨List.IsPrefix.trans first.1 second.1, fun name f found registered =>
      second.2 name f (first.2 name f found registered) registered⟩)
    ⟨[], describes_opening settings consistent distinct⟩
  refine (each ?_ state List.mem_cons_self).1
  rintro input state next id ⟨_, fromInput⟩ ⟨known, before⟩ ⟨older, since⟩ result
  obtain ⟨compiled, _, _, _, settled⟩ := (fromInput.stage.usable known_opening).settled result
  exact ⟨⟨known ++ compiled,
    settled.describes distinct supersedes fromInput before older since⟩,
    settled.grows, settled.persists distinct supersedes before⟩

end Run

end Monadize
