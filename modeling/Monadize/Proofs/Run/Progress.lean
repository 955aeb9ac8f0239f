import Monadize.Proofs.Cluster.Compile
import Monadize.Proofs.Graph.Calls
import Monadize.Proofs.Program
import Monadize.Proofs.Store

/-! What a run over a program on its own has reached before a cluster: which functions are
registered, and with which theorems. From it follows whether the cluster at hand breaks.
-/

namespace Monadize

namespace Program

/-- The clusters of a program on its own, in dependency order. -/
def clusters (program : Program) : List (List Name) :=
  (CallGraph.analyze program.env program.functions .empty).graph.clusters

/-- The named functions have supported bodies, or none. -/
def Supports (program : Program) (names : List Name) : Prop :=
  ∀ d ∈ program.functions,
    d.name ∈ names → ∀ body, program.env.body? d.proc = some body → body.Supported

/-- The function is in a cluster before the given one whose functions are all supported. -/
def RegistersBefore (program : Program) (id : ClusterId) (name : Name) : Prop :=
  ∃ i < id, ∃ members,
    program.clusters[i]? = some members ∧ name ∈ members ∧ program.Supports members

/-- The body of `f` calls `g`, and also a procedure that belongs to no function but is taken to
belong to `g`.
-/
def Mistakes (program : Program) (f g : Declaration) : Prop :=
  ∃ body,
    program.env.body? f.proc = some body
    ∧ g.proc ∈ body.callSites
    ∧ ∃ proc ∈ body.callSites,
        (∀ d ∈ program.functions, d.proc ≠ proc) ∧ guessFunction proc = g.name

/-- A function of the cluster mistakes a procedure for that of a function which is compiled with
it or registered before. Its own body and those before it in the cluster are supported.
-/
def Breaks (program : Program) (id : ClusterId) : Prop :=
  ∃ before f after g,
    program.clusters[id]? = some (before ++ f.name :: after)
    ∧ program.Supports (before ++ [f.name])
    ∧ f ∈ program.functions
    ∧ g ∈ program.functions
    ∧ program.Mistakes f g
    ∧ (g.name ∈ before ++ f.name :: after ∨ program.RegistersBefore id g.name)

/-- What the functions of a cluster of the program are compiled in. -/
def scope (program : Program) (settings : Settings) (functions : FunctionTable) : Scope :=
  (Plan.ofProgram program .empty).1.scope settings functions

namespace Distinct

variable {program : Program} (distinct : program.Distinct)

include distinct

theorem nodup_clusters : program.clusters.flatten.Nodup :=
  (CallGraph.clusters_perm program.env program.functions .empty).nodup_iff.mpr distinct.names

/-- A function is in one cluster only. -/
theorem cluster_unique {i j : ClusterId} {members others : List Name} {name : Name}
    (first : program.clusters[i]? = some members) (second : program.clusters[j]? = some others)
    (member : name ∈ members) (other : name ∈ others)
    : i = j :=
  CallGraph.cluster_unique program.env program.functions .empty distinct.names first second member
    other

theorem nodup_cluster {id : ClusterId} {members : List Name}
    (here : program.clusters[id]? = some members)
    : members.Nodup :=
  (List.nodup_flatten.mp distinct.nodup_clusters).1 members (List.mem_of_getElem? here)

/-- The functions of a cluster are not registered before it. -/
theorem not_registersBefore {id : ClusterId} {members : List Name}
    (here : program.clusters[id]? = some members) {name : Name} (member : name ∈ members)
    : ¬ program.RegistersBefore id name := by
  intro h
  obtain ⟨i, before, others, there, other, _⟩ := h
  exact absurd (distinct.cluster_unique there here other member) (Nat.ne_of_lt before)

end Distinct

/-- One cluster later, the functions of the cluster are registered as well if they are supported. -/
theorem registersBefore_succ {program : Program} {id : ClusterId} {members : List Name}
    (here : program.clusters[id]? = some members) {name : Name}
    : program.RegistersBefore (id + 1) name
      ↔ program.RegistersBefore id name ∨ name ∈ members ∧ program.Supports members := by
  constructor
  · intro h
    obtain ⟨i, before, others, there, other, supported⟩ := h
    rcases Nat.lt_or_eq_of_le (Nat.le_of_lt_succ before) with earlier | rfl
    · exact .inl ⟨i, earlier, others, there, other, supported⟩
    · cases here.symm.trans there
      exact .inr ⟨other, supported⟩
  · intro h
    rcases h with ⟨i, before, others, there, other, supported⟩ | ⟨member, supported⟩
    · exact ⟨i, Nat.lt_succ_of_lt before, others, there, other, supported⟩
    · exact ⟨id, Nat.lt_succ_self id, members, here, member, supported⟩

/-- The functions of a cluster are declared. -/
theorem exists_declaration {program : Program} {id : ClusterId} {members : List Name}
    (here : program.clusters[id]? = some members) {name : Name} (member : name ∈ members)
    : ∃ d ∈ program.functions, d.name = name := by
  have among : name ∈ program.clusters.flatten :=
    List.mem_flatten.mpr ⟨members, List.mem_of_getElem? here, member⟩
  exact List.mem_map.mp
    ((CallGraph.clusters_perm program.env program.functions .empty).mem_iff.mp among)

end Program

namespace Run

variable {program : Program} {settings : Settings} {id : ClusterId}

-----------------------------------------------------------------------------------------
-- The invariant of a run
-----------------------------------------------------------------------------------------

/-- A function of the table before cluster `id`. It is registered if all of an earlier cluster
with it is supported, and then with a theorem about its own procedure; otherwise it is as
analyzed.
-/
structure Tracks (program : Program) (settings : Settings) (id : ClusterId) (d : Declaration)
    (f : Function) : Prop where
  name : f.name = d.name
  proc : f.proc = d.proc
  pending
    : f.registration = none → CallGraph.Analyzed program.env program.functions .empty d f
  registered : f.registration.isSome = true ↔ program.RegistersBefore id d.name
  thm
    : ∀ registration,
        f.registration = some registration
        → registration.thm
          = ⟨settings.total, program.env, .fnCorres registration.const f.proc, .empty, none⟩

/-- The state of a run before cluster `id`. Its constants are those of the registered functions. -/
structure Reaches (program : Program) (settings : Settings) (id : ClusterId) (state : RunState)
    : Prop where
  declared : ∀ d ∈ program.functions, ∃ f, state.functions.find? d.name = some f
  tracked
    : ∀ name f,
        state.functions.find? name = some f
        → ∃ d ∈ program.functions, d.name = name ∧ Tracks program settings id d f
  consts
    : ∀ const ∈ state.store.names,
        ∃ d ∈ program.functions,
          program.RegistersBefore id d.name ∧ const = settings.constName d.name
  indexed : state.store.Indexed

namespace Reaches

variable {state : RunState} (distinct : program.Distinct)
  (reaches : Reaches program settings id state)

include distinct reaches

/-- The function of a declaration is tracked as such. -/
theorem tracks {d : Declaration} (declared : d ∈ program.functions) {f : Function}
    (found : state.functions.find? d.name = some f)
    : Tracks program settings id d f := by
  obtain ⟨d', declared', same, tracks⟩ := reaches.tracked d.name f found
  obtain rfl := distinct.eq_of_name declared' declared same
  exact tracks

/-- A function of the cluster at hand is not registered yet, and so as analyzed. -/
theorem analyzed {members : List Name} (here : program.clusters[id]? = some members)
    {d : Declaration} (declared : d ∈ program.functions) (member : d.name ∈ members) {f : Function}
    (found : state.functions.find? d.name = some f)
    : CallGraph.Analyzed program.env program.functions .empty d f := by
  have tracks := reaches.tracks distinct declared found
  refine tracks.pending (Option.not_isSome_iff_eq_none.mp ?_)
  intro registered
  exact distinct.not_registersBefore here member (tracks.registered.mp registered)

/-- The program and the table agree on what is supported. -/
theorem supports_iff {members : List Name}
    (known : ∀ name ∈ members, ∃ d ∈ program.functions, d.name = name)
    : Cluster.Supports (program.scope settings state.functions) members
      ↔ program.Supports members := by
  constructor
  · intro supports d declared member body defined
    obtain ⟨f, found⟩ := reaches.declared d declared
    have tracks := reaches.tracks distinct declared found
    exact supports d.name member f found body (tracks.proc ▸ defined)
  · intro supports name member f found body defined
    obtain ⟨d, declared, rfl⟩ := known name member
    have tracks := reaches.tracks distinct declared found
    exact supports d declared member body (tracks.proc ▸ defined)

-----------------------------------------------------------------------------------------
-- Calls of the cluster at hand
-----------------------------------------------------------------------------------------

variable {members : List Name} (here : program.clusters[id]? = some members) {d : Declaration}
  (declared : d ∈ program.functions) (member : d.name ∈ members) {f : Function}
  (found : state.functions.find? d.name = some f)

include here declared member found

/-- Recursive callees are in the cluster. -/
theorem mem_of_recursive {callee : Name} (recursive : callee ∈ f.recCallees.elems)
    : callee ∈ members := by
  have analyzed := reaches.analyzed distinct here declared member found
  obtain ⟨others, cluster, own, together⟩ := ((analyzed.mem_recCallees callee).mp recursive).2
  obtain ⟨i, there⟩ := List.mem_iff_getElem?.mp cluster
  obtain rfl := distinct.cluster_unique there here own member
  cases here.symm.trans there
  exact together

/-- The table of a function has entries for functions that its body calls and that are in the
cluster or registered before.
-/
theorem mem_calleeTable {entry : CalleeEntry}
    (listed : entry ∈ ((program.scope settings state.functions).calleeTable f).entries)
    : ∃ g ∈ program.functions,
        g.name = entry.func
        ∧ g.proc = entry.proc
        ∧ (g.name ∈ members ∨ program.RegistersBefore id g.name)
        ∧ ∃ body, program.env.body? d.proc = some body ∧ g.proc ∈ body.callSites := by
  have analyzed := reaches.analyzed distinct here declared member found
  obtain ⟨g', called, foundCallee, kept, shape⟩ := Scope.mem_calleeTable.mp listed
  obtain ⟨g, declaredCallee, named, tracks⟩ := reaches.tracked entry.func g' foundCallee
  refine ⟨g, declaredCallee, named, ?_, ?_, ?_⟩
  · rw [← tracks.proc]
    exact (congrArg CalleeEntry.proc shape).symm
  · rcases kept with recursive | registered
    · exact .inl (named ▸ reaches.mem_of_recursive distinct here declared member found recursive)
    · exact .inr (tracks.registered.mp registered)
  · obtain ⟨body, defined, site, sites, resolved, _⟩ := (analyzed.mem_callees entry.func).mp called
    obtain ⟨e, declaredToo, rfl, same⟩ := distinct.find?_procNames.mp resolved
    obtain rfl := distinct.eq_of_name declaredToo declaredCallee (same.trans named.symm)
    exact ⟨body, defined, sites⟩

/-- It has an entry for every such function. -/
theorem exists_entry {g : Declaration} (declaredCallee : g ∈ program.functions)
    (available : g.name ∈ members ∨ program.RegistersBefore id g.name) {body : Stmt}
    (defined : program.env.body? d.proc = some body) (site : g.proc ∈ body.callSites)
    : ∃ entry ∈ ((program.scope settings state.functions).calleeTable f).entries,
        entry.func = g.name := by
  have analyzed := reaches.analyzed distinct here declared member found
  obtain ⟨g', foundCallee⟩ := reaches.declared g declaredCallee
  have tracks := reaches.tracks distinct declaredCallee foundCallee
  have called : g.name ∈ f.callees.elems :=
    (analyzed.mem_callees g.name).mpr ⟨body, defined, g.proc, site,
      distinct.find?_procNames.mpr ⟨g, declaredCallee, rfl, rfl⟩,
      .inl (List.mem_map_of_mem declaredCallee)⟩
  refine ⟨⟨g.name, g'.proc, f.recCallees.contains g.name, g'.measured⟩,
    Scope.mem_calleeTable.mpr ⟨g', called, foundCallee, ?_, rfl⟩, rfl⟩
  rcases available with together | before
  · exact .inl ((analyzed.mem_recCallees g.name).mpr
      ⟨called, members, List.mem_of_getElem? here, member, together⟩)
  · exact .inr (tracks.registered.mpr before)

/-- The calls of a function are resolved unless it mistakes a procedure for that of a function in
its table.
-/
theorem resolves_iff
    : (program.scope settings state.functions).Resolves f
      ↔ ¬ ∃ g ∈ program.functions,
            program.Mistakes d g ∧ (g.name ∈ members ∨ program.RegistersBefore id g.name) := by
  have own : f.proc = d.proc := (reaches.tracks distinct declared found).proc
  let ctx := (program.scope settings state.functions).bodyContext f 0
  constructor
  · intro resolves mistaken
    obtain ⟨g, declaredCallee, ⟨body, defined, site, proc, stray, nobody, guessed⟩, available⟩ :=
      mistaken
    obtain ⟨entry, listed, func⟩ := reaches.exists_entry distinct here declared member found
      declaredCallee available defined site
    obtain ⟨⟨p, other⟩, lookup⟩ := CalleeTable.exists_find? listed
    have unknown : ctx.procNames.find? proc = none := by
      refine Option.eq_none_iff_forall_ne_some.mpr ?_
      intro name known
      obtain ⟨e, declaredToo, same, _⟩ := distinct.find?_procNames.mp known
      exact nobody e declaredToo same
    have taken : ctx.entry? proc = some (p, other) := by
      rw [BodyContext.entry?, BodyContext.functionOf, unknown, Option.getD_none, guessed, ← func]
      exact lookup
    -- the entry that the stray call finds is one of a declared procedure
    obtain ⟨present, _⟩ := CalleeTable.find?_eq_some lookup
    obtain ⟨g', declared', _, same, _⟩ :=
      reaches.mem_calleeTable distinct here declared member found (List.mem_of_getElem? present)
    have resolved : other.proc = proc := resolves body (own ▸ defined) proc stray p other taken
    exact nobody g' declared' (same.trans resolved)
  · intro clear body defined proc site p entry lookup
    obtain ⟨present, func⟩ := CalleeTable.find?_eq_some lookup
    obtain ⟨g, declaredCallee, named, same, available, body', defined', called⟩ :=
      reaches.mem_calleeTable distinct here declared member found (List.mem_of_getElem? present)
    cases defined'.symm.trans (own ▸ defined)
    cases known : ctx.procNames.find? proc with
    | some name =>
        obtain ⟨e, declaredToo, rfl, rfl⟩ := distinct.find?_procNames.mp known
        have owner : ctx.functionOf e.proc = e.name := by
          rw [BodyContext.functionOf, known, Option.getD_some]
        obtain rfl := distinct.eq_of_name declaredCallee declaredToo
          (named.trans (func.trans owner))
        exact same.symm
    -- the entry is found by the guessed name alone, so the function mistakes the procedure
    | none =>
        have owner : ctx.functionOf proc = guessFunction proc := by
          rw [BodyContext.functionOf, known, Option.getD_none]
        refine absurd ⟨g, declaredCallee, ⟨body, own ▸ defined, called, proc, site, ?_, ?_⟩,
          available⟩ clear
        · intro e declaredToo taken
          have bound := distinct.find?_procNames.mpr ⟨e, declaredToo, taken, rfl⟩
          cases known.symm.trans bound
        · exact owner.symm.trans (func.symm.trans named.symm)

omit declared member found in
/-- The cluster breaks in its scope if it does by the text of the program. -/
theorem breaks_iff
    : Cluster.Breaks (program.scope settings state.functions) members ↔ program.Breaks id := by
  have known : ∀ name ∈ members, ∃ d ∈ program.functions, d.name = name :=
    fun name among => Program.exists_declaration here among
  have opening : ∀ before name after, members = before ++ name :: after
      → ∀ other ∈ before ++ [name], other ∈ members := by
    intro before name after split other among
    rw [split, List.append_cons]
    exact List.mem_append_left after among
  constructor
  · intro breaks
    obtain ⟨before, name, after, f, split, supported, found, unresolved⟩ := breaks
    have member : name ∈ members := opening before name after split name (by simp)
    obtain ⟨d, declared, rfl⟩ := known name member
    rw [reaches.resolves_iff distinct here declared member found, not_not] at unresolved
    obtain ⟨g, declaredCallee, mistakes, available⟩ := unresolved
    refine ⟨before, d, after, g, split ▸ here, ?_, declared, declaredCallee, mistakes,
      split ▸ available⟩
    refine (reaches.supports_iff distinct ?_).mp supported
    intro other among
    exact known other (opening before d.name after split other among)
  · intro breaks
    obtain ⟨before, d, after, g, cluster, supported, declared, declaredCallee, mistakes,
      available⟩ := breaks
    obtain split : members = before ++ d.name :: after := Option.some.inj (here.symm.trans cluster)
    have member : d.name ∈ members := opening before d.name after split d.name (by simp)
    obtain ⟨f, found⟩ := reaches.declared d declared
    refine ⟨before, d.name, after, f, split, ?_, found, ?_⟩
    · refine (reaches.supports_iff distinct ?_).mpr supported
      intro other among
      exact known other (opening before d.name after split other among)
    · rw [reaches.resolves_iff distinct here declared member found, not_not]
      exact ⟨g, declaredCallee, mistakes, split ▸ available⟩

end Reaches

end Run

end Monadize
