import Monadize.Proofs.Cluster.Commit
import Monadize.Proofs.Run.Progress
import Monadize.Run.Sequential

/-! One cluster of a run. A cluster that compiles is registered, since its constants have new names
and its hypotheses can be discharged, and the invariant of the run holds behind it.
-/

namespace Monadize

namespace Run

variable {program : Program} {settings : Settings} {id : ClusterId} {state : RunState}

namespace Reaches

/-- A cluster that is not registered leaves the run where it is. -/
theorem skip {members : List Name} (reaches : Reaches program settings id state)
    (here : program.clusters[id]? = some members) (refused : ¬ program.Supports members)
    : Reaches program settings (id + 1) state := by
  have same : ∀ name, program.RegistersBefore (id + 1) name ↔ program.RegistersBefore id name := by
    intro name
    rw [Program.registersBefore_succ here, or_iff_left fun later => refused later.2]
  refine ⟨reaches.declared, ?_, ?_, reaches.indexed⟩
  · intro name f found
    obtain ⟨d, declared, named, tracks⟩ := reaches.tracked name f found
    exact ⟨d, declared, named, tracks.name, tracks.proc, tracks.pending,
      tracks.registered.trans (same d.name).symm, tracks.thm⟩
  · intro const known
    obtain ⟨d, declared, before, named⟩ := reaches.consts const known
    exact ⟨d, declared, (same d.name).mpr before, named⟩

section Compiled

variable (distinct : program.Distinct) (reaches : Reaches program settings id state)
  {members : List Name} (here : program.clusters[id]? = some members) {compiled : List Compiled}
  (compiles : Cluster.Compiles (program.scope settings state.functions) members compiled)

include reaches compiles in
/-- The compiled functions are those of the cluster, in order. -/
theorem names_compiled : compiled.map (·.name) = members := by
  refine (eq_map_of_related (List.Forall₂.imp ?_ compiles)).symm
  intro name c h
  obtain ⟨f, term, found, built⟩ := h
  obtain ⟨d, _, rfl, tracks⟩ := reaches.tracked name f found
  exact (built.name.trans tracks.name).symm

include distinct reaches here compiles

/-- The functions of a compiled cluster are built in the scope of the run. -/
theorem built : Cluster.Built (program.scope settings state.functions) compiled := by
  refine ⟨?_, ?_⟩
  · intro c among
    obtain ⟨name, member, f, term, found, built⟩ := exists_left_of_mem compiles among
    obtain ⟨d, declared, rfl⟩ := Program.exists_declaration here member
    have named : c.name = d.name :=
      built.name.trans (reaches.tracks distinct declared found).name
    exact ⟨f, term, named ▸ found, built⟩
  · intro name g registration found registered
    obtain ⟨_, _, _, tracks⟩ := reaches.tracked name g found
    exact ⟨_, _, tracks.thm registration registered⟩

/-- The constants of the cluster have names that no registered function has taken. -/
theorem fresh : ∀ c ∈ compiled, state.store.lookup (settings.constName c.name) = none := by
  intro c among
  refine reaches.indexed.lookup_eq_none_iff.mpr fun taken => ?_
  obtain ⟨d, _, before, same⟩ := reaches.consts _ taken
  have member : c.name ∈ members :=
    reaches.names_compiled compiles ▸ List.mem_map_of_mem among
  rw [settings.constName_injective same] at member
  exact distinct.not_registersBefore here member before

/-- What the functions of a compiled cluster assume can be discharged. A function with a recursive
callee is measured, and so it is guarded.
-/
theorem dischargeable {c : Compiled} (among : c ∈ compiled)
    : Cluster.Dischargeable (program.scope settings state.functions) (compiled.map (·.name)) c := by
  obtain ⟨name, member, f, term, found, built⟩ := exists_left_of_mem compiles among
  obtain ⟨d, declared, rfl⟩ := Program.exists_declaration here member
  constructor
  · intro entry used recursive
    have within := (Scope.recursive_iff (built.mem_calleeTable used)).mp recursive
    refine ⟨?_, ?_⟩
    · rw [reaches.names_compiled compiles]
      exact reaches.mem_of_recursive distinct here declared member found within
    · refine built.isRecGuard_of_assumes used ?_
      rw [(reaches.analyzed distinct here declared member found).measured, NameSet.isEmpty]
      simpa using List.ne_nil_of_mem within
  · intro entry used external g r foundCallee registered
    obtain ⟨_, _, _, tracks⟩ := reaches.tracked entry.func g foundCallee
    rw [tracks.thm r registered]
    exact ⟨rfl, rfl⟩

/-- A compiled cluster can be registered. -/
theorem registrable
    : Cluster.Registrable (program.scope settings state.functions) settings state.store
        compiled := by
  have names := reaches.names_compiled compiles
  refine ⟨?_, names ▸ distinct.nodup_cluster here, reaches.fresh distinct here compiles,
    fun c among => reaches.dischargeable distinct here compiles among⟩
  intro none
  have empty : members = [] := by rw [← names, none, List.map_nil]
  exact CallGraph.nil_not_mem_clusters program.env program.functions .empty
    (empty ▸ List.mem_of_getElem? here)

/-- A supported cluster that compiles is registered, and the run goes on behind it. -/
theorem commit (supported : program.Supports members)
    : ∃ store committed,
        Cluster.commit settings state.store state.functions compiled = .ok (store, committed)
        ∧ Reaches program settings (id + 1) (Cluster.advance state.functions store committed) := by
  have names := reaches.names_compiled compiles
  have built := reaches.built distinct here compiles
  have registrable := reaches.registrable distinct here compiles
  have named : ∀ c ∈ compiled, ∀ f, state.functions.find? c.name = some f → f.name = c.name := by
    intro c _ f found
    obtain ⟨d, _, same, tracks⟩ := reaches.tracked c.name f found
    exact tracks.name.trans same
  obtain ⟨committed, result, registers⟩ := built.exists_commit registrable
  have later : ∀ name, program.RegistersBefore (id + 1) name
      ↔ program.RegistersBefore id name ∨ name ∈ members := by
    intro name
    rw [Program.registersBefore_succ here, and_iff_left supported]
  have inside {pair : Compiled × ConstId} (paired : pair ∈ Cluster.numbered state.store compiled)
      : pair.1.name ∈ members :=
    names ▸ List.mem_map_of_mem (List.of_mem_zip paired).1
  refine ⟨_, committed, result, ?_, ?_, ?_, Cluster.indexed_extended reaches.indexed registrable⟩
  · intro d declared
    rcases Cluster.find?_advance named registers registrable.distinct d.name with
      ⟨_, same⟩ | ⟨pair, _, _, f, _, found⟩
    · rw [same]
      exact reaches.declared d declared
    · exact ⟨_, found⟩
  · intro name f' found'
    rcases Cluster.find?_advance named registers registrable.distinct name with
      ⟨outside, same⟩ | ⟨pair, paired, rfl, f, found, changed⟩
    · rw [same] at found'
      obtain ⟨d, declared, rfl, tracks⟩ := reaches.tracked name f' found'
      refine ⟨d, declared, rfl, tracks.name, tracks.proc, tracks.pending, ?_, tracks.thm⟩
      rw [tracks.registered, later, or_iff_left (names ▸ outside)]
    -- a function of the cluster is no longer as analyzed, but then it has its theorem
    · obtain ⟨d, declared, own, tracks⟩ := reaches.tracked pair.1.name f found
      cases changed.symm.trans found'
      refine ⟨d, declared, own, tracks.name, tracks.proc, nofun, ?_, ?_⟩
      · exact iff_of_true rfl ((later d.name).mpr (.inr (own ▸ inside paired)))
      · intro other same
        cases same
        obtain ⟨term, builds⟩ := built.builds_of_find? (List.of_mem_zip paired).1 found
        show (⟨_, _, .fnCorres pair.2 pair.1.thm.proc, _, _⟩ : Theorem) = _
        rw [builds.proc_eq]
        rfl
  · intro const known
    have placed : const ∈ state.store.names ++ Cluster.constNames settings compiled := by
      rw [← Cluster.names_extended (Plan.ofProgram program .empty).1 settings state.functions]
      exact known
    rcases List.mem_append.mp placed with old | added
    · obtain ⟨d, declared, before, named⟩ := reaches.consts const old
      exact ⟨d, declared, (later d.name).mpr (.inl before), named⟩
    · obtain ⟨c, among, rfl⟩ := List.mem_map.mp added
      have member : c.name ∈ members := names ▸ List.mem_map_of_mem among
      obtain ⟨d, declared, same⟩ := Program.exists_declaration here member
      exact ⟨d, declared, (later d.name).mpr (.inr (same ▸ member)), by rw [same]⟩

end Compiled

end Reaches

end Run

end Monadize
