import Monadize.Proofs.Run.Progress
import Monadize.Proofs.Run.Registrations

/-! Measures in registered terms. A measured function has a guard at its root and no other one, and
a call passes on a decremented measure within a cluster, a fresh one to measured functions of
earlier clusters, and none to all others.
-/

namespace Monadize

namespace Program

/-- The functions are in one cluster. -/
def Together (program : Program) (name other : Name) : Prop :=
  ∃ members ∈ program.clusters, name ∈ members ∧ other ∈ members

/-- The first function is in an earlier cluster than the second one. -/
def Before (program : Program) (name other : Name) : Prop :=
  ∃ i j : ClusterId,
    i < j
    ∧ ∃ members others,
        program.clusters[i]? = some members
        ∧ program.clusters[j]? = some others
        ∧ name ∈ members
        ∧ other ∈ others

/-- What a call of `g` in the term of `f` passes on. -/
structure Passes (program : Program) (f g : Function) (term : Term) (arg : MeasureArg) : Prop where
  pred : (∃ m, arg = .pred m) ↔ program.Together f.name g.name
  guard : ∀ m, arg = .pred m → ∃ body, term = .recGuard m body
  managed : arg = .managed ↔ g.measured = true ∧ program.Before g.name f.name
  unused : arg = .unused ↔ g.measured = false

/-- The term of `f` guards and passes on measures as the call graph asks for. -/
structure Threads (program : Program) (functions : FunctionTable) (f : Function) (term : Term)
    : Prop where
  undefined : program.env.body? f.proc = none → term = .fail ∧ f.measured = false
  root
    : ∀ body,
        program.env.body? f.proc = some body
        → (Member.isRecGuard term = true ↔ f.measured = true)
  below : ∀ child ∈ term.children, child.guards = []
  callees
    : ∀ callee ∈ term.callees,
        ∃ k g,
          callee.target = .const k
          ∧ functions.find? g.name = some g
          ∧ (∀ name, functions.const? name = some k ↔ name = g.name)
          ∧ program.Passes f g term callee.measure
  recCallees
    : ∀ name,
        name ∈ f.recCallees.elems
        ↔ ∃ k m, ⟨.const k, .pred m⟩ ∈ term.callees ∧ functions.const? name = some k

section Passes

variable {program : Program} {f g : Function} {term : Term}

theorem Passes.of_pred {m : MeasureId} (together : program.Together f.name g.name)
    (ordered : ¬ program.Before g.name f.name) (measured : g.measured = true)
    (guarded : ∃ body, term = .recGuard m body)
    : program.Passes f g term (.pred m) where
  pred := by simp [together]
  guard := by
    rintro _ ⟨⟩
    exact guarded
  managed := by simp [ordered]
  unused := by simp [measured]

theorem Passes.of_managed (apart : ¬ program.Together f.name g.name)
    (before : program.Before g.name f.name) (measured : g.measured = true)
    : program.Passes f g term .managed where
  pred := by simp [apart]
  guard := by simp
  managed := by simp [measured, before]
  unused := by simp [measured]

theorem Passes.of_unused (apart : ¬ program.Together f.name g.name)
    (unmeasured : g.measured = false)
    : program.Passes f g term .unused where
  pred := by simp [apart]
  guard := by simp
  managed := by simp [unmeasured]
  unused := by simp [unmeasured]

end Passes

variable {program : Program} (distinct : program.Distinct)

include distinct

/-- Functions of one cluster are not in different ones. -/
theorem Together.not_before {name other : Name} (together : program.Together name other)
    : ¬ program.Before other name := by
  rintro ⟨i, j, before, members, others, here, there, member, otherMember⟩
  obtain ⟨joint, cluster, first, second⟩ := together
  obtain ⟨k, place⟩ := List.mem_iff_getElem?.mp cluster
  have atFirst := distinct.cluster_unique place here second member
  have atSecond := distinct.cluster_unique place there first otherMember
  exact absurd (atFirst.symm.trans atSecond) (Nat.ne_of_lt before)

omit distinct in
/-- A declared function is in some cluster. -/
theorem exists_cluster {d : Declaration} (declared : d ∈ program.functions)
    : ∃ (i : ClusterId) (members : List Name),
        program.clusters[i]? = some members ∧ d.name ∈ members := by
  have listed := (CallGraph.clusters_perm program.env program.functions .empty).mem_iff.mpr
    (List.mem_map_of_mem declared)
  obtain ⟨members, among, member⟩ := List.mem_flatten.mp listed
  obtain ⟨i, here⟩ := List.mem_iff_getElem?.mp among
  exact ⟨i, members, here, member⟩

section Analyzed

variable {d : Declaration} {f : Function} (declared : d ∈ program.functions)
  (analyzed : CallGraph.Analyzed program.env program.functions .empty d f) {callee : Name}

omit distinct in
include analyzed in
/-- A callee is recursive if it is in the cluster of its caller. -/
theorem together_iff (called : callee ∈ f.callees.elems)
    : program.Together f.name callee ↔ callee ∈ f.recCallees.elems := by
  rw [analyzed.mem_recCallees, analyzed.name]
  exact (and_iff_right called).symm

include declared analyzed

/-- Any other callee is in an earlier cluster. -/
theorem before_of_not_recursive (called : callee ∈ f.callees.elems)
    (external : callee ∉ f.recCallees.elems)
    : program.Before callee f.name := by
  obtain ⟨_, _, _, _, _, known⟩ := (analyzed.mem_callees callee).mp called
  obtain ⟨e, calleeDeclared, rfl⟩ :=
    List.mem_map.mp (known.resolve_right (by simp [FiniteMap.contains]))
  obtain ⟨i, members, here, own⟩ := exists_cluster declared
  obtain ⟨j, others, there, its⟩ := exists_cluster calleeDeclared
  rcases analyzed.callee_earlier distinct.names declared calleeDeclared called here own there its
    with rfl | ⟨before, _⟩
  · cases here.symm.trans there
    refine absurd ((together_iff analyzed called).mp ?_) external
    exact ⟨members, List.mem_of_getElem? here, analyzed.name ▸ own, its⟩
  · exact ⟨j, i, before, others, members, there, here, its, analyzed.name ▸ own⟩

/-- The functions of a cluster with a recursive callee are measured. -/
theorem measured_of_recursive {e : Declaration} {g : Function}
    (calleeDeclared : e ∈ program.functions)
    (calleeAnalyzed : CallGraph.Analyzed program.env program.functions .empty e g)
    (recursive : e.name ∈ f.recCallees.elems)
    : f.measured = true ∧ g.measured = true := by
  have measured : f.measured = true := by
    rw [analyzed.measured, NameSet.isEmpty]
    simpa using List.ne_nil_of_mem recursive
  obtain ⟨_, members, cluster, own, its⟩ := (analyzed.mem_recCallees e.name).mp recursive
  have same := analyzed.measured_eq distinct.names calleeAnalyzed declared calleeDeclared cluster
    own
    its
  exact ⟨measured, same.symm.trans measured⟩

end Analyzed

end Program

namespace Run

variable {program : Program} {settings : Settings} {state : RunState} {compiled : List Compiled}

namespace Describes

variable (describes : Describes program settings ⟨.empty, .empty⟩ compiled state)
  (distinct : program.Distinct)

include distinct in
/-- A run from nothing starts with analyzed functions. -/
theorem analyzed_of_find?_opening {name : Name} {f : Function}
    (atStart : (opening program ⟨.empty, .empty⟩).functions.find? name = some f)
    : ∃ d ∈ program.functions,
        d.name = name ∧ CallGraph.Analyzed program.env program.functions .empty d f := by
  have sorted : (Plan.ofProgram program .empty).2.Sorted := FiniteMap.sorted_ofList _
  rcases sorted.find?_of_union FiniteMap.sorted_empty atStart with new | old
  · exact analyzed_of_find? distinct new
  · cases old

include describes distinct

/-- All that a run from nothing has registered was compiled in it. -/
theorem mem_of_const? {name : Name} {k : ConstId} (const : state.functions.const? name = some k)
    : ∃ c ∈ compiled, c.name = name := by
  by_cases member : name ∈ compiled.map (·.name)
  · exact List.mem_map.mp member
  · obtain ⟨r, registered, _⟩ := Option.map_eq_some_iff.mp const
    obtain ⟨f, found, registered⟩ := Option.bind_eq_some_iff.mp registered
    rw [describes.others name member] at found
    obtain ⟨_, _, _, analyzed⟩ := analyzed_of_find?_opening distinct found
    cases analyzed.unregistered.symm.trans registered

theorem const?_eq_some_iff {name other : Name} {k : ConstId}
    (const : state.functions.const? name = some k)
    : state.functions.const? other = some k ↔ other = name := by
  constructor
  · intro constOther
    obtain ⟨c, among, rfl⟩ := describes.mem_of_const? distinct const
    obtain ⟨c', amongToo, rfl⟩ := describes.mem_of_const? distinct constOther
    exact describes.name_eq_of_const? amongToo among (constOther.trans const.symm)
  · rintro rfl
    exact const

omit distinct in
/-- A callee of a registered term is the constant of an entry, and passed what the entry says. -/
theorem exists_entry {scope : Scope} {f : Function} {measure : MeasureId} {c : Compiled}
    (among : c ∈ compiled) (table : c.callees = scope.calleeTable f)
    (threads : scope.Threads f measure c.term) {callee : Callee}
    (called
      : callee
        ∈ (c.term.instantiate fun p =>
            (c.callees.entries[p]?).bind fun entry => state.functions.const? entry.func).callees)
    : ∃ p entry k,
        (scope.calleeTable f).entries[p]? = some entry
        ∧ ⟨.placeholder p, callee.measure⟩ ∈ c.term.callees
        ∧ callee = ⟨.const k, (entry.threading measure).1⟩
        ∧ state.functions.const? entry.func = some k := by
  rw [Term.callees_instantiate] at called
  obtain ⟨_, original, rfl⟩ := List.mem_map.mp called
  obtain ⟨p, entry, present, rfl⟩ := threads.callees _ original
  rw [← table] at present
  obtain ⟨k, const⟩ := describes.callees c among entry (List.mem_of_getElem? present)
  refine ⟨p, entry, k, table ▸ present, ?_, ?_, const⟩
  · simpa only [Callee.instantiate, present, Option.bind_some, const] using original
  · simp only [Callee.instantiate, present, Option.bind_some, const]

/-- What an entry says fits the callee that is registered under it. -/
theorem passes {input : RunState} (stage : Stage (opening program ⟨.empty, .empty⟩) input)
    {d : Declaration} (declared : d ∈ program.functions) {f f' : Function} (same : f'.name = f.name)
    (analyzed : CallGraph.Analyzed program.env program.functions .empty d f) {entry : CalleeEntry}
    (listed : entry ∈ ((program.scope settings input.functions).calleeTable f).entries)
    {measure : MeasureId} {term : Term}
    (guarded : f.measured = true → ∃ body, term = .recGuard measure body) {k : ConstId}
    (const : state.functions.const? entry.func = some k)
    : ∃ g,
        g.name = entry.func
        ∧ state.functions.find? g.name = some g
        ∧ program.Passes f' g term (entry.threading measure).1 := by
  obtain ⟨gInput, called, foundInput, _, shape⟩ := Scope.mem_calleeTable.mp listed
  obtain ⟨r, registered, _⟩ := Option.map_eq_some_iff.mp const
  obtain ⟨g, found, _⟩ := Option.bind_eq_some_iff.mp registered
  have named := describes.stage.consistent.named entry.func g found
  obtain ⟨g₀, atStart, outline⟩ := describes.stage.exists_start found
  have measured : entry.measured = g.measured := by
    obtain ⟨g₁, atStartToo, outlineInput⟩ := stage.exists_start foundInput
    cases atStart.symm.trans atStartToo
    rw [shape]
    exact (congrArg Function.measured (outlineInput.symm.trans outline) :)
  obtain ⟨e, calleeDeclared, calleeName, calleeAnalyzed⟩ :=
    analyzed_of_find?_opening distinct atStart
  have recursive := Scope.recursive_iff listed
  have together : program.Together f'.name g.name ↔ entry.func ∈ f.recCallees.elems := by
    rw [same, named]
    exact Program.together_iff analyzed called
  refine ⟨g, named, named.symm ▸ found, ?_⟩
  by_cases inside : entry.func ∈ f.recCallees.elems
  · have passed : entry.threading measure = (.pred measure, .callRecursive) := by
      rw [CalleeEntry.threading, recursive.mpr inside, if_pos rfl]
    obtain ⟨caller, callee⟩ := Program.measured_of_recursive distinct declared analyzed
      calleeDeclared calleeAnalyzed (calleeName ▸ inside)
    have measuredCallee : g.measured = true :=
      (congrArg Function.measured outline :).symm.trans callee
    rw [passed]
    have joined := together.mpr inside
    exact .of_pred joined (joined.not_before distinct) measuredCallee (guarded caller)
  · have no : entry.recursive = false := Bool.eq_false_iff.mpr (mt recursive.mp inside)
    have before : program.Before g.name f'.name := by
      rw [same, named]
      exact Program.before_of_not_recursive distinct declared analyzed called inside
    rw [CalleeEntry.threading, no, measured]
    cases value : g.measured with
    | true => exact .of_managed (together.not.mpr inside) before value
    | false => exact .of_unused (together.not.mpr inside) value

/-- Registered terms guard and pass on measures as the call graph asks for. -/
theorem threads {name : Name} {f : Function} {r : Registration}
    (found : state.functions.find? name = some f) (registered : f.registration = some r)
    : program.Threads state.functions f r.term := by
  have const : state.functions.const? name = some r.const := by
    rw [FunctionTable.const?, found, Option.bind_some, registered, Option.map_some]
  obtain ⟨c, among, rfl⟩ := describes.mem_of_const? distinct const
  obtain ⟨f₀, k, _, atStart, foundToo⟩ := describes.registered c among
  cases found.symm.trans foundToo
  have term : r.term = c.term.instantiate fun p =>
      (c.callees.entries[p]?).bind fun entry => state.functions.const? entry.func :=
    (congrArg Registration.term (Option.some.inj registered) :).symm
  obtain ⟨d, declared, _, analyzed⟩ := analyzed_of_find?_opening distinct atStart
  obtain ⟨input, stage, builds⟩ := describes.built c among f₀ atStart
  obtain ⟨measure, threads⟩ := builds.threads
  have shape {body : Stmt} (defined : program.env.body? f₀.proc = some body)
      : ∃ inner : Term, inner.guards = [] ∧ r.term = Scope.guardedTerm f₀ measure inner := by
    obtain ⟨inner, plain, same⟩ := threads.defined body defined
    exact ⟨_, (Term.guards_mapParts ..).trans plain,
      term.trans (same ▸ Scope.instantiate_guardedTerm ..)⟩
  have bodiless (missing : program.env.body? f₀.proc = none) : r.term = .fail := by
    rw [term, threads.undefined missing]
    rfl
  constructor
  · intro missing
    refine ⟨bodiless missing, ?_⟩
    have none : f₀.recCallees.elems = [] := by
      refine List.eq_nil_iff_forall_not_mem.mpr fun callee recursive => ?_
      have called := ((analyzed.mem_recCallees callee).mp recursive).1
      obtain ⟨body, defined, _⟩ := (analyzed.mem_callees callee).mp called
      cases (analyzed.proc ▸ defined).symm.trans missing
    show f₀.measured = false
    rw [analyzed.measured, NameSet.isEmpty, none]
    rfl
  · intro body defined
    obtain ⟨inner, plain, same⟩ := shape defined
    rw [same, (Scope.guards_guardedTerm plain f₀ measure).1]
    rfl
  · cases defined : program.env.body? f₀.proc with
    | none =>
        rw [bodiless defined]
        exact fun _ among => absurd among List.not_mem_nil
    | some body =>
        obtain ⟨inner, plain, same⟩ := shape defined
        rw [same]
        exact (Scope.guards_guardedTerm plain f₀ measure).2
  · intro callee called
    obtain ⟨p, entry, target, present, original, rfl, const⟩ :=
      describes.exists_entry among builds.callees threads (term ▸ called)
    have guarded (measured : f₀.measured = true) : ∃ body, r.term = .recGuard measure body := by
      cases defined : program.env.body? f₀.proc with
      | none =>
          rw [bodiless defined] at called
          cases called
      | some body =>
          obtain ⟨inner, _, same⟩ := shape defined
          exact ⟨inner, same.trans (if_pos measured)⟩
    have kept : (asCompiled program settings state.functions f₀ c k).name = f₀.name := rfl
    obtain ⟨g, named, foundCallee, passes⟩ := describes.passes distinct stage declared kept analyzed
      (List.mem_of_getElem? present) guarded const
    refine ⟨target, g, rfl, foundCallee, fun name => ?_, passes⟩
    rw [describes.const?_eq_some_iff distinct const, named]
  · intro name
    show name ∈ c.recCallees.elems ↔ _
    rw [builds.recCallees, Scope.mem_recursiveCallees]
    constructor
    · rintro ⟨p, m, entry, called, present, rfl⟩
      rw [← builds.callees] at present
      obtain ⟨k, const⟩ := describes.callees c among entry (List.mem_of_getElem? present)
      refine ⟨k, m, ?_, const⟩
      rw [term, Term.callees_instantiate]
      refine List.mem_map.mpr ⟨_, called, ?_⟩
      simp only [Callee.instantiate, present, Option.bind_some, const]
    · rintro ⟨k, m, called, const⟩
      obtain ⟨p, entry, target, present, original, same, constCallee⟩ :=
        describes.exists_entry among builds.callees threads (term ▸ called)
      cases CalleeRef.const.inj (Callee.mk.inj same).1
      refine ⟨p, m, entry, original, present, ?_⟩
      exact (describes.const?_eq_some_iff distinct const).mp constCallee

end Describes

/-- At every point of a run from nothing, with one or many workers, the registered terms guard and
pass on measures as the call graph asks for. Witness: each is what its function was compiled to,
with the constants of its callees.
-/
theorem Point.registered_threads {tag : Nat} {text : String}
    (parsed : Program.parse tag text = .ok program)
    (point
      : Point (Plan.ofProgram program .empty).1 settings (Plan.ofProgram program .empty).2 .empty
          .empty state)
    {name : Name} {f : Function} {r : Registration}
    (found : state.functions.find? name = some f) (registered : f.registration = some r)
    : program.Threads state.functions f r.term := by
  have distinct := Program.distinct_of_parse parsed
  obtain ⟨states, course⟩ := point.course
  obtain ⟨compiled, describes⟩ := course.describes consistent_empty distinct
    (Program.supersedes_empty program)
  exact describes.threads distinct found registered

end Run

/-- The functions `ping` and `pong` call each other, `main` calls `ping`, and two of them `leaf`. -/
def Description.relay : Description where
  file := "a"
  world := "w"
  functions :=
    [⟨"leaf", "l", some .skip, none, false⟩,
      ⟨"main", "m", some (.seq (.plainCall "p") (.plainCall "l")), none, false⟩,
      ⟨"ping", "p", some (.seq (.plainCall "q") (.plainCall "l")), none, false⟩,
      ⟨"pong", "q", some (.plainCall "p"), none, false⟩]

namespace Run

theorem parse_relay : Program.parse 0 Description.relay.text = .ok (.of 0 .relay) := by
  rw [Description.text, Json.render, Program.parse_ofList]
  decide +kernel

theorem ofProgram_relay
    : Plan.ofProgram (.of 0 .relay) .empty
      = (⟨"a", (Program.of 0 .relay).env,
          ⟨[("l", "leaf"), ("m", "main"), ("p", "ping"), ("q", "pong")]⟩,
          ⟨[["leaf"], ["ping", "pong"], ["main"]], [[], [0], [0, 1]]⟩⟩,
        ⟨[("leaf", function "leaf" "l" [] false),
          ("main", function "main" "m" ["leaf", "ping"] false),
          ("ping", ⟨"ping", "p", ⟨["leaf", "pong"]⟩, ⟨["pong"]⟩, false, true, none, none⟩),
          ("pong", function "pong" "q" ["ping"] true)]⟩) := by
  cbv

/-- The state after a run of these functions. -/
def relayState : RunState :=
  (inTurn (.of 0 .relay) (.usual "l1_") ⟨.empty, .empty⟩).2

theorem find?_relayState
    : (∃ f r,
        relayState.functions.find? "main" = some f
        ∧ f.registration = some r
        ∧ r.term.callees.map (·.measure) = [.managed, .unused])
      ∧ ∃ f r,
          relayState.functions.find? "ping" = some f
          ∧ f.registration = some r
          ∧ r.term.callees.map (·.measure) = [.pred 0, .unused] := by
  have seen : ["main", "ping"].map (fun name =>
        (((relayState.functions.find? name).bind (·.registration)).map fun r =>
          r.term.callees.map (·.measure)))
      = [some [.managed, .unused], some [.pred 0, .unused]] := by
    rw [relayState, inTurn, ofProgram_relay]
    decide +kernel
  simp only [List.map_cons, List.map_nil, List.cons.injEq, Option.map_eq_some_iff,
    Option.bind_eq_some_iff] at seen
  obtain ⟨⟨r, ⟨f, found, registered⟩, main⟩, ⟨s, ⟨g, foundToo, registeredToo⟩, ping⟩, _⟩ := seen
  exact ⟨⟨f, r, found, registered, main⟩, g, s, foundToo, registeredToo, ping⟩

/-- In the run of these functions, `main` hands `ping` a measure of its own, and `ping` hands `pong`
its decremented one.
-/
theorem registered_threads_relay
    : Program.parse 0 Description.relay.text = .ok (.of 0 .relay)
      ∧ (∃ f r,
          relayState.functions.find? "main" = some f
          ∧ f.registration = some r
          ∧ r.term.callees.map (·.measure) = [.managed, .unused]
          ∧ (Program.of 0 .relay).Threads relayState.functions f r.term)
      ∧ ∃ f r,
          relayState.functions.find? "ping" = some f
          ∧ f.registration = some r
          ∧ r.term.callees.map (·.measure) = [.pred 0, .unused]
          ∧ (Program.of 0 .relay).Threads relayState.functions f r.term := by
  obtain ⟨⟨f, r, found, registered, main⟩, g, s, foundToo, registeredToo, ping⟩ := find?_relayState
  have point : Point (Plan.ofProgram (.of 0 .relay) .empty).1 (.usual "l1_")
      (Plan.ofProgram (.of 0 .relay) .empty).2 .empty .empty relayState :=
    .sequential none
  exact ⟨parse_relay, ⟨f, r, found, registered, main,
      point.registered_threads parse_relay found registered⟩,
    g, s, foundToo, registeredToo, ping,
    point.registered_threads parse_relay foundToo registeredToo⟩

end Run

end Monadize
