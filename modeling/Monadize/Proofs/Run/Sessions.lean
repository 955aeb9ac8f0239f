import Mathlib.Data.List.Permutation
import Monadize.Proofs.Graph.Dependencies
import Monadize.Proofs.Run.Consistency
import Monadize.Proofs.Run.Trails

/-! Runs one after the other, each from where the one before has got to. All that they reach is
consistent. A function has a monotonicity theorem exactly if it is measured, provided that no run
works on an older function in place of one that its program declares.
-/

namespace Monadize

namespace Program

/-- The functions that the program declares take the place of older ones. -/
def Supersedes (program : Program) (prior : FunctionTable) : Prop :=
  ∀ d ∈ program.functions,
    ((Plan.ofProgram program prior).2.union prior).find? d.name
    = (Plan.ofProgram program prior).2.find? d.name

/-- With more older functions than new ones, a function that is declared again stays what it was. -/
theorem not_supersedes {program : Program} {prior : FunctionTable} (sorted : prior.Sorted)
    (more : (Plan.ofProgram program prior).2.size < prior.size) {d : Declaration}
    (declared : d ∈ program.functions) {f : Function} (old : prior.find? d.name = some f)
    (differs : (Plan.ofProgram program prior).2.find? d.name ≠ some f)
    : ¬ program.Supersedes prior := by
  intro supersedes
  have kept := (FiniteMap.sorted_ofList _).find?_union_of_lt sorted more old
  exact differs ((supersedes d declared).symm.trans kept)

/-- New functions take the place of older ones exactly if there are at least as many of them, or if
none of the older ones differs from a new one of its name.
-/
theorem supersedes_iff {program : Program} {prior : FunctionTable} (sorted : prior.Sorted)
    : program.Supersedes prior
      ↔ prior.size ≤ (Plan.ofProgram program prior).2.size
        ∨ ∀ d ∈ program.functions, ∀ f,
            prior.find? d.name = some f
            → (Plan.ofProgram program prior).2.find? d.name = some f := by
  have newSorted : (Plan.ofProgram program prior).2.Sorted := FiniteMap.sorted_ofList _
  constructor
  · intro supersedes
    refine or_iff_not_imp_left.mpr fun more d declared f old => by_contra fun differs => ?_
    exact not_supersedes sorted (Nat.lt_of_not_le more) declared old differs supersedes
  · intro h d declared
    obtain ⟨f, listed⟩ := CallGraph.exists_mem_analyze declared
    have new : (Plan.ofProgram program prior).2.find? d.name = some f :=
      newSorted.find?_eq_some_iff.mpr listed
    rw [newSorted.find?_union sorted, new]
    split
    · rfl
    · next more =>
        cases old : prior.find? d.name with
        | none => rfl
        | some g => rw [← h.resolve_left more d declared g old, new, Option.some_or]

theorem supersedes_empty (program : Program) : program.Supersedes .empty :=
  (supersedes_iff FiniteMap.sorted_empty).mpr (.inl (Nat.zero_le _))

end Program

namespace Run

/-- The states that a session can be in. It begins with nothing, more names may be reserved, and a
run of an allowed program can be left at any point.
-/
inductive Session (allowed : Program → FunctionTable → Prop) : RunState → Prop
  | empty : Session allowed ⟨.empty, .empty⟩
  | reserve {state : RunState} {name : Name} {store : Store} {k : ConstId}
      (before : Session allowed state) (reserved : state.store.reserve name = .ok (store, k))
      : Session allowed ⟨store, state.functions⟩
  | run {state next : RunState} {tag : Nat} {text : String} {program : Program}
      {settings : Settings} (before : Session allowed state)
      (parsed : Program.parse tag text = .ok program) (fits : allowed program state.functions)
      (point
        : Point (Plan.ofProgram program state.functions).1 settings
            (Plan.ofProgram program state.functions).2 state.functions state.store next)
      : Session allowed next

/-- A run of a program to its end, one cluster after the other. -/
def inTurn (program : Program) (settings : Settings) (state : RunState) : List Item × RunState :=
  let planned := Plan.ofProgram program state.functions
  sequential planned.1 settings planned.2 state.functions state.store none

variable {program : Program} {settings : Settings} {state next : RunState}

-----------------------------------------------------------------------------------------
-- The opening of a run
-----------------------------------------------------------------------------------------

/-- A plan depends on the outlines of older functions only. -/
theorem ofProgram_outlines (program : Program) (prior : FunctionTable)
    : Plan.ofProgram program (prior.mapValues Function.outline) = Plan.ofProgram program prior := by
  have names : CallGraph.procNames program.functions (prior.mapValues Function.outline)
      = CallGraph.procNames program.functions prior := by
    simp only [CallGraph.procNames, FiniteMap.values, FiniteMap.mapValues, List.map_map]
    rfl
  have known : (prior.mapValues Function.outline).contains = prior.contains := by
    funext name
    simp only [FiniteMap.contains, FiniteMap.find?_mapValues, Option.isSome_map]
  unfold Plan.ofProgram CallGraph.analyze
  rw [names, known]

/-- The functions of a program are those of its declarations, not registered yet. -/
theorem analyzed_of_find? (distinct : program.Distinct) {prior : FunctionTable} {name : Name}
    {f : Function} (found : (Plan.ofProgram program prior).2.find? name = some f)
    : ∃ d ∈ program.functions,
        d.name = name ∧ CallGraph.Analyzed program.env program.functions prior d f :=
  CallGraph.analyzed_of_mem distinct.names (FiniteMap.mem_entries_of_find? found)

/-- The members of a cluster are declared. -/
theorem exists_declaration {prior : FunctionTable} {members : List Name}
    (cluster : members ∈ (Plan.ofProgram program prior).1.graph.clusters) {name : Name}
    (member : name ∈ members)
    : ∃ d ∈ program.functions, d.name = name := by
  have among := List.mem_flatten.mpr ⟨members, cluster, member⟩
  exact List.mem_map.mp
    ((CallGraph.clusters_perm program.env program.functions prior).mem_iff.mp among)

theorem known_opening
    : ∀ members ∈ (Plan.ofProgram program state.functions).1.graph.clusters, ∀ name ∈ members,
        ∃ f, (opening program state).functions.find? name = some f := by
  intro members cluster name member
  obtain ⟨d, declared, rfl⟩ := exists_declaration cluster member
  obtain ⟨f, listed⟩ := CallGraph.exists_mem_analyze declared
  have sorted : (Plan.ofProgram program state.functions).2.Sorted := FiniteMap.sorted_ofList _
  exact FiniteMap.exists_find?_union (sorted.find?_eq_some_iff.mpr listed) state.functions

theorem Consistent.opening (consistent : Consistent state) (distinct : program.Distinct)
    : Consistent (opening program state) := by
  have sorted : (Plan.ofProgram program state.functions).2.Sorted := FiniteMap.sorted_ofList _
  refine ⟨consistent.indexed, consistent.closed, sorted.union consistent.sorted, ?_, ?_⟩
  · intro name f found
    rcases sorted.find?_of_union consistent.sorted found with new | old
    · obtain ⟨d, _, rfl, analyzed⟩ := analyzed_of_find? distinct new
      exact analyzed.name
    · exact consistent.named name f old
  · intro name f r found registered
    rcases sorted.find?_of_union consistent.sorted found with new | old
    · obtain ⟨d, _, _, analyzed⟩ := analyzed_of_find? distinct new
      cases analyzed.unregistered.symm.trans registered
    · exact consistent.held name f r old registered

theorem Consistent.reserve (consistent : Consistent state) {name : Name} {store : Store}
    {k : ConstId} (reserved : state.store.reserve name = .ok (store, k))
    : Consistent ⟨store, state.functions⟩ := by
  obtain ⟨fresh, rfl, _⟩ := Store.reserve_eq_ok_iff.mp reserved
  have grows : state.store.Grows (state.store.push name) := ⟨_, rfl⟩
  have indexed := consistent.indexed.push fresh
  refine ⟨indexed, ?_, consistent.sorted, consistent.named, ?_⟩
  · intro j d found
    rw [Store.get?, Store.push, List.getElem?_append] at found
    split at found
    · exact grows.holds (consistent.closed j d found)
    · exact .inl (List.mem_singleton.mp (List.mem_of_getElem? found) ▸ rfl)
  · intro other f r found registered
    exact (consistent.held other f r found registered).grows grows indexed

theorem consistent_empty : Consistent ⟨.empty, .empty⟩ where
  indexed := Store.indexed_empty
  closed _ _ found := nomatch found
  sorted := FiniteMap.sorted_empty
  named _ _ found := nomatch found
  held _ _ _ found := nomatch found

/-- All that a session reaches is consistent, by induction on it. -/
theorem Session.consistent {allowed : Program → FunctionTable → Prop}
    (session : Session allowed state)
    : Consistent state := by
  induction session with
  | empty => exact consistent_empty
  | reserve _ reserved ih => exact ih.reserve reserved
  | run _ parsed _ point ih =>
      obtain ⟨states, course⟩ := point.course
      have opened := ih.opening (Program.distinct_of_parse parsed)
      exact (course.stage opened known_opening _ List.mem_cons_self).1.consistent

-----------------------------------------------------------------------------------------
-- Monotonicity
-----------------------------------------------------------------------------------------

/-- If new functions take the place of older ones, a run starts with the analyzed ones. -/
theorem analyzed_opening (distinct : program.Distinct)
    (supersedes : program.Supersedes state.functions) {d : Declaration}
    (declared : d ∈ program.functions) {f : Function}
    (found : (opening program state).functions.find? d.name = some f)
    : CallGraph.Analyzed program.env program.functions state.functions d f := by
  obtain ⟨d', declared', same, analyzed⟩ :=
    analyzed_of_find? distinct ((supersedes d declared).symm.trans found)
  obtain rfl := distinct.eq_of_name declared' declared same
  exact analyzed

/-- The functions of a cluster are measured together, all through the run. -/
theorem Stage.measured_eq (stage : Stage (opening program state) next)
    (distinct : program.Distinct) (supersedes : program.Supersedes state.functions)
    {members : List Name}
    (cluster : members ∈ (Plan.ofProgram program state.functions).1.graph.clusters)
    {name other : Name} (own : name ∈ members) (its : other ∈ members) {f g : Function}
    (found : next.functions.find? name = some f) (foundOther : next.functions.find? other = some g)
    : f.measured = g.measured := by
  obtain ⟨d, declared, rfl⟩ := exists_declaration cluster own
  obtain ⟨e, declaredOther, rfl⟩ := exists_declaration cluster its
  obtain ⟨f₀, atStart, same⟩ := stage.exists_start found
  obtain ⟨g₀, otherAtStart, sameOther⟩ := stage.exists_start foundOther
  have analyzed := analyzed_opening distinct supersedes declared atStart
  have analyzedOther := analyzed_opening distinct supersedes declaredOther otherAtStart
  calc f.measured
    _ = f₀.measured := (congrArg Function.measured same :).symm
    _ = g₀.measured :=
          analyzed.measured_eq distinct.names analyzedOther declared declaredOther cluster own its
    _ = g.measured := (congrArg Function.measured sameOther :)

/-- Only measured functions have monotonicity theorems. -/
def MonosMeasured (state : RunState) : Prop :=
  ∀ name f r,
    state.functions.find? name = some f
    → f.registration = some r
    → r.mono.isSome = true
    → f.measured = true

/-- A cluster gets monotonicity theorems if one of its functions is measured, and then all are. -/
theorem Settled.monosMeasured {input middle : RunState} {compiled : List Compiled}
    (settled
      : Settled (Plan.ofProgram program state.functions).1 settings input.functions middle compiled
          next)
    (distinct : program.Distinct) (supersedes : program.Supersedes state.functions)
    (stage : Stage (opening program state) input) (before : MonosMeasured middle)
    : MonosMeasured next := by
  intro name f r found registered some
  rcases settled.of_find? found with old | ⟨pair, paired, rfl, g, foundInput, rfl⟩
  · exact before name f r old registered some
  · cases registered
    obtain ⟨_, proved⟩ := Option.isSome_iff_exists.mp some
    obtain ⟨measured, _⟩ := Option.ite_none_right_eq_some.mp proved
    obtain ⟨c, among, measured⟩ := List.any_eq_true.mp measured
    obtain ⟨h, foundOther, measured⟩ := (Option.any_eq_true _ _).mp measured
    exact (stage.measured_eq distinct supersedes settled.cluster
      (List.mem_map_of_mem (List.of_mem_zip paired).1) (List.mem_map_of_mem among) foundInput
      foundOther).trans measured

/-- In a session whose programs supersede older functions, only measured functions have monotonicity
theorems.
-/
theorem Session.monosMeasured {allowed : Program → FunctionTable → Prop}
    (session : Session allowed state)
    (supersede : ∀ program prior, allowed program prior → program.Supersedes prior)
    : MonosMeasured state := by
  induction session with
  | empty => exact fun _ _ _ found => (nomatch found)
  | reserve _ _ ih => exact ih
  | @run before next tag text program settings session parsed fits point ih =>
      have distinct := Program.distinct_of_parse parsed
      have supersedes := supersede program before.functions fits
      have consistent := session.consistent
      have opened := consistent.opening distinct
      obtain ⟨states, course⟩ := point.course
      have each := course.forall
        (P := fun s => Stage (opening program before) s ∧ MonosMeasured s)
        (R := fun a b => a.store.Grows b.store) (fun s => List.prefix_rfl) List.IsPrefix.trans
      refine (each ⟨⟨opened, List.prefix_rfl, fun _ => rfl⟩, ?_⟩ ?_ next List.mem_cons_self).1.2
      · intro name f r found registered some
        have sorted : (Plan.ofProgram program before.functions).2.Sorted :=
          FiniteMap.sorted_ofList _
        rcases sorted.find?_of_union consistent.sorted found with new | old
        · obtain ⟨d, _, _, analyzed⟩ := analyzed_of_find? distinct new
          cases analyzed.unregistered.symm.trans registered
        · exact ih name f r old registered some
      · intro input state next id fromInput fromState older result
        obtain ⟨_, _, _, _, settled⟩ := (fromInput.1.usable known_opening).settled result
        exact ⟨⟨settled.stage fromInput.1 fromState.1 older,
          settled.monosMeasured distinct supersedes fromInput.1 fromState.2⟩, settled.grows⟩

/-- Whatever is registered in a session is held by the store. If new functions always take the place
of older ones, the function has a monotonicity theorem exactly if it is measured.
-/
theorem Session.registration_held {allowed : Program → FunctionTable → Prop}
    (session : Session allowed state) {name : Name} {f : Function} {r : Registration}
    (found : state.functions.find? name = some f) (registered : f.registration = some r)
    : r.Held state.store f
      ∧ ((∀ program prior, allowed program prior → program.Supersedes prior)
        → (r.mono.isSome = true ↔ f.measured = true)) := by
  have held := session.consistent.held name f r found registered
  refine ⟨held, fun supersede => ⟨?_, held.measured⟩⟩
  exact session.monosMeasured supersede name f r found registered

end Run

-----------------------------------------------------------------------------------------
-- Functions that are declared again
-----------------------------------------------------------------------------------------

/-- Prove termination, optimize, and keep no steps. -/
def Settings.usual (constPrefix : String) : Settings := ⟨true, true, false, constPrefix⟩

/-- A call that hands nothing over. -/
def Stmt.plainCall (proc : Name) : Stmt := .call .univ proc .univ ["t", "s"] (.assign .univ)

namespace Description

/-- The functions `f`, which calls itself, and `g`, and perhaps one more. -/
def apart (more : Bool) : Description where
  file := "a"
  world := "w"
  functions :=
    [⟨"f", "x", some (.plainCall "x"), none, false⟩, ⟨"g", "y", some .skip, none, false⟩]
      ++ if more then [⟨"z", "z", none, none, false⟩] else []

/-- The functions `f` and `g` again, which call each other. -/
def joined : Description where
  file := "a"
  world := "w"
  functions :=
    [⟨"f", "x", some (.plainCall "y"), none, false⟩,
      ⟨"g", "y", some (.plainCall "x"), none, false⟩]

end Description

/-- The program of a description without duplicates. -/
def Program.of (tag : Nat) (d : Description) : Program :=
  ⟨d.file, ⟨tag, d.world, Program.bodies d.functions⟩, d.functions.map Program.declaration⟩

namespace Run

theorem parse_apart (more : Bool)
    : Program.parse 0 (Description.apart more).text = .ok (.of 0 (.apart more)) := by
  rw [Description.text, Json.render, Program.parse_ofList]
  cases more <;> decide +kernel

theorem parse_joined : Program.parse 1 Description.joined.text = .ok (.of 1 .joined) := by
  rw [Description.text, Json.render, Program.parse_ofList]
  decide +kernel

/-- A function as analyzed. If it is measured, it calls functions of its own cluster only. -/
def function (name proc : Name) (callees : List Name) (measured : Bool) : Function :=
  ⟨name, proc, ⟨callees⟩, ⟨if measured then callees else []⟩, false, measured, none, none⟩

def apartTable (more : Bool) : FunctionTable :=
  ⟨[("f", function "f" "x" ["f"] true), ("g", function "g" "y" [] false)]
      ++ if more then [("z", function "z" "z" [] false)] else []⟩

theorem ofProgram_apart (more : Bool)
    : Plan.ofProgram (.of 0 (.apart more)) .empty
      = (⟨"a", (Program.of 0 (.apart more)).env,
          ⟨[("x", "f"), ("y", "g")] ++ if more then [("z", "z")] else []⟩,
          ⟨[["f"], ["g"]] ++ if more then [["z"]] else [],
            [[], []] ++ if more then [[]] else []⟩⟩,
        apartTable more) := by
  cases more <;> cbv

/-- The state after a run of the two functions apart. -/
def apartState (more : Bool) : RunState :=
  (inTurn (.of 0 (.apart more)) (.usual "l1_") ⟨.empty, .empty⟩).2

/-- The state after a run of the two functions joined, on top of that. -/
def joinedState (more : Bool) : RunState :=
  (inTurn (.of 1 .joined) (.usual "l2_") (apartState more)).2

theorem outlines_apartState (more : Bool)
    : (apartState more).functions.mapValues Function.outline
      = (apartTable more).mapValues Function.outline := by
  rw [apartState, inTurn, ofProgram_apart]
  cases more <;> decide +kernel

theorem ofProgram_joined (more : Bool)
    : Plan.ofProgram (.of 1 .joined) (apartState more).functions
      = (⟨"a", (Program.of 1 .joined).env,
          ⟨[("x", "f"), ("y", "g")] ++ if more then [("z", "z")] else []⟩,
          ⟨[["f", "g"]], [[]]⟩⟩,
        ⟨[("f", function "f" "x" ["g"] true), ("g", function "g" "y" ["f"] true)]⟩) := by
  rw [← ofProgram_outlines, outlines_apartState]
  cases more <;> cbv

theorem session_inTurn {allowed : Program → FunctionTable → Prop} (session : Session allowed state)
    {tag : Nat} {text : String} (parsed : Program.parse tag text = .ok program)
    (fits : allowed program state.functions) (settings : Settings)
    : Session allowed (inTurn program settings state).2 :=
  session.run parsed fits (.sequential none)

/-- A function of another outline is not superseded if there are more older functions than new ones.
It is enough to know the older ones up to their outlines.
-/
theorem not_supersedes_of_outlines {prior table : FunctionTable} (sorted : prior.Sorted)
    (outlines : prior.mapValues Function.outline = table.mapValues Function.outline)
    (more : (Plan.ofProgram program prior).2.size < table.size) {d : Declaration}
    (declared : d ∈ program.functions)
    (known : table.contains d.name = true)
    (differs
      : ((Plan.ofProgram program prior).2.find? d.name).map Function.outline
        ≠ (table.find? d.name).map Function.outline)
    : ¬ program.Supersedes prior := by
  have size : prior.size = table.size := by
    have same := congrArg FiniteMap.size outlines
    simpa only [FiniteMap.size, FiniteMap.mapValues, List.length_map] using same
  have shapes : (prior.find? d.name).map Function.outline
      = (table.find? d.name).map Function.outline := by
    rw [← FiniteMap.find?_mapValues, outlines, FiniteMap.find?_mapValues]
  obtain ⟨g, bound⟩ := Option.isSome_iff_exists.mp known
  obtain ⟨f, old, _⟩ := Option.map_eq_some_iff.mp (shapes.trans (congrArg _ bound))
  refine Program.not_supersedes sorted (size ▸ more) declared old fun new => differs ?_
  rw [new, ← shapes, old]

/-- The second run works on the new functions, unless there are more older ones. -/
theorem find?_joinedState (more : Bool)
    : ∃ f r,
        (joinedState more).functions.find? "g" = some f
        ∧ f.registration = some r
        ∧ r.mono.isSome = true
        ∧ f.measured = !more := by
  have seen : ((joinedState more).functions.find? "g").map
        (fun f => (f.measured, (f.registration.bind (·.mono)).isSome))
      = some (!more, true) := by
    rw [joinedState, inTurn, ofProgram_joined, apartState, inTurn, ofProgram_apart]
    cases more <;> decide +kernel
  obtain ⟨f, found, same⟩ := Option.map_eq_some_iff.mp seen
  obtain ⟨measured, proved⟩ := Prod.mk.inj same
  obtain ⟨thm, proved⟩ := Option.isSome_iff_exists.mp proved
  obtain ⟨r, registered, mono⟩ := Option.bind_eq_some_iff.mp proved
  exact ⟨f, r, found, registered, by rw [mono]; rfl, measured⟩

/-- With as many new functions as older ones, `g` is measured now, and has its theorem. -/
theorem registration_held_joined
    : ∃ f r,
        Session Program.Supersedes (joinedState false)
        ∧ (joinedState false).functions.find? "g" = some f
        ∧ f.registration = some r
        ∧ r.Held (joinedState false).store f
        ∧ (r.mono.isSome = true ↔ f.measured = true)
        ∧ f.measured = true := by
  have fewer : (apartState false).functions.size
      ≤ (Plan.ofProgram (.of 1 .joined) (apartState false).functions).2.size := by
    have size := congrArg FiniteMap.size (outlines_apartState false)
    simp only [FiniteMap.size, FiniteMap.mapValues, List.length_map] at size
    rw [ofProgram_joined, FiniteMap.size, FiniteMap.size, size]
    decide
  have first : Session Program.Supersedes (apartState false) :=
    session_inTurn .empty (parse_apart false) (Program.supersedes_empty _) _
  have session : Session Program.Supersedes (joinedState false) :=
    session_inTurn first parse_joined
      ((Program.supersedes_iff first.consistent.sorted).mpr (.inl fewer)) _
  obtain ⟨f, r, found, registered, _, measured⟩ := find?_joinedState false
  obtain ⟨held, exact⟩ := session.registration_held found registered
  exact ⟨f, r, session, found, registered, held, exact fun _ _ fits => fits, measured⟩

/-- With one older function more, the second run still takes `g` for what it was. The cluster of `f`
and `g` is proved monotone, and so `g` gets a monotonicity theorem although it is not measured.
-/
theorem mono_joined_unmeasured
    : Session (fun _ _ => True) (joinedState true)
      ∧ ¬ (Program.of 1 .joined).Supersedes (apartState true).functions
      ∧ ∃ f r,
          (joinedState true).functions.find? "g" = some f
          ∧ f.registration = some r
          ∧ r.mono.isSome = true
          ∧ f.measured = false := by
  have first : Session (fun _ _ => True) (apartState true) :=
    session_inTurn .empty (parse_apart true) trivial _
  refine ⟨session_inTurn first parse_joined trivial _, ?_, find?_joinedState true⟩
  have declared : ⟨"g", "y", none, false⟩ ∈ (Program.of 1 .joined).functions := by
    simp [Program.of, Description.joined, Program.declaration]
  refine not_supersedes_of_outlines first.consistent.sorted (outlines_apartState true) ?_ declared
    rfl ?_
  · rw [ofProgram_joined]
    exact Nat.lt_succ_self 2
  · rw [ofProgram_joined]
    decide

end Run

end Monadize
