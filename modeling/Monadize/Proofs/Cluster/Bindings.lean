import Monadize.Proofs.Cluster.Closing
import Monadize.Proofs.Compile.Function
import Monadize.Run.Cluster

/-! Closing a compiled cluster. It succeeds exactly if the recursive calls stay in the cluster and
the other callees have theorems that fit the scope. Each function is then defined by its term, with
the constants of its callees.
-/

namespace Monadize

/-- The term of a compiled function. -/
def Compiled.term (c : Compiled) : Term := c.thm.term?.getD .fail

/-- The theorem of the function assumes something of the callee with this entry. -/
def Compiled.Assumes (c : Compiled) (entry : CalleeEntry) : Prop :=
  ∃ p ∈ c.thm.hyps.keys, c.callees.entries[p]? = some entry

namespace Scope.Builds

variable {scope : Scope} {f : Function} {c : Compiled} {term : Term} (built : scope.Builds f c term)

include built

theorem term_eq : c.term = term := by
  simp only [Compiled.term, Theorem.term?, built.judgement, Option.getD_some]

theorem proc_eq : c.thm.proc = f.proc := Theorem.proc_eq built.judgement

/-- Every hypothesis is the one on an entry that the function assumes. -/
theorem exists_entry {p : PlaceholderId} {hyp : Hyp} (assumed : (p, hyp) ∈ c.thm.hyps.entries)
    : ∃ entry, c.callees.entries[p]? = some entry ∧ hyp = entry.hyp ∧ c.Assumes entry := by
  obtain ⟨entry, present, rfl⟩ := built.hyps p hyp assumed
  rw [← built.callees] at present
  exact ⟨entry, present, rfl, p, List.mem_map_of_mem assumed, present⟩

/-- An entry that is assumed is one of the function's table. -/
theorem mem_calleeTable {entry : CalleeEntry} (assumed : c.Assumes entry)
    : entry ∈ (scope.calleeTable f).entries := by
  obtain ⟨p, _, present⟩ := assumed
  exact built.callees ▸ List.mem_of_getElem? present

/-- A measured function that assumes anything is guarded. -/
theorem isRecGuard_of_assumes {entry : CalleeEntry} (assumed : c.Assumes entry)
    (measured : f.measured = true)
    : Member.isRecGuard c.term = true := by
  rw [built.term_eq]
  obtain ⟨p, hypothesis, _⟩ := assumed
  obtain ⟨_, listed, _⟩ := List.mem_map.mp hypothesis
  exact built.guarded (List.ne_nil_of_mem listed) measured

end Scope.Builds

namespace Cluster

/-- The constant that takes the place of a callee. -/
def constOf? (functions : FunctionTable) (siblings : FiniteMap Name ConstId) (entry : CalleeEntry)
    : Option ConstId :=
  (binding? functions siblings entry).map (·.2)

/-- The functions are compiled in the scope, and those that the scope has registered have theorems
about their own constants and procedures.
-/
structure Built (scope : Scope) (compiled : List Compiled) : Prop where
  builds
    : ∀ c ∈ compiled, ∃ f term, scope.functions.find? c.name = some f ∧ scope.Builds f c term
  about
    : ∀ name g r,
        scope.functions.find? name = some g
        → g.registration = some r
        → ∃ total env, r.thm = ⟨total, env, .fnCorres r.const g.proc, .empty, none⟩

/-- What the function assumes can be discharged: recursive callees are among the given functions,
and then it is guarded, and any other callee is registered in the same environment and with the
same termination flag.
-/
structure Dischargeable (scope : Scope) (names : List Name) (c : Compiled) : Prop where
  recursive
    : ∀ entry,
        c.Assumes entry
        → entry.recursive = true
        → entry.func ∈ names ∧ Member.isRecGuard c.term = true
  external
    : ∀ entry,
        c.Assumes entry
        → entry.recursive = false
        → ∀ g r,
            scope.functions.find? entry.func = some g
            → g.registration = some r
            → r.thm.total = scope.total ∧ r.thm.env = scope.env

-----------------------------------------------------------------------------------------
-- Bindings
-----------------------------------------------------------------------------------------

section Bindings

variable {functions : FunctionTable} {siblings : FiniteMap Name ConstId} {entry : CalleeEntry}
  {c : Compiled} {p : PlaceholderId}

/-- A recursive callee is bound to a constant of the cluster, and any other one to the constant it
is registered as.
-/
theorem binding?_eq_some_iff {binding : Binding} {k : ConstId}
    : binding? functions siblings entry = some (binding, k)
      ↔ (entry.recursive = true
          ∧ siblings.find? entry.func = some k
          ∧ binding = .sibling k)
        ∨ (entry.recursive = false
          ∧ ∃ g r,
              functions.find? entry.func = some g
              ∧ g.registration = some r
              ∧ binding = .defined r.thm
              ∧ k = r.const) := by
  cases recursive : entry.recursive with
  | true =>
      simp only [binding?, recursive, if_true, Option.map_eq_some_iff, Prod.mk.injEq, true_and,
        Bool.true_eq_false, false_and, or_false]
      constructor
      · rintro ⟨_, found, rfl, rfl⟩
        exact ⟨found, rfl⟩
      · rintro ⟨found, rfl⟩
        exact ⟨k, found, rfl, rfl⟩
  | false =>
      simp only [binding?, recursive, Bool.false_eq_true, if_false, Option.bind_eq_bind,
        Option.bind_eq_some_iff, false_and, true_and, false_or]
      constructor
      · rintro ⟨r, ⟨g, found, registered⟩, same⟩
        cases same
        exact ⟨g, r, found, registered, rfl, rfl⟩
      · rintro ⟨g, r, found, registered, rfl, rfl⟩
        exact ⟨r, ⟨g, found, registered⟩, rfl⟩

theorem constOf?_eq_some_iff {k : ConstId}
    : constOf? functions siblings entry = some k
      ↔ (entry.recursive = true ∧ siblings.find? entry.func = some k)
        ∨ (entry.recursive = false
          ∧ ∃ g r,
              functions.find? entry.func = some g ∧ g.registration = some r ∧ k = r.const) := by
  simp only [constOf?, Option.map_eq_some_iff, Prod.exists, exists_eq_right, binding?_eq_some_iff]
  constructor
  · rintro ⟨_, ⟨recursive, sibling, _⟩ | ⟨external, g, r, found, registered, _, same⟩⟩
    · exact .inl ⟨recursive, sibling⟩
    · exact .inr ⟨external, g, r, found, registered, same⟩
  · rintro (⟨recursive, sibling⟩ | ⟨external, g, r, found, registered, same⟩)
    · exact ⟨_, .inl ⟨recursive, sibling, rfl⟩⟩
    · exact ⟨_, .inr ⟨external, g, r, found, registered, rfl, same⟩⟩

theorem mem_bindings {binding : Binding} {k : ConstId}
    : (p, entry, binding, k) ∈ bindings functions siblings c
      ↔ p ∈ c.thm.hyps.keys
        ∧ c.callees.entries[p]? = some entry
        ∧ binding? functions siblings entry = some (binding, k) := by
  simp only [bindings, List.mem_filterMap, Option.bind_eq_bind, Option.bind_eq_some_iff]
  constructor
  · intro h
    obtain ⟨q, assumed, other, present, ⟨b, j⟩, bound, same⟩ := h
    cases same
    exact ⟨assumed, present, bound⟩
  · intro h
    obtain ⟨assumed, present, bound⟩ := h
    exact ⟨p, assumed, entry, present, (binding, k), bound, rfl⟩

/-- A callee that the function assumes is bound as its entry says. -/
theorem find?_bindings {binding : Binding} (k : ConstId)
    (present : c.callees.entries[p]? = some entry)
    : (member functions siblings c k).bindings.find? p = some binding
      ↔ p ∈ c.thm.hyps.keys
        ∧ ∃ target, binding? functions siblings entry = some (binding, target) := by
  have functional : FiniteMap.Functional
      ((bindings functions siblings c).map fun bound => (bound.1, bound.2.2.1)) := by
    intro q b b' first second
    obtain ⟨⟨_, e, _, j⟩, listed, same⟩ := List.mem_map.mp first
    obtain ⟨⟨_, e', _, j'⟩, listed', same'⟩ := List.mem_map.mp second
    cases same
    cases same'
    obtain ⟨_, presentFirst, boundFirst⟩ := mem_bindings.mp listed
    obtain ⟨_, presentSecond, boundSecond⟩ := mem_bindings.mp listed'
    cases presentFirst.symm.trans presentSecond
    cases boundFirst.symm.trans boundSecond
    rfl
  refine (FiniteMap.find?_ofList_eq_some_iff functional).trans ?_
  constructor
  · intro listed
    obtain ⟨⟨_, e, _, target⟩, among, same⟩ := List.mem_map.mp listed
    cases same
    obtain ⟨assumed, presentToo, bound⟩ := mem_bindings.mp among
    cases present.symm.trans presentToo
    exact ⟨assumed, target, bound⟩
  · rintro ⟨assumed, target, bound⟩
    exact List.mem_map.mpr ⟨(p, entry, binding, target), mem_bindings.mpr ⟨assumed, present, bound⟩,
      rfl⟩

end Bindings

-----------------------------------------------------------------------------------------
-- Closing
-----------------------------------------------------------------------------------------

/-- The constants of the functions of a cluster. -/
def siblings (compiled : List Compiled) (ks : List ConstId) : FiniteMap Name ConstId :=
  .ofList ((compiled.map (·.name)).zip ks)

/-- The functions of a cluster as the kernel gets them. -/
def members (functions : FunctionTable) (compiled : List Compiled) (ks : List ConstId)
    : List Member :=
  (compiled.zip ks).map fun pair => member functions (siblings compiled ks) pair.1 pair.2

section Closing

variable {scope : Scope} {compiled : List Compiled} {ks : List ConstId}

theorem find?_siblings (distinct : (compiled.map (·.name)).Nodup)
    (same : ks.length = compiled.length) {name : Name} {k : ConstId}
    : (siblings compiled ks).find? name = some k
      ↔ ∃ c, (c, k) ∈ compiled.zip ks ∧ c.name = name := by
  have keys : (((compiled.map (·.name)).zip ks).map Prod.fst).Nodup := by
    rw [List.map_fst_zip (by simp [same])]
    exact distinct
  refine (FiniteMap.find?_ofList_eq_some_iff (FiniteMap.functional_of_nodup keys)).trans ?_
  rw [List.zip_map_left, List.mem_map]
  constructor
  · rintro ⟨⟨c, j⟩, paired, same⟩
    cases same
    exact ⟨c, paired, rfl⟩
  · rintro ⟨c, paired, rfl⟩
    exact ⟨(c, k), paired, rfl⟩

/-- Every function of the cluster has a constant. -/
theorem exists_paired (same : ks.length = compiled.length) {c : Compiled} (among : c ∈ compiled)
    : ∃ k, (c, k) ∈ compiled.zip ks := by
  obtain ⟨i, here⟩ := List.mem_iff_getElem?.mp among
  have inside : i < ks.length := same ▸ (List.getElem?_eq_some_iff.mp here).1
  exact ⟨ks[i], List.mem_of_getElem? (List.getElem?_zip_eq_some.mpr
    ⟨here, List.getElem?_eq_getElem inside⟩)⟩

/-- The procedure of a constant is the one that its function is compiled for. -/
theorem find?_procs (functions : FunctionTable) (total : Bool) (env : Environment)
    (once : ks.Nodup) (same : ks.length = compiled.length) {c : Compiled}
    {k : ConstId} (paired : (c, k) ∈ compiled.zip ks)
    : (Member.contextOf (members functions compiled ks) total env).procs.find? k
      = some c.thm.proc := by
  have keys
      : (((members functions compiled ks).map fun m => (m.const, m.proc)).map Prod.fst).Nodup := by
    have consts : ((members functions compiled ks).map fun m => (m.const, m.proc)).map Prod.fst
        = (compiled.zip ks).map Prod.snd := by
      simp only [members, List.map_map]
      rfl
    rw [consts, List.map_snd_zip (by simp [same])]
    exact once
  refine (FiniteMap.find?_ofList_eq_some_iff (FiniteMap.functional_of_nodup keys)).mpr ?_
  refine List.mem_map.mpr ⟨_, List.mem_map.mpr ⟨(c, k), paired, rfl⟩, rfl⟩

theorem Built.builds_of_find? (built : Built scope compiled) {c : Compiled} (among : c ∈ compiled)
    {f : Function} (found : scope.functions.find? c.name = some f)
    : ∃ term, scope.Builds f c term := by
  obtain ⟨f', term, foundToo, builds⟩ := built.builds c among
  cases found.symm.trans foundToo
  exact ⟨term, builds⟩

variable (built : Built scope compiled) (distinct : (compiled.map (·.name)).Nodup)
  (once : ks.Nodup) (same : ks.length = compiled.length) {c : Compiled} {k : ConstId}
  (paired : (c, k) ∈ compiled.zip ks) {p : PlaceholderId} {entry : CalleeEntry}

include built in
/-- A constant that discharges the hypothesis on a callee is the one that takes its place. -/
theorem Built.constOf?_of_discharges {ctx : Member.Context} {siblings : FiniteMap Name ConstId}
    (present : c.callees.entries[p]? = some entry) {hyp : Hyp} {target : ConstId}
    (discharges : (member scope.functions siblings c k).Discharges ctx p hyp target)
    : constOf? scope.functions siblings entry = some target := by
  obtain ⟨binding, found, discharged⟩ := discharges
  obtain ⟨_, j, bound⟩ := (find?_bindings k present).mp found
  rw [constOf?, bound, Option.map_some]
  rcases binding?_eq_some_iff.mp bound with
    ⟨_, _, rfl⟩ | ⟨_, g, r, foundCallee, registered, rfl, rfl⟩
  · rw [(Member.discharge_sibling_eq_ok_iff.mp discharged).1]
  · obtain ⟨_, _, thm⟩ := built.about entry.func g r foundCallee registered
    have judged := (Member.discharge_defined_eq_ok_iff.mp discharged).1
    rw [thm] at judged
    rw [(Judgement.fnCorres.inj judged).1]

include built distinct once same paired

/-- A callee that can be discharged has a constant that does it. -/
theorem Built.exists_discharges (dischargeable : Dischargeable scope (compiled.map (·.name)) c)
    (assumed : p ∈ c.thm.hyps.keys) (present : c.callees.entries[p]? = some entry)
    : ∃ target,
        (member scope.functions (siblings compiled ks) c k).Discharges
          (Member.contextOf (members scope.functions compiled ks) scope.total scope.env) p entry.hyp
          target := by
  obtain ⟨f, term, found, builds⟩ := built.builds c (List.of_mem_zip paired).1
  have used : c.Assumes entry := ⟨p, assumed, present⟩
  obtain ⟨g, called, foundCallee, kept, shape⟩ :=
    Scope.mem_calleeTable.mp (builds.mem_calleeTable used)
  have procs : entry.proc = g.proc := congrArg CalleeEntry.proc shape
  cases recursive : entry.recursive with
  | true =>
      -- the callee is compiled as well, under a constant that the context knows
      obtain ⟨c', among, named⟩ := List.mem_map.mp (dischargeable.recursive entry used recursive).1
      obtain ⟨j, pairedCallee⟩ := exists_paired same among
      obtain ⟨term', builds'⟩ := built.builds_of_find? among (named ▸ foundCallee)
      have sibling := (find?_siblings distinct same).mpr ⟨c', pairedCallee, named⟩
      have bound : binding? scope.functions (siblings compiled ks) entry = some (.sibling j, j) :=
        binding?_eq_some_iff.mpr (.inl ⟨recursive, sibling, rfl⟩)
      refine ⟨j, .sibling j, (find?_bindings k present).mpr ⟨assumed, j, bound⟩, ?_⟩
      refine Member.discharge_sibling_eq_ok_iff.mpr ⟨rfl, recursive, ?_⟩
      rw [find?_procs _ _ _ once same pairedCallee, builds'.proc_eq, CalleeEntry.hyp, procs]
  | false =>
      have outside : entry.func ∉ f.recCallees.elems :=
        mt (Scope.recursive_iff (builds.mem_calleeTable used)).mpr (by simp [recursive])
      obtain ⟨r, registered⟩ := Option.isSome_iff_exists.mp (kept.resolve_left outside)
      obtain ⟨total, env, thm⟩ := built.about entry.func g r foundCallee registered
      obtain ⟨sameTotal, sameEnv⟩ :=
        dischargeable.external entry used recursive g r foundCallee registered
      have bound : binding? scope.functions (siblings compiled ks) entry
          = some (.defined r.thm, r.const) :=
        binding?_eq_some_iff.mpr (.inr ⟨recursive, g, r, foundCallee, registered, rfl, rfl⟩)
      refine ⟨r.const, .defined r.thm, (find?_bindings k present).mpr ⟨assumed, r.const, bound⟩, ?_⟩
      refine Member.discharge_defined_eq_ok_iff.mpr ⟨?_, recursive, ?_, sameTotal, sameEnv⟩
      · rw [thm, CalleeEntry.hyp, procs]
      · rw [thm]
        rfl

omit once in
/-- If the hypotheses of a function are discharged, they can be. -/
theorem Built.dischargeable {row : (ConstId × Term) × Theorem}
    (closed
      : Member.close (Member.contextOf (members scope.functions compiled ks) scope.total scope.env)
          (member scope.functions (siblings compiled ks) c k)
        = .ok row)
    : Dischargeable scope (compiled.map (·.name)) c := by
  obtain ⟨f, term, found, builds⟩ := built.builds c (List.of_mem_zip paired).1
  obtain ⟨term', consts, judged, discharged, guarded, _, _⟩ := Member.close_eq_ok_iff.mp closed
  obtain rfl : c.term = term' := by
    simp only [Compiled.term, Theorem.term?, show c.thm.judgement = _ from judged, Option.getD_some]
  -- the hypothesis on an entry, and how it is discharged
  have bound {entry : CalleeEntry} (used : c.Assumes entry)
      : entry.hyp ∈ c.thm.hyps.values
        ∧ ∃ binding target,
            binding? scope.functions (siblings compiled ks) entry = some (binding, target)
            ∧ ∃ result,
                Member.discharge
                    (Member.contextOf (members scope.functions compiled ks) scope.total scope.env)
                    (member scope.functions (siblings compiled ks) c k).proc entry.hyp binding
                  = .ok result := by
    obtain ⟨p, assumed, present⟩ := used
    obtain ⟨⟨_, hyp⟩, listed, rfl⟩ := List.mem_map.mp assumed
    obtain ⟨entry', presentToo, rfl, _⟩ := builds.exists_entry listed
    cases present.symm.trans presentToo
    obtain ⟨const, _, _, binding, foundBinding, discharges⟩ := exists_right_of_mem discharged listed
    obtain ⟨_, target, boundTo⟩ := (find?_bindings k present).mp foundBinding
    exact ⟨List.mem_map_of_mem listed, binding, target, boundTo, _, discharges⟩
  constructor
  · intro entry used recursive
    obtain ⟨hyp, binding, target, boundTo, result, _⟩ := bound used
    refine ⟨?_, guarded entry.hyp hyp recursive⟩
    rcases binding?_eq_some_iff.mp boundTo with ⟨_, sibling, _⟩ | ⟨external, _⟩
    · obtain ⟨c', pairedCallee, named⟩ := (find?_siblings distinct same).mp sibling
      exact named ▸ List.mem_map_of_mem (List.of_mem_zip pairedCallee).1
    · cases recursive.symm.trans external
  · intro entry used external g r foundCallee registered
    obtain ⟨hyp, binding, target, boundTo, result, discharges⟩ := bound used
    rcases binding?_eq_some_iff.mp boundTo with
      ⟨recursive, _⟩ | ⟨_, g', r', foundToo, registeredToo, rfl, _⟩
    · cases recursive.symm.trans external
    · cases foundCallee.symm.trans foundToo
      cases registered.symm.trans registeredToo
      exact (Member.discharge_defined_eq_ok_iff.mp discharges).2.2.2

/-- The definition and the theorem of a function that is closed. -/
def row (scope : Scope) (consts : CalleeEntry → Option ConstId) (pair : Compiled × ConstId)
    : (ConstId × Term) × Theorem :=
  ((pair.2, pair.1.term.instantiate fun p => (pair.1.callees.entries[p]?).bind consts),
    ⟨scope.total, scope.env, .fnCorres pair.2 pair.1.thm.proc, .empty, none⟩)

/-- A function is closed if its callees can be discharged, with the constants that take their
place.
-/
theorem Built.close_eq_ok_iff {result : (ConstId × Term) × Theorem}
    : Member.close (Member.contextOf (members scope.functions compiled ks) scope.total scope.env)
          (member scope.functions (siblings compiled ks) c k)
        = .ok result
      ↔ Dischargeable scope (compiled.map (·.name)) c
        ∧ result = row scope (constOf? scope.functions (siblings compiled ks)) (c, k) := by
  obtain ⟨f, term, found, builds⟩ := built.builds c (List.of_mem_zip paired).1
  have shape {result : (ConstId × Term) × Theorem}
      (closed
        : Member.close
            (Member.contextOf (members scope.functions compiled ks) scope.total scope.env)
            (member scope.functions (siblings compiled ks) c k)
          = .ok result)
      : result = row scope (constOf? scope.functions (siblings compiled ks)) (c, k) := by
    obtain ⟨term', consts, judged, discharged, _, _, rfl⟩ := Member.close_eq_ok_iff.mp closed
    obtain ⟨rfl, _⟩ := Judgement.callCorres.inj (builds.judgement.symm.trans judged)
    have replaced : term.instantiate (FiniteMap.ofList consts).find?
        = c.term.instantiate fun p =>
            (c.callees.entries[p]?).bind (constOf? scope.functions (siblings compiled ks)) := by
      rw [builds.term_eq]
      refine Term.mapParts_congr ?_ id
      rintro ⟨_, measure⟩ among
      obtain ⟨p, hyp, rfl, known, _⟩ := builds.placed _ among
      have listed := FiniteMap.mem_entries_of_find? known
      obtain ⟨target, const⟩ := Member.exists_find?_consts discharged listed
      obtain ⟨_, _, discharges⟩ := Member.discharges_of_find?_consts discharged const
      obtain ⟨entry, present, _⟩ := builds.exists_entry listed
      simp only [Callee.instantiate, const, present, Option.bind_some,
        built.constOf?_of_discharges present discharges]
    rw [replaced]
    rfl
  constructor
  · intro closed
    exact ⟨built.dischargeable distinct same paired closed, shape closed⟩
  · rintro ⟨dischargeable, rfl⟩
    have closable : (member scope.functions (siblings compiled ks) c k).Closable
        (Member.contextOf (members scope.functions compiled ks) scope.total scope.env) term := by
      refine ⟨?_, ?_, ?_, ?_⟩
      · exact builds.judgement.trans (builds.proc_eq ▸ rfl)
      · intro p hyp listed
        obtain ⟨entry, present, rfl, _⟩ := builds.exists_entry listed
        exact built.exists_discharges distinct once same paired dischargeable
          (List.mem_map_of_mem listed) present
      · intro hyp assumed recursive
        obtain ⟨⟨p, _⟩, listed, rfl⟩ := List.mem_map.mp assumed
        obtain ⟨entry, present, same, used⟩ := builds.exists_entry listed
        rw [same] at recursive
        exact builds.term_eq ▸ (dischargeable.recursive entry used recursive).2
      · intro callee among
        obtain ⟨p, hyp, target, known, _⟩ := builds.placed callee among
        exact ⟨p, hyp, target, known⟩
    obtain ⟨body, closed, _⟩ := closable.close_eq_ok
    rw [closed, shape closed]

/-- A callee of the defined function is the constant of an entry that is assumed, a recursive one if
it is passed the decremented measure.
-/
theorem Built.exists_callee (dischargeable : Dischargeable scope (compiled.map (·.name)) c)
    {callee : Callee}
    (called
      : callee
        ∈ (row scope (constOf? scope.functions (siblings compiled ks)) (c, k)).1.2.callees)
    : ∃ p entry target,
        c.callees.entries[p]? = some entry
        ∧ c.Assumes entry
        ∧ ⟨.placeholder p, callee.measure⟩ ∈ c.term.callees
        ∧ constOf? scope.functions (siblings compiled ks) entry = some target
        ∧ callee.target = .const target
        ∧ ∀ m, callee.measure = .pred m → entry.recursive = true := by
  obtain ⟨f, term, found, builds⟩ := built.builds c (List.of_mem_zip paired).1
  rw [row, Term.callees_instantiate] at called
  obtain ⟨⟨_, measure⟩, original, rfl⟩ := List.mem_map.mp called
  obtain ⟨p, hyp, rfl, known, recursive⟩ := builds.placed _ (builds.term_eq ▸ original)
  have listed := FiniteMap.mem_entries_of_find? known
  obtain ⟨entry, present, rfl, used⟩ := builds.exists_entry listed
  obtain ⟨target, discharges⟩ := built.exists_discharges distinct once same paired dischargeable
    (List.mem_map_of_mem listed) present
  have const := built.constOf?_of_discharges present discharges
  simp only [Callee.instantiate, present, Option.bind_some, const]
  exact ⟨p, entry, target, present, used, original, const, rfl, recursive⟩

omit paired in
/-- A compiled cluster is closed if all that its functions assume can be discharged. -/
theorem Built.closeCluster_eq_ok_iff {closed : ClosedCluster}
    : closeCluster (members scope.functions compiled ks) = .ok closed
      ↔ compiled ≠ []
        ∧ (∀ c ∈ compiled, Dischargeable scope (compiled.map (·.name)) c)
        ∧ closed
          = ⟨(compiled.zip ks).map fun pair =>
                (row scope (constOf? scope.functions (siblings compiled ks)) pair).1,
              (compiled.zip ks).map fun pair =>
                (row scope (constOf? scope.functions (siblings compiled ks)) pair).2⟩ := by
  have agree : ∀ m ∈ members scope.functions compiled ks, m.Agrees scope.total scope.env := by
    intro m among
    obtain ⟨⟨c, k⟩, paired, rfl⟩ := List.mem_map.mp among
    obtain ⟨f, term, _, builds⟩ := built.builds c (List.of_mem_zip paired).1
    exact ⟨⟨term, builds.judgement.trans (builds.proc_eq ▸ rfl)⟩, builds.total, builds.env⟩
  have nonempty : members scope.functions compiled ks ≠ [] ↔ compiled ≠ [] := by
    rw [← List.length_pos_iff, ← List.length_pos_iff]
    simp [members, same]
  rw [Monadize.closeCluster_eq_ok_iff]
  constructor
  · rintro ⟨total, env, rows, some, agreeToo, related, rfl⟩
    obtain ⟨m, among⟩ := List.exists_mem_of_ne_nil _ some
    obtain ⟨_, rfl, rfl⟩ := agreeToo m among
    obtain ⟨_, total, env⟩ := agree m among
    rw [total, env] at related
    have each := (related_with_mem (List.forall₂_map_left_iff.mp related)).imp
      fun pair row h => (built.close_eq_ok_iff distinct once same h.1).mp h.2
    refine ⟨nonempty.mp some, ?_, ?_⟩
    · intro c amongCompiled
      obtain ⟨k, paired⟩ := exists_paired same amongCompiled
      obtain ⟨_, _, dischargeable, _⟩ := exists_right_of_mem each paired
      exact dischargeable
    · rw [eq_map_of_related (List.Forall₂.flip (each.imp fun _ _ h => h.2)), List.map_map,
        List.map_map]
      rfl
  · rintro ⟨some, dischargeable, rfl⟩
    refine ⟨scope.total, scope.env, (compiled.zip ks).map
      (row scope (constOf? scope.functions (siblings compiled ks))), nonempty.mpr some, agree,
      ?_, ?_⟩
    · refine List.forall₂_map_left_iff.mpr (List.forall₂_map_right_iff.mpr ?_)
      refine List.forall₂_same.mpr fun pair paired => ?_
      exact (built.close_eq_ok_iff distinct once same paired).mpr
        ⟨dischargeable pair.1 (List.of_mem_zip paired).1, rfl⟩
    · rw [List.map_map, List.map_map]
      rfl

end Closing

end Cluster

end Monadize
