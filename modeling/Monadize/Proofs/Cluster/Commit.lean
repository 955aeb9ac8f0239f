import Monadize.Proofs.Cluster.Bindings
import Monadize.Proofs.Program
import Monadize.Proofs.Store

/-! Registering a compiled cluster. It succeeds exactly if the names of its constants are free and
it can be closed. What is registered follows from the compiled functions and the constants of their
callees.
-/

namespace Monadize

/-- What a registration puts in the store. -/
def Registration.definition (r : Registration) : Definition :=
  ⟨r.constName, some r.term, some r.thm⟩

namespace Cluster

/-- What is registered of a compiled function as the constant `k`, where `consts` gives the
constants of its callees.
-/
def registration (settings : Settings) (env : Environment) (measured : Bool)
    (consts : CalleeEntry → Option ConstId) (c : Compiled) (k : ConstId)
    : Registration where
  const := k
  constName := settings.constName c.name
  term := c.term.instantiate fun p => (c.callees.entries[p]?).bind consts
  thm := ⟨settings.total, env, .fnCorres k c.thm.proc, .empty, none⟩
  mono := if measured then some ⟨settings.total, env, .mono k, .empty, none⟩ else none
  calleeConsts := .ofList (c.thm.hyps.keys.filterMap fun p =>
    (c.callees.entries[p]?).bind fun entry => (consts entry).map fun k => (entry.func, k))
  warnings := c.warnings
  traces := c.traces

/-- The constants that a compiled function is registered with are those of the callees it assumes.
-/
theorem calleeConsts_eq {functions : FunctionTable} {siblings : FiniteMap Name ConstId}
    {c : Compiled}
    : calleeConsts functions siblings c
      = .ofList (c.thm.hyps.keys.filterMap fun p =>
          (c.callees.entries[p]?).bind fun entry =>
            (constOf? functions siblings entry).map fun k => (entry.func, k)) := by
  rw [calleeConsts, bindings, List.map_filterMap]
  congr 1
  refine List.filterMap_congr fun p _ => ?_
  cases c.callees.entries[p]? with
  | none => rfl
  | some entry =>
      unfold constOf?
      cases bound : binding? functions siblings entry with
      | none => simp [bound]
      | some pair => simp [bound]

-----------------------------------------------------------------------------------------
-- Monotonicity
-----------------------------------------------------------------------------------------

/-- The constants of a cluster are found monotone if their recursive calls stay in it. -/
theorem monos_eq_ok {store : Store} {ks : List ConstId}
    (defined
      : ∀ k ∈ ks,
          ∃ body,
            (store.get? k).bind (·.body) = some body
            ∧ ∀ callee ∈ body.callees, callee.StaysIn ks)
    (measured : Bool) {thms : List Theorem} (some : thms ≠ []) {total : Bool} {env : Environment}
    (agree : ∀ thm ∈ thms, thm.total = total ∧ thm.env = env)
    : monos store measured ks thms
      = .ok (ks.map fun k =>
          if measured then Option.some ⟨total, env, .mono k, .empty, none⟩ else none) := by
  unfold monos
  split
  · next thm rest =>
      obtain ⟨rfl, rfl⟩ := agree thm List.mem_cons_self
      simp only [bind_eq_ok_iff, monoCluster_eq_ok_iff]
      refine ⟨_, ⟨defined, rfl⟩, _, rfl, ?_⟩
      simp only [List.map_map, if_true]
      rfl
  · next unmeasured =>
      cases measured with
      | false => rfl
      | true =>
          cases thms with
          | nil => exact absurd rfl some
          | cons thm rest => exact absurd rfl (unmeasured thm rest rfl)

-----------------------------------------------------------------------------------------
-- Registration
-----------------------------------------------------------------------------------------

/-- The parts of a cluster are put together function by function. -/
theorem parts_map {α : Type} (items : List α) (c : α → Compiled) (d : α → ConstId × Term)
    (thm : α → Theorem) (mono : α → Option Theorem) (consts : α → FiniteMap Name ConstId)
    : parts (items.map c) (items.map d) (items.map thm) (items.map mono) (items.map consts)
      = items.map fun item =>
          ⟨c item, (d item).1, (d item).2, thm item, mono item, consts item⟩ := by
  induction items with
  | nil => rfl
  | cons item rest ih => simp only [List.map_cons, parts, ih]

theorem registered_eq_ok_iff {settings : Settings} {functions : FunctionTable} {part : Parts}
    {f' : Function}
    : registered settings functions part = .ok f'
      ↔ ∃ f,
          functions.find? part.compiled.name = some f
          ∧ f'
            = { f with
                recCallees := part.compiled.recCallees
                registration := some ⟨part.const, settings.constName part.compiled.name, part.term,
                  part.thm, part.mono, part.calleeConsts, part.compiled.warnings,
                  part.compiled.traces⟩ } := by
  unfold registered
  split
  · next missing => simp [missing]
  · next f found => simp [found, eq_comm]

/-- The functions of a cluster with the constants they get. -/
def numbered (store : Store) (compiled : List Compiled) : List (Compiled × ConstId) :=
  compiled.zip (List.range' store.size compiled.length)

/-- The constants of the callees of a cluster. -/
def calleeConst? (functions : FunctionTable) (store : Store) (compiled : List Compiled)
    : CalleeEntry → Option ConstId :=
  constOf? functions (siblings compiled (List.range' store.size compiled.length))

/-- What is registered of a function of the cluster. -/
def registrationOf (plan : Plan) (settings : Settings) (functions : FunctionTable) (store : Store)
    (compiled : List Compiled) (pair : Compiled × ConstId)
    : Registration :=
  registration settings plan.env (isMeasured functions compiled)
    (calleeConst? functions store compiled) pair.1 pair.2

/-- The names of the constants of a cluster. -/
def constNames (settings : Settings) (compiled : List Compiled) : List Name :=
  compiled.map fun c => settings.constName c.name

/-- The store with the definitions of a cluster. -/
def extended (plan : Plan) (settings : Settings) (functions : FunctionTable) (store : Store)
    (compiled : List Compiled)
    : Store where
  consts := store.consts
    ++ (numbered store compiled).map fun pair =>
        (registrationOf plan settings functions store compiled pair).definition
  byName := (store.pushAll (constNames settings compiled)).byName

/-- The function, as it was, gets a registration. -/
def Registers (functions : FunctionTable) (c : Compiled) (r : Registration) (f' : Function)
    : Prop :=
  ∃ f,
    functions.find? c.name = some f
    ∧ f' = { f with recCallees := c.recCallees, registration := some r }

/-- What it takes to register functions that are compiled in a scope. -/
structure Registrable (scope : Scope) (settings : Settings) (store : Store)
    (compiled : List Compiled) : Prop where
  nonempty : compiled ≠ []
  distinct : (compiled.map (·.name)).Nodup
  fresh : ∀ c ∈ compiled, store.lookup (settings.constName c.name) = none
  dischargeable : ∀ c ∈ compiled, Dischargeable scope (compiled.map (·.name)) c

section Commit

variable {plan : Plan} {settings : Settings} {functions : FunctionTable} {store : Store}
  {compiled : List Compiled}

variable (store compiled) in
theorem map_fst_numbered : (numbered store compiled).map Prod.fst = compiled :=
  List.map_fst_zip (by simp)

variable (store compiled) in
theorem map_snd_numbered
    : (numbered store compiled).map Prod.snd = List.range' store.size compiled.length :=
  List.map_snd_zip (by simp)

/-- Functions of different names are numbered by name. -/
theorem nodup_numbered (distinct : (compiled.map (·.name)).Nodup)
    : ((numbered store compiled).map (·.1.name)).Nodup := by
  have names := congrArg (List.map (·.name)) (map_fst_numbered store compiled)
  rw [List.map_map] at names
  exact names ▸ distinct

variable (plan settings functions store compiled) in
theorem names_extended
    : (extended plan settings functions store compiled).names
      = store.names ++ constNames settings compiled := by
  simp only [Store.names, extended, constNames, List.map_append, List.map_map]
  conv => rhs; rw [← map_fst_numbered store compiled, List.map_map]
  rfl

/-- The functions of a cluster are found under their constants. -/
theorem get?_extended {pair : Compiled × ConstId} (among : pair ∈ numbered store compiled)
    : (extended plan settings functions store compiled).get? pair.2
      = some (registrationOf plan settings functions store compiled pair).definition := by
  obtain ⟨i, here⟩ := List.mem_iff_getElem?.mp among
  have id : (List.range' store.size compiled.length)[i]? = some pair.2 :=
    (List.getElem?_zip_eq_some.mp here).2
  have inside : i < compiled.length := by simpa using (List.getElem?_eq_some_iff.mp id).1
  have id : store.size + i = pair.2 := by simpa [List.getElem?_range', inside] using id
  rw [← id, Store.get?, extended, Store.size, List.getElem?_append_right (Nat.le_add_right _ _),
    Nat.add_sub_cancel_left, List.getElem?_map, here, Option.map_some]

/-- Any other definition was there before. -/
theorem get?_of_get?_extended {k : ConstId} {d : Definition}
    (found : (extended plan settings functions store compiled).get? k = some d)
    : store.get? k = some d
      ∨ ∃ pair ∈ numbered store compiled,
          pair.2 = k
          ∧ d = (registrationOf plan settings functions store compiled pair).definition := by
  by_cases old : k < store.consts.length
  · rw [Store.get?, extended, List.getElem?_append_left old] at found
    exact .inl found
  · rw [Store.get?, extended, List.getElem?_append_right (Nat.le_of_not_lt old),
      List.getElem?_map, Option.map_eq_some_iff] at found
    obtain ⟨pair, here, rfl⟩ := found
    have id : (List.range' store.size compiled.length)[k - store.consts.length]? = some pair.2 :=
      (List.getElem?_zip_eq_some.mp here).2
    rw [List.getElem?_eq_some_iff] at id
    obtain ⟨inside, id⟩ := id
    rw [List.getElem_range', Nat.one_mul, Store.size,
      Nat.add_sub_cancel' (Nat.le_of_not_lt old)] at id
    exact .inr ⟨pair, List.mem_of_getElem? here, id.symm, rfl⟩

/-- The constants of a cluster that can be registered have new names. -/
theorem Registrable.fresh_constNames {scope : Scope}
    (registrable : Registrable scope settings store compiled)
    : store.Fresh (constNames settings compiled) := by
  refine ⟨?_, ?_⟩
  · have mapped := registrable.distinct.map settings.constName_injective
    rwa [List.map_map] at mapped
  · intro name among
    obtain ⟨c, member, rfl⟩ := List.mem_map.mp among
    exact registrable.fresh c member

/-- Both indexes are extended. -/
theorem indexed_extended (indexed : store.Indexed)
    (registrable : Registrable (plan.scope settings functions) settings store compiled)
    : (extended plan settings functions store compiled).Indexed := by
  refine (indexed.pushAll registrable.fresh_constNames).of_eq ?_ rfl
  rw [names_extended, Store.names_pushAll]

variable (built : Built (plan.scope settings functions) compiled)

include built

/-- Once the definitions of a cluster are in the store, its constants are found monotone. -/
theorem Built.monos_eq_ok
    (registrable : Registrable (plan.scope settings functions) settings store compiled)
    : monos (extended plan settings functions store compiled) (isMeasured functions compiled)
          (List.range' store.size compiled.length)
          ((numbered store compiled).map fun pair =>
            (registrationOf plan settings functions store compiled pair).thm)
      = .ok ((numbered store compiled).map fun pair =>
          (registrationOf plan settings functions store compiled pair).mono) := by
  have same : (List.range' store.size compiled.length).length = compiled.length :=
    List.length_range'
  have some : (numbered store compiled).map (fun pair =>
      (registrationOf plan settings functions store compiled pair).thm) ≠ [] := by
    have longer := List.length_pos_iff.mpr registrable.nonempty
    refine List.ne_nil_of_length_pos ?_
    simpa [numbered] using longer
  have agree : ∀ thm ∈ (numbered store compiled).map (fun pair =>
      (registrationOf plan settings functions store compiled pair).thm),
      thm.total = settings.total ∧ thm.env = plan.env := by
    intro thm among
    obtain ⟨pair, _, rfl⟩ := List.mem_map.mp among
    exact ⟨rfl, rfl⟩
  rw [Cluster.monos_eq_ok ?_ _ some agree]
  · rw [← map_snd_numbered store compiled, List.map_map]
    rfl
  · intro k listed
    rw [← map_snd_numbered store compiled] at listed
    obtain ⟨⟨c, k⟩, paired, rfl⟩ := List.mem_map.mp listed
    refine ⟨_, by rw [get?_extended paired]; rfl, ?_⟩
    intro callee called
    have dischargeable := registrable.dischargeable c (List.of_mem_zip paired).1
    obtain ⟨_, entry, target, _, _, _, const, isConst, recursive⟩ :=
      built.exists_callee registrable.distinct List.nodup_range' same paired dischargeable called
    refine ⟨target, isConst, ?_⟩
    intro m passed
    rcases constOf?_eq_some_iff.mp const with ⟨_, sibling⟩ | ⟨external, _⟩
    · obtain ⟨_, pairedCallee, _⟩ := (find?_siblings registrable.distinct same).mp sibling
      exact (List.of_mem_zip pairedCallee).2
    · cases (recursive m passed).symm.trans external

omit built in
/-- The definitions of a cluster are committed with their theorems. -/
theorem store_commit_eq_ok
    : (store.pushAll (constNames settings compiled)).commit
          ((numbered store compiled).map fun pair =>
            (pair.2, (registrationOf plan settings functions store compiled pair).term))
          ((numbered store compiled).map fun pair =>
            (registrationOf plan settings functions store compiled pair).thm)
      = .ok (extended plan settings functions store compiled) := by
  have names : constNames settings compiled
      = (numbered store compiled).map fun pair => settings.constName pair.1.name := by
    conv => lhs; rw [constNames, ← map_fst_numbered store compiled, List.map_map]
    rfl
  have ids : ((numbered store compiled).map fun pair =>
        (pair.2, (registrationOf plan settings functions store compiled pair).term)).map Prod.fst
      = List.range' store.size (constNames settings compiled).length := by
    rw [List.map_map, constNames, List.length_map, ← map_snd_numbered store compiled]
    rfl
  rw [Store.commit_pushAll ids]
  · conv => lhs; arg 1; arg 1; rw [names, Store.definitions_map]
    rfl
  · rw [constNames, List.length_map, ← map_snd_numbered store compiled, List.forall₂_map_left_iff,
      List.forall₂_map_right_iff, List.forall₂_same]
    intro pair _
    exact ⟨pair.1.thm.proc, rfl⟩

omit built in
/-- The functions of a cluster are registered one by one. -/
theorem registered_parts_iff {committed : List Function}
    : List.Forall₂ (fun part f' => registered settings functions part = .ok f')
          (parts compiled
            ((numbered store compiled).map fun pair =>
              (pair.2, (registrationOf plan settings functions store compiled pair).term))
            ((numbered store compiled).map fun pair =>
              (registrationOf plan settings functions store compiled pair).thm)
            ((numbered store compiled).map fun pair =>
              (registrationOf plan settings functions store compiled pair).mono)
            (compiled.map (calleeConsts functions
              (siblings compiled (List.range' store.size compiled.length)))))
          committed
      ↔ List.Forall₂
          (fun pair f' =>
            Registers functions pair.1
              (registrationOf plan settings functions store compiled pair) f')
          (numbered store compiled) committed := by
  have firsts : compiled = (numbered store compiled).map Prod.fst :=
    (map_fst_numbered store compiled).symm
  have consts : compiled.map (calleeConsts functions
        (siblings compiled (List.range' store.size compiled.length)))
      = (numbered store compiled).map fun pair =>
          (registrationOf plan settings functions store compiled pair).calleeConsts := by
    conv => lhs; arg 2; rw [firsts]
    rw [List.map_map]
    refine List.map_congr_left fun pair _ => ?_
    exact calleeConsts_eq
  have whole := parts_map (numbered store compiled) Prod.fst
    (fun pair => (pair.2, (registrationOf plan settings functions store compiled pair).term))
    (fun pair => (registrationOf plan settings functions store compiled pair).thm)
    (fun pair => (registrationOf plan settings functions store compiled pair).mono)
    (fun pair => (registrationOf plan settings functions store compiled pair).calleeConsts)
  rw [map_fst_numbered] at whole
  rw [consts, whole, List.forall₂_map_left_iff]
  simp only [registered_eq_ok_iff]
  rfl

/-- Registering a compiled cluster succeeds exactly if it can be registered, and puts the
definitions of its functions in the store.
-/
theorem Built.commit_eq_ok_iff {store' : Store} {committed : List Function}
    : commit settings store functions compiled = .ok (store', committed)
      ↔ Registrable (plan.scope settings functions) settings store compiled
        ∧ store' = extended plan settings functions store compiled
        ∧ List.Forall₂
            (fun pair f' =>
              Registers functions pair.1
                (registrationOf plan settings functions store compiled pair) f')
            (numbered store compiled) committed := by
  simp only [commit, bind_eq_ok_iff, mapError_eq_ok_iff, Prod.exists, Store.reserveAll_eq_ok_iff,
    mapM_eq_ok_iff, List.length_map]
  have once : (List.range' store.size compiled.length).Nodup := List.nodup_range'
  have same : (List.range' store.size compiled.length).length = compiled.length :=
    List.length_range'
  constructor
  · rintro ⟨_, _, ⟨⟨apart, fresh⟩, rfl, rfl⟩, closed, closing, stored, storing, monotone, proving,
      others, registers, result⟩
    have distinct : (compiled.map (·.name)).Nodup := by
      refine List.Nodup.of_map settings.constName ?_
      rwa [List.map_map]
    obtain ⟨some, dischargeable, rfl⟩ :=
      (built.closeCluster_eq_ok_iff distinct once same).mp closing
    have registrable : Registrable (plan.scope settings functions) settings store compiled :=
      ⟨some, distinct, fun c among => fresh _ (List.mem_map_of_mem among), dischargeable⟩
    cases store_commit_eq_ok.symm.trans storing
    cases (built.monos_eq_ok registrable).symm.trans proving
    cases result
    exact ⟨registrable, rfl, registered_parts_iff.mp registers⟩
  · rintro ⟨registrable, rfl, registers⟩
    have closing := (built.closeCluster_eq_ok_iff registrable.distinct once same).mpr
      ⟨registrable.nonempty, registrable.dischargeable, rfl⟩
    exact ⟨_, _, ⟨registrable.fresh_constNames, rfl, rfl⟩, _, closing, _, store_commit_eq_ok, _,
      built.monos_eq_ok registrable, committed, registered_parts_iff.mpr registers, rfl⟩

/-- A cluster that can be registered is. -/
theorem Built.exists_commit
    (registrable : Registrable (plan.scope settings functions) settings store compiled)
    : ∃ committed,
        commit settings store functions compiled
          = .ok (extended plan settings functions store compiled, committed)
        ∧ List.Forall₂
            (fun pair f' =>
              Registers functions pair.1
                (registrationOf plan settings functions store compiled pair) f')
            (numbered store compiled) committed := by
  have each : ∀ pair ∈ numbered store compiled,
      ∃ f', Registers functions pair.1
        (registrationOf plan settings functions store compiled pair) f' := by
    intro pair paired
    obtain ⟨f, _, found, _⟩ := built.builds pair.1 (List.of_mem_zip paired).1
    exact ⟨_, f, found, rfl⟩
  obtain ⟨committed, registers⟩ := exists_related each
  exact ⟨committed, built.commit_eq_ok_iff.mpr ⟨registrable, rfl, registers⟩, registers⟩

omit built in
theorem mem_of_mem_parts {cs : List Compiled} {defs : List (ConstId × Term)} {thms : List Theorem}
    {monos : List (Option Theorem)} {consts : List (FiniteMap Name ConstId)} {part : Parts}
    (among : part ∈ parts cs defs thms monos consts)
    : part.compiled ∈ cs := by
  fun_induction parts cs defs thms monos consts with
  | case1 c cs k term defs thm thms mono monos consts constss ih =>
      rcases List.mem_cons.mp among with rfl | later
      · exact List.mem_cons_self
      · exact List.mem_cons_of_mem c (ih later)
  | case2 => cases among

/-- Compiled functions that are not registered are a fatal error. -/
theorem Built.isFatal_of_commit {e : CompileError}
    (failed : commit settings store functions compiled = .error e)
    : e.isFatal = true := by
  simp only [commit, bind_eq_error_iff, mapError_eq_error_iff, Prod.exists] at failed
  rcases failed with ⟨_, _, rfl⟩ | ⟨_, _, _, failed⟩
  · rfl
  rcases failed with ⟨_, _, rfl⟩ | ⟨_, _, failed⟩
  · rfl
  rcases failed with ⟨_, _, rfl⟩ | ⟨_, _, failed⟩
  · rfl
  rcases failed with ⟨_, _, rfl⟩ | ⟨_, _, failed⟩
  · rfl
  rcases failed with failed | ⟨_, _, failed⟩
  -- the functions were compiled from the same table, and so they are found there
  · have each : ∀ part : Parts,
        part.compiled ∈ compiled → ∃ f', registered settings functions part = .ok f' := by
      intro part among
      obtain ⟨f, _, found, _⟩ := built.builds part.compiled among
      exact ⟨_, registered_eq_ok_iff.mpr ⟨f, found, rfl⟩⟩
    obtain ⟨results, succeeded, _⟩ :=
      mapM_eq_ok fun part among => each part (mem_of_mem_parts among)
    cases succeeded.symm.trans failed
  · cases failed

end Commit

-----------------------------------------------------------------------------------------
-- The table after a commit
-----------------------------------------------------------------------------------------

section Advance

variable {input functions : FunctionTable} {store store' : Store} {compiled : List Compiled}
  {reg : Compiled × ConstId → Registration} {committed : List Function}
  (named : ∀ c ∈ compiled, ∀ f, input.find? c.name = some f → f.name = c.name)
  (registers
    : List.Forall₂ (fun pair f' => Registers input pair.1 (reg pair) f') (numbered store compiled)
        committed)

include named registers

/-- A function that gets a registration is one of the cluster. -/
theorem exists_registers {f' : Function} (among : f' ∈ committed)
    : ∃ pair ∈ numbered store compiled,
        Registers input pair.1 (reg pair) f' ∧ f'.name = pair.1.name := by
  obtain ⟨pair, paired, f, found, rfl⟩ := exists_left_of_mem registers among
  have own := named pair.1 (List.of_mem_zip paired).1 f found
  exact ⟨pair, paired, ⟨f, found, rfl⟩, own⟩

/-- All other functions stay as they are. -/
theorem find?_advance_of_not_mem {name : Name} (outside : name ∉ compiled.map (·.name))
    : (advance functions store' committed).functions.find? name = functions.find? name := by
  refine FiniteMap.find?_insertAll_of_forall_ne ?_
  intro binding bound same
  obtain ⟨f', among, rfl⟩ := List.mem_map.mp bound
  obtain ⟨pair, paired, _, own⟩ := exists_registers named registers among
  exact outside (same ▸ own ▸ List.mem_map_of_mem (List.of_mem_zip paired).1)

/-- The functions of the cluster have their registrations. -/
theorem find?_advance_of_mem (distinct : (compiled.map (·.name)).Nodup)
    {pair : Compiled × ConstId} (paired : pair ∈ numbered store compiled)
    : ∃ f,
        input.find? pair.1.name = some f
        ∧ (advance functions store' committed).functions.find? pair.1.name
          = some { f with recCallees := pair.1.recCallees, registration := some (reg pair) } := by
  obtain ⟨f', among, f, found, rfl⟩ := exists_right_of_mem registers paired
  have own := named pair.1 (List.of_mem_zip paired).1 f found
  have key : ∃ binding ∈ committed.map fun f : Function => (f.name, f), binding.1 = pair.1.name :=
    ⟨_, List.mem_map_of_mem among, own⟩
  obtain ⟨value, changed, bound⟩ := FiniteMap.exists_find?_insertAll functions key
  obtain ⟨_, amongToo, same⟩ := List.mem_map.mp bound
  obtain ⟨sameName, rfl⟩ := Prod.mk.inj same
  obtain ⟨other, pairedToo, ⟨g, foundToo, rfl⟩, ownToo⟩ :=
    exists_registers named registers amongToo
  obtain rfl := List.inj_on_of_nodup_map (nodup_numbered distinct) pairedToo paired
    (ownToo.symm.trans sameName)
  cases found.symm.trans foundToo
  exact ⟨f, found, changed⟩

/-- A function after a commit is as before, or one of the cluster that has its registration. -/
theorem find?_advance (distinct : (compiled.map (·.name)).Nodup) (name : Name)
    : (name ∉ compiled.map (·.name)
        ∧ (advance functions store' committed).functions.find? name = functions.find? name)
      ∨ ∃ pair ∈ numbered store compiled,
          pair.1.name = name
          ∧ ∃ f,
              input.find? name = some f
              ∧ (advance functions store' committed).functions.find? name
                = some
                    { f with
                      recCallees := pair.1.recCallees
                      registration := some (reg pair) } := by
  by_cases member : name ∈ compiled.map (·.name)
  · right
    rw [← map_fst_numbered store compiled, List.map_map] at member
    obtain ⟨pair, paired, rfl⟩ := List.mem_map.mp member
    exact ⟨pair, paired, rfl, find?_advance_of_mem named registers distinct paired⟩
  · exact .inl ⟨member, find?_advance_of_not_mem named registers member⟩

end Advance

end Cluster

end Monadize
