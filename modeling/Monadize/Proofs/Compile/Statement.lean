import Monadize.Compile.Statement
import Monadize.Proofs.Except
import Monadize.Proofs.Replay.Derivation
import Monadize.Proofs.Stmt.Calls
import Monadize.Proofs.Term.Callees

/-! What compiling a statement gives, form by form, and which statements are compiled at all. -/

namespace Monadize

-----------------------------------------------------------------------------------------
-- Looking up callees
-----------------------------------------------------------------------------------------

theorem CalleeTable.findFrom?_eq_some {func : Name} {next : Nat} {entries : List CalleeEntry}
    {p : PlaceholderId} {entry : CalleeEntry}
    (found : findFrom? func next entries = some (p, entry))
    : ∃ i, p = next + i ∧ entries[i]? = some entry ∧ entry.func = func := by
  induction entries generalizing next with
  | nil => simp [findFrom?] at found
  | cons first rest ih =>
      simp only [findFrom?] at found
      split at found
      · next later =>
          obtain ⟨i, rfl, member, same⟩ := ih (later.trans found)
          exact ⟨i + 1, by rw [Nat.add_right_comm, Nat.add_assoc], by simpa using member, same⟩
      · split at found
        · next same =>
            cases found
            exact ⟨0, rfl, rfl, same⟩
        · cases found

/-- What a table finds for a function is the entry of this function at its index. -/
theorem CalleeTable.find?_eq_some {table : CalleeTable} {func : Name} {p : PlaceholderId}
    {entry : CalleeEntry} (found : table.find? func = some (p, entry))
    : table.entries[p]? = some entry ∧ entry.func = func := by
  obtain ⟨i, rfl, member, same⟩ := findFrom?_eq_some found
  exact ⟨by rwa [Nat.zero_add], same⟩

/-- A table finds something for every function that has an entry. -/
theorem CalleeTable.exists_find? {table : CalleeTable} {entry : CalleeEntry}
    (member : entry ∈ table.entries)
    : ∃ found, table.find? entry.func = some found := by
  have general : ∀ (entries : List CalleeEntry) (next : Nat), entry ∈ entries
      → ∃ found, findFrom? entry.func next entries = some found := by
    intro entries
    induction entries with
    | nil => simp
    | cons first rest ih =>
        intro next member
        simp only [findFrom?]
        split
        · exact ⟨_, rfl⟩
        · next absent =>
            rcases List.mem_cons.mp member with rfl | later
            · exact ⟨_, if_pos rfl⟩
            · obtain ⟨found, present⟩ := ih (next + 1) later
              rw [absent] at present
              cases present
  exact general table.entries 0 member

/-- The hypothesis of a callee. -/
def CalleeEntry.hyp (entry : CalleeEntry) : Hyp := ⟨entry.proc, entry.recursive⟩

theorem CalleeTable.getElem?_hyps (table : CalleeTable) (p : PlaceholderId)
    : table.hyps[p]? = table.entries[p]?.map CalleeEntry.hyp := by
  exact List.getElem?_map

/-- The kernel accepts the way in which the compiler passes the measure to a callee. -/
theorem CalleeEntry.threads_threading (entry : CalleeEntry) (world : Name) (hyps : List Hyp)
    (measure : MeasureId)
    : Replay.threads ⟨world, hyps, measure⟩ (entry.threading measure).2 (entry.threading measure).1
        entry.recursive = true := by
  unfold threading
  cases recursive : entry.recursive with
  | true => simp [Replay.threads]
  | false => cases entry.measured <;> simp [Replay.threads]

namespace BodyContext

/-- The entry that a call of the procedure goes through. -/
def entry? (ctx : BodyContext) (proc : Name) : Option (PlaceholderId × CalleeEntry) :=
  ctx.callees.find? (ctx.functionOf proc)

-----------------------------------------------------------------------------------------
-- The forms of compiled statements
-----------------------------------------------------------------------------------------

/-- The statement is compiled to the term, with this recipe. -/
inductive Compiles (ctx : BodyContext) : Stmt → Term → Recipe → Prop
  | skip : Compiles ctx .skip .skip (.leaf .skip)
  | throw : Compiles ctx .throw .throw (.leaf .throw)
  | seq {a b c d p q} (first : Compiles ctx c a p) (second : Compiles ctx d b q)
    : Compiles ctx (.seq c d) (.seq a b) (.apply .seq [p, q])
  | tryCatch {a b c d p q} (body : Compiles ctx c a p) (handler : Compiles ctx d b q)
    : Compiles ctx (.tryCatch c d) (.tryCatch a b) (.apply .tryCatch [p, q])
  | assign (f : Expr) : Compiles ctx (.assign f) (.modify f) (.leaf .modify)
  | localInit (f : Expr) : Compiles ctx (.localInit f) (.init f) (.leaf .init)
  | spec (rel : Expr) : Compiles ctx (.spec rel) (.spec rel) (.leaf .spec)
  | cond {a b c d p q} (set : Expr) (left : Compiles ctx c a p) (right : Compiles ctx d b q)
    : Compiles ctx (.cond set c d) (.condition (Expr.predOfSet ctx.world set) a b)
        (.apply .condition [p, q])
  | loop {a c p} (set : Expr) (body : Compiles ctx c a p)
    : Compiles ctx (.loop set c) (.loop (Expr.predOfSet ctx.world set) a) (.apply .loop [p])
  | guard {a c p} (set : Expr) (body : Compiles ctx c a p)
    : Compiles ctx (.guard set c) (.seq (.guard (Expr.predOfSet ctx.world set)) a)
        (.apply .guard [p])
  | guardedSpec (set rel : Expr)
    : Compiles ctx (.guardedSpec set rel)
        (.seq (.guard (Expr.predOfSet ctx.world set)) (.spec rel)) (.leaf .guardedSpec)
  | missing (setup : Expr) (proc : Name) (cleanup : Expr) (final caller : Name) (update : Expr)
    (absent : ctx.entry? proc = none)
    : Compiles ctx (.call setup proc cleanup [final, caller] (.assign update)) .fail
        (.leaf .callUndefined)
  | call {p : PlaceholderId} {entry : CalleeEntry}
    (setup : Expr) (proc : Name) (cleanup : Expr) (final caller : Name) (update : Expr)
    (found : ctx.entry? proc = some (p, entry))
    : Compiles ctx (.call setup proc cleanup [final, caller] (.assign update))
        (.call setup ⟨.placeholder p, (entry.threading ctx.measure).1⟩ cleanup
          (Expr.resultHandler ctx.world final caller update))
        (.apply (entry.threading ctx.measure).2 [.hyp p])

/-- A pair of a term and a recipe is compiled from two parts if both are compiled. -/
private theorem result_bind_eq_ok {α β : Type} {first : Reported Warning Unsupported α}
    {next : α → Reported Warning Unsupported β} {result : β}
    (h : (first >>= next).result = .ok result)
    : ∃ value, first.result = .ok value ∧ (next value).result = .ok result := by
  rw [Reported.result_bind] at h
  exact bind_eq_ok_iff.mp h

/-- A successful compilation has one of the forms, by induction on the statement. -/
theorem compiles_of_compile {ctx : BodyContext} {stmt : Stmt} {term : Term} {recipe : Recipe}
    (h : (ctx.compile stmt).result = .ok (term, recipe))
    : ctx.Compiles stmt term recipe := by
  induction stmt generalizing term recipe with
  | skip => cases h; exact .skip
  | throw => cases h; exact .throw
  | assign f => cases h; exact .assign f
  | localInit f => cases h; exact .localInit f
  | spec rel => cases h; exact .spec rel
  | guardedSpec set rel => cases h; exact .guardedSpec set rel
  | dynCall => cases h
  | seq c d ihc ihd =>
      obtain ⟨⟨a, p⟩, first, h⟩ := result_bind_eq_ok h
      obtain ⟨⟨b, q⟩, second, h⟩ := result_bind_eq_ok h
      cases h
      exact .seq (ihc first) (ihd second)
  | tryCatch c d ihc ihd =>
      obtain ⟨⟨a, p⟩, first, h⟩ := result_bind_eq_ok h
      obtain ⟨⟨b, q⟩, second, h⟩ := result_bind_eq_ok h
      cases h
      exact .tryCatch (ihc first) (ihd second)
  | cond set c d ihc ihd =>
      obtain ⟨⟨a, p⟩, first, h⟩ := result_bind_eq_ok h
      obtain ⟨⟨b, q⟩, second, h⟩ := result_bind_eq_ok h
      cases h
      exact .cond set (ihc first) (ihd second)
  | loop set c ih =>
      obtain ⟨⟨a, p⟩, body, h⟩ := result_bind_eq_ok h
      cases h
      exact .loop set (ih body)
  | guard set c ih =>
      obtain ⟨⟨a, p⟩, body, h⟩ := result_bind_eq_ok h
      cases h
      exact .guard set (ih body)
  | call setup proc cleanup binders store =>
      simp only [compile] at h
      split at h
      · cases h
      · next result plain =>
          obtain ⟨rfl, rfl⟩ := ResultStore.plain?_eq_some plain
          simp only [compileCall] at h
          split at h
          · next absent =>
              cases h
              exact .missing setup proc cleanup _ _ _ absent
          · next p entry found =>
              cases h
              exact .call setup proc cleanup _ _ _ found

/-- What is compiled is supported. -/
theorem Compiles.supported {ctx : BodyContext} {stmt : Stmt} {term : Term} {recipe : Recipe}
    (h : ctx.Compiles stmt term recipe)
    : stmt.Supported := by
  induction h with
  | seq _ _ ihc ihd | tryCatch _ _ ihc ihd | cond _ _ _ ihc ihd => exact ⟨ihc, ihd⟩
  | loop _ _ ih | guard _ _ ih => exact ih
  | missing _ _ _ final caller update | call _ _ _ final caller update =>
      exact ⟨final, caller, update, rfl, rfl⟩
  | skip | throw | assign | localInit | spec | guardedSpec => trivial

/-- Every callee of a compiled statement is the placeholder of an entry, with the measure passed as
the entry asks for.
-/
theorem Compiles.threads {ctx : BodyContext} {stmt : Stmt} {term : Term} {recipe : Recipe}
    (h : ctx.Compiles stmt term recipe)
    : ∀ callee ∈ term.callees,
        ∃ p entry,
          ctx.callees.entries[p]? = some entry
          ∧ callee = ⟨.placeholder p, (entry.threading ctx.measure).1⟩ := by
  intro callee member
  induction h with
  | seq _ _ ihc ihd | tryCatch _ _ ihc ihd | cond _ _ _ ihc ihd =>
      simp only [Term.callees_seq, Term.callees_tryCatch, Term.callees_condition,
        List.mem_append] at member
      exact member.elim ihc ihd
  | loop _ _ ih => exact ih member
  | guard _ _ ih => exact ih (by simpa [Term.callees, Term.calleesBefore] using member)
  | @call p entry _ _ _ _ _ _ found =>
      exact ⟨p, entry, (CalleeTable.find?_eq_some found).1, List.mem_singleton.mp member⟩
  | skip | throw | assign | localInit | spec | guardedSpec | missing => cases member

/-- A supported statement is compiled, by induction on it. -/
theorem exists_compile (ctx : BodyContext) {stmt : Stmt} (h : stmt.Supported)
    : ∃ compiled, (ctx.compile stmt).result = .ok compiled := by
  induction stmt with
  | seq c d ihc ihd | tryCatch c d ihc ihd | cond _ c d ihc ihd =>
      obtain ⟨first, compiledFirst⟩ := ihc h.1
      obtain ⟨second, compiledSecond⟩ := ihd h.2
      simp only [compile]
      rw [Reported.result_bind_ok compiledFirst, Reported.result_bind_ok compiledSecond]
      exact ⟨_, rfl⟩
  | loop _ c ih | guard _ c ih =>
      obtain ⟨body, compiledBody⟩ := ih h
      simp only [compile]
      rw [Reported.result_bind_ok compiledBody]
      exact ⟨_, rfl⟩
  | call setup proc cleanup binders store =>
      obtain ⟨final, caller, update, rfl, rfl⟩ := h
      simp only [compile, ResultStore.plain?, compileCall]
      split
      · exact ⟨_, rfl⟩
      · exact ⟨_, rfl⟩
  | dynCall => exact h.elim
  | skip | throw | assign | localInit | spec | guardedSpec => exact ⟨_, rfl⟩

/-- Exactly the supported statements are compiled. -/
theorem exists_compile_iff (ctx : BodyContext) {stmt : Stmt}
    : (∃ compiled, (ctx.compile stmt).result = .ok compiled) ↔ stmt.Supported := by
  constructor
  · intro h
    obtain ⟨⟨term, recipe⟩, compiled⟩ := h
    exact (compiles_of_compile compiled).supported
  · exact ctx.exists_compile

end BodyContext

end Monadize
