import Monadize.Proofs.Compile.Statement

/-! The compiler and the proof kernel agree: the recipe of a compiled statement is replayed exactly
when every call that goes through a placeholder goes through one for its own procedure.
-/

namespace Monadize

namespace BodyContext

/-- Every call node that finds an entry finds one for the called procedure. -/
def Resolves (ctx : BodyContext) (stmt : Stmt) : Prop :=
  ∀ proc ∈ stmt.callSites, ∀ p entry, ctx.entry? proc = some (p, entry) → entry.proc = proc

/-- What the recipe of a compiled statement is replayed against. -/
def replay (ctx : BodyContext) : Replay := ⟨ctx.world, ctx.callees.hyps, ctx.measure⟩

/-- The hypotheses on the entries that the call nodes find, left to right. -/
def uses (ctx : BodyContext) (stmt : Stmt) : Uses :=
  stmt.callSites.filterMap fun proc => (ctx.entry? proc).map fun found => (found.1, found.2.hyp)

theorem uses_append (ctx : BodyContext) {stmt a b : Stmt}
    (sites : stmt.callSites = a.callSites ++ b.callSites)
    : ctx.uses stmt = ctx.uses a ++ ctx.uses b := by
  rw [uses, sites, List.filterMap_append]
  rfl

/-- The table of a context gives a found placeholder the hypothesis on its entry. -/
theorem getElem?_hyps_of_found {ctx : BodyContext} {proc : Name} {p : PlaceholderId}
    {entry : CalleeEntry} (found : ctx.entry? proc = some (p, entry))
    : ctx.callees.hyps[p]? = some entry.hyp := by
  have member := (CalleeTable.find?_eq_some found).1
  rw [CalleeTable.getElem?_hyps, member]
  rfl

/-- A recipe whose calls are resolved is a derivation that uses the entries found, by induction on
the compiled statement.
-/
theorem Compiles.derives {ctx : BodyContext} {stmt : Stmt} {term : Term} {recipe : Recipe}
    (h : ctx.Compiles stmt term recipe) (resolved : ctx.Resolves stmt)
    : ctx.replay.Derives term stmt recipe (ctx.uses stmt) := by
  induction h with
  | skip => exact .skip
  | throw => exact .throw
  | assign f => exact .modify f
  | localInit f => exact .init f
  | spec rel => exact .spec rel
  | guardedSpec set rel => exact .guardedSpec rel rfl
  | @seq _ _ c d _ _ _ _ ihc ihd =>
      have first := ihc fun proc site => resolved proc (List.mem_append_left _ site)
      have second := ihd fun proc site => resolved proc (List.mem_append_right _ site)
      have split : ctx.uses (.seq c d) = ctx.uses c ++ ctx.uses d := ctx.uses_append rfl
      exact split ▸ .seq first second
  | @tryCatch _ _ c d _ _ _ _ ihc ihd =>
      have body := ihc fun proc site => resolved proc (List.mem_append_left _ site)
      have handler := ihd fun proc site => resolved proc (List.mem_append_right _ site)
      have split : ctx.uses (.tryCatch c d) = ctx.uses c ++ ctx.uses d := ctx.uses_append rfl
      exact split ▸ .tryCatch body handler
  | @cond _ _ c d _ _ set _ _ ihc ihd =>
      have left := ihc fun proc site => resolved proc (List.mem_append_left _ site)
      have right := ihd fun proc site => resolved proc (List.mem_append_right _ site)
      have split : ctx.uses (.cond set c d) = ctx.uses c ++ ctx.uses d := ctx.uses_append rfl
      exact split ▸ .condition rfl left right
  | loop set _ ih => exact .loop rfl (ih resolved)
  | guard set _ ih => exact .guard rfl (ih resolved)
  | missing setup proc cleanup final caller update absent =>
      have unused : ctx.uses (.call setup proc cleanup [final, caller] (.assign update)) = [] := by
        simp [uses, Stmt.callSites, absent]
      exact unused ▸ .undefinedCall ..
  | @call p entry setup proc cleanup final caller update found =>
      -- the entry is the one for the called procedure, so that the kernel sees the same name
      have same : entry.proc = proc := resolved proc (by simp [Stmt.callSites]) p entry found
      have used : ctx.uses (.call setup proc cleanup [final, caller] (.assign update))
          = [(p, entry.hyp)] := by
        simp [uses, Stmt.callSites, found]
      have known : ctx.replay.hyps[p]? = some entry.hyp := getElem?_hyps_of_found found
      rw [used, ← same]
      exact .call setup cleanup final caller update known (entry.threads_threading ..) rfl

/-- A recipe that is replayed resolves its calls, by induction on the compiled statement. -/
theorem Compiles.resolves {ctx : BodyContext} {stmt : Stmt} {term : Term} {recipe : Recipe}
    {uses : Uses} (h : ctx.Compiles stmt term recipe)
    (derived : ctx.replay.Derives term stmt recipe uses)
    : ctx.Resolves stmt := by
  induction h generalizing uses with
  | skip | throw | assign | localInit | spec | guardedSpec => simp [Resolves, Stmt.callSites]
  | seq _ _ ihc ihd =>
      cases derived with
      | seq first second =>
          intro proc site
          rcases List.mem_append.mp site with left | right
          · exact ihc first proc left
          · exact ihd second proc right
  | tryCatch _ _ ihc ihd =>
      cases derived with
      | tryCatch body handler =>
          intro proc site
          rcases List.mem_append.mp site with left | right
          · exact ihc body proc left
          · exact ihd handler proc right
  | cond set _ _ ihc ihd =>
      cases derived with
      | condition _ left right =>
          intro proc site
          rcases List.mem_append.mp site with inLeft | inRight
          · exact ihc left proc inLeft
          · exact ihd right proc inRight
  | loop set _ ih =>
      cases derived with
      | loop _ body => exact ih body
  | guard set _ ih =>
      cases derived with
      | guard _ body => exact ih body
  | missing setup proc cleanup final caller update absent =>
      intro called site p entry found
      obtain rfl : called = proc := by simpa [Stmt.callSites] using site
      rw [absent] at found
      cases found
  | @call p entry setup proc cleanup final caller update found =>
      intro called site p' entry' found'
      obtain rfl : called = proc := by simpa [Stmt.callSites] using site
      obtain ⟨rfl, rfl⟩ := Prod.mk.inj (Option.some.inj (found.symm.trans found'))
      -- the derivation appeals to the hypothesis of the placeholder, which is that on the entry
      cases derived with
      | call _ _ _ _ _ known =>
          have hyp := known.symm.trans (getElem?_hyps_of_found found)
          exact (congrArg Hyp.proc (Option.some.inj hyp)).symm

/-- A hypothesis is used for the entries found, and is the one that the table gives. -/
theorem mem_uses {ctx : BodyContext} {stmt : Stmt} {p : PlaceholderId} {hyp : Hyp}
    : (p, hyp) ∈ ctx.uses stmt
      ↔ (∃ proc ∈ stmt.callSites, ∃ entry, ctx.entry? proc = some (p, entry))
        ∧ ctx.callees.hyps[p]? = some hyp := by
  simp only [uses, List.mem_filterMap, Option.map_eq_some_iff]
  constructor
  · rintro ⟨proc, site, ⟨p', entry⟩, found, same⟩
    cases same
    exact ⟨⟨proc, site, entry, found⟩, getElem?_hyps_of_found found⟩
  · rintro ⟨⟨proc, site, entry, found⟩, known⟩
    have same := known.symm.trans (getElem?_hyps_of_found found)
    exact ⟨proc, site, (p, entry), found, by rw [Option.some.inj same]⟩

/-- The recipe of a compiled statement proves its correspondence if and only if every call node that
finds an entry finds one for the called procedure. The theorem then assumes exactly the entries
found, each as the table says. Witness: a derivation is built from the compiled form, the calls are
resolved by one, and replaying has no choice of hypotheses.
-/
theorem prove_compile_iff (env : Environment) (callees : CalleeTable)
    (procNames : FiniteMap Name Name) (measure : MeasureId) (func : Name) (total : Bool)
    (stmt : Stmt) {term : Term} {recipe : Recipe}
    (compiled
      : (compile ⟨env.world, callees, procNames, measure, func⟩ stmt).result = .ok (term, recipe))
    : let ctx : BodyContext := ⟨env.world, callees, procNames, measure, func⟩
      let attempt := Goal.prove ⟨total, env, .corres term stmt⟩ recipe callees.hyps measure
      ((∃ thm, attempt = .ok thm) ↔ ctx.Resolves stmt)
      ∧ ∀ thm,
          attempt = .ok thm
          → ∀ p hyp,
              thm.hyps.find? p = some hyp
              ↔ (∃ proc ∈ stmt.callSites, ∃ entry, ctx.entry? proc = some (p, entry))
                ∧ callees.hyps[p]? = some hyp := by
  intro ctx attempt
  have form : ctx.Compiles stmt term recipe := compiles_of_compile compiled
  refine ⟨⟨?_, ?_⟩, ?_⟩
  · rintro ⟨thm, proved⟩
    obtain ⟨_, _, uses, same, derived, _⟩ := Goal.prove_eq_ok_iff.mp proved
    cases same
    exact form.resolves derived
  · intro resolved
    exact ⟨_, Goal.prove_eq_ok_iff.mpr ⟨term, stmt, _, rfl, form.derives resolved, rfl⟩⟩
  · intro thm proved p hyp
    obtain ⟨_, _, uses, same, derived, rfl⟩ := Goal.prove_eq_ok_iff.mp proved
    cases same
    -- replaying is a function, so the hypotheses used are those of the compiled form
    have expected := form.derives (form.resolves derived)
    have all : uses = ctx.uses stmt :=
      Except.ok.inj (derived.check_eq_ok.symm.trans expected.check_eq_ok)
    rw [FiniteMap.find?_ofList_eq_some_iff derived.functional_uses, all]
    exact mem_uses

/-- A function with two entries is called through the last one, and a call without entry needs no
hypothesis.
-/
theorem prove_compile_repeated_entry
    : ∃ thm,
        Goal.prove
          ⟨true, ⟨0, "w", .empty⟩,
            .corres
              (.seq
                (.call .univ ⟨.placeholder 1, .managed⟩ .univ
                  (Expr.resultHandler "w" "t" "s" .univ))
                .fail)
              (.seq (.call .univ "g_'proc" .univ ["t", "s"] (.assign .univ))
                (.call .univ "h" .univ ["t", "s"] (.assign .univ)))⟩
          (.apply .seq [.apply .callRecursive [.hyp 1], .leaf .callUndefined])
          (CalleeTable.hyps ⟨[⟨"g", "old", false, false⟩, ⟨"g", "g_'proc", false, true⟩]⟩) 3
          = .ok thm
        ∧ thm.hyps.find? 1 = some ⟨"g_'proc", false⟩ := by
  obtain ⟨accepted, assumed⟩ := prove_compile_iff ⟨0, "w", .empty⟩
    ⟨[⟨"g", "old", false, false⟩, ⟨"g", "g_'proc", false, true⟩]⟩ .empty 3 "f" true
    (.seq (.call .univ "g_'proc" .univ ["t", "s"] (.assign .univ))
      (.call .univ "h" .univ ["t", "s"] (.assign .univ)))
    rfl
  have resolved : Resolves
      ⟨"w", ⟨[⟨"g", "old", false, false⟩, ⟨"g", "g_'proc", false, true⟩]⟩, .empty, 3, "f"⟩
      (.seq (.call .univ "g_'proc" .univ ["t", "s"] (.assign .univ))
        (.call .univ "h" .univ ["t", "s"] (.assign .univ))) := by
    intro proc site p entry found
    obtain rfl | rfl : proc = "g_'proc" ∨ proc = "h" := by simpa [Stmt.callSites] using site
    · cases (rfl : _ = some (1, CalleeEntry.mk "g" "g_'proc" false true)).symm.trans found
      rfl
    · cases (rfl : _ = none).symm.trans found
  obtain ⟨thm, proved⟩ := accepted.mpr resolved
  exact ⟨thm, proved, (assumed thm proved 1 _).mpr
    ⟨⟨"g_'proc", by simp [Stmt.callSites], _, rfl⟩, rfl⟩⟩

end BodyContext

end Monadize
