import Monadize.Proofs.Program
import Monadize.Proofs.Stmt.Codec

/-! Programs are loaded from their documents: every function is declared with the body that was
written.
-/

namespace Monadize

/-- A part that cannot be null is read as one that is there. -/
theorem Json.optional?_of_eq_some {α : Type} {read : Json → Option α} {json : Json} {value : α}
    (refused : read .null = none) (found : read json = some value)
    : Json.optional? read (some json) = some (some value) := by
  cases json with
  | null => cases refused.symm.trans found
  | _ => simp [Json.optional?, found]

namespace FunctionDescription

theorem plain_toJson (f : FunctionDescription) : f.toJson.Plain := by
  obtain ⟨name, proc, body, returnSlot, wrapper⟩ := f
  have bodyPlain : ((body.map Stmt.toJson).getD .null).Plain := by
    cases body with
    | none => exact .null
    | some body => exact body.plain_toJson
  have slotPlain : ((returnSlot.map Json.string).getD .null).Plain := by
    cases returnSlot with
    | none => exact .null
    | some slot => exact .string slot
  exact .object (by simp [bodyPlain, slotPlain, Json.Plain.string, Json.Plain.bool])

theorem ofJson?_toJson {f : FunctionDescription} {room : Nat} (shallow : f.toJson.nesting ≤ room)
    : ofJson? room f.toJson = some f := by
  obtain ⟨name, proc, body, returnSlot, wrapper⟩ := f
  have deep : ((body.map Stmt.toJson).getD .null).nesting + 1 ≤ room := by
    cases returnSlot <;> simpa [toJson] using shallow
  obtain ⟨room, rfl⟩ : ∃ more, room = more + 1 := ⟨room - 1, by omega⟩
  have step : ofJson? (room + 1) (toJson ⟨name, proc, body, returnSlot, wrapper⟩)
      = (Json.optional? (Stmt.ofJson? room) (some ((body.map Stmt.toJson).getD .null))).bind
          fun body =>
            (Json.optional? Json.text? (some ((returnSlot.map Json.string).getD .null))).bind
              fun returnSlot => some ⟨name, proc, body, returnSlot, wrapper⟩ := rfl
  have bodyRead : Json.optional? (Stmt.ofJson? room) (some ((body.map Stmt.toJson).getD .null))
      = some body := by
    cases body with
    | none => rfl
    | some body =>
        refine Json.optional?_of_eq_some (by cases room <;> rfl) (Stmt.ofJson?_toJson ?_)
        exact Nat.le_of_succ_le_succ deep
  have slotRead : Json.optional? Json.text? (some ((returnSlot.map Json.string).getD .null))
      = some returnSlot := by
    cases returnSlot <;> rfl
  rw [step, bodyRead, slotRead]
  rfl

end FunctionDescription

namespace Description

/-- A description as a document. -/
def toJson (d : Description) : Json :=
  .mkObject [
    ("file", .string d.file),
    ("world", .string d.world),
    ("functions", .array (d.functions.map FunctionDescription.toJson))]

theorem plain_toJson (d : Description) : d.toJson.Plain := by
  have all : (Json.array (d.functions.map FunctionDescription.toJson)).Plain := by
    refine .array fun item among => ?_
    obtain ⟨f, _, rfl⟩ := List.mem_map.mp among
    exact f.plain_toJson
  exact .object (by simp [all, Json.Plain.string])

theorem ofJson?_toJson {d : Description} (shallow : d.toJson.nesting ≤ maxNesting)
    : ofJson? d.toJson = some d := by
  have deep : Json.nestingItems (d.functions.map FunctionDescription.toJson) + 2 ≤ maxNesting :=
    Nat.le_trans (Nat.le_of_eq (by simp [toJson])) shallow
  have all : (d.functions.map FunctionDescription.toJson).mapM
      (FunctionDescription.ofJson? (maxNesting - 2)) = some d.functions := by
    refine Json.mapM_decode fun f among => FunctionDescription.ofJson?_toJson ?_
    have := Json.nesting_le_nestingItems
      (List.mem_map_of_mem (f := FunctionDescription.toJson) among)
    omega
  have step : ofJson? d.toJson
      = ((d.functions.map FunctionDescription.toJson).mapM
          (FunctionDescription.ofJson? (maxNesting - 2))).bind fun functions =>
            some ⟨d.file, d.world, functions⟩ := rfl
  rw [step, all]
  rfl

theorem parse_text {d : Description} (shallow : d.toJson.nesting ≤ maxNesting)
    : Description.parse d.text = .ok d := by
  have text : d.text = d.toJson.render := rfl
  have read := (Json.parse?_render d.plain_toJson)
  simp [Description.parse, text, read, ofJson?_toJson shallow]

end Description

namespace Program

/-- With distinct procedures, the bodies are those of the functions that have one. -/
theorem find?_bodies_eq_some_iff {functions : List FunctionDescription}
    (procs : (functions.map (·.proc)).Nodup) {proc : Name} {body : Stmt}
    : (bodies functions).find? proc = some body
      ↔ ∃ f ∈ functions, f.proc = proc ∧ f.body = some body := by
  have entries : ∀ proc body,
      (proc, body) ∈ functions.filterMap (fun g => g.body.map fun body => (g.proc, body))
        ↔ ∃ g ∈ functions, g.proc = proc ∧ g.body = some body := by
    intro proc body
    simp only [List.mem_filterMap, Option.map_eq_some_iff, Prod.mk.injEq]
    grind
  have functional : FiniteMap.Functional
      (functions.filterMap fun g => g.body.map fun body => (g.proc, body)) := by
    intro proc body body' first second
    obtain ⟨g, there, rfl, holds⟩ := (entries proc body).mp first
    obtain ⟨g', there', same, holds'⟩ := (entries g.proc body').mp second
    cases List.inj_on_of_nodup_map procs there' there same
    exact Option.some.inj (holds.symm.trans holds')
  rw [bodies, FiniteMap.find?_ofList_eq_some_iff functional, entries]

/-- With distinct procedures, a procedure has the body of its function. -/
theorem find?_bodies {functions : List FunctionDescription}
    (procs : (functions.map (·.proc)).Nodup) {f : FunctionDescription} (among : f ∈ functions)
    : (bodies functions).find? f.proc = f.body := by
  apply Option.ext
  intro body
  rw [find?_bodies_eq_some_iff procs]
  constructor
  · rintro ⟨g, there, same, holds⟩
    cases List.inj_on_of_nodup_map procs there among same
    exact holds
  · intro holds
    exact ⟨f, among, rfl, holds⟩

/-- A program is loaded from the text of its description if names and procedures are distinct and
the text nests less than 128 deep. Then every procedure has exactly the body that was written.
-/
theorem exists_parse_text (tag : Nat) (d : Description)
    (names : (d.functions.map (·.name)).Nodup) (procs : (d.functions.map (·.proc)).Nodup)
    (shallow : d.toJson.nesting < 128)
    : ∃ program,
        parse tag d.text = .ok program
        ∧ ∀ f ∈ d.functions, program.env.body? f.proc = f.body := by
  have description := Description.parse_text (Nat.le_of_lt_succ shallow)
  have unique : findDuplicate [] [] d.functions = none :=
    findDuplicate_eq_none_iff.mpr ⟨⟨names, by simp⟩, procs, by simp⟩
  refine ⟨⟨d.file, ⟨tag, d.world, bodies d.functions⟩, d.functions.map declaration⟩, ?_, ?_⟩
  · rw [parse, description]
    simp [Except.bind, ofDescription, unique]
  · intro f among
    exact find?_bodies procs among

/-- A program with a name that has to be escaped and the largest numeral. -/
def escapedDescription : Description where
  file := "loop.c"
  world := "globals \"myvars\""
  functions := [
    ⟨"f", "f_'proc",
      some (.loop
        (.collect "s\n" (.not (.eq (.field (.var "s\n") "π\u0001") (.num 18446744073709551615))))
        (.dynCall .univ (.app (.const "tab") [.var "i", .arbitrary]) .empty ["t", "s"]
          (.assign (.lam "s" (some "w") (.update (.var "s") "x\\y" (.bool false)))))),
      some "ret", false⟩,
    ⟨"g", "g_'proc", none, none, true⟩]

theorem exists_parse_text_escaped
    : ∃ program,
        parse 0 escapedDescription.text = .ok program
        ∧ ∀ f ∈ escapedDescription.functions, program.env.body? f.proc = f.body :=
  exists_parse_text 0 escapedDescription (by decide) (by decide) (by decide)

end Program

end Monadize
