import Mathlib.Data.List.Nodup
import Monadize.Json.Writer
import Monadize.Proofs.Except
import Monadize.Proofs.FiniteMap
import Monadize.Run.Plan

/-! Names in loaded programs: every function and every procedure is declared once, so that
procedures, functions and constants determine one another.
-/

namespace Monadize

/-- A function description as a document. -/
def FunctionDescription.toJson (f : FunctionDescription) : Json :=
  .mkObject [
    ("name", .string f.name),
    ("proc", .string f.proc),
    ("body", (f.body.map Stmt.toJson).getD .null),
    ("return_slot", (f.returnSlot.map Json.string).getD .null),
    ("wrapper", .bool f.wrapper)]

/-- The text of a description. -/
def Description.text (d : Description) : String :=
  Json.render (.mkObject [
    ("file", .string d.file),
    ("world", .string d.world),
    ("functions", .array (d.functions.map FunctionDescription.toJson))])

namespace Program

/-- No duplicate is found if the names and the procedures are new and distinct, by induction on the
functions.
-/
theorem findDuplicate_eq_none_iff {names procs : List Name} {functions : List FunctionDescription}
    : findDuplicate names procs functions = none
      ↔ ((functions.map (·.name)).Nodup ∧ ∀ f ∈ functions, f.name ∉ names)
        ∧ (functions.map (·.proc)).Nodup ∧ ∀ f ∈ functions, f.proc ∉ procs := by
  induction functions generalizing names procs with
  | nil => simp [findDuplicate]
  | cons f rest ih =>
      have first : findDuplicate names procs (f :: rest) = none
          ↔ f.name ∉ names ∧ f.proc ∉ procs
            ∧ findDuplicate (f.name :: names) (f.proc :: procs) rest = none := by
        simp only [findDuplicate]
        split
        · simp_all
        · split <;> simp_all
      rw [first, ih]
      simp only [List.map_cons, List.nodup_cons, List.mem_map, List.mem_cons, not_or, not_exists,
        not_and, forall_eq_or_imp]
      grind

theorem findDuplicate_nil_eq_none_iff {functions : List FunctionDescription}
    : findDuplicate [] [] functions = none
      ↔ (functions.map (·.name)).Nodup ∧ (functions.map (·.proc)).Nodup := by
  simp [findDuplicate_eq_none_iff]

/-- A description is loaded if its names and procedures are distinct. -/
theorem ofDescription_eq_ok_iff {tag : Nat} {d : Description} {program : Program}
    : ofDescription tag d = .ok program
      ↔ ((d.functions.map (·.name)).Nodup ∧ (d.functions.map (·.proc)).Nodup)
        ∧ program = ⟨d.file, ⟨tag, d.world, bodies d.functions⟩, d.functions.map declaration⟩ := by
  rw [← findDuplicate_nil_eq_none_iff, ofDescription]
  split
  · next found => simp [found]
  · next fresh => simp [fresh, eq_comm]

/-- Every name and every procedure is declared once. -/
structure Distinct (program : Program) : Prop where
  names : (program.functions.map (·.name)).Nodup
  procs : (program.functions.map (·.proc)).Nodup

theorem distinct_of_parse {tag : Nat} {text : String} {program : Program}
    (parsed : parse tag text = .ok program)
    : program.Distinct := by
  have steps : Description.parse text >>= ofDescription tag = .ok program := parsed
  obtain ⟨description, _, loaded⟩ := bind_eq_ok_iff.mp steps
  obtain ⟨⟨names, procs⟩, rfl⟩ := ofDescription_eq_ok_iff.mp loaded
  constructor
  · simpa [declaration, Function.comp_def] using names
  · simpa [declaration, Function.comp_def] using procs

/-- Loading a text that is given by its characters. -/
theorem parse_ofList (tag : Nat) (chars : List Char)
    : parse tag (String.ofList chars)
      = match ((Json.readValue (chars.length + 1) chars).bind fun read =>
            if (Json.skipBlanks read.2).isEmpty then some read.1 else none).bind
              Description.ofJson? with
        | some description => ofDescription tag description
        | none => .error .malformed := by
  have read : Json.parse? (String.ofList chars)
      = (Json.readValue (chars.length + 1) chars).bind fun read =>
          if (Json.skipBlanks read.2).isEmpty then some read.1 else none := by
    unfold Json.parse?
    rw [String.toList_ofList]
    rfl
  rw [parse, Description.parse, ← read]
  cases (Json.parse? (String.ofList chars)).bind Description.ofJson? with
  | none => rfl
  | some description => rfl

namespace Distinct

variable {program : Program} (distinct : program.Distinct)

include distinct

theorem eq_of_name {d e : Declaration} (first : d ∈ program.functions)
    (second : e ∈ program.functions) (same : d.name = e.name)
    : d = e :=
  List.inj_on_of_nodup_map distinct.names first second same

/-- A program on its own finds the functions of its procedures. -/
theorem find?_procNames {proc name : Name}
    : (CallGraph.procNames program.functions .empty).find? proc = some name
      ↔ ∃ d ∈ program.functions, d.proc = proc ∧ d.name = name := by
  have keys : ((program.functions.map fun d => (d.proc, d.name)).map Prod.fst).Nodup := by
    rw [List.map_map]
    exact distinct.procs
  refine (FiniteMap.find?_ofList_eq_some_iff (FiniteMap.functional_of_nodup keys)).trans ?_
  simp only [List.mem_map, Prod.mk.injEq]

end Distinct

end Program

/-- Functions have constants of different names. -/
theorem Settings.constName_injective (settings : Settings)
    : Function.Injective settings.constName := by
  intro func other same
  have chars := congrArg String.toList same
  simp only [constName, String.toList_append, List.append_cancel_right_eq,
    List.append_cancel_left_eq] at chars
  exact String.toList_inj.mp chars

end Monadize
