import Mathlib.Data.List.Induction
import Monadize.Proofs.Program.Documents

/-! Loading a description either keeps all of its declarations or names the first function that
repeats an earlier one.
-/

namespace Monadize.Program

variable {names procs : List Name} {functions : List FunctionDescription} {error : LoadError}

/-- A duplicate among the first functions comes before any other one. -/
theorem findDuplicate_append (names procs : List Name) (earlier rest : List FunctionDescription)
    : findDuplicate names procs (earlier ++ rest)
      = (findDuplicate names procs earlier).or
          (findDuplicate ((earlier.map (·.name)).reverse ++ names)
            ((earlier.map (·.proc)).reverse ++ procs) rest) := by
  induction earlier generalizing names procs with
  | nil => rfl
  | cons f earlier ih =>
      simp only [List.cons_append, findDuplicate, ih, List.map_cons, List.reverse_cons,
        List.append_assoc, List.nil_append]
      split
      · rfl
      · split <;> rfl

/-- A function is a duplicate by its name, or by its procedure if the name is new. -/
theorem findDuplicate_singleton_eq_some_iff {f : FunctionDescription}
    : findDuplicate names procs [f] = some error
      ↔ (f.name ∈ names ∧ error = .duplicateFunction f.name)
        ∨ (f.name ∉ names ∧ f.proc ∈ procs ∧ error = .duplicateProc f.proc) := by
  simp only [findDuplicate]
  split
  · simp_all [eq_comm]
  · split <;> simp_all [eq_comm]

/-- The duplicate found is the first one. -/
theorem findDuplicate_eq_some_iff
    : findDuplicate [] [] functions = some error
      ↔ ∃ earlier f later,
          functions = earlier ++ f :: later
          ∧ findDuplicate [] [] earlier = none
          ∧ findDuplicate (earlier.map (·.name)).reverse (earlier.map (·.proc)).reverse [f]
            = some error := by
  constructor
  · intro found
    -- from the last function on, so that nothing is declared before the list
    induction functions using List.reverseRecOn with
    | nil => cases found
    | append_singleton front last ih =>
        rw [findDuplicate_append, List.append_nil, List.append_nil] at found
        cases among : findDuplicate [] [] front with
        | none =>
            rw [among] at found
            exact ⟨front, last, [], rfl, among, found⟩
        | some other =>
            rw [among] at found
            cases found
            obtain ⟨earlier, f, later, rfl, fresh, repeated⟩ := ih among
            exact ⟨earlier, f, later ++ [last], by simp, fresh, repeated⟩
  · rintro ⟨earlier, f, later, rfl, fresh, repeated⟩
    have single := findDuplicate_append (earlier.map (·.name)).reverse
      (earlier.map (·.proc)).reverse [f] later
    rw [List.singleton_append, repeated] at single
    rw [findDuplicate_append, fresh, List.append_nil, List.append_nil, single]
    rfl

theorem ofDescription_eq_error_iff {tag : Nat} {d : Description}
    : ofDescription tag d = .error error ↔ findDuplicate [] [] d.functions = some error := by
  rw [ofDescription]
  split
  · next found => simp [found]
  · next fresh => simp [fresh]

/-- Loading succeeds exactly if names and procedures are distinct. The declarations are then those
of the description, in its order, and the environment has exactly their bodies. Otherwise the error
is about the first function whose name or procedure is one of an earlier function, and about its
name if both are.
-/
theorem ofDescription_keeps_declarations (tag : Nat) (d : Description)
    : (∀ text, Description.parse text = .ok d → parse tag text = ofDescription tag d)
      ∧ ((∃ program, ofDescription tag d = .ok program)
        ↔ (d.functions.map (·.name)).Nodup ∧ (d.functions.map (·.proc)).Nodup)
      ∧ (∀ program,
        ofDescription tag d = .ok program
        → program.file = d.file
          ∧ program.env.world = d.world
          ∧ program.functions
            = d.functions.map (fun f => ⟨f.name, f.proc, f.returnSlot, f.wrapper⟩)
          ∧ ∀ proc body,
            program.env.body? proc = some body
            ↔ ∃ f ∈ d.functions, f.proc = proc ∧ f.body = some body)
      ∧ ∀ error,
        ofDescription tag d = .error error
        ↔ ∃ earlier f later,
            d.functions = earlier ++ f :: later
            ∧ ((earlier.map (·.name)).Nodup ∧ (earlier.map (·.proc)).Nodup)
            ∧ ((f.name ∈ earlier.map (·.name) ∧ error = .duplicateFunction f.name)
              ∨ (f.name ∉ earlier.map (·.name) ∧ f.proc ∈ earlier.map (·.proc)
                ∧ error = .duplicateProc f.proc)) := by
  refine ⟨fun text decoded => ?_, ?_, fun program loaded => ?_, fun error => ?_⟩
  · rw [parse, decoded]
    rfl
  · simp only [ofDescription_eq_ok_iff, exists_and_left, exists_eq, and_true]
  · obtain ⟨⟨_, procs⟩, rfl⟩ := ofDescription_eq_ok_iff.mp loaded
    exact ⟨rfl, rfl, rfl, fun proc body => find?_bodies_eq_some_iff procs⟩
  · simp only [ofDescription_eq_error_iff, findDuplicate_eq_some_iff,
      findDuplicate_singleton_eq_some_iff, findDuplicate_nil_eq_none_iff, List.mem_reverse]

/-- The third function has the procedure of the first one; the last one would repeat a name. -/
def repeatingDescription : Description where
  file := "twice.c"
  world := "globals"
  functions := [
    ⟨"f", "p", some .skip, none, false⟩,
    ⟨"g", "q", none, none, true⟩,
    ⟨"h", "p", some .throw, some "ret", false⟩,
    ⟨"g", "r", none, none, false⟩]

theorem ofDescription_keeps_declarations_repeating
    : parse 0 repeatingDescription.text = .error (.duplicateProc "p")
      ∧ ∃ program,
          parse 0 escapedDescription.text = .ok program
          ∧ program.functions
            = [⟨"f", "f_'proc", some "ret", false⟩, ⟨"g", "g_'proc", none, true⟩]
          ∧ program.env.body? "g_'proc" = none := by
  obtain ⟨same, _, _, refused⟩ := ofDescription_keeps_declarations 0 repeatingDescription
  obtain ⟨same', accepted, kept, _⟩ := ofDescription_keeps_declarations 0 escapedDescription
  constructor
  · rw [same _ (Description.parse_text (by decide)), refused]
    exact ⟨repeatingDescription.functions.take 2, ⟨"h", "p", some .throw, some "ret", false⟩, _,
      rfl, by decide, .inr (by decide)⟩
  · obtain ⟨program, loaded⟩ := accepted.mpr (by decide)
    obtain ⟨_, _, functions, bodies⟩ := kept program loaded
    refine ⟨program, ?_, functions, ?_⟩
    · rw [same' _ (Description.parse_text (by decide)), loaded]
    · have bodiless : ∀ f ∈ escapedDescription.functions, f.proc = "g_'proc" → f.body = none := by
        decide
      apply Option.eq_none_iff_forall_ne_some.mpr
      intro body found
      obtain ⟨f, among, proc, has⟩ := (bodies _ _).mp found
      cases (bodiless f among proc).symm.trans has

end Monadize.Program
