import Mathlib.Data.Option.Basic
import Monadize.Proofs.Json.RoundTrip
import Monadize.Stmt.Codec

/-! Expressions and statements are decoded from their JSON form, as long as it does not nest too
deep for the decoder.
-/

namespace Monadize

namespace Json

mutual
/-- How deep arrays and objects nest in a document. -/
def nesting : Json → Nat
  | .array items => nestingItems items + 1
  | .object members => nestingMembers members + 1
  | _ => 0

def nestingItems : List Json → Nat
  | [] => 0
  | item :: items => max item.nesting (nestingItems items)

def nestingMembers : List (Option String × Json) → Nat
  | [] => 0
  | (_, value) :: members => max value.nesting (nestingMembers members)
end

attribute [simp] nestingItems nestingMembers

@[simp] theorem nesting_null : nesting .null = 0 := rfl

@[simp] theorem nesting_bool (value : Bool) : nesting (.bool value) = 0 := rfl

@[simp] theorem nesting_string (text : String) : nesting (.string text) = 0 := rfl

@[simp] theorem nesting_nat (value : Nat) : nesting (.nat value) = 0 := rfl

@[simp] theorem nesting_array (items : List Json) : nesting (.array items) = nestingItems items + 1 := rfl

@[simp] theorem nesting_mkObject (members : List (String × Json))
    : nesting (.mkObject members)
      = nestingMembers (members.map fun member => (some member.1, member.2)) + 1 := rfl

@[simp] theorem nesting_tagged (tag : String) (value : Json)
    : nesting (.tagged tag value) = value.nesting + 1 := by
  simp [tagged, nesting_mkObject, nestingMembers]

theorem nesting_le_nestingItems {items : List Json} {item : Json} (among : item ∈ items)
    : item.nesting ≤ nestingItems items := by
  induction items with
  | nil => cases among
  | cons first items ih =>
      rw [nestingItems]
      rcases List.mem_cons.mp among with rfl | later
      · exact Nat.le_max_left _ _
      · exact Nat.le_trans (ih later) (Nat.le_max_right _ _)

theorem plain_array_pair {a b : Json} (first : a.Plain) (second : b.Plain)
    : (Json.array [a, b]).Plain :=
  .array (by simp [first, second])

theorem plain_tagged {tag : String} {value : Json} (plain : value.Plain)
    : (Json.tagged tag value).Plain :=
  .object (by simp [plain])

theorem plain_ofNames (names : List Name) : (ofNames names).Plain := by
  refine .array fun item among => ?_
  obtain ⟨name, _, rfl⟩ := List.mem_map.mp among
  exact .string name

/-- A list of encoded items is decoded if every item is. -/
theorem mapM_decode {α : Type} {encode : α → Json} {decode : Json → Option α} {items : List α}
    (each : ∀ item ∈ items, decode (encode item) = some item)
    : (items.map encode).mapM decode = some items := by
  induction items with
  | nil => rfl
  | cons item items ih =>
      have first := each item List.mem_cons_self
      have others := ih fun other among => each other (List.mem_cons_of_mem item among)
      rw [List.map_cons, List.mapM_cons, first, others]
      rfl

theorem names?_ofNames (room : Nat) (names : List Name)
    : (ofNames names).names? (room + 1) = some names :=
  mapM_decode fun _ _ => rfl

end Json

namespace Expr

theorem toJsonAll_eq_map (es : List Expr) : toJsonAll es = es.map toJson := by
  induction es with
  | nil => rfl
  | cons e es ih => rw [toJsonAll, ih, List.map_cons]

/-- An expression is decoded if there is room for its document, by induction on it. -/
theorem ofJson?_toJson {e : Expr} {room : Nat} (shallow : e.toJson.nesting ≤ room)
    : ofJson? room e.toJson = some e := by
  induction e generalizing room with
  | var name | const name =>
      have deep : 1 ≤ room :=
        Nat.le_trans (Nat.le_of_eq (by simp [toJson])) shallow
      obtain ⟨room, rfl⟩ : ∃ more, room = more + 1 := ⟨room - 1, by omega⟩
      rfl
  | num value =>
      have deep : 1 ≤ room :=
        Nat.le_trans (Nat.le_of_eq (by simp [toJson])) shallow
      obtain ⟨room, rfl⟩ : ∃ more, room = more + 1 := ⟨room - 1, by omega⟩
      have step : ofJson? (room + 1) (Expr.num value).toJson
          = if value.toNat < 2 ^ 64 then some (.num (UInt64.ofNat value.toNat)) else none := rfl
      rw [step, if_pos value.toNat_lt, UInt64.ofNat_toNat]
  | bool value => cases value <;> cases room <;> rfl
  | univ | empty | arbitrary => cases room <;> rfl
  | not e ih =>
      have deep : e.toJson.nesting + 1 ≤ room :=
        Nat.le_trans (Nat.le_of_eq (by simp [toJson])) shallow
      obtain ⟨room, rfl⟩ : ∃ more, room = more + 1 := ⟨room - 1, by omega⟩
      have step : ofJson? (room + 1) (Expr.not e).toJson
          = (ofJson? room e.toJson).bind fun e => some (.not e) := rfl
      rw [step, ih (by omega)]
      rfl
  | and a b iha ihb =>
      have deep : max a.toJson.nesting b.toJson.nesting + 2 ≤ room :=
        Nat.le_trans (Nat.le_of_eq (by simp [toJson])) shallow
      obtain ⟨room, rfl⟩ : ∃ more, room = more + 2 := ⟨room - 2, by omega⟩
      have step : ofJson? (room + 2) (Expr.and a b).toJson
          = (ofJson? room a.toJson).bind fun a =>
              (ofJson? room b.toJson).bind fun b => some (.and a b) := rfl
      rw [step, iha (by omega), ihb (by omega)]
      rfl
  | or a b iha ihb =>
      have deep : max a.toJson.nesting b.toJson.nesting + 2 ≤ room :=
        Nat.le_trans (Nat.le_of_eq (by simp [toJson])) shallow
      obtain ⟨room, rfl⟩ : ∃ more, room = more + 2 := ⟨room - 2, by omega⟩
      have step : ofJson? (room + 2) (Expr.or a b).toJson
          = (ofJson? room a.toJson).bind fun a =>
              (ofJson? room b.toJson).bind fun b => some (.or a b) := rfl
      rw [step, iha (by omega), ihb (by omega)]
      rfl
  | eq a b iha ihb =>
      have deep : max a.toJson.nesting b.toJson.nesting + 2 ≤ room :=
        Nat.le_trans (Nat.le_of_eq (by simp [toJson])) shallow
      obtain ⟨room, rfl⟩ : ∃ more, room = more + 2 := ⟨room - 2, by omega⟩
      have step : ofJson? (room + 2) (Expr.eq a b).toJson
          = (ofJson? room a.toJson).bind fun a =>
              (ofJson? room b.toJson).bind fun b => some (.eq a b) := rfl
      rw [step, iha (by omega), ihb (by omega)]
      rfl
  | app fn args ihf ihargs =>
      have deep : max fn.toJson.nesting (Json.nestingItems (toJsonAll args) + 1) + 2 ≤ room :=
        Nat.le_trans (Nat.le_of_eq (by simp [toJson])) shallow
      obtain ⟨room, rfl⟩ : ∃ more, room = more + 3 := ⟨room - 3, by omega⟩
      have step : ofJson? (room + 3) (Expr.app fn args).toJson
          = (ofJson? (room + 1) fn.toJson).bind fun fn =>
              ((toJsonAll args).mapM (ofJson? room)).bind fun args => some (.app fn args) := rfl
      have all : (toJsonAll args).mapM (ofJson? room) = some args := by
        rw [toJsonAll_eq_map] at deep ⊢
        refine Json.mapM_decode fun arg among => ihargs arg among ?_
        have := Json.nesting_le_nestingItems (List.mem_map_of_mem (f := toJson) among)
        omega
      rw [step, ihf (by omega), all]
      rfl
  | lam x type body ih =>
      have deep : body.toJson.nesting + 2 ≤ room :=
        Nat.le_trans (Nat.le_of_eq (by cases type <;> simp [toJson])) shallow
      obtain ⟨room, rfl⟩ : ∃ more, room = more + 2 := ⟨room - 2, by omega⟩
      have step : ofJson? (room + 2) (Expr.lam x type body).toJson
          = (ofJson? room body.toJson).bind fun body => some (.lam x type body) := by
        cases type <;> rfl
      rw [step, ih (by omega)]
      rfl
  | collect x body ih =>
      have deep : body.toJson.nesting + 2 ≤ room :=
        Nat.le_trans (Nat.le_of_eq (by simp [toJson])) shallow
      obtain ⟨room, rfl⟩ : ∃ more, room = more + 2 := ⟨room - 2, by omega⟩
      have step : ofJson? (room + 2) (Expr.collect x body).toJson
          = (ofJson? room body.toJson).bind fun body => some (.collect x body) := rfl
      rw [step, ih (by omega)]
      rfl
  | mem elem set ihe ihs =>
      have deep : max elem.toJson.nesting set.toJson.nesting + 2 ≤ room :=
        Nat.le_trans (Nat.le_of_eq (by simp [toJson])) shallow
      obtain ⟨room, rfl⟩ : ∃ more, room = more + 2 := ⟨room - 2, by omega⟩
      have step : ofJson? (room + 2) (Expr.mem elem set).toJson
          = (ofJson? room elem.toJson).bind fun elem =>
              (ofJson? room set.toJson).bind fun set => some (.mem elem set) := rfl
      rw [step, ihe (by omega), ihs (by omega)]
      rfl
  | field state name ih =>
      have deep : state.toJson.nesting + 2 ≤ room :=
        Nat.le_trans (Nat.le_of_eq (by simp [toJson])) shallow
      obtain ⟨room, rfl⟩ : ∃ more, room = more + 2 := ⟨room - 2, by omega⟩
      have step : ofJson? (room + 2) (Expr.field state name).toJson
          = (ofJson? room state.toJson).bind fun state => some (.field state name) := rfl
      rw [step, ih (by omega)]
      rfl
  | update state name value ihs ihv =>
      have deep : max state.toJson.nesting value.toJson.nesting + 2 ≤ room :=
        Nat.le_trans (Nat.le_of_eq (by simp [toJson])) shallow
      obtain ⟨room, rfl⟩ : ∃ more, room = more + 2 := ⟨room - 2, by omega⟩
      have step : ofJson? (room + 2) (Expr.update state name value).toJson
          = (ofJson? room state.toJson).bind fun state =>
              (ofJson? room value.toJson).bind fun value => some (.update state name value) := rfl
      rw [step, ihs (by omega), ihv (by omega)]
      rfl

theorem plain_toJson (e : Expr) : e.toJson.Plain := by
  induction e with
  | var name => exact Json.plain_tagged (.string name)
  | const name => exact Json.plain_tagged (.string name)
  | num value => exact Json.plain_tagged (.nat value.toNat)
  | bool value =>
      cases value
      · exact .string "False"
      · exact .string "True"
  | not e ih => exact Json.plain_tagged ih
  | and a b iha ihb => exact Json.plain_tagged (Json.plain_array_pair iha ihb)
  | or a b iha ihb => exact Json.plain_tagged (Json.plain_array_pair iha ihb)
  | eq a b iha ihb => exact Json.plain_tagged (Json.plain_array_pair iha ihb)
  | app fn args ihf ihargs =>
      have all : (Json.array (toJsonAll args)).Plain := by
        refine .array fun item among => ?_
        rw [toJsonAll_eq_map] at among
        obtain ⟨arg, inside, rfl⟩ := List.mem_map.mp among
        exact ihargs arg inside
      exact Json.plain_tagged (.object (by simp [ihf, all]))
  | lam x type body ih =>
      cases type
      · exact Json.plain_tagged (.object (by simp [ih, Json.Plain.string]))
      · exact Json.plain_tagged (.object (by simp [ih, Json.Plain.string]))
  | univ => exact .string "Univ"
  | empty => exact .string "Empty"
  | collect x body ih => exact Json.plain_tagged (.object (by simp [ih, Json.Plain.string]))
  | mem elem set ihe ihs => exact Json.plain_tagged (.object (by simp [ihe, ihs]))
  | field state name ih => exact Json.plain_tagged (.object (by simp [ih, Json.Plain.string]))
  | update state name value ihs ihv =>
      exact Json.plain_tagged (.object (by simp [ihs, ihv, Json.Plain.string]))
  | arbitrary => exact .string "Arbitrary"

end Expr

namespace Stmt

theorem plain_toJson (s : Stmt) : s.toJson.Plain := by
  induction s with
  | skip => exact .string "Skip"
  | throw => exact .string "Throw"
  | seq a b iha ihb => exact Json.plain_tagged (Json.plain_array_pair iha ihb)
  | tryCatch a b iha ihb => exact Json.plain_tagged (Json.plain_array_pair iha ihb)
  | assign e => exact Json.plain_tagged e.plain_toJson
  | localInit e => exact Json.plain_tagged e.plain_toJson
  | spec e => exact Json.plain_tagged e.plain_toJson
  | cond set left right ihl ihr =>
      exact Json.plain_tagged (.object (by simp [ihl, ihr, set.plain_toJson]))
  | loop set body ih => exact Json.plain_tagged (.object (by simp [ih, set.plain_toJson]))
  | guard set body ih => exact Json.plain_tagged (.object (by simp [ih, set.plain_toJson]))
  | guardedSpec set rel =>
      exact Json.plain_tagged (.object (by simp [set.plain_toJson, rel.plain_toJson]))
  | call setup proc cleanup binders store ih =>
      have result : (Json.mkObject [("binders", .ofNames binders), ("body", store.toJson)]).Plain :=
        .object (by simp [ih, Json.plain_ofNames])
      exact Json.plain_tagged
        (.object (by simp [result, setup.plain_toJson, cleanup.plain_toJson, Json.Plain.string]))
  | dynCall setup target cleanup binders store ih =>
      have result : (Json.mkObject [("binders", .ofNames binders), ("body", store.toJson)]).Plain :=
        .object (by simp [ih, Json.plain_ofNames])
      exact Json.plain_tagged
        (.object (by
          simp [result, setup.plain_toJson, target.plain_toJson, cleanup.plain_toJson]))

/-- A statement is decoded if there is room for its document, by induction on it. -/
theorem ofJson?_toJson {s : Stmt} {room : Nat} (shallow : s.toJson.nesting ≤ room)
    : ofJson? room s.toJson = some s := by
  induction s generalizing room with
  | skip | throw => cases room <;> rfl
  | seq a b iha ihb =>
      have deep : max a.toJson.nesting b.toJson.nesting + 2 ≤ room :=
        Nat.le_trans (Nat.le_of_eq (by simp [toJson])) shallow
      obtain ⟨room, rfl⟩ : ∃ more, room = more + 2 := ⟨room - 2, by omega⟩
      have step : ofJson? (room + 2) (Stmt.seq a b).toJson
          = (ofJson? room a.toJson).bind fun a =>
              (ofJson? room b.toJson).bind fun b => some (.seq a b) := rfl
      rw [step, iha (by omega), ihb (by omega)]
      rfl
  | tryCatch a b iha ihb =>
      have deep : max a.toJson.nesting b.toJson.nesting + 2 ≤ room :=
        Nat.le_trans (Nat.le_of_eq (by simp [toJson])) shallow
      obtain ⟨room, rfl⟩ : ∃ more, room = more + 2 := ⟨room - 2, by omega⟩
      have step : ofJson? (room + 2) (Stmt.tryCatch a b).toJson
          = (ofJson? room a.toJson).bind fun a =>
              (ofJson? room b.toJson).bind fun b => some (.tryCatch a b) := rfl
      rw [step, iha (by omega), ihb (by omega)]
      rfl
  | assign update =>
      have deep : update.toJson.nesting + 1 ≤ room :=
        Nat.le_trans (Nat.le_of_eq (by simp [toJson])) shallow
      obtain ⟨room, rfl⟩ : ∃ more, room = more + 1 := ⟨room - 1, by omega⟩
      have step : ofJson? (room + 1) (Stmt.assign update).toJson
          = (Expr.ofJson? room update.toJson).bind fun update => some (.assign update) := rfl
      rw [step, Expr.ofJson?_toJson (by omega)]
      rfl
  | localInit update =>
      have deep : update.toJson.nesting + 1 ≤ room :=
        Nat.le_trans (Nat.le_of_eq (by simp [toJson])) shallow
      obtain ⟨room, rfl⟩ : ∃ more, room = more + 1 := ⟨room - 1, by omega⟩
      have step : ofJson? (room + 1) (Stmt.localInit update).toJson
          = (Expr.ofJson? room update.toJson).bind fun update => some (.localInit update) := rfl
      rw [step, Expr.ofJson?_toJson (by omega)]
      rfl
  | spec rel =>
      have deep : rel.toJson.nesting + 1 ≤ room :=
        Nat.le_trans (Nat.le_of_eq (by simp [toJson])) shallow
      obtain ⟨room, rfl⟩ : ∃ more, room = more + 1 := ⟨room - 1, by omega⟩
      have step : ofJson? (room + 1) (Stmt.spec rel).toJson
          = (Expr.ofJson? room rel.toJson).bind fun rel => some (.spec rel) := rfl
      rw [step, Expr.ofJson?_toJson (by omega)]
      rfl
  | cond set left right ihl ihr =>
      have deep : max set.toJson.nesting (max left.toJson.nesting right.toJson.nesting) + 2
          ≤ room :=
        Nat.le_trans (Nat.le_of_eq (by simp [toJson])) shallow
      obtain ⟨room, rfl⟩ : ∃ more, room = more + 2 := ⟨room - 2, by omega⟩
      have step : ofJson? (room + 2) (Stmt.cond set left right).toJson
          = (Expr.ofJson? room set.toJson).bind fun set =>
              (ofJson? room left.toJson).bind fun left =>
                (ofJson? room right.toJson).bind fun right => some (.cond set left right) := rfl
      rw [step, Expr.ofJson?_toJson (by omega), ihl (by omega), ihr (by omega)]
      rfl
  | loop set body ih =>
      have deep : max set.toJson.nesting body.toJson.nesting + 2 ≤ room :=
        Nat.le_trans (Nat.le_of_eq (by simp [toJson])) shallow
      obtain ⟨room, rfl⟩ : ∃ more, room = more + 2 := ⟨room - 2, by omega⟩
      have step : ofJson? (room + 2) (Stmt.loop set body).toJson
          = (Expr.ofJson? room set.toJson).bind fun set =>
              (ofJson? room body.toJson).bind fun body => some (.loop set body) := rfl
      rw [step, Expr.ofJson?_toJson (by omega), ih (by omega)]
      rfl
  | guard set body ih =>
      have deep : max set.toJson.nesting body.toJson.nesting + 2 ≤ room :=
        Nat.le_trans (Nat.le_of_eq (by simp [toJson])) shallow
      obtain ⟨room, rfl⟩ : ∃ more, room = more + 2 := ⟨room - 2, by omega⟩
      have step : ofJson? (room + 2) (Stmt.guard set body).toJson
          = (Expr.ofJson? room set.toJson).bind fun set =>
              (ofJson? room body.toJson).bind fun body => some (.guard set body) := rfl
      rw [step, Expr.ofJson?_toJson (by omega), ih (by omega)]
      rfl
  | guardedSpec set rel =>
      have deep : max set.toJson.nesting rel.toJson.nesting + 2 ≤ room :=
        Nat.le_trans (Nat.le_of_eq (by simp [toJson])) shallow
      obtain ⟨room, rfl⟩ : ∃ more, room = more + 2 := ⟨room - 2, by omega⟩
      have step : ofJson? (room + 2) (Stmt.guardedSpec set rel).toJson
          = (Expr.ofJson? room set.toJson).bind fun set =>
              (Expr.ofJson? room rel.toJson).bind fun rel => some (.guardedSpec set rel) := rfl
      rw [step, Expr.ofJson?_toJson (by omega), Expr.ofJson?_toJson (by omega)]
      rfl
  | call setup proc cleanup binders store ih =>
      have deep : max setup.toJson.nesting (max cleanup.toJson.nesting
          (max (Json.nestingItems (binders.map .string) + 1) store.toJson.nesting + 1)) + 2
            ≤ room :=
        Nat.le_trans (Nat.le_of_eq (by simp [toJson, Json.ofNames])) shallow
      obtain ⟨room, rfl⟩ : ∃ more, room = more + 4 := ⟨room - 4, by omega⟩
      have step : ofJson? (room + 4) (Stmt.call setup proc cleanup binders store).toJson
          = (Expr.ofJson? (room + 2) setup.toJson).bind fun setup =>
              (Expr.ofJson? (room + 2) cleanup.toJson).bind fun cleanup =>
                ((Json.ofNames binders).names? (room + 1)).bind fun binders =>
                  (ofJson? (room + 1) store.toJson).bind fun store =>
                    some (.call setup proc cleanup binders store) := rfl
      rw [step, Expr.ofJson?_toJson (by omega), Expr.ofJson?_toJson (by omega),
        Json.names?_ofNames, ih (by omega)]
      rfl
  | dynCall setup target cleanup binders store ih =>
      have deep : max setup.toJson.nesting (max target.toJson.nesting (max cleanup.toJson.nesting
          (max (Json.nestingItems (binders.map .string) + 1) store.toJson.nesting + 1))) + 2
            ≤ room :=
        Nat.le_trans (Nat.le_of_eq (by simp [toJson, Json.ofNames])) shallow
      obtain ⟨room, rfl⟩ : ∃ more, room = more + 4 := ⟨room - 4, by omega⟩
      have step : ofJson? (room + 4) (Stmt.dynCall setup target cleanup binders store).toJson
          = (Expr.ofJson? (room + 2) setup.toJson).bind fun setup =>
              (Expr.ofJson? (room + 2) target.toJson).bind fun target =>
                (Expr.ofJson? (room + 2) cleanup.toJson).bind fun cleanup =>
                  ((Json.ofNames binders).names? (room + 1)).bind fun binders =>
                    (ofJson? (room + 1) store.toJson).bind fun store =>
                      some (.dynCall setup target cleanup binders store) := rfl
      rw [step, Expr.ofJson?_toJson (by omega), Expr.ofJson?_toJson (by omega),
        Expr.ofJson?_toJson (by omega), Json.names?_ofNames, ih (by omega)]
      rfl

end Stmt

end Monadize
