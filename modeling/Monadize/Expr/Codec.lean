import Monadize.Expr.Basic
import Monadize.Json.Basic

/-! The JSON form of expressions. A form without parts is a string; any other is an object whose
only key names the form, with one part as it is, several unnamed parts in an array and named parts
in an object. -/

namespace Monadize

/-! ## Shared by expressions and statements -/

namespace Json

/-- A value under its tag. -/
def tagged (tag : String) (value : Json) : Json := mkObject [(tag, value)]

def ofNames (names : List Name) : Json := .array (names.map .string)

/-- A list of names, which takes one level of nesting. -/
def names? (room : Nat) (json : Json) : Option (List Name) := do
  let items ← json.array?
  if room = 0 then none else items.mapM text?

/-- A value that may be missing or null. -/
def optional? {α : Type} (read : Json → Option α) : Option Json → Option (Option α)
  | none => some none
  | some .null => some none
  | some json => (read json).map some

/-- The only content of a form without parts, when it is written as an object. -/
def unit? {α : Type} (value : α) : Json → Option α
  | .null => some value
  | _ => none

end Json

namespace Expr

mutual
def toJson : Expr → Json
  | .var name => .tagged "Var" (.string name)
  | .const name => .tagged "Const" (.string name)
  | .num value => .tagged "Num" (.nat value.toNat)
  | .bool true => .string "True"
  | .bool false => .string "False"
  | .not e => .tagged "Not" e.toJson
  | .and a b => .tagged "And" (.array [a.toJson, b.toJson])
  | .or a b => .tagged "Or" (.array [a.toJson, b.toJson])
  | .eq a b => .tagged "Eq" (.array [a.toJson, b.toJson])
  | .app fn args =>
      .tagged "App" (.mkObject [("func", fn.toJson), ("args", .array (toJsonAll args))])
  | .lam x none body =>
      .tagged "Lam" (.mkObject [("var", .string x), ("body", body.toJson)])
  | .lam x (some type) body =>
      .tagged "Lam"
        (.mkObject [("var", .string x), ("ty", .string type), ("body", body.toJson)])
  | .univ => .string "Univ"
  | .empty => .string "Empty"
  | .collect x body =>
      .tagged "Collect" (.mkObject [("var", .string x), ("body", body.toJson)])
  | .mem elem set => .tagged "Mem" (.mkObject [("elem", elem.toJson), ("set", set.toJson)])
  | .field state name =>
      .tagged "Field" (.mkObject [("state", state.toJson), ("field", .string name)])
  | .update state name value =>
      .tagged "Update"
        (.mkObject [("state", state.toJson), ("field", .string name), ("value", value.toJson)])
  | .arbitrary => .string "Arbitrary"

def toJsonAll : List Expr → List Json
  | [] => []
  | e :: es => e.toJson :: toJsonAll es
end

/-- Read an expression that may nest at most `room` objects and arrays. -/
def ofJson? : (room : Nat) → Json → Option Expr
  | _, .string "True" => some (.bool true)
  | _, .string "False" => some (.bool false)
  | _, .string "Univ" => some .univ
  | _, .string "Empty" => some .empty
  | _, .string "Arbitrary" => some .arbitrary
  | room + 1, .object [(some tag, value)] =>
      match tag, room with
      | "True", _ => value.unit? (.bool true)
      | "False", _ => value.unit? (.bool false)
      | "Univ", _ => value.unit? .univ
      | "Empty", _ => value.unit? .empty
      | "Arbitrary", _ => value.unit? .arbitrary
      | "Var", _ => value.text?.map .var
      | "Const", _ => value.text?.map .const
      | "Num", _ => do
          let n ← value.nat?
          if n < 2 ^ 64 then some (.num (UInt64.ofNat n)) else none
      | "Not", room => return .not (← ofJson? room value)
      | "And", room + 1 =>
          match value with
          | .array [a, b] => return .and (← ofJson? room a) (← ofJson? room b)
          | _ => none
      | "Or", room + 1 =>
          match value with
          | .array [a, b] => return .or (← ofJson? room a) (← ofJson? room b)
          | _ => none
      | "Eq", room + 1 =>
          match value with
          | .array [a, b] => return .eq (← ofJson? room a) (← ofJson? room b)
          | _ => none
      | "App", room + 1 =>
          match value.record? ["func", "args"] with
          | some [some fn, some (.array args)] =>
              match room with
              | 0 => none
              | room' + 1 => return .app (← ofJson? (room' + 1) fn) (← args.mapM (ofJson? room'))
          | _ => none
      | "Lam", room + 1 =>
          match value.record? ["var", "ty", "body"] with
          | some [some x, type, some body] =>
              return .lam (← x.text?) (← Json.optional? Json.text? type) (← ofJson? room body)
          | _ => none
      | "Collect", room + 1 =>
          match value.record? ["var", "body"] with
          | some [some x, some body] => return .collect (← x.text?) (← ofJson? room body)
          | _ => none
      | "Mem", room + 1 =>
          match value.record? ["elem", "set"] with
          | some [some elem, some set] => return .mem (← ofJson? room elem) (← ofJson? room set)
          | _ => none
      | "Field", room + 1 =>
          match value.record? ["state", "field"] with
          | some [some state, some name] => return .field (← ofJson? room state) (← name.text?)
          | _ => none
      | "Update", room + 1 =>
          match value.record? ["state", "field", "value"] with
          | some [some state, some name, some new] =>
              return .update (← ofJson? room state) (← name.text?) (← ofJson? room new)
          | _ => none
      | _, _ => none
  | _, _ => none

end Expr

end Monadize
