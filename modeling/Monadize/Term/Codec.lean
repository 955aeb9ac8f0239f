import Monadize.Expr.Codec
import Monadize.Term.Basic

/-! The JSON form of monadic terms, built like that of statements. -/

namespace Monadize

def CalleeRef.toJson : CalleeRef → Json
  | .placeholder p => .tagged "Placeholder" (.nat p)
  | .const k => .tagged "Const" (.nat k)

def CalleeRef.ofJson? (json : Json) : Option CalleeRef :=
  match json with
  | .object [(some "Placeholder", .nat p)] => some (.placeholder p)
  | .object [(some "Const", .nat k)] => some (.const k)
  | _ => none

def MeasureArg.toJson : MeasureArg → Json
  | .pred m => .tagged "Pred" (.nat m)
  | .managed => .string "Managed"
  | .unused => .string "Unused"

def MeasureArg.ofJson? (json : Json) : Option MeasureArg :=
  match json with
  | .object [(some "Pred", .nat m)] => some (.pred m)
  | .string "Managed" => some .managed
  | .string "Unused" => some .unused
  | _ => none

def Callee.toJson (callee : Callee) : Json :=
  .mkObject [("target", callee.target.toJson), ("measure", callee.measure.toJson)]

def Callee.ofJson? (json : Json) : Option Callee := do
  match json.record? ["target", "measure"] with
  | some [some target, some measure] =>
      return ⟨← CalleeRef.ofJson? target, ← MeasureArg.ofJson? measure⟩
  | _ => none

namespace Term

def toJson : Term → Json
  | .skip => .string "Skip"
  | .throw => .string "Throw"
  | .fail => .string "Fail"
  | .seq a b => .tagged "Seq" (.array [a.toJson, b.toJson])
  | .tryCatch a b => .tagged "Catch" (.array [a.toJson, b.toJson])
  | .modify e => .tagged "Modify" e.toJson
  | .guard e => .tagged "Guard" e.toJson
  | .init e => .tagged "Init" e.toJson
  | .spec e => .tagged "Spec" e.toJson
  | .condition pred left right =>
      .tagged "Condition"
        (.mkObject [("pred", pred.toJson), ("left", left.toJson), ("right", right.toJson)])
  | .loop pred body => .tagged "While" (.mkObject [("pred", pred.toJson), ("body", body.toJson)])
  | .call setup callee cleanup result =>
      .tagged "Call"
        (.mkObject
          [("setup", setup.toJson), ("callee", callee.toJson), ("cleanup", cleanup.toJson),
            ("result", result.toJson)])
  | .recGuard measure body =>
      .tagged "RecGuard" (.mkObject [("measure", .nat measure), ("body", body.toJson)])

/-- Read a term that may nest at most `room` objects and arrays. -/
def ofJson? : (room : Nat) → Json → Option Term
  | _, .string "Skip" => some .skip
  | _, .string "Throw" => some .throw
  | _, .string "Fail" => some .fail
  | room + 1, .object [(some tag, value)] =>
      match tag with
      | "Modify" => return .modify (← Expr.ofJson? room value)
      | "Guard" => return .guard (← Expr.ofJson? room value)
      | "Init" => return .init (← Expr.ofJson? room value)
      | "Spec" => return .spec (← Expr.ofJson? room value)
      | "Seq" =>
          match value with
          | .array [a, b] => return .seq (← ofJson? room a) (← ofJson? room b)
          | _ => none
      | "Catch" =>
          match value with
          | .array [a, b] => return .tryCatch (← ofJson? room a) (← ofJson? room b)
          | _ => none
      | "Condition" =>
          match value.record? ["pred", "left", "right"] with
          | some [some pred, some left, some right] =>
              return .condition (← Expr.ofJson? room pred) (← ofJson? room left)
                (← ofJson? room right)
          | _ => none
      | "While" =>
          match value.record? ["pred", "body"] with
          | some [some pred, some body] =>
              return .loop (← Expr.ofJson? room pred) (← ofJson? room body)
          | _ => none
      | "Call" =>
          match value.record? ["setup", "callee", "cleanup", "result"] with
          | some [some setup, some callee, some cleanup, some result] =>
              return .call (← Expr.ofJson? room setup) (← Callee.ofJson? callee)
                (← Expr.ofJson? room cleanup) (← Expr.ofJson? room result)
          | _ => none
      | "RecGuard" =>
          match value.record? ["measure", "body"] with
          | some [some measure, some body] =>
              return .recGuard (← measure.nat?) (← ofJson? room body)
          | _ => none
      | _ => none
  | _, _ => none

end Term

end Monadize
