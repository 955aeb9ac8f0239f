import Monadize.Expr.Codec
import Monadize.Stmt.Basic

/-! The JSON form of statements, built like that of expressions. -/

namespace Monadize

namespace Stmt

def toJson : Stmt → Json
  | .skip => .string "Skip"
  | .seq a b => .tagged "Seq" (.array [a.toJson, b.toJson])
  | .assign update => .tagged "Assign" update.toJson
  | .cond set left right =>
      .tagged "Cond"
        (.mkObject [("guard", set.toJson), ("left", left.toJson), ("right", right.toJson)])
  | .tryCatch body handler => .tagged "Catch" (.array [body.toJson, handler.toJson])
  | .loop set body =>
      .tagged "While" (.mkObject [("guard", set.toJson), ("body", body.toJson)])
  | .throw => .string "Throw"
  | .guard set body =>
      .tagged "Guard" (.mkObject [("cond", set.toJson), ("body", body.toJson)])
  | .localInit update => .tagged "LocalInit" update.toJson
  | .spec rel => .tagged "Spec" rel.toJson
  | .guardedSpec set rel =>
      .tagged "GuardedSpec" (.mkObject [("cond", set.toJson), ("rel", rel.toJson)])
  | .call setup proc cleanup binders store =>
      .tagged "Call"
        (.mkObject
          [("setup", setup.toJson), ("proc", .string proc), ("cleanup", cleanup.toJson),
            ("result", .mkObject [("binders", .ofNames binders), ("body", store.toJson)])])
  | .dynCall setup target cleanup binders store =>
      .tagged "DynCall"
        (.mkObject
          [("setup", setup.toJson), ("target", target.toJson), ("cleanup", cleanup.toJson),
            ("result", .mkObject [("binders", .ofNames binders), ("body", store.toJson)])])

/-- Read a statement that may nest at most `room` objects and arrays. -/
def ofJson? : (room : Nat) → Json → Option Stmt
  | _, .string "Skip" => some .skip
  | _, .string "Throw" => some .throw
  | room + 1, .object [(some tag, value)] =>
      match tag, room with
      | "Skip", _ => value.unit? .skip
      | "Throw", _ => value.unit? .throw
      | "Assign", room => return .assign (← Expr.ofJson? room value)
      | "LocalInit", room => return .localInit (← Expr.ofJson? room value)
      | "Spec", room => return .spec (← Expr.ofJson? room value)
      | "Seq", room + 1 =>
          match value with
          | .array [a, b] => return .seq (← ofJson? room a) (← ofJson? room b)
          | _ => none
      | "Catch", room + 1 =>
          match value with
          | .array [a, b] => return .tryCatch (← ofJson? room a) (← ofJson? room b)
          | _ => none
      | "Cond", room + 1 =>
          match value.record? ["guard", "left", "right"] with
          | some [some set, some left, some right] =>
              return .cond (← Expr.ofJson? room set) (← ofJson? room left) (← ofJson? room right)
          | _ => none
      | "While", room + 1 =>
          match value.record? ["guard", "body"] with
          | some [some set, some body] =>
              return .loop (← Expr.ofJson? room set) (← ofJson? room body)
          | _ => none
      | "Guard", room + 1 =>
          match value.record? ["cond", "body"] with
          | some [some set, some body] =>
              return .guard (← Expr.ofJson? room set) (← ofJson? room body)
          | _ => none
      | "GuardedSpec", room + 1 =>
          match value.record? ["cond", "rel"] with
          | some [some set, some rel] =>
              return .guardedSpec (← Expr.ofJson? room set) (← Expr.ofJson? room rel)
          | _ => none
      | "Call", room + 2 =>
          match value.record? ["setup", "proc", "cleanup", "result"] with
          | some [some setup, some proc, some cleanup, some result] =>
              match result.record? ["binders", "body"] with
              | some [some binders, some store] =>
                  return .call (← Expr.ofJson? (room + 1) setup) (← proc.text?)
                    (← Expr.ofJson? (room + 1) cleanup) (← binders.names? room)
                    (← ofJson? room store)
              | _ => none
          | _ => none
      | "DynCall", room + 2 =>
          match value.record? ["setup", "target", "cleanup", "result"] with
          | some [some setup, some target, some cleanup, some result] =>
              match result.record? ["binders", "body"] with
              | some [some binders, some store] =>
                  return .dynCall (← Expr.ofJson? (room + 1) setup)
                    (← Expr.ofJson? (room + 1) target) (← Expr.ofJson? (room + 1) cleanup)
                    (← binders.names? room) (← ofJson? room store)
              | _ => none
          | _ => none
      | _, _ => none
  | _, _ => none

end Stmt

end Monadize
