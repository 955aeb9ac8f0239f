import Monadize.Expr.Basic
import Monadize.Layout

/-! How expressions are written. -/

namespace Monadize

/-- The width within which everything is laid out. -/
def lineWidth : Nat := 100

namespace Doc

def parensIf (tight : Bool) (doc : Doc) : Doc := if tight then doc.parens else doc

/-- Two operands around an operator; the line may break before the operator. -/
def infixOp (tight : Bool) (left : Doc) (operator : String) (right : Doc) : Doc :=
  parensIf tight (group (nest 2 (left ++ line ++ text operator ++ text " " ++ right)))

end Doc

namespace Expr

open Doc in
mutual
/-- The document of an expression, in parentheses if it stands in a `tight` place and is
compound. -/
def doc (tight : Bool) : Expr → Doc
  | .var name => ofString name
  | .const name => ofString name
  | .num value => text (toString value.toNat)
  | .bool true => text "True"
  | .bool false => text "False"
  | .not e => text "¬" ++ e.doc true
  | .and a b => infixOp tight (a.doc true) "∧" (b.doc true)
  | .or a b => infixOp tight (a.doc true) "∨" (b.doc true)
  | .eq a b => infixOp tight (a.doc true) "=" (b.doc true)
  | .mem elem set => infixOp tight (elem.doc true) "∈" (set.doc true)
  | .app fn args =>
      parensIf (tight && !args.isEmpty) (group (nest 2 (fn.doc true ++ argsDoc args)))
  | .lam x type body =>
      let binder := match type with
        | some type => "λ" ++ x ++ "::" ++ type ++ "."
        | none => "λ" ++ x ++ "."
      parensIf tight (group (nest 2 (text binder ++ line ++ body.doc false)))
  | .univ => text "UNIV"
  | .empty => text "\x7b\x7d"
  | .collect x body => braces (nest 2 (text (x ++ ".") ++ line ++ body.doc false))
  | .field state name => state.doc true ++ text ("." ++ name)
  | .update state name value =>
      group
        (nest 2
          (state.doc true ++ text ("(|" ++ name ++ " :=") ++ line ++ value.doc false
            ++ text "|)"))
  | .arbitrary => text "arbitrary"

/-- Arguments, each on the same line or a line of its own. -/
def argsDoc : List Expr → Doc
  | [] => nil
  | arg :: args => line ++ arg.doc true ++ argsDoc args
end

/-- The text of an expression, if pieces of text take the columns that `measure` says. -/
def textBy (measure : String → Nat) (e : Expr) : String :=
  (e.doc false).renderBy measure lineWidth

def text (e : Expr) : String := e.textBy String.length

end Expr

end Monadize
