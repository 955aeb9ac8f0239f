import Monadize.Expr.Basic

/-! Simplification of expressions with the boolean, membership, record and beta laws. Beta
reduction works on untyped expressions, so simplification need not come to an end: `simplify?`
bounds the depth of its recursion and answers `none` when the bound is reached. The bound of
`simplify` is beyond what a machine can nest, so that it cuts no simplification short that ends. -/

namespace Monadize

namespace Expr

/-! ## One node over simplified parts -/

def foldNot : Expr → Expr
  | .bool b => .bool (!b)
  | .not e => e
  | e => .not e

def foldAnd (a b : Expr) : Expr :=
  if a = .bool true then b
  else if b = .bool true then a
  else if a = .bool false ∨ b = .bool false then .bool false
  else if a = b then a
  else .and a b

def foldOr (a b : Expr) : Expr :=
  if a = .bool false then b
  else if b = .bool false then a
  else if a = .bool true ∨ b = .bool true then .bool true
  else if a = b then a
  else .or a b

/-- Two different numerals are not equal; of other expressions only equal ones are known to be. -/
def foldEq (a b : Expr) : Expr :=
  if a = b then .bool true
  else match a, b with
    | .num _, .num _ => .bool false
    | _, _ => .eq a b

def foldCollect (x : Name) : Expr → Expr
  | .bool true => .univ
  | .bool false => .empty
  | body => .collect x body

/-! ## The traversal -/

/-- Simplify, with at most `depth` nested calls. The element of a membership is substituted as it
stands, the argument of an abstraction after simplification. -/
def simplify? : (depth : Nat) → Expr → Option Expr
  | 0, _ => none
  | depth + 1, e =>
    match e with
    | .not e => return foldNot (← simplify? depth e)
    | .and a b => return foldAnd (← simplify? depth a) (← simplify? depth b)
    | .or a b => return foldOr (← simplify? depth a) (← simplify? depth b)
    | .eq a b => return foldEq (← simplify? depth a) (← simplify? depth b)
    | .mem elem set => do
        match ← simplify? depth set with
        | .univ => return .bool true
        | .empty => return .bool false
        | .collect x body => simplify? depth (body.subst x elem)
        | set => return .mem (← simplify? depth elem) set
    | .collect x body => return foldCollect x (← simplify? depth body)
    | .lam x type body => return .lam x type (← simplify? depth body)
    | .app fn args => do
        match ← simplify? depth fn, args with
        | .lam x _ body, [arg] => simplify? depth (body.subst x (← simplify? depth arg))
        | fn, args => return .app fn (← args.mapM (simplify? depth))
    | .field state name => do
        match ← simplify? depth state with
        | .update inner other value =>
            if other = name then return value else simplify? depth (.field inner name)
        | state => return .field state name
    | .update state name value =>
        return .update (← simplify? depth state) name (← simplify? depth value)
    | e => return e

/-- The depth to which expressions are simplified. -/
def simplifyDepth : Nat := Nat.pow 2 62

/-- Simplify. An expression whose simplification does not come to an end within `simplifyDepth`
stays as it is. -/
def simplify (e : Expr) : Expr := (simplify? simplifyDepth e).getD e

end Expr

end Monadize
