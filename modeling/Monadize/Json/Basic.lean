/-! JSON documents. Number literals and strings that stand for no natural number and no text are
kept apart from those that do, so that a reader can refuse them exactly where it needs a value. -/

namespace Monadize

inductive Json where
  | null
  | bool (value : Bool)
  /-- An integer literal without sign, fraction or exponent. -/
  | nat (value : Nat)
  /-- Any other number literal. -/
  | number (literal : String)
  | string (text : String)
  /-- A string literal that holds an unpaired surrogate escape and so stands for no text. -/
  | illFormed
  | array (items : List Json)
  /-- Members in the order written, also repeated ones; an ill-formed key has no text. -/
  | object (members : List (Option String × Json))

namespace Json

instance : Inhabited Json := ⟨.null⟩

/-- An object with the given members. -/
def mkObject (members : List (String × Json)) : Json :=
  .object (members.map fun member => (some member.1, member.2))

/-- The value of a member, if the document is an object that has it. -/
def get? (json : Json) (key : String) : Option Json :=
  match json with
  | .object members => (members.find? fun member => member.1 = some key).map (·.2)
  | _ => none

def text? : Json → Option String
  | .string text => some text
  | _ => none

def nat? : Json → Option Nat
  | .nat value => some value
  | _ => none

def bool? : Json → Option Bool
  | .bool value => some value
  | _ => none

def array? : Json → Option (List Json)
  | .array items => some items
  | _ => none

/-- The members with the given names, from an object or from an array that lists them in order.
An object may have further members but none of these twice; an array may end early. -/
def record? (names : List String) : Json → Option (List (Option Json))
  | .object members =>
      if members.all (·.1.isSome)
          && names.all fun name => (members.filter (·.1 = some name)).length ≤ 1 then
        some (names.map fun name => (members.find? (·.1 = some name)).map (·.2))
      else none
  | .array items =>
      if items.length ≤ names.length then
        some (items.map some ++ List.replicate (names.length - items.length) none)
      else none
  | _ => none

end Json

end Monadize
