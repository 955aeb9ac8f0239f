import Monadize.Expr.Text
import Monadize.Term.Basic

/-! How monadic terms are written. Constants are written by the name they are registered under,
or by their index if there is none. -/

namespace Monadize

open Doc

/-- What is known of the names of constants. -/
abbrev ConstNames := ConstId → Option Name

/-- No names are known. -/
def ConstNames.none : ConstNames := fun _ => Option.none

def ConstNames.doc (names : ConstNames) (k : ConstId) : Doc :=
  match names k with
  | some name => ofString name
  | Option.none => text ("c" ++ toString k)

def CalleeRef.doc (names : ConstNames) : CalleeRef → Doc
  | .placeholder p => text ("?f" ++ toString p)
  | .const k => names.doc k

def MeasureArg.doc : MeasureArg → Doc
  | .pred m => text ("(m" ++ toString m ++ " - 1)")
  | .managed => text "measure_call"
  | .unused => text "arbitrary"

def Callee.doc (names : ConstNames) (callee : Callee) : Doc :=
  parens (callee.target.doc names ++ text " " ++ callee.measure.doc)

namespace Term

/-- The document of a term, in parentheses if it stands in a `tight` place and is compound. -/
def doc (names : ConstNames) (tight : Bool) : Term → Doc
  | .skip => text "skip"
  | .throw => text "throw"
  | .fail => text "fail"
  | .seq a b => wrap (group (a.doc names true ++ text " >>=" ++ line ++ b.doc names true))
  | .modify update => wrap (text "modify" ++ line ++ update.doc true)
  | .guard pred => wrap (text "guard" ++ line ++ pred.doc true)
  | .init update => wrap (text "init" ++ line ++ update.doc true)
  | .spec rel => wrap (text "spec" ++ line ++ rel.doc true)
  | .condition pred left right =>
      wrap
        (text "condition" ++ line ++ pred.doc true ++ line ++ left.doc names true ++ line
          ++ right.doc names true)
  | .tryCatch body handler =>
      wrap (text "catch" ++ line ++ body.doc names true ++ line ++ handler.doc names true)
  | .loop pred body =>
      wrap (text "while" ++ line ++ pred.doc true ++ line ++ body.doc names true)
  | .call setup callee cleanup result =>
      wrap
        (text "call" ++ line ++ setup.doc true ++ line ++ callee.doc names ++ line
          ++ cleanup.doc true ++ line ++ result.doc true)
  | .recGuard measure body =>
      wrap (text ("recguard m" ++ toString measure) ++ line ++ body.doc names true)
where
  wrap (content : Doc) : Doc := parensIf tight (group (nest 2 content))

/-- The text of a term with named constants, if pieces of text take the columns that `measure`
says. -/
def textBy (measure : String → Nat) (names : ConstNames) (t : Term) : String :=
  (t.doc names false).renderBy measure lineWidth

/-- The text of a term with named constants. -/
def textWith (names : ConstNames) (t : Term) : String := t.textBy String.length names

def text (t : Term) : String := t.textWith .none

end Term

end Monadize
