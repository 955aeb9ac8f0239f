import Monadize.Expr.Text
import Monadize.Stmt.Basic

/-! How statements are written. -/

namespace Monadize

open Doc

namespace Stmt

/-- The document of a statement, in parentheses if it stands in a `tight` place and is compound. -/
def doc (tight : Bool) : Stmt → Doc
  | .skip => text "SKIP"
  | .throw => text "THROW"
  | .seq a b =>
      wrap (group (a.doc true ++ text ";;" ++ line ++ b.doc true))
  | .assign update => wrap (text "Basic" ++ line ++ update.doc true)
  | .cond set left right =>
      wrap
        (text "IF " ++ set.doc false ++ line ++ text "THEN " ++ left.doc false ++ line
          ++ text "ELSE " ++ right.doc false ++ line ++ text "FI")
  | .tryCatch body handler =>
      wrap
        (text "TRY " ++ body.doc false ++ line ++ text "CATCH " ++ handler.doc false ++ line
          ++ text "END")
  | .loop set body =>
      wrap
        (text "WHILE " ++ set.doc false ++ text " DO" ++ line ++ body.doc false ++ line
          ++ text "OD")
  | .guard set body =>
      wrap (text "Guard" ++ line ++ set.doc true ++ line ++ body.doc true)
  | .localInit update => wrap (text "init" ++ line ++ update.doc true)
  | .spec rel => wrap (text "Spec" ++ line ++ rel.doc true)
  | .guardedSpec set rel =>
      wrap (text "guarded_spec" ++ line ++ set.doc true ++ line ++ rel.doc true)
  | .call setup proc cleanup binders store =>
      wrap
        (text "call" ++ line ++ setup.doc true ++ line ++ ofString proc ++ line
          ++ cleanup.doc true ++ line ++ parens (group (bindersDoc binders ++ store.doc true)))
  | .dynCall setup target cleanup binders store =>
      wrap
        (text "dynCall" ++ line ++ setup.doc true ++ line ++ target.doc true ++ line
          ++ cleanup.doc true ++ line ++ parens (group (bindersDoc binders ++ store.doc true)))
where
  wrap (content : Doc) : Doc := parensIf tight (group (nest 2 content))
  bindersDoc (binders : List Name) : Doc :=
    ofString (String.join (binders.map fun x => "λ" ++ x ++ ". "))

/-- The text of a statement, if pieces of text take the columns that `measure` says. -/
def textBy (measure : String → Nat) (stmt : Stmt) : String :=
  (stmt.doc false).renderBy measure lineWidth

def text (stmt : Stmt) : String := stmt.textBy String.length

end Stmt

namespace ResultStore

def doc (result : ResultStore) : Doc :=
  group (Stmt.doc.bindersDoc result.binders ++ result.body.doc true)

def text (result : ResultStore) : String := result.doc.render lineWidth

end ResultStore

end Monadize
