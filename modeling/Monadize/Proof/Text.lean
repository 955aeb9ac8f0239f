import Monadize.Proof.Theorem
import Monadize.Reduction.Normalize
import Monadize.Stmt.Text
import Monadize.Term.Text

/-! How judgements, theorems and reduction steps are written. -/

namespace Monadize

open Doc

namespace Judgement

def doc (total : Bool) (judgement : Judgement) : Doc :=
  group (nest 2 (
    match judgement with
    | .corres term stmt => corresDoc (term.doc .none true) (stmt.doc true)
    | .callCorres term proc => corresDoc (term.doc .none true) (callDoc proc)
    | .fnCorres k proc =>
        corresDoc (parens (ConstNames.none.doc k ++ text " m")) (callDoc proc)
    | .mono k => text "monotone" ++ line ++ ConstNames.none.doc k
    | .monoAll ks =>
        intersperse (text " ∧" ++ line)
          (ks.map fun k => text "monotone " ++ ConstNames.none.doc k)))
where
  corresDoc (m c : Doc) : Doc :=
    text ("corres " ++ (if total then "true" else "false") ++ " Γ") ++ line ++ m ++ line ++ c
  callDoc (proc : Name) : Doc := text ("(Call " ++ proc ++ ")")

/-- The text of a judgement on its own, which supposes termination. -/
def text (judgement : Judgement) : String := (judgement.doc true).render lineWidth

end Judgement

namespace Theorem

def hypDoc (entry : PlaceholderId × Hyp) : Doc :=
  Doc.text ((if entry.2.recursive then "IH" else "H") ++ " ?f" ++ toString entry.1 ++ " ~ "
    ++ entry.2.proc)

def doc (thm : Theorem) : Doc :=
  let hyps :=
    if thm.hyps.isEmpty then nil
    else intersperse (Doc.text "," ++ line) (thm.hyps.entries.map hypDoc) ++ line
  group (nest 2 (hyps ++ Doc.text "⊢ " ++ thm.judgement.doc thm.total))

/-- The text of a theorem, if pieces of text take the columns that `measure` says. -/
def textBy (measure : String → Nat) (thm : Theorem) : String := thm.doc.renderBy measure lineWidth

def text (thm : Theorem) : String := thm.textBy String.length

end Theorem

namespace Reduction

def doc (step : Reduction) : Doc :=
  group (nest 2
    (Doc.text (step.rule ++ ":") ++ line ++ step.before.doc .none false ++ line ++ Doc.text "~> "
      ++ step.after.doc .none false))

def text (step : Reduction) : String := step.doc.render lineWidth

end Reduction

end Monadize
