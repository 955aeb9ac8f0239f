/-! Documents that are laid out within a line width. A document offers places to break lines; a
group breaks at none of them if what it holds fits on the line, and a place outside of every such
group always breaks. -/

namespace Monadize

inductive Doc where
  | nil
  /-- A piece of text that is not empty. -/
  | text (content : String)
  /-- A space, or a line break followed by the current indentation. -/
  | line
  | append (first second : Doc)
  /-- More indentation for the line breaks inside. -/
  | nest (columns : Nat) (content : Doc)
  | group (content : Doc)

namespace Doc

instance : Inhabited Doc := ⟨.nil⟩

instance : Append Doc := ⟨Doc.append⟩

/-- Text as a document; the empty text is the empty document. -/
def ofString (content : String) : Doc := if content.isEmpty then .nil else .text content

def parens (content : Doc) : Doc := .text "(" ++ content ++ .text ")"

def braces (content : Doc) : Doc := .text "\x7b" ++ content ++ .text "\x7d"

/-- The documents in order, with `separator` between any two. -/
def intersperse (separator : Doc) : List Doc → Doc
  | [] => .nil
  | [d] => d
  | d :: ds => d ++ separator ++ intersperse separator ds

/-- The number of steps that laying out takes at most. -/
def weight : Doc → Nat
  | .nil | .text _ | .line => 1
  | .append a b => a.weight + b.weight + 1
  | .nest _ d => d.weight + 1
  | .group d => d.weight + 1

/-- A document on the layout stack, with its indentation and whether it stands in a group that
fits. -/
structure Frame where
  indent : Nat
  flat : Bool
  doc : Doc

def stackWeight (stack : List Frame) : Nat := (stack.map (·.doc.weight)).foldr (· + ·) 0

/-- Does the stack fit within `width` up to its first line break, starting at `column`? A text
takes as many columns as `measure` says. -/
def fits (measure : String → Nat) (width column : Nat) (stack : List Frame) : Bool :=
  match stack with
  | [] => true
  | ⟨indent, flat, doc⟩ :: rest =>
      match doc with
      | .nil => fits measure width column rest
      | .text content =>
          if width < column + measure content then false
          else fits measure width (column + measure content) rest
      | .line =>
          if flat then
            if width < column + 1 then false else fits measure width (column + 1) rest
          else true
      | .append a b =>
          fits measure width column (⟨indent, flat, a⟩ :: ⟨indent, flat, b⟩ :: rest)
      | .nest k d => fits measure width column (⟨indent + k, flat, d⟩ :: rest)
      | .group d => fits measure width column (⟨indent, flat, d⟩ :: rest)
termination_by stackWeight stack
decreasing_by all_goals simp [stackWeight, weight]; try omega

/-- Lay out the stack after `output`, whose last line is `column` long. -/
def layout (measure : String → Nat) (width column : Nat) (stack : List Frame) (output : String)
    : String :=
  match stack with
  | [] => output
  | ⟨indent, flat, doc⟩ :: rest =>
      match doc with
      | .nil => layout measure width column rest output
      | .text content =>
          layout measure width (column + measure content) rest (output ++ content)
      | .line =>
          if flat then layout measure width (column + 1) rest (output.push ' ')
          else layout measure width indent rest ((output.push '\n').pushn ' ' indent)
      | .append a b =>
          layout measure width column (⟨indent, flat, a⟩ :: ⟨indent, flat, b⟩ :: rest) output
      | .nest k d => layout measure width column (⟨indent + k, flat, d⟩ :: rest) output
      | .group d =>
          let flat := flat || fits measure width column (⟨indent, true, d⟩ :: rest)
          layout measure width column (⟨indent, flat, d⟩ :: rest) output
termination_by stackWeight stack
decreasing_by all_goals simp [stackWeight, weight]; try omega

/-- Lay out a document, if texts take the columns that `measure` says. -/
def renderBy (measure : String → Nat) (width : Nat) (doc : Doc) : String :=
  layout measure width 0 [⟨0, false, doc⟩] ""

/-- Lay out a document, with a column for each code point. -/
def render (width : Nat) (doc : Doc) : String := doc.renderBy String.length width

end Doc

end Monadize
