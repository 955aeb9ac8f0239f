import Monadize.Proof.Text

/-! Laying out a document changes nothing but white space. However wide the lines are and however
texts are measured, the words are those of the document on one line; and a document whose line
breaks all stand in groups is laid out on that line if the line is short enough.
-/

namespace Monadize

/-! ## Words -/

/-- Characters that count as white space, with the space and the line break among them. -/
structure WhiteSpace where
  contains : Char → Bool
  space : contains ' ' = true
  lineBreak : contains '\n' = true

namespace WhiteSpace

variable (white : WhiteSpace)

/-- The characters with the property White_Space. -/
def unicode : WhiteSpace where
  contains c :=
    (9 ≤ c.toNat && c.toNat ≤ 13) || (0x2000 ≤ c.toNat && c.toNat ≤ 0x200A)
      || [0x20, 0x85, 0xA0, 0x1680, 0x2028, 0x2029, 0x202F, 0x205F, 0x3000].contains c.toNat
  space := by decide
  lineBreak := by decide

/-- The words among some characters: the pieces between white space that are not empty. -/
def pieces (chars : List Char) : List (List Char) :=
  (chars.splitOnP white.contains).filter (!·.isEmpty)

def words (text : String) : List String := (white.pieces text.toList).map String.ofList

/-- Pieces end at every blank. -/
theorem pieces_append_cons {c : Char} (blank : white.contains c = true) (before after : List Char)
    : white.pieces (before ++ c :: after) = white.pieces before ++ white.pieces after := by
  simp only [pieces, List.splitOnP_append_cons before after blank, List.filter_append]

/-- Blanks in front belong to no piece. -/
theorem pieces_append_of_blank {gap : List Char} (blank : ∀ c ∈ gap, white.contains c = true)
    (after : List Char)
    : white.pieces (gap ++ after) = white.pieces after := by
  induction gap with
  | nil => rfl
  | cons c gap ih =>
      have front := white.pieces_append_cons (blank c List.mem_cons_self) [] (gap ++ after)
      exact front.trans (ih fun d among => blank d (List.mem_cons_of_mem c among))

/-- A gap between two texts separates their words, however wide it is. -/
theorem words_of_gap {text before after : String} {gap : List Char}
    (shape : text.toList = before.toList ++ (gap ++ after.toList))
    (blank : ∀ c ∈ gap, white.contains c = true) (wide : gap ≠ [])
    : white.words text = white.words before ++ white.words after := by
  obtain ⟨c, gap, rfl⟩ := List.exists_cons_of_ne_nil wide
  have more : ∀ d ∈ gap, white.contains d = true :=
    fun d among => blank d (List.mem_cons_of_mem c among)
  rw [words, shape, List.cons_append, white.pieces_append_cons (blank c List.mem_cons_self),
    white.pieces_append_of_blank more, List.map_append]
  rfl

end WhiteSpace

theorem toList_pushn (text : String) (c : Char) (n : Nat)
    : (text.pushn c n).toList = text.toList ++ List.replicate n c := by
  induction n with
  | zero => simp [String.pushn, Nat.repeat]
  | succ n ih =>
      have step : text.pushn c (n + 1) = (text.pushn c n).push c := rfl
      rw [step, String.toList_push, ih, List.replicate_succ', List.append_assoc]

theorem push_space_append (before after : String)
    : before.push ' ' ++ after = before ++ (" " ++ after) := by
  rw [← String.toList_inj]
  simp

/-- A line break with its indentation separates words as a space does. -/
theorem WhiteSpace.words_broken (white : WhiteSpace) (before after : String) (indent : Nat)
    : white.words ((before.push '\n').pushn ' ' indent ++ after)
      = white.words (before ++ (" " ++ after)) := by
  have broken : ∀ c ∈ '\n' :: List.replicate indent ' ', white.contains c = true := by
    simp [white.lineBreak, white.space]
  have flat : ∀ c ∈ [' '], white.contains c = true := by simp [white.space]
  calc white.words ((before.push '\n').pushn ' ' indent ++ after)
      = white.words before ++ white.words after :=
        white.words_of_gap (by simp [toList_pushn]) broken (List.cons_ne_nil _ _)
    _ = white.words (before ++ (" " ++ after)) :=
        (white.words_of_gap (by simp) flat (List.cons_ne_nil _ _)).symm

namespace Doc

/-! ## Documents on one line -/

/-- A document on one line: every line break is a space. -/
def oneLine : Doc → String
  | .nil => ""
  | .text content => content
  | .line => " "
  | .append a b => a.oneLine ++ b.oneLine
  | .nest _ d => d.oneLine
  | .group d => d.oneLine

/-- The columns of a document on one line. -/
def columns (measure : String → Nat) : Doc → Nat
  | .nil => 0
  | .text content => measure content
  | .line => 1
  | .append a b => a.columns measure + b.columns measure
  | .nest _ d => d.columns measure
  | .group d => d.columns measure

/-- With a column for each character, the columns are the length of the line. -/
theorem columns_length (doc : Doc) : doc.columns String.length = doc.oneLine.length := by
  induction doc with
  | nil | text | line => rfl
  | append a b first second => simp only [columns, oneLine, String.length_append, first, second]
  | nest _ d ih => exact ih
  | group d ih => exact ih

/-- Every line break stands in a group. -/
def Grouped : Doc → Prop
  | .nil | .text _ | .group _ => True
  | .line => False
  | .append a b => a.Grouped ∧ b.Grouped
  | .nest _ d => d.Grouped

/-- All that is still to be laid out, on one line. -/
def stackLine : List Frame → String
  | [] => ""
  | frame :: rest => frame.doc.oneLine ++ stackLine rest

def stackColumns (measure : String → Nat) : List Frame → Nat
  | [] => 0
  | frame :: rest => frame.doc.columns measure + stackColumns measure rest

/-- No line break of the stack is left outside of groups and of what fits. -/
def Unbroken : List Frame → Prop
  | [] => True
  | frame :: rest => (frame.flat = true ∨ frame.doc.Grouped) ∧ Unbroken rest

variable {measure : String → Nat} {width column : Nat} {stack : List Frame}

/-! ## Laying out -/

/-- Each step of laying out keeps the words of what is written and what is to come. -/
theorem words_layout (white : WhiteSpace) (output : String)
    : white.words (layout measure width column stack output)
      = white.words (output ++ stackLine stack) := by
  fun_induction layout measure width column stack output with
  | case1 column output => simp [stackLine]
  | case2 column output indent flat rest ih => simpa [stackLine, oneLine] using ih
  | case3 column output indent flat rest content ih =>
      simpa [stackLine, oneLine, String.append_assoc] using ih
  | case4 column output indent rest ih =>
      rw [ih, push_space_append]
      rfl
  | case5 column output indent flat rest _ ih =>
      -- the one step that does not write the text of the line
      exact ih.trans (white.words_broken output (stackLine rest) indent)
  | case6 column output indent flat rest a b ih =>
      simpa [stackLine, oneLine, String.append_assoc] using ih
  | case7 column output indent flat rest k d ih => exact ih
  | case8 column output indent flat rest d _ ih => exact ih

/-- What is short enough on one line fits, wherever it may break. -/
theorem fits_of_columns_le (short : column + stackColumns measure stack ≤ width)
    : fits measure width column stack = true := by
  fun_induction fits measure width column stack with
  | case1 column => rfl
  | case2 column indent flat rest ih =>
      simp only [stackColumns, columns] at short
      exact ih (by omega)
  | case3 column indent flat rest content wide =>
      simp only [stackColumns, columns] at short
      omega
  | case4 column indent flat rest content _ ih =>
      simp only [stackColumns, columns] at short
      exact ih (by omega)
  | case5 column indent rest wide =>
      simp only [stackColumns, columns] at short
      omega
  | case6 column indent rest _ ih =>
      simp only [stackColumns, columns] at short
      exact ih (by omega)
  | case7 column indent flat rest broken => rfl
  | case8 column indent flat rest a b ih =>
      simp only [stackColumns, columns] at short
      exact ih (by simp only [stackColumns]; omega)
  | case9 column indent flat rest k d ih => exact ih short
  | case10 column indent flat rest d ih => exact ih short

/-- An unbroken stack that is short enough is laid out on one line: every group that it meets
fits.
-/
theorem layout_of_columns_le {output : String} (unbroken : Unbroken stack)
    (short : column + stackColumns measure stack ≤ width)
    : layout measure width column stack output = output ++ stackLine stack := by
  fun_induction layout measure width column stack output with
  | case1 column output => simp [stackLine]
  | case2 column output indent flat rest ih =>
      simp only [stackColumns, columns] at short
      rw [ih unbroken.2 (by omega)]
      simp [stackLine, oneLine]
  | case3 column output indent flat rest content ih =>
      simp only [stackColumns, columns] at short
      rw [ih unbroken.2 (by omega), String.append_assoc]
      rfl
  | case4 column output indent rest ih =>
      simp only [stackColumns, columns] at short
      rw [ih unbroken.2 (by omega), push_space_append]
      rfl
  | case5 column output indent flat rest broken ih =>
      cases unbroken.1 with
      | inl flat => exact (broken flat).elim
      | inr grouped => exact grouped.elim
  | case6 column output indent flat rest a b ih =>
      have both : Unbroken (⟨indent, flat, a⟩ :: ⟨indent, flat, b⟩ :: rest) :=
        ⟨unbroken.1.imp_right (·.1), unbroken.1.imp_right (·.2), unbroken.2⟩
      simp only [stackColumns, columns] at short
      rw [ih both (by simp only [stackColumns]; omega)]
      simp [stackLine, oneLine, String.append_assoc]
  | case7 column output indent flat rest k d ih => exact ih unbroken short
  | case8 column output indent flat rest d now ih =>
      -- what is looked at is no longer than the whole stack, which is short
      have fit : fits measure width column (⟨indent, true, d⟩ :: rest) = true :=
        fits_of_columns_le short
      exact ih ⟨.inl (by simp [now, fit]), unbroken.2⟩ short

theorem words_renderBy (white : WhiteSpace) (doc : Doc)
    : white.words (doc.renderBy measure width) = white.words doc.oneLine := by
  simp [renderBy, words_layout, stackLine]

theorem Grouped.renderBy_eq_oneLine {doc : Doc} (grouped : doc.Grouped)
    (short : doc.columns measure ≤ width)
    : doc.renderBy measure width = doc.oneLine := by
  have unbroken : Unbroken [⟨0, false, doc⟩] := ⟨.inr grouped, trivial⟩
  rw [renderBy, layout_of_columns_le unbroken (by simp only [stackColumns]; omega)]
  simp [stackLine]

/-! ## Texts of the library -/

theorem grouped_parensIf_group (tight : Bool) (doc : Doc)
    : (parensIf tight (group doc)).Grouped := by
  cases tight
  · exact trivial
  · exact ⟨⟨trivial, trivial⟩, trivial⟩

end Doc

open Doc

theorem Stmt.grouped_doc (tight : Bool) (s : Stmt) : (s.doc tight).Grouped := by
  cases s with
  | skip | throw => exact trivial
  | _ => exact grouped_parensIf_group tight _

theorem Term.grouped_doc (names : ConstNames) (tight : Bool) (t : Term)
    : (t.doc names tight).Grouped := by
  cases t with
  | skip | throw | fail => exact trivial
  | _ => exact grouped_parensIf_group tight _

theorem Theorem.grouped_doc (thm : Theorem) : thm.doc.Grouped := trivial

/-- However texts are measured, laying out changes only white space. Expressions, statements, terms
and theorems have the words they have on one line. Statements, terms and theorems that take at most
100 columns on one line are laid out on it.
-/
theorem text_differs_in_whiteSpace_only (white : WhiteSpace) (measure : String → Nat)
    : (∀ e : Expr, white.words (e.textBy measure) = white.words (e.doc false).oneLine)
      ∧ (∀ s : Stmt,
        white.words (s.textBy measure) = white.words (s.doc false).oneLine
        ∧ ((s.doc false).columns measure ≤ 100 → s.textBy measure = (s.doc false).oneLine))
      ∧ (∀ (names : ConstNames) (t : Term),
        white.words (t.textBy measure names) = white.words (t.doc names false).oneLine
        ∧ ((t.doc names false).columns measure ≤ 100
          → t.textBy measure names = (t.doc names false).oneLine))
      ∧ ∀ thm : Theorem,
        white.words (thm.textBy measure) = white.words thm.doc.oneLine
        ∧ (thm.doc.columns measure ≤ 100 → thm.textBy measure = thm.doc.oneLine) := by
  refine ⟨fun e => words_renderBy white _, fun s => ?_, fun names t => ?_, fun thm => ?_⟩
  · exact ⟨words_renderBy white _, (s.grouped_doc false).renderBy_eq_oneLine⟩
  · exact ⟨words_renderBy white _, (t.grouped_doc names false).renderBy_eq_oneLine⟩
  · exact ⟨words_renderBy white _, thm.grouped_doc.renderBy_eq_oneLine⟩

/-- A loop that is too wide for one line. -/
def wideLoop : Stmt :=
  .loop (.collect "s" (.not (.eq (.field (.var "s") "remaining_characters") (.num 0))))
    (.call (.lam "s" none (.update (.var "s") "argument" (.field (.var "s") "current_character")))
      "put_character_'proc" (.lam "s" none (.var "t")) ["t", "s"] (.assign (.var "s")))

theorem text_differs_in_whiteSpace_only_wideLoop
    : (wideLoop.text ≠ (wideLoop.doc false).oneLine
        ∧ WhiteSpace.unicode.words wideLoop.text
          = WhiteSpace.unicode.words (wideLoop.doc false).oneLine)
      ∧ (Stmt.seq .skip .throw).text = "SKIP;; THROW"
      ∧ (Term.seq (.modify (.var "f")) .throw).text = "(modify f) >>= throw"
      ∧ (Theorem.mk true ⟨0, "w", .empty⟩ (.mono 3) .empty none).text = "⊢ monotone c3" := by
  obtain ⟨_, stmts, terms, thms⟩ :=
    text_differs_in_whiteSpace_only WhiteSpace.unicode String.length
  refine ⟨⟨by decide +kernel, (stmts wideLoop).1⟩, ?_, ?_, ?_⟩
  · exact (stmts _).2 (by rw [columns_length]; decide)
  · exact (terms .none _).2 (by rw [columns_length]; decide)
  · exact (thms _).2 (by rw [columns_length]; decide)

/-- The line break of a comprehension is not in a group of its own. -/
example : (Expr.collect "s" (.var "s")).text = "\x7bs.\n  s\x7d" := by cbv

end Monadize
