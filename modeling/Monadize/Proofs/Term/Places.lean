import Monadize.Term.Basic

/-! Places in terms, and the parts that stand there. -/

namespace Monadize

namespace Term

/-- A node around one of its parts, with what stands beside the part. -/
inductive Frame where
  | seqFirst (second : Term)
  | seqSecond (first : Term)
  | catchBody (handler : Term)
  | catchHandler (body : Term)
  | conditionLeft (pred : Expr) (right : Term)
  | conditionRight (pred : Expr) (left : Term)
  | loopBody (pred : Expr)
  | guardBody (measure : MeasureId)

def Frame.fill : Frame → Term → Term
  | .seqFirst second, t => .seq t second
  | .seqSecond first, t => .seq first t
  | .catchBody handler, t => .tryCatch t handler
  | .catchHandler body, t => .tryCatch body t
  | .conditionLeft pred right, t => .condition pred t right
  | .conditionRight pred left, t => .condition pred left t
  | .loopBody pred, t => .loop pred t
  | .guardBody measure, t => .recGuard measure t

/-- The term with `part` at the given place: the nodes around the place, the outermost first. -/
def fill (place : List Frame) (part : Term) : Term := place.foldr Frame.fill part

/-- The part stands somewhere in the term, or is the whole of it. -/
def Contains (t part : Term) : Prop := ∃ place, t = fill place part

theorem mem_children_fill (frame : Frame) (t : Term) : t ∈ (frame.fill t).children := by
  cases frame <;> simp [Frame.fill, children]

theorem exists_frame_of_mem_children {t child : Term} (among : child ∈ t.children)
    : ∃ frame : Frame, t = frame.fill child := by
  cases t with
  | seq a b =>
      simp only [children, List.mem_cons, List.not_mem_nil, or_false] at among
      rcases among with rfl | rfl
      · exact ⟨.seqFirst b, rfl⟩
      · exact ⟨.seqSecond a, rfl⟩
  | tryCatch a b =>
      simp only [children, List.mem_cons, List.not_mem_nil, or_false] at among
      rcases among with rfl | rfl
      · exact ⟨.catchBody b, rfl⟩
      · exact ⟨.catchHandler a, rfl⟩
  | condition pred a b =>
      simp only [children, List.mem_cons, List.not_mem_nil, or_false] at among
      rcases among with rfl | rfl
      · exact ⟨.conditionLeft pred b, rfl⟩
      · exact ⟨.conditionRight pred a, rfl⟩
  | loop pred body =>
      cases List.mem_singleton.mp among
      exact ⟨.loopBody pred, rfl⟩
  | recGuard measure body =>
      cases List.mem_singleton.mp among
      exact ⟨.guardBody measure, rfl⟩
  | _ => cases among

/-- What a term contains is the term itself, or in one of its children. -/
theorem contains_iff {t part : Term}
    : t.Contains part ↔ part = t ∨ ∃ child ∈ t.children, child.Contains part := by
  constructor
  · intro ⟨place, same⟩
    cases place with
    | nil => exact .inl same.symm
    | cons frame inner =>
        subst same
        exact .inr ⟨fill inner part, mem_children_fill frame _, inner, rfl⟩
  · intro given
    rcases given with rfl | ⟨child, among, inner, rfl⟩
    · exact ⟨[], rfl⟩
    · obtain ⟨frame, same⟩ := exists_frame_of_mem_children among
      exact ⟨frame :: inner, same⟩

end Term

end Monadize
