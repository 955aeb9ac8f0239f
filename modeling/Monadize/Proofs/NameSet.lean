import Mathlib.Data.List.Nodup
import Mathlib.Data.List.Perm.Basic
import Monadize.NameSet

/-! Sets of names that are built by insertion are sorted. A sorted set is determined by its members.
-/

namespace Monadize

/-- Lists of names in increasing order are equal if they have the same members. -/
theorem eq_of_pairwise_lt {names others : List Name} (h : names.Pairwise (· < ·))
    (h' : others.Pairwise (· < ·)) (same : ∀ name, name ∈ names ↔ name ∈ others)
    : names = others := by
  have perm := (List.perm_ext_iff_of_nodup (h.imp Std.ne_of_lt) (h'.imp Std.ne_of_lt)).mpr same
  refine perm.eq_of_pairwise ?_ h h'
  intro a b _ _ before behind
  exact absurd (Std.lt_trans before behind) Std.lt_irrefl

namespace NameSet

/-- The names are in increasing order. -/
def Sorted (set : NameSet) : Prop := set.elems.Pairwise (· < ·)

theorem sorted_empty : empty.Sorted := .nil

/-- Inserting a name keeps the order, by induction along the names. -/
theorem Sorted.insert {set : NameSet} (h : set.Sorted) (name : Name)
    : (set.insert name).Sorted := by
  obtain ⟨elems⟩ := set
  show (insertElem name elems).Pairwise (· < ·)
  induction elems with
  | nil => simp [insertElem]
  | cons first rest ih =>
      obtain ⟨least, sorted⟩ := List.pairwise_cons.mp h
      simp only [insertElem]
      split
      · exact h
      · next differs =>
          split
          · next before =>
              refine List.pairwise_cons.mpr ⟨fun other member => ?_, h⟩
              rcases List.mem_cons.mp member with rfl | later
              · exact before
              · exact Std.lt_trans before (least other later)
          · next behind =>
              have after : first < name :=
                Std.lt_of_le_of_ne (Std.not_lt.mp behind) (Ne.symm differs)
              refine List.pairwise_cons.mpr ⟨fun other member => ?_, ih sorted⟩
              rcases mem_insertElem.mp member with rfl | old
              · exact after
              · exact least other old

theorem sorted_ofList (names : List Name) : (ofList names).Sorted := by
  have fold (set : NameSet) (h : set.Sorted) : (names.foldl insert set).Sorted := by
    induction names generalizing set with
    | nil => exact h
    | cons name rest ih => exact ih _ (h.insert name)
  exact fold empty sorted_empty

theorem Sorted.filter {set : NameSet} (h : set.Sorted) (keep : Name → Bool)
    : (set.filter keep).Sorted :=
  List.Pairwise.filter keep h

/-- Sorted sets with the same members are equal. -/
theorem Sorted.ext {set other : NameSet} (h : set.Sorted) (h' : other.Sorted)
    (same : ∀ name, name ∈ set.elems ↔ name ∈ other.elems)
    : set = other := by
  obtain ⟨elems⟩ := set
  obtain ⟨elems'⟩ := other
  exact congrArg NameSet.mk (eq_of_pairwise_lt h h' same)

end NameSet

end Monadize
