import Mathlib.Data.List.Forall2

/-! Sequences of steps that may fail succeed exactly if every step does, and their results are
related to what they were made from.
-/

namespace Monadize

variable {ε α β : Type}

/-- A sequence of two steps succeeds if the first one does and the second one does on its result. -/
theorem bind_eq_ok_iff {first : Except ε α} {next : α → Except ε β} {result : β}
    : first >>= next = .ok result ↔ ∃ value, first = .ok value ∧ next value = .ok result := by
  cases first with
  | error e =>
      constructor
      · intro h
        cases h
      · rintro ⟨_, h, _⟩
        cases h
  | ok value =>
      constructor
      · intro h
        exact ⟨value, rfl, h⟩
      · rintro ⟨_, h, result⟩
        cases h
        exact result

/-- A sequence of two steps fails as one of them does. -/
theorem bind_eq_error_iff {first : Except ε α} {next : α → Except ε β} {e : ε}
    : first >>= next = .error e
      ↔ first = .error e ∨ ∃ value, first = .ok value ∧ next value = .error e := by
  cases first with
  | error other =>
      constructor
      · intro h
        cases h
        exact .inl rfl
      · rintro (h | ⟨_, h, _⟩)
        · cases h
          rfl
        · cases h
  | ok value =>
      constructor
      · intro h
        exact .inr ⟨value, rfl, h⟩
      · rintro (h | ⟨_, h, failed⟩)
        · cases h
        · cases h
          exact failed

/-- Results can be changed at the end of a sequence if every step can take the changed ones. -/
theorem map_bind_eq {α' β' : Type} {first : Except ε α} {next : α → Except ε β} {change : α → α'}
    {next' : α' → Except ε β'} {change' : β → β'}
    (each : ∀ value, next' (change value) = (next value).map change')
    : first.map change >>= next' = (first >>= next).map change' := by
  cases first with
  | error e => rfl
  | ok value => exact each value

theorem mapError_eq_error_iff {ε' : Type} {step : Except ε α} {rephrase : ε → ε'} {e : ε'}
    : step.mapError rephrase = .error e ↔ ∃ cause, step = .error cause ∧ e = rephrase cause := by
  cases step with
  | error cause => simp [Except.mapError, eq_comm]
  | ok value => simp [Except.mapError]

/-- Rephrasing errors leaves results as they are. -/
theorem mapError_eq_ok_iff {ε' : Type} {step : Except ε α} {rephrase : ε → ε'} {result : α}
    : step.mapError rephrase = .ok result ↔ step = .ok result := by
  cases step with
  | error e => exact iff_of_false nofun nofun
  | ok value => simp [Except.mapError]

/-- Steps over a list succeed with the results of the single steps. -/
theorem mapM_eq_ok_iff {step : α → Except ε β} {items : List α} {results : List β}
    : items.mapM step = .ok results
      ↔ List.Forall₂ (fun item result => step item = .ok result) items results := by
  induction items generalizing results with
  | nil =>
      rw [List.forall₂_nil_left_iff]
      constructor
      · intro h
        cases h
        rfl
      · rintro rfl
        rfl
  | cons item rest ih =>
      rw [List.mapM_cons, List.forall₂_cons_left_iff]
      simp only [bind_eq_ok_iff, ih]
      constructor
      · rintro ⟨first, stepped, others, related, same⟩
        cases same
        exact ⟨first, others, stepped, related, rfl⟩
      · rintro ⟨first, others, stepped, related, rfl⟩
        exact ⟨first, stepped, others, related, rfl⟩

/-- Steps over a list fail as one of them does, by induction on the list. -/
theorem exists_of_mapM_eq_error {step : α → Except ε β} {items : List α} {e : ε}
    (failed : items.mapM step = .error e)
    : ∃ item ∈ items, step item = .error e := by
  induction items with
  | nil => cases failed
  | cons item rest ih =>
      rw [List.mapM_cons, bind_eq_error_iff] at failed
      rcases failed with here | ⟨first, _, later⟩
      · exact ⟨item, List.mem_cons_self, here⟩
      · rcases bind_eq_error_iff.mp later with others | ⟨_, _, same⟩
        · obtain ⟨other, among, refused⟩ := ih others
          exact ⟨other, List.mem_cons_of_mem item among, refused⟩
        · cases same

/-- If every element has a related one, the list has a related list. -/
theorem exists_related {R : α → β → Prop} {left : List α} (each : ∀ a ∈ left, ∃ b, R a b)
    : ∃ right, List.Forall₂ R left right := by
  induction left with
  | nil => exact ⟨[], .nil⟩
  | cons a rest ih =>
      obtain ⟨b, here⟩ := each a List.mem_cons_self
      obtain ⟨others, related⟩ := ih fun other among => each other (List.mem_cons_of_mem a among)
      exact ⟨b :: others, .cons here related⟩

/-- A step that succeeds on every element of a list succeeds on the list, element by element. -/
theorem mapM_eq_ok {step : α → Except ε β} {items : List α}
    (each : ∀ item ∈ items, ∃ result, step item = .ok result)
    : ∃ results,
        items.mapM step = .ok results
        ∧ List.Forall₂ (fun item result => step item = .ok result) items results := by
  obtain ⟨results, related⟩ := exists_related each
  exact ⟨results, mapM_eq_ok_iff.mpr related, related⟩

/-- In related lists, every element on the left has one on the right. -/
theorem exists_right_of_mem {R : α → β → Prop} {left : List α} {right : List β}
    (related : List.Forall₂ R left right) {a : α} (member : a ∈ left)
    : ∃ b ∈ right, R a b := by
  induction related with
  | nil => cases member
  | @cons first result _ _ here _ ih =>
      rcases List.mem_cons.mp member with rfl | later
      · exact ⟨result, List.mem_cons_self, here⟩
      · obtain ⟨b, among, holds⟩ := ih later
        exact ⟨b, List.mem_cons_of_mem result among, holds⟩

/-- In related lists, every element on the right has one on the left. -/
theorem exists_left_of_mem {R : α → β → Prop} {left : List α} {right : List β}
    (related : List.Forall₂ R left right) {b : β} (member : b ∈ right)
    : ∃ a ∈ left, R a b := by
  induction related with
  | nil => cases member
  | @cons first result _ _ here _ ih =>
      rcases List.mem_cons.mp member with rfl | later
      · exact ⟨first, List.mem_cons_self, here⟩
      · obtain ⟨a, among, holds⟩ := ih later
        exact ⟨a, List.mem_cons_of_mem first among, holds⟩

/-- Related elements are elements of the lists. -/
theorem related_with_mem {R : α → β → Prop} {left : List α} {right : List β}
    (related : List.Forall₂ R left right)
    : List.Forall₂ (fun a b => a ∈ left ∧ R a b) left right :=
  (List.forall₂_and_left _ _).mpr ⟨fun _ among => among, related⟩

/-- A list that is read off another one, element by element. -/
theorem eq_map_of_related {read : β → α} {left : List α} {right : List β}
    (related : List.Forall₂ (fun a b => a = read b) left right)
    : left = right.map read := by
  induction related with
  | nil => rfl
  | cons same _ ih => rw [List.map_cons, same, ih]

/-- A check succeeds on a list if it succeeds on every element. -/
theorem forM_eq_ok_iff {check : α → Except ε Unit} {items : List α} {done : Unit}
    : items.forM check = .ok done ↔ ∀ item ∈ items, check item = .ok () := by
  induction items with
  | nil => exact iff_of_true rfl nofun
  | cons item rest ih =>
      rw [List.forM_eq_forM] at ih
      rw [List.forM_eq_forM, List.forM_cons, bind_eq_ok_iff, List.forall_mem_cons, ← ih]
      constructor
      · intro both
        obtain ⟨_, first, others⟩ := both
        exact ⟨first, others⟩
      · intro both
        exact ⟨(), both.1, both.2⟩

/-- A relation that every step respects holds between the ends of a sequence of steps. -/
theorem related_of_foldlM {R : β → β → Prop} (refl : ∀ b, R b b)
    (trans : ∀ {a b c}, R a b → R b c → R a c) {step : β → α → Except ε β}
    (each : ∀ before item after, step before item = .ok after → R before after) {items : List α}
    {first last : β} (done : items.foldlM step first = .ok last)
    : R first last := by
  induction items generalizing first with
  | nil =>
      cases done
      exact refl _
  | cons item rest ih =>
      rw [List.foldlM_cons, bind_eq_ok_iff] at done
      obtain ⟨next, stepped, others⟩ := done
      exact trans (each first item next stepped) (ih others)

end Monadize
