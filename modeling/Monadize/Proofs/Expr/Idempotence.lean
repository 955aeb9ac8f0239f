import Monadize.Proofs.Expr.Simplification

/-! A second simplification changes nothing. The result of the first is in normal form, so no law
applies to it any more; and it is no higher than the first recursion went deep, so the second one
gets along with the same bound.
-/

namespace Monadize

namespace Expr

mutual
/-- The number of nodes on the longest path. -/
def height : Expr → Nat
  | .var _ => 1
  | .const _ => 1
  | .num _ => 1
  | .bool _ => 1
  | .not e => e.height + 1
  | .and a b => max a.height b.height + 1
  | .or a b => max a.height b.height + 1
  | .eq a b => max a.height b.height + 1
  | .app fn args => max fn.height (heightAll args) + 1
  | .lam _ _ body => body.height + 1
  | .univ => 1
  | .empty => 1
  | .collect _ body => body.height + 1
  | .mem elem set => max elem.height set.height + 1
  | .field state _ => state.height + 1
  | .update state _ value => max state.height value.height + 1
  | .arbitrary => 1

def heightAll : List Expr → Nat
  | [] => 0
  | e :: es => max e.height (heightAll es)
end

attribute [local simp] height heightAll

theorem height_pos (e : Expr) : 0 < e.height := by
  cases e <;> simp [height]

theorem heightAll_le_iff {es : List Expr} {n : Nat}
    : heightAll es ≤ n ↔ ∀ e ∈ es, e.height ≤ n := by
  induction es with
  | nil => simp [heightAll]
  | cons e es ih => rw [heightAll, Nat.max_le, ih, List.forall_mem_cons]

/-! A law makes a node no higher than the node itself. -/

theorem height_foldNot_le {e : Expr} : (foldNot e).height ≤ e.height + 1 := by
  rcases foldNot_cases e with kept | ⟨b, value⟩ | inner
  · exact Nat.le_of_eq (by rw [kept, height])
  · rw [value, height]
    omega
  · have outer : e.height = (foldNot e).height + 1 := by
      conv => lhs; rw [inner]
      rw [height]
    omega

theorem height_foldAnd_le {a b : Expr} : (foldAnd a b).height ≤ max a.height b.height + 1 := by
  rcases foldAnd_cases a b with kept | ⟨c, value⟩ | left | right
  · exact Nat.le_of_eq (by rw [kept, height])
  · rw [value, height]
    omega
  · rw [left]
    omega
  · rw [right]
    omega

theorem height_foldOr_le {a b : Expr} : (foldOr a b).height ≤ max a.height b.height + 1 := by
  rcases foldOr_cases a b with kept | ⟨c, value⟩ | left | right
  · exact Nat.le_of_eq (by rw [kept, height])
  · rw [value, height]
    omega
  · rw [left]
    omega
  · rw [right]
    omega

theorem height_foldEq_le {a b : Expr} : (foldEq a b).height ≤ max a.height b.height + 1 := by
  rcases foldEq_cases a b with kept | ⟨c, value⟩
  · exact Nat.le_of_eq (by rw [kept, height])
  · rw [value, height]
    omega

theorem height_foldCollect_le {x : Name} {body : Expr}
    : (foldCollect x body).height ≤ body.height + 1 := by
  rcases foldCollect_cases x body with kept | full | none
  · exact Nat.le_of_eq (by rw [kept, height])
  · rw [full, height]
    omega
  · rw [none, height]
    omega

/-- A result is no higher than the recursion went deep, by induction on the bound. -/
theorem height_le_of_simplify? {depth : Nat} {e r : Expr} (done : simplify? depth e = some r)
    : r.height ≤ depth := by
  induction depth generalizing e r with
  | zero => cases done
  | succ depth ih =>
      cases e with
      | var | const | num | bool | univ | empty | arbitrary =>
          cases done
          exact Nat.le_add_left 1 depth
      | not e =>
          simp only [simplify?, Option.bind_eq_bind, Option.pure_def, Option.bind_eq_some_iff,
            Option.some.injEq] at done
          obtain ⟨e', part, rfl⟩ := done
          have low := ih part
          have kept := @height_foldNot_le e'
          omega
      | and a b =>
          simp only [simplify?, Option.bind_eq_bind, Option.pure_def, Option.bind_eq_some_iff,
            Option.some.injEq] at done
          obtain ⟨a', left, b', right, rfl⟩ := done
          have lowLeft := ih left
          have lowRight := ih right
          have kept := @height_foldAnd_le a' b'
          omega
      | or a b =>
          simp only [simplify?, Option.bind_eq_bind, Option.pure_def, Option.bind_eq_some_iff,
            Option.some.injEq] at done
          obtain ⟨a', left, b', right, rfl⟩ := done
          have lowLeft := ih left
          have lowRight := ih right
          have kept := @height_foldOr_le a' b'
          omega
      | eq a b =>
          simp only [simplify?, Option.bind_eq_bind, Option.pure_def, Option.bind_eq_some_iff,
            Option.some.injEq] at done
          obtain ⟨a', left, b', right, rfl⟩ := done
          have lowLeft := ih left
          have lowRight := ih right
          have kept := @height_foldEq_le a' b'
          omega
      | app fn args =>
          simp only [simplify?, Option.bind_eq_bind, Option.bind_eq_some_iff] at done
          obtain ⟨fn', head, done⟩ := done
          have low := ih head
          split at done
          · obtain ⟨arg', operand, reduct⟩ := Option.bind_eq_some_iff.mp done
            exact Nat.le_succ_of_le (ih reduct)
          · simp only [Option.pure_def, Option.bind_eq_some_iff, Option.some.injEq,
              mapM_eq_some_iff] at done
            obtain ⟨args', operands, rfl⟩ := done
            have lowArgs : heightAll args' ≤ depth := heightAll_le_iff.mpr fun arg' among => by
              obtain ⟨arg, _, operand⟩ := exists_left_of_mem operands among
              exact ih operand
            rw [height]
            omega
      | lam x type body =>
          simp only [simplify?, Option.bind_eq_bind, Option.pure_def, Option.bind_eq_some_iff,
            Option.some.injEq] at done
          obtain ⟨body', part, rfl⟩ := done
          have low := ih part
          rw [height]
          omega
      | collect x body =>
          simp only [simplify?, Option.bind_eq_bind, Option.pure_def, Option.bind_eq_some_iff,
            Option.some.injEq] at done
          obtain ⟨body', part, rfl⟩ := done
          have low := ih part
          have kept := @height_foldCollect_le x body'
          omega
      | mem elem set =>
          simp only [simplify?, Option.bind_eq_bind, Option.bind_eq_some_iff] at done
          obtain ⟨set', form, done⟩ := done
          have low := ih form
          split at done
          · cases done
            exact Nat.le_add_left 1 depth
          · cases done
            exact Nat.le_add_left 1 depth
          · exact Nat.le_succ_of_le (ih done)
          · simp only [Option.pure_def, Option.bind_eq_some_iff, Option.some.injEq] at done
            obtain ⟨elem', part, rfl⟩ := done
            have lowElem := ih part
            rw [height]
            omega
      | field state name =>
          simp only [simplify?, Option.bind_eq_bind, Option.bind_eq_some_iff] at done
          obtain ⟨state', form, done⟩ := done
          have low := ih form
          split at done
          · next inner other value =>
              by_cases same : other = name
              · rw [if_pos same] at done
                cases done
                rw [height] at low
                omega
              · rw [if_neg same] at done
                exact Nat.le_succ_of_le (ih done)
          · cases done
            rw [height]
            omega
      | update state name value =>
          simp only [simplify?, Option.bind_eq_bind, Option.pure_def, Option.bind_eq_some_iff,
            Option.some.injEq] at done
          obtain ⟨state', left, value', right, rfl⟩ := done
          have lowLeft := ih left
          have lowRight := ih right
          rw [height]
          omega

/-- On a normal form the recursion goes as deep as the form is high and rebuilds it, by induction on
the bound.
-/
theorem IsNormal.simplify?_eq_self {e : Expr} (h : e.IsNormal) {depth : Nat}
    (enough : e.height ≤ depth)
    : simplify? depth e = some e := by
  induction depth generalizing e with
  | zero => exact (Nat.not_le.mpr e.height_pos enough).elim
  | succ depth ih =>
      cases h with
      | var | const | num | bool | univ | empty | arbitrary => rfl
      | not part stuck =>
          rw [height] at enough
          simp [simplify?, ih part (by omega), stuck]
      | and left right stuck =>
          rw [height] at enough
          simp [simplify?, ih left (by omega), ih right (by omega), stuck]
      | or left right stuck =>
          rw [height] at enough
          simp [simplify?, ih left (by omega), ih right (by omega), stuck]
      | eq left right stuck =>
          rw [height] at enough
          simp [simplify?, ih left (by omega), ih right (by omega), stuck]
      | @app fn args head operands stuck =>
          rw [height] at enough
          have low : ∀ arg ∈ args, arg.height ≤ depth := heightAll_le_iff.mp (by omega)
          have all : args.mapM (simplify? depth) = some args := by
            rw [mapM_eq_some_iff, List.forall₂_same]
            exact fun arg among => ih (operands arg among) (low arg among)
          simp only [simplify?, ih head (by omega), Option.bind_eq_bind, Option.bind_some]
          split
          · cases stuck
          · rw [all]
            rfl
      | lam part =>
          rw [height] at enough
          simp [simplify?, ih part (by omega)]
      | collect part stuck =>
          rw [height] at enough
          simp [simplify?, ih part (by omega), stuck]
      | mem part form stuck =>
          rw [height] at enough
          simp only [simplify?, ih form (by omega), ih part (by omega), Option.bind_eq_bind,
            Option.bind_some]
          split
          · cases stuck
          · cases stuck
          · cases stuck
          · rfl
      | field form stuck =>
          rw [height] at enough
          simp only [simplify?, ih form (by omega), Option.bind_eq_bind, Option.bind_some]
          split
          · cases stuck
          · rfl
      | update left right =>
          rw [height] at enough
          simp [simplify?, ih left (by omega), ih right (by omega)]

theorem simplify?_of_simplify? {depth : Nat} {e r : Expr} (done : simplify? depth e = some r)
    {deeper : Nat} (enough : depth ≤ deeper)
    : simplify? deeper r = some r :=
  (Simplifies.of_simplify? done).isNormal.simplify?_eq_self
    (Nat.le_trans (height_le_of_simplify? done) enough)

theorem simplify_simplify (e : Expr) : e.simplify.simplify = e.simplify := by
  cases done : simplify? simplifyDepth e with
  | none =>
      have kept : e.simplify = e := by rw [simplify, done, Option.getD_none]
      rw [kept, kept]
  | some r =>
      have result : e.simplify = r := by rw [simplify, done, Option.getD_some]
      rw [result, simplify, simplify?_of_simplify? done (Nat.le_refl _), Option.getD_some]

/-- Simplification is idempotent. Where it returns on an expression, the result is in normal form,
and on the result it returns the result itself, with no deeper recursion than on the expression.
-/
theorem simplify_idempotent (e : Expr)
    : (∀ depth e',
        simplify? depth e = some e'
        → e'.IsNormal ∧ ∀ deeper, depth ≤ deeper → simplify? deeper e' = some e')
      ∧ e.simplify.simplify = e.simplify := by
  refine ⟨fun depth e' done => ⟨(Simplifies.of_simplify? done).isNormal, fun deeper enough => ?_⟩,
    e.simplify_simplify⟩
  exact simplify?_of_simplify? done enough

/-- A test of an updated state under two negations. All of the laws on functions, memberships,
negations, conjunctions and components take part in its simplification.
-/
def negatedTwice : Expr :=
  .app
    (.lam "t" none
      (.not (.not
        (.and (.eq (.field (.var "t") "a") (.num 1))
          (.mem (.var "t")
            (.collect "u" (.eq (.field (.var "u") "b") (.field (.var "t") "b"))))))))
    [.update (.var "s") "b" (.num 2)]

theorem simplify_idempotent_negatedTwice
    : simplify? 10 negatedTwice = some (.eq (.field (.var "s") "a") (.num 1))
      ∧ (Expr.eq (.field (.var "s") "a") (.num 1)).IsNormal
      ∧ simplify? 10 (.eq (.field (.var "s") "a") (.num 1))
        = some (.eq (.field (.var "s") "a") (.num 1)) := by
  have done : simplify? 10 negatedTwice = some (.eq (.field (.var "s") "a") (.num 1)) := by decide
  obtain ⟨normal, again⟩ := (simplify_idempotent negatedTwice).1 10 _ done
  exact ⟨done, normal, again 10 (Nat.le_refl 10)⟩

end Expr

end Monadize
