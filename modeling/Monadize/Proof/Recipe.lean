import Monadize.Basic
import Monadize.Proof.Lemma

/-! Recipes: how to prove that a term corresponds to a statement, as a tree of lemmas in the shape
of the statement. -/

namespace Monadize

inductive Recipe where
  | apply (rule : Lemma) (subs : List Recipe)
  /-- Appeal to the hypothesis on a callee placeholder. -/
  | hyp (id : PlaceholderId)

namespace Recipe

instance : Inhabited Recipe := ⟨.hyp 0⟩

def leaf (rule : Lemma) : Recipe := .apply rule []

mutual
/-- The lemmas of a recipe in front of `rest`, each before those of its parts. -/
def lemmasBefore : Recipe → (rest : List Lemma) → List Lemma
  | .apply rule subs, rest => rule :: lemmasAllBefore subs rest
  | .hyp _, rest => rest

def lemmasAllBefore : List Recipe → (rest : List Lemma) → List Lemma
  | [], rest => rest
  | r :: rs, rest => r.lemmasBefore (lemmasAllBefore rs rest)
end

/-- The lemmas of a recipe, each before those of its parts. -/
def lemmas (recipe : Recipe) : List Lemma := recipe.lemmasBefore []

/-- The lemmas that occur, with the number of their occurrences. -/
def lemmaCounts (recipe : Recipe) : List (Lemma × Nat) :=
  let used := recipe.lemmas
  (Lemma.all.map fun rule => (rule, used.count rule)).filter (·.2 ≠ 0)

end Recipe

end Monadize
