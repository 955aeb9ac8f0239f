import Mathlib.Logic.Relation
import Monadize.Proofs.Graph.Components

/-! In which order a depth-first search finishes nodes. Of the nodes from which a node can be
reached, one of each class of mutually reachable ones is finished at or after it.
-/

namespace Monadize

namespace Graph

-----------------------------------------------------------------------------------------
-- Reachability
-----------------------------------------------------------------------------------------

/-- There is a path along neighbours, possibly of no length. -/
def Reach (next : Nat → List Nat) : Nat → Nat → Prop :=
  Relation.ReflTransGen fun a b => b ∈ next a

/-- Both nodes can be reached from each other. -/
def Mutual (next : Nat → List Nat) (a b : Nat) : Prop := Reach next a b ∧ Reach next b a

section Reach

variable {next : Nat → List Nat} {a b c : Nat}

theorem Mutual.symm (h : Mutual next a b) : Mutual next b a := ⟨h.2, h.1⟩

theorem Mutual.trans (first : Mutual next a b) (second : Mutual next b c) : Mutual next a c :=
  ⟨Relation.ReflTransGen.trans first.1 second.1, Relation.ReflTransGen.trans second.2 first.2⟩

/-- A path that leaves a set has a first node outside, whose predecessor on the path is inside. -/
theorem Reach.exists_leaving (path : Reach next a b) (inside : Nat → Prop) (start : inside a)
    (outside : ¬ inside b)
    : ∃ u w, Reach next a u ∧ inside u ∧ w ∈ next u ∧ ¬ inside w := by
  induction path with
  | refl => exact absurd start outside
  | @tail u w before edge ih =>
      by_cases here : inside u
      · exact ⟨u, w, before, here, edge, outside⟩
      · exact ih here

/-- A set that neighbours do not leave is not left by a path. -/
theorem Reach.mem_of_closed (path : Reach next a b) (inside : Nat → Prop)
    (closed : ∀ u, inside u → ∀ w ∈ next u, inside w) (start : inside a)
    : inside b := by
  by_contra outside
  obtain ⟨u, w, _, here, edge, there⟩ := path.exists_leaving inside start outside
  exact there (closed u here w edge)

end Reach

/-- The list has the first node before the second one, or they are the same node in it. -/
def Precedes (order : List Nat) (r v : Nat) : Prop :=
  ∃ before after, order = before ++ v :: after ∧ (r ∈ before ∨ r = v)

theorem Precedes.cons {order : List Nat} {r v : Nat} (h : Precedes order r v) (u : Nat)
    : Precedes (u :: order) r v := by
  obtain ⟨before, after, rfl, first⟩ := h
  exact ⟨u :: before, after, rfl, first.imp_left (List.mem_cons_of_mem u)⟩

theorem precedes_head {order : List Nat} {u v : Nat} (member : v ∈ u :: order)
    : Precedes (u :: order) u v := by
  rcases List.mem_cons.mp member with rfl | later
  · exact ⟨[], order, rfl, .inr rfl⟩
  · obtain ⟨before, after, rfl⟩ := List.append_of_mem later
    exact ⟨u :: before, after, rfl, .inl List.mem_cons_self⟩

-----------------------------------------------------------------------------------------
-- Nodes under way
-----------------------------------------------------------------------------------------

namespace Search

/-- The node is discovered and waits for its neighbours. -/
def Open (s : Search) (u : Nat) : Prop := u ∈ s.discovered ∧ u ∉ s.finished ∧ u ∈ s.stack

/-- What stands above an open node can be reached from it, and so its neighbours are discovered or
stand above it. The neighbours of a finished node are discovered.
-/
structure Deep (next : Nat → List Nat) (s : Search) : Prop where
  opened
    : ∀ upper u lower,
        s.stack = upper ++ u :: lower → u ∉ upper → u ∈ s.discovered → u ∉ s.finished
        → (∀ x ∈ upper, Reach next u x) ∧ ∀ w ∈ next u, w ∈ s.discovered ∨ w ∈ upper
  closed : ∀ u ∈ s.finished, ∀ w ∈ next u, w ∈ s.discovered

variable {next : Nat → List Nat} {v : Nat} {below discovered finished : List Nat}

/-- A search that starts from a new node has nothing open. -/
theorem Deep.start (new : v ∉ discovered) (closed : ∀ u ∈ finished, ∀ w ∈ next u, w ∈ discovered)
    : Deep next ⟨[v], discovered, finished⟩ where
  opened upper u lower split _ found _ := by
    have whole : [v] = upper ++ u :: lower := split
    have same : u = v := by
      refine List.mem_singleton.mp ?_
      rw [whole]
      exact List.mem_append_right upper List.mem_cons_self
    exact absurd (same ▸ found) new
  closed := closed

/-- The neighbours of a node on top are all discovered. -/
theorem Deep.neighbours (h : Deep next ⟨v :: below, discovered, finished⟩) (known : v ∈ discovered)
    : ∀ w ∈ next v, w ∈ discovered := by
  intro w neighbour
  by_cases done : v ∈ finished
  · exact h.closed v done w neighbour
  · obtain ⟨_, covered⟩ := h.opened [] v below rfl List.not_mem_nil known done
    exact (covered w neighbour).resolve_right List.not_mem_nil

/-- Taking a node off the stack leaves less above the open ones, and what is gone is discovered. -/
theorem Deep.pop (h : Deep next ⟨v :: below, discovered, finished⟩) (known : v ∈ discovered)
    : Deep next ⟨below, discovered, if v ∈ finished then finished else v :: finished⟩ where
  opened upper u lower split first opened unfinished := by
    obtain ⟨other, before⟩ := not_or.mp (mt mem_finish.mpr unfinished)
    have outside : u ∉ v :: upper := List.not_mem_cons_of_ne_of_not_mem other first
    obtain ⟨reached, covered⟩ := h.opened (v :: upper) u lower
      (congrArg (v :: ·) split) outside opened before
    refine ⟨fun x above => reached x (List.mem_cons_of_mem v above), ?_⟩
    intro w neighbour
    rcases covered w neighbour with found | above
    · exact .inl found
    · rcases List.mem_cons.mp above with rfl | above
      · exact .inl known
      · exact .inr above
  closed u done w neighbour := by
    rcases mem_finish.mp done with rfl | before
    · exact h.neighbours known w neighbour
    · exact h.closed u before w neighbour

/-- A node of a stack that is not among those put on top is behind them. -/
theorem split_behind {top rest upper lower : List Nat} {u : Nat}
    (split : top ++ rest = upper ++ u :: lower) (outside : u ∉ top)
    : ∃ upper', upper = top ++ upper' ∧ rest = upper' ++ u :: lower := by
  rcases List.append_eq_append_iff.mp split with ⟨upper', same, behind⟩ | ⟨lower', same, behind⟩
  · exact ⟨upper', same, behind⟩
  · cases lower' with
    | nil => exact ⟨[], by simpa using same.symm, by simpa using behind.symm⟩
    | cons x lower' =>
        cases behind
        exact absurd (same ▸ List.mem_append_right upper List.mem_cons_self) outside

/-- Discovering a node puts its new neighbours above it, and above all that are open. -/
theorem Deep.discover (h : Deep next ⟨v :: below, discovered, finished⟩)
    : Deep next
        ⟨((next v).filter (· ∉ v :: discovered)).reverse ++ v :: below, v :: discovered,
          finished⟩ where
  opened upper u lower split first opened unfinished := by
    have fresh : ∀ x, x ∈ ((next v).filter (· ∉ v :: discovered)).reverse
        ↔ x ∈ next v ∧ x ∉ v :: discovered := by
      intro x
      rw [List.mem_reverse, List.mem_filter, decide_eq_true_iff]
    obtain ⟨upper, rfl, rest⟩ := split_behind split fun found => ((fresh u).mp found).2 opened
    cases upper with
    | nil =>
        cases rest
        rw [List.append_nil]
        refine ⟨fun x found => .single ((fresh x).mp found).1, ?_⟩
        intro w neighbour
        by_cases found : w ∈ v :: discovered
        · exact .inl found
        · exact .inr ((fresh w).mpr ⟨neighbour, found⟩)
    -- a node further down was open before, and reaches the new ones through the one on top
    | cons x upper =>
        obtain ⟨rfl, _⟩ := List.cons.inj rest
        have behind : u ∉ v :: upper := fun inside => first (List.mem_append_right _ inside)
        have old : u ∈ discovered := (List.mem_cons.mp opened).resolve_left fun same =>
          behind (same ▸ List.mem_cons_self)
        obtain ⟨reached, covered⟩ :=
          h.opened (v :: upper) u lower rest behind old unfinished
        refine ⟨?_, ?_⟩
        · intro x inside
          rcases List.mem_append.mp inside with found | before
          · exact (reached v List.mem_cons_self).tail ((fresh x).mp found).1
          · exact reached x before
        · intro w neighbour
          exact (covered w neighbour).imp (List.mem_cons_of_mem v) (List.mem_append_right _)
  closed u done w neighbour := List.mem_cons_of_mem v (h.closed u done w neighbour)

theorem Deep.step {s : Search} (h : Deep next s) : Deep next (s.step next) := by
  obtain ⟨stack, discovered, finished⟩ := s
  cases stack with
  | nil => exact h
  | cons v below =>
      by_cases known : v ∈ discovered
      · simpa only [Search.step, if_pos known] using h.pop known
      · simpa only [Search.step, if_neg known] using h.discover

-----------------------------------------------------------------------------------------
-- The order of finishing
-----------------------------------------------------------------------------------------

/-- What can be reached from a finished node is finished at or before a node of the same class,
unless a node of the class is still open.
-/
def Leads (next : Nat → List Nat) (s : Search) : Prop :=
  ∀ x ∈ s.finished, ∀ y,
    Reach next x y
    → (∃ g, s.Open g ∧ Mutual next g x)
      ∨ ∃ r, Mutual next r x ∧ Precedes s.finished r y

/-- A path from a node that gets finished now stays in what is finished, or meets an open node of
the same class.
-/
theorem Deep.finish_top {size : Nat} (h : Deep next ⟨v :: below, discovered, finished⟩)
    (sound : Sound size [] ⟨v :: below, discovered, finished⟩) (known : v ∈ discovered)
    {y : Nat} (path : Reach next v y)
    : (∃ g, g ≠ v ∧ Open ⟨below, discovered, v :: finished⟩ g ∧ Mutual next g v)
      ∨ y ∈ v :: finished := by
  by_cases done : y ∈ v :: finished
  · exact .inr done
  obtain ⟨u, g, before, inside, neighbour, outside⟩ :=
    path.exists_leaving (· ∈ v :: finished) List.mem_cons_self done
  have found : g ∈ discovered := by
    rcases List.mem_cons.mp inside with rfl | finishedBefore
    · exact h.neighbours known g neighbour
    · exact h.closed u finishedBefore g neighbour
  obtain ⟨other, unfinished⟩ := List.ne_and_not_mem_of_not_mem_cons outside
  have waiting : g ∈ v :: below :=
    ((sound.pending g found).resolve_left List.not_mem_nil).resolve_left unfinished
  -- the node on top stands above the open one, and so is reached from it
  obtain ⟨upper, lower, split, first⟩ := List.eq_append_cons_of_mem waiting
  have top : v ∈ upper := by
    cases upper with
    | nil =>
        cases split
        exact absurd rfl other
    | cons x upper =>
        cases split
        exact List.mem_cons_self
  have back : Reach next g v := (h.opened upper g lower split first found unfinished).1 v top
  refine .inl ⟨g, other, ⟨found, outside, (List.mem_cons.mp waiting).resolve_left other⟩, back, ?_⟩
  exact before.tail neighbour

/-- Finishing a node leads on: it comes before all that were finished, and what it leaves to open
nodes it leaves to open nodes of its own class.
-/
theorem Leads.pop {size : Nat} (leads : Leads next ⟨v :: below, discovered, finished⟩)
    (h : Deep next ⟨v :: below, discovered, finished⟩)
    (sound : Sound size [] ⟨v :: below, discovered, finished⟩) (known : v ∈ discovered)
    : Leads next ⟨below, discovered, v :: finished⟩ := by
  have own {y : Nat} (path : Reach next v y)
      : (∃ g, Open ⟨below, discovered, v :: finished⟩ g ∧ Mutual next g v)
        ∨ ∃ r, Mutual next r v ∧ Precedes (v :: finished) r y := by
    rcases h.finish_top sound known path with ⟨g, _, opened, joint⟩ | done
    · exact .inl ⟨g, opened, joint⟩
    · exact .inr ⟨v, ⟨.refl, .refl⟩, precedes_head done⟩
  intro x done y path
  rcases List.mem_cons.mp done with rfl | before
  · exact own path
  · rcases leads x before y path with ⟨g, ⟨found, pending, waiting⟩, joint⟩ | ⟨r, joint, precedes⟩
    · by_cases same : g = v
      -- the class of the finished node is that of the one on top
      · subst same
        refine (own (Relation.ReflTransGen.trans joint.1 path)).imp ?_ ?_
        · rintro ⟨g', opened, joint'⟩
          exact ⟨g', opened, joint'.trans joint⟩
        · rintro ⟨r, joint', precedes⟩
          exact ⟨r, joint'.trans joint, precedes⟩
      · exact .inl ⟨g, ⟨found, List.not_mem_cons_of_ne_of_not_mem same pending,
          (List.mem_cons.mp waiting).resolve_left same⟩, joint⟩
    · exact .inr ⟨r, joint, precedes.cons v⟩

theorem Leads.step {size : Nat} {s : Search} (leads : Leads next s) (h : Deep next s)
    (sound : Sound size [] s)
    : Leads next (s.step next) := by
  obtain ⟨stack, discovered, finished⟩ := s
  cases stack with
  | nil => exact leads
  | cons v below =>
      by_cases known : v ∈ discovered
      · by_cases done : v ∈ finished
        · simp only [Search.step, if_pos known, if_pos done]
          intro x finishedBefore y path
          refine (leads x finishedBefore y path).imp_left ?_
          rintro ⟨g, ⟨found, unfinished, waiting⟩, joint⟩
          refine ⟨g, ⟨found, unfinished, (List.mem_cons.mp waiting).resolve_left ?_⟩, joint⟩
          rintro rfl
          exact unfinished done
        · simp only [Search.step, if_pos known, if_neg done]
          exact leads.pop h sound known
      · simp only [Search.step, if_neg known]
        intro x finishedBefore y path
        refine (leads x finishedBefore y path).imp_left ?_
        rintro ⟨g, ⟨found, unfinished, waiting⟩, joint⟩
        exact ⟨g, ⟨List.mem_cons_of_mem v found, unfinished, List.mem_append_right _ waiting⟩,
          joint⟩

theorem Deep.run (fuel : Nat) {s : Search} (h : Deep next s) : Deep next (s.run next fuel) :=
  run_keeps (P := Deep next) (fun _ => Deep.step) fuel h

theorem Leads.run {size : Nat} (inRange : ∀ v, ∀ w ∈ next v, w < size) (fuel : Nat) {s : Search}
    (leads : Leads next s) (h : Deep next s) (sound : Sound size [] s)
    : Leads next (s.run next fuel) := by
  refine (run_keeps (P := fun s => Leads next s ∧ Deep next s ∧ Sound size [] s) ?_ fuel
    ⟨leads, h, sound⟩).1
  intro s all
  obtain ⟨leads, h, sound⟩ := all
  exact ⟨leads.step h sound, h.step, sound.step inRange⟩

end Search

-----------------------------------------------------------------------------------------
-- A search from all nodes
-----------------------------------------------------------------------------------------

variable {g : Graph} {next : Nat → List Nat}

/-- An idle search that leads goes on leading when it starts again, since nothing was open. -/
theorem Walks.searchStep_leads (walks : g.Walks next) {s : Search}
    (sound : Search.Sound g.size [] s) (idle : s.stack = []) (deep : Search.Deep next s)
    (leads : Search.Leads next s) {start : Nat} (node : start < g.size)
    (new : start ∉ s.discovered)
    : let s' := Search.run next g.searchFuel ⟨[start], s.discovered, s.finished⟩
      Search.Deep next s' ∧ Search.Leads next s' := by
  have soundStart := sound.restart idle node
  have deepStart : Search.Deep next ⟨[start], s.discovered, s.finished⟩ := .start new deep.closed
  have leadsStart : Search.Leads next ⟨[start], s.discovered, s.finished⟩ := by
    intro x done y path
    refine .inr ((leads x done y path).resolve_left ?_)
    rintro ⟨u, ⟨_, _, waiting⟩, _⟩
    rw [idle] at waiting
    cases waiting
  exact ⟨deepStart.run g.searchFuel,
    leadsStart.run walks.inRange g.searchFuel deepStart soundStart⟩

/-- Searches from some nodes lead. -/
theorem Walks.searchFrom_leads (walks : g.Walks next) {starts : List Nat}
    (inRange : ∀ v ∈ starts, v < g.size) {s : Search} (sound : Search.Sound g.size [] s)
    (idle : s.stack = []) (deep : Search.Deep next s) (leads : Search.Leads next s)
    : Search.Leads next (g.searchFrom next starts s) := by
  refine (List.foldlRecOn (motive := fun s =>
      (Search.Sound g.size [] s ∧ s.stack = []) ∧ Search.Deep next s ∧ Search.Leads next s)
    starts _ ⟨⟨sound, idle⟩, deep, leads⟩ ?_).2.2
  intro s h start among
  obtain ⟨ready, deep, leads⟩ := h
  refine ⟨(walks.searchStep_spec ready (inRange start among)).1, ?_⟩
  by_cases known : start ∈ s.discovered
  · simp only [if_pos known]
    exact ⟨deep, leads⟩
  · simp only [if_neg known]
    exact walks.searchStep_leads ready.1 ready.2 deep leads (inRange start among) known

/-- In the order in which a search finishes nodes, the last one first, a node comes behind some node
of every class it can be reached from.
-/
theorem Walks.reversePostOrder_leads (walks : g.Walks next) {x y : Nat} (node : x < g.size)
    (path : Reach next x y)
    : ∃ r, Mutual next r x ∧ Precedes (g.reversePostOrder next) r y := by
  have start : Search.Sound g.size [] ⟨[], [], []⟩ := by
    constructor <;> simp
  have deep : Search.Deep next ⟨[], [], []⟩ := ⟨by simp, nofun⟩
  have inRange : ∀ v ∈ List.range g.size, v < g.size := fun v => List.mem_range.mp
  obtain ⟨⟨_, idle⟩, _⟩ := walks.searchFrom_spec inRange ⟨start, rfl⟩
  have leads := walks.searchFrom_leads inRange start rfl deep nofun
  have done : x ∈ g.reversePostOrder next :=
    walks.reversePostOrder_perm.mem_iff.mpr (List.mem_range.mpr node)
  refine (leads x done y path).resolve_left ?_
  rintro ⟨u, ⟨_, _, waiting⟩, _⟩
  rw [idle] at waiting
  cases waiting

end Graph

end Monadize
