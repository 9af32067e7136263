import Mathlib.Data.List.Basic
import Mathlib.Logic.Relation

/-!
# What a depth-first search visits

A node is put behind those that have been visited, and its successors are visited one
after the other. A search that may go deep enough visits what is reached from its
start, and nothing twice.
-/

namespace ElmWrap.Lib.DepthFirst

variable {α : Type}

/-- Visit a node and what is reached from it, to a depth. -/
def visit [DecidableEq α] (next : α → List α) : Nat → α → List α → Option (List α)
  | depth, a, visited =>
    if a ∈ visited then some visited
    else
      match depth with
      | 0 => none
      | depth + 1 =>
        (next a).foldlM (fun visited b => visit next depth b visited) (visited ++ [a])

/-- There is an edge. -/
def Edge (next : α → List α) (a b : α) : Prop := b ∈ next a

/-- What a search adds: nodes reached from one, each of them once and with its successors. -/
structure Visits (next : α → List α) (start : α → Prop) (visited result : List α) : Prop where
  grows : visited <+: result
  nodup : visited.Nodup → result.Nodup
  reached : ∀ b ∈ result, b ∈ visited ∨ ∃ a, start a ∧ Relation.ReflTransGen (Edge next) a b
  closed : ∀ b ∈ result, b ∈ visited ∨ ∀ c ∈ next b, c ∈ result

theorem Visits.nothing (next : α → List α) (start : α → Prop) (visited : List α) :
    Visits next start visited visited where
  grows := List.prefix_rfl
  nodup nodup := nodup
  reached _ on := Or.inl on
  closed _ on := Or.inl on

theorem Visits.trans {next : α → List α} {start : α → Prop} {first second third : List α}
    (here : Visits next start first second) (later : Visits next start second third) :
    Visits next start first third where
  grows := here.grows.trans later.grows
  nodup nodup := later.nodup (here.nodup nodup)
  reached b on := by
    rcases later.reached b on with old | new
    · exact here.reached b old
    · exact Or.inr new
  closed b on := by
    rcases later.closed b on with old | new
    · rcases here.closed b old with older | inside
      · exact Or.inl older
      · exact Or.inr fun c edge => later.grows.subset (inside c edge)
    · exact Or.inr new

theorem Visits.mono {next : α → List α} {start more : α → Prop} {visited result : List α}
    (visits : Visits next start visited result)
    (leads : ∀ a, start a → ∃ b, more b ∧ Relation.ReflTransGen (Edge next) b a) :
    Visits next more visited result where
  grows := visits.grows
  nodup := visits.nodup
  reached b on := by
    rcases visits.reached b on with old | ⟨a, first, path⟩
    · exact Or.inl old
    · obtain ⟨c, start_, before⟩ := leads a first
      exact Or.inr ⟨c, start_, before.trans path⟩
  closed := visits.closed

section

variable [DecidableEq α]

/-- The nodes of a list that have not been visited. -/
def unvisited (nodes visited : List α) : List α := nodes.filter (· ∉ visited)

theorem unvisited_mono (nodes : List α) {visited more : List α}
    (grows : ∀ a ∈ visited, a ∈ more) :
    (unvisited nodes more).length ≤ (unvisited nodes visited).length := by
  apply List.Sublist.length_le
  apply List.monotone_filter_right
  intro a new
  simp only [decide_eq_true_eq] at new ⊢
  exact fun old => new (grows a old)

theorem unvisited_append {nodes visited : List α} {a : α} (member : a ∈ nodes)
    (new : a ∉ visited) :
    (unvisited nodes (visited ++ [a])).length < (unvisited nodes visited).length := by
  unfold unvisited
  have split : nodes.filter (· ∉ visited ++ [a]) =
      (nodes.filter (· ∉ visited)).filter (· ≠ a) := by
    rw [List.filter_filter]
    apply List.filter_congr
    intro b _
    simp [not_or, and_comm]
  rw [split]
  apply List.length_filter_lt_length_iff_exists.mpr
  exact ⟨a, List.mem_filter.mpr ⟨member, by simpa using new⟩, by simp⟩

/-- The loop over the successors of a node. -/
theorem visitAll_visits {next : α → List α} {depth : Nat}
    (one : ∀ (b : α) (visited result : List α), visit next depth b visited = some result →
      b ∈ result ∧ Visits next (· = b) visited result)
    (successors : List α) {visited result : List α}
    (ran : successors.foldlM (fun visited b => visit next depth b visited) visited =
      some result) :
    (∀ b ∈ successors, b ∈ result) ∧ Visits next (· ∈ successors) visited result := by
  induction successors generalizing visited with
  | nil =>
    cases ran
    exact ⟨List.forall_mem_nil _, .nothing next _ _⟩
  | cons b rest ih =>
    rw [List.foldlM_cons] at ran
    obtain ⟨first, here, later⟩ := Option.bind_eq_some_iff.mp ran
    obtain ⟨on, visits⟩ := one b visited first here
    obtain ⟨others, visits'⟩ := ih later
    refine ⟨List.forall_mem_cons.mpr ⟨visits'.grows.subset on, others⟩, ?_⟩
    refine (visits.mono ?_).trans (visits'.mono ?_)
    · exact fun a same => ⟨a, same ▸ List.mem_cons_self, .refl⟩
    · exact fun a member => ⟨a, List.mem_cons_of_mem _ member, .refl⟩

theorem visit_visited {next : α → List α} (depth : Nat) {a : α} {visited : List α}
    (on : a ∈ visited) : visit next depth a visited = some visited := by
  unfold visit
  rw [if_pos on]

theorem visit_new {next : α → List α} (depth : Nat) {a : α} {visited : List α}
    (new : a ∉ visited) :
    visit next (depth + 1) a visited =
      (next a).foldlM (fun visited b => visit next depth b visited) (visited ++ [a]) := by
  conv => lhs; unfold visit
  rw [if_neg new]

/-- What a search that returns has visited. -/
theorem visit_visits {next : α → List α} {depth : Nat} {a : α} {visited result : List α}
    (ran : visit next depth a visited = some result) :
    a ∈ result ∧ Visits next (· = a) visited result := by
  induction depth generalizing a visited result with
  | zero =>
    unfold visit at ran
    split at ran
    · rename_i on
      cases ran
      exact ⟨on, .nothing next _ _⟩
    · cases ran
  | succ depth ih =>
    by_cases on : a ∈ visited
    · rw [visit_visited _ on] at ran
      cases ran
      exact ⟨on, .nothing next _ _⟩
    · rw [visit_new _ on] at ran
      obtain ⟨others, visits⟩ := visitAll_visits (fun b _ _ => ih) (next a) ran
      have there : a ∈ result :=
        visits.grows.subset (List.mem_append_right _ (List.mem_singleton.mpr rfl))
      refine ⟨there, ?_, ?_, ?_, ?_⟩
      · exact (List.prefix_append visited [a]).trans visits.grows
      · intro nodup
        apply visits.nodup
        apply List.nodup_append.mpr
        refine ⟨nodup, List.nodup_cons.mpr ⟨List.not_mem_nil, List.nodup_nil⟩, ?_⟩
        intro b old c last same
        rw [List.mem_singleton.mp last] at same
        exact on (same ▸ old)
      · intro b new
        rcases visits.reached b new with old | ⟨c, edge, path⟩
        · rcases List.mem_append.mp old with old | last
          · exact Or.inl old
          · exact Or.inr ⟨a, rfl, List.mem_singleton.mp last ▸ .refl⟩
        · exact Or.inr ⟨a, rfl, .head edge path⟩
      · intro b new
        rcases visits.closed b new with old | inside
        · rcases List.mem_append.mp old with old | last
          · exact Or.inl old
          · exact Or.inr fun c edge => others c (List.mem_singleton.mp last ▸ edge)
        · exact Or.inr inside

/-- A search that may go as deep as there are nodes to visit returns. -/
theorem visit_returns {next : α → List α} {nodes : List α}
    (closed : ∀ a ∈ nodes, ∀ b ∈ next a, b ∈ nodes) {depth : Nat} {a : α} {visited : List α}
    (member : a ∈ nodes) (enough : (unvisited nodes visited).length ≤ depth) :
    ∃ result, visit next depth a visited = some result := by
  induction depth generalizing a visited with
  | zero =>
    have none_ : unvisited nodes visited = [] := List.length_eq_zero_iff.mp (by omega)
    have on : a ∈ visited := by simpa using List.filter_eq_nil_iff.mp none_ a member
    exact ⟨visited, visit_visited _ on⟩
  | succ depth ih =>
    by_cases on : a ∈ visited
    · exact ⟨visited, visit_visited _ on⟩
    · rw [visit_new _ on]
      have fewer := unvisited_append member on
      -- each successor is visited with at most as many nodes left
      have all : ∀ (successors : List α) (visited : List α), (∀ b ∈ successors, b ∈ nodes) →
          (unvisited nodes visited).length ≤ depth → ∃ result,
          successors.foldlM (fun visited b => visit next depth b visited) visited =
            some result := by
        intro successors
        induction successors with
        | nil => exact fun visited _ _ => ⟨visited, rfl⟩
        | cons b rest ihRest =>
          intro visited inside enough
          obtain ⟨here, later⟩ := List.forall_mem_cons.mp inside
          obtain ⟨first, ran⟩ := ih here enough
          have less := unvisited_mono nodes (visit_visits ran).2.grows.subset
          obtain ⟨result, runs⟩ := ihRest first later (Nat.le_trans less enough)
          refine ⟨result, ?_⟩
          rw [List.foldlM_cons, ran]
          exact runs
      exact all (next a) (visited ++ [a]) (closed a member) (by omega)

/-- A search from nothing visited visits what is reached, each node once. -/
theorem visit_reached {next : α → List α} {depth : Nat} {a : α} {result : List α}
    (ran : visit next depth a [] = some result) :
    result.Nodup ∧ ∀ b, b ∈ result ↔ Relation.ReflTransGen (Edge next) a b := by
  obtain ⟨on, visits⟩ := visit_visits ran
  refine ⟨visits.nodup List.nodup_nil, fun b => ⟨fun there => ?_, fun path => ?_⟩⟩
  · rcases visits.reached b there with old | ⟨_, rfl, path⟩
    · exact absurd old List.not_mem_nil
    · exact path
  · induction path with
    | refl => exact on
    | @tail b c _ edge there =>
      rcases visits.closed b there with old | inside
      · exact absurd old List.not_mem_nil
      · exact inside c edge

end

end ElmWrap.Lib.DepthFirst
