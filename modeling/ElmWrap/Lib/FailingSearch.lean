import ElmWrap.Lib.DepthFirst

/-!
# A depth-first search that can fail

A node that is visited has successors, or it has none to offer and the search fails
there; a successor can be missing, and then the search fails when its turn comes. A
search that succeeds has visited what is reached from its start, and one from whose
start no such node is reached succeeds.
-/

namespace ElmWrap.Lib.FailingSearch

open DepthFirst (unvisited unvisited_append unvisited_mono)

variable {α : Type}

/-- One successor after the other, up to the first failure. -/
def searchAll (recurse : α → List α → Option (List α × Bool)) :
    List (Option α) → List α → Option (List α × Bool)
  | [], visited => some (visited, true)
  | none :: _, visited => some (visited, false)
  | some b :: rest, visited =>
    match recurse b visited with
    | none => none
    | some (visited, false) => some (visited, false)
    | some (visited, true) => searchAll recurse rest visited

/-- Visit a node and what is reached from it, to a depth. -/
def search [DecidableEq α] (next : α → Option (List (Option α))) :
    Nat → α → List α → Option (List α × Bool)
  | depth, a, visited =>
    if a ∈ visited then some (visited, true)
    else
      match depth with
      | 0 => none
      | depth + 1 =>
        match next a with
        | none => some (visited ++ [a], false)
        | some successors => searchAll (search next depth) successors (visited ++ [a])

/-- There is an edge. -/
def Edge (next : α → Option (List (Option α))) (a b : α) : Prop :=
  ∃ successors, next a = some successors ∧ some b ∈ successors

/-- The search fails at a node. -/
def Fails (next : α → Option (List (Option α))) (a : α) : Prop :=
  ∀ successors, next a = some successors → none ∈ successors

/-- What a search from some nodes leaves. -/
structure Searched (next : α → Option (List (Option α))) (start : α → Prop)
    (visited result : List α) (succeeds : Bool) : Prop where
  grows : visited <+: result
  reached : ∀ b ∈ result, b ∈ visited ∨ ∃ a, start a ∧ Relation.ReflTransGen (Edge next) a b
  closed : succeeds = true → ∀ b ∈ result, b ∈ visited ∨
    ¬ Fails next b ∧ ∀ c, Edge next b c → c ∈ result
  fails : succeeds = false →
    ∃ a b, start a ∧ Relation.ReflTransGen (Edge next) a b ∧ Fails next b

theorem Searched.nothing (next : α → Option (List (Option α))) (start : α → Prop)
    (visited : List α) : Searched next start visited visited true where
  grows := List.prefix_rfl
  reached _ on := Or.inl on
  closed _ _ on := Or.inl on
  fails wrong := nomatch wrong

/-- What going through successors leaves: a missing one is a failure of its own. -/
structure SearchedAll (next : α → Option (List (Option α))) (successors : List (Option α))
    (visited result : List α) (succeeds : Bool) : Prop where
  grows : visited <+: result
  reached : ∀ b ∈ result, b ∈ visited ∨
    ∃ a, some a ∈ successors ∧ Relation.ReflTransGen (Edge next) a b
  closed : succeeds = true → ∀ b ∈ result, b ∈ visited ∨
    ¬ Fails next b ∧ ∀ c, Edge next b c → c ∈ result
  all : succeeds = true → none ∉ successors ∧ ∀ b, some b ∈ successors → b ∈ result
  fails : succeeds = false → none ∈ successors ∨
    ∃ a b, some a ∈ successors ∧ Relation.ReflTransGen (Edge next) a b ∧ Fails next b

section

variable {next : α → Option (List (Option α))}

theorem searchAll_searched {recurse : α → List α → Option (List α × Bool)}
    (one : ∀ b visited result succeeds, recurse b visited = some (result, succeeds) →
      Searched next (· = b) visited result succeeds ∧ (succeeds = true → b ∈ result))
    (successors : List (Option α)) {visited result : List α} {succeeds : Bool}
    (ran : searchAll recurse successors visited = some (result, succeeds)) :
    SearchedAll next successors visited result succeeds := by
  induction successors generalizing visited with
  | nil =>
    cases ran
    refine ⟨List.prefix_rfl, fun b on => Or.inl on, fun _ b on => Or.inl on, ?_,
      fun wrong => nomatch wrong⟩
    exact fun _ => ⟨List.not_mem_nil, fun b member => nomatch member⟩
  | cons first rest ih =>
    cases first with
    | none =>
      cases ran
      exact ⟨List.prefix_rfl, fun b on => Or.inl on, (fun wrong => nomatch wrong),
        (fun wrong => nomatch wrong), fun _ => Or.inl List.mem_cons_self⟩
    | some b =>
      unfold searchAll at ran
      split at ran
      · cases ran
      · rename_i here
        cases ran
        obtain ⟨searched, -⟩ := one _ _ _ _ here
        refine ⟨searched.grows, ?_, (fun wrong => nomatch wrong), (fun wrong => nomatch wrong), ?_⟩
        · intro c on
          rcases searched.reached c on with old | ⟨a, rfl, path⟩
          · exact Or.inl old
          · exact Or.inr ⟨a, List.mem_cons_self, path⟩
        · intro failure
          obtain ⟨a, c, rfl, path, failing⟩ := searched.fails failure
          exact Or.inr ⟨a, c, List.mem_cons_self, path, failing⟩
      · rename_i middle here
        obtain ⟨searched, on⟩ := one _ _ _ _ here
        have later := ih ran
        refine ⟨searched.grows.trans later.grows, ?_, ?_, ?_, ?_⟩
        · intro c there
          rcases later.reached c there with old | ⟨a, member, path⟩
          · rcases searched.reached c old with older | ⟨a, rfl, path⟩
            · exact Or.inl older
            · exact Or.inr ⟨a, List.mem_cons_self, path⟩
          · exact Or.inr ⟨a, List.mem_cons_of_mem _ member, path⟩
        · intro success c there
          rcases later.closed success c there with old | new
          · rcases searched.closed rfl c old with older | ⟨works, inside⟩
            · exact Or.inl older
            · exact Or.inr ⟨works, fun d edge => later.grows.subset (inside d edge)⟩
          · exact Or.inr new
        · intro success
          obtain ⟨full, others⟩ := later.all success
          refine ⟨?_, ?_⟩
          · intro missing
            rcases List.mem_cons.mp missing with wrong | missing
            · cases wrong
            · exact full missing
          · intro c member
            rcases List.mem_cons.mp member with same | member
            · cases same
              exact later.grows.subset (on rfl)
            · exact others c member
        · intro failure
          rcases later.fails failure with missing | ⟨a, c, member, path, failing⟩
          · exact Or.inl (List.mem_cons_of_mem _ missing)
          · exact Or.inr ⟨a, c, List.mem_cons_of_mem _ member, path, failing⟩

variable [DecidableEq α]

theorem search_visited (depth : Nat) {a : α} {visited : List α} (on : a ∈ visited) :
    search next depth a visited = some (visited, true) := by
  unfold search
  rw [if_pos on]

theorem search_new (depth : Nat) {a : α} {visited : List α} (new : a ∉ visited) :
    search next (depth + 1) a visited =
      match next a with
      | none => some (visited ++ [a], false)
      | some successors => searchAll (search next depth) successors (visited ++ [a]) := by
  conv => lhs; unfold search
  rw [if_neg new]

/-- What a search that returns leaves. -/
theorem search_searched (depth : Nat) (a : α) (visited result : List α) (succeeds : Bool)
    (ran : search next depth a visited = some (result, succeeds)) :
    Searched next (· = a) visited result succeeds ∧ (succeeds = true → a ∈ result) := by
  induction depth generalizing a visited result succeeds with
  | zero =>
    unfold search at ran
    split at ran
    · rename_i on
      cases ran
      exact ⟨.nothing next _ _, fun _ => on⟩
    · cases ran
  | succ depth ih =>
    by_cases on : a ∈ visited
    · rw [search_visited _ on] at ran
      cases ran
      exact ⟨.nothing next _ _, fun _ => on⟩
    · rw [search_new _ on] at ran
      cases leads : next a with
      | none =>
        rw [leads] at ran
        cases ran
        refine ⟨⟨List.prefix_append visited [a], ?_, (fun wrong => nomatch wrong), ?_⟩,
          (fun wrong => nomatch wrong)⟩
        · intro b there
          rcases List.mem_append.mp there with old | last
          · exact Or.inl old
          · exact Or.inr ⟨a, rfl, List.mem_singleton.mp last ▸ .refl⟩
        · refine fun _ => ⟨a, a, rfl, .refl, ?_⟩
          intro successors found
          rw [leads] at found
          cases found
      | some successors =>
        rw [leads] at ran
        have below := searchAll_searched ih successors ran
        have last : a ∈ result :=
          below.grows.subset (List.mem_append_right _ (List.mem_singleton_self a))
        refine ⟨⟨(List.prefix_append visited [a]).trans below.grows, ?_, ?_, ?_⟩, fun _ => last⟩
        · intro b there
          rcases below.reached b there with old | ⟨c, member, path⟩
          · rcases List.mem_append.mp old with old | same
            · exact Or.inl old
            · exact Or.inr ⟨a, rfl, List.mem_singleton.mp same ▸ .refl⟩
          · exact Or.inr ⟨a, rfl, .head ⟨successors, leads, member⟩ path⟩
        · intro success b there
          rcases below.closed success b there with old | new
          · rcases List.mem_append.mp old with old | same
            · exact Or.inl old
            · -- the node itself: all its successors have been visited
              obtain ⟨full, all⟩ := below.all success
              rw [List.mem_singleton.mp same]
              refine Or.inr ⟨fun failing => full (failing successors leads), ?_⟩
              rintro c ⟨others, found, member⟩
              rw [leads] at found
              cases found
              exact all c member
          · exact Or.inr new
        · intro failure
          rcases below.fails failure with missing | ⟨c, b, member, path, failing⟩
          · refine ⟨a, a, rfl, .refl, fun others found => ?_⟩
            rw [leads] at found
            cases found
            exact missing
          · exact ⟨a, b, rfl, .head ⟨successors, leads, member⟩ path, failing⟩

/-- A search that may go one deeper than there are nodes with successors returns. -/
theorem search_returns {nodes : List α}
    (inside : ∀ a successors, next a = some successors → a ∈ nodes) {depth : Nat} (a : α)
    {visited : List α} (enough : (unvisited nodes visited).length < depth) :
    ∃ result, search next depth a visited = some result := by
  induction depth generalizing a visited with
  | zero => omega
  | succ depth ih =>
    by_cases on : a ∈ visited
    · exact ⟨_, search_visited _ on⟩
    · rw [search_new _ on]
      cases leads : next a with
      | none => exact ⟨_, rfl⟩
      | some successors =>
        have fewer := unvisited_append (inside a successors leads) on
        -- each successor is searched with at most as many nodes left
        have all : ∀ (successors : List (Option α)) (visited : List α),
            (unvisited nodes visited).length < depth →
            ∃ result, searchAll (search next depth) successors visited = some result := by
          intro successors
          induction successors with
          | nil => exact fun visited _ => ⟨_, rfl⟩
          | cons first rest ihRest =>
            intro visited enough
            cases first with
            | none => exact ⟨_, rfl⟩
            | some b =>
              obtain ⟨⟨middle, succeeds⟩, ran⟩ := ih b enough
              unfold searchAll
              rw [ran]
              cases succeeds with
              | false => exact ⟨_, rfl⟩
              | true =>
                have grows := (search_searched depth b visited middle true ran).1.grows
                have less := unvisited_mono nodes grows.subset
                exact ihRest middle (Nat.lt_of_le_of_lt less enough)
        exact all successors (visited ++ [a]) (by omega)

theorem searchAll_returns {nodes : List α}
    (inside : ∀ a successors, next a = some successors → a ∈ nodes) {depth : Nat}
    (successors : List (Option α)) {visited : List α}
    (enough : (unvisited nodes visited).length < depth) :
    ∃ result, searchAll (search next depth) successors visited = some result := by
  induction successors generalizing visited with
  | nil => exact ⟨_, rfl⟩
  | cons first rest ih =>
    cases first with
    | none => exact ⟨_, rfl⟩
    | some b =>
      obtain ⟨⟨middle, succeeds⟩, ran⟩ := search_returns inside b enough
      unfold searchAll
      rw [ran]
      cases succeeds with
      | false => exact ⟨_, rfl⟩
      | true =>
        have grows := (search_searched depth b visited middle true ran).1.grows
        exact ih (Nat.lt_of_le_of_lt (unvisited_mono nodes grows.subset) enough)

/-- What is reached from the roots. -/
def ReachedFrom (next : α → Option (List (Option α))) (roots : List (Option α)) (b : α) : Prop :=
  ∃ a, some a ∈ roots ∧ Relation.ReflTransGen (Edge next) a b

/-- A search from nothing visited stays with what is reached, succeeds just where nothing missing
or failing is reached, and has then visited all of it. -/
theorem searchAll_reached {depth : Nat} {roots : List (Option α)} {result : List α}
    {succeeds : Bool} (ran : searchAll (search next depth) roots [] = some (result, succeeds)) :
    (∀ b ∈ result, ReachedFrom next roots b) ∧
      (succeeds = true ↔ none ∉ roots ∧ ∀ b, ReachedFrom next roots b → ¬ Fails next b) ∧
      (succeeds = true → ∀ b, ReachedFrom next roots b → b ∈ result) := by
  have searched := searchAll_searched (search_searched depth) roots ran
  have everything : succeeds = true → ∀ b, ReachedFrom next roots b → b ∈ result := by
    rintro success b ⟨a, root, path⟩
    induction path with
    | refl => exact (searched.all success).2 a root
    | @tail b c _ edge there =>
      rcases searched.closed success b there with old | ⟨-, inside⟩
      · exact absurd old List.not_mem_nil
      · exact inside c edge
  refine ⟨?_, ⟨?_, ?_⟩, everything⟩
  · intro b on
    rcases searched.reached b on with old | new
    · exact absurd old List.not_mem_nil
    · exact new
  · intro success
    refine ⟨(searched.all success).1, fun b reached => ?_⟩
    rcases searched.closed success b (everything success b reached) with old | ⟨works, -⟩
    · exact absurd old List.not_mem_nil
    · exact works
  · rintro ⟨full, works⟩
    cases outcome : succeeds with
    | true => rfl
    | false =>
      rcases searched.fails outcome with missing | ⟨a, b, root, path, failing⟩
      · exact absurd missing full
      · exact absurd failing (works b ⟨a, root, path⟩)

end

end ElmWrap.Lib.FailingSearch
