import Mathlib.Data.List.Basic
import Mathlib.Logic.Relation

/-!
# Depth-first search

A node is put behind its successors, unless the search comes back to it on the way.
-/

namespace ElmWrap.Lib.PostOrder

variable {α : Type}

/-- `a` stands before `b` in a list. -/
def Before (order : List α) (a b : α) : Prop :=
  ∃ front back, order = front ++ b :: back ∧ a ∈ front

theorem Before.append {order : List α} {a b : α} (before : Before order a b) (more : List α) :
    Before (order ++ more) a b := by
  obtain ⟨front, back, rfl, member⟩ := before
  exact ⟨front, back ++ more, by simp, member⟩

theorem Before.last {order : List α} {a : α} (member : a ∈ order) (b : α) :
    Before (order ++ [b]) a b :=
  ⟨order, [], rfl, member⟩

theorem Before.filterMap {β : Type} {f : α → Option β} {order : List α} {a b : α} {c d : β}
    (before : Before order a b) (first : f a = some c) (second : f b = some d) :
    Before (order.filterMap f) c d := by
  obtain ⟨front, back, rfl, member⟩ := before
  refine ⟨front.filterMap f, back.filterMap f, ?_, List.mem_filterMap.mpr ⟨a, member, first⟩⟩
  rw [List.filterMap_append, List.filterMap_cons_some second]

theorem Before.mem_front {front back : List α} {a b : α}
    (nodup : (front ++ b :: back).Nodup) (before : Before (front ++ b :: back) a b) :
    a ∈ front := by
  obtain ⟨front_, back_, split, member⟩ := before
  obtain ⟨-, last, apart⟩ := List.nodup_append.mp nodup
  have ahead : b ∉ front := fun on => apart b on b List.mem_cons_self rfl
  have behind := (List.nodup_cons.mp last).1
  obtain ⟨same, -, -⟩ := (List.append_cons_inj_of_notMem ahead behind).mp split
  exact same ▸ member

theorem Before.idxOf_lt [DecidableEq α] {order : List α} {a b : α} (nodup : order.Nodup)
    (before : Before order a b) : order.idxOf a < order.idxOf b := by
  obtain ⟨front, back, rfl, member⟩ := before
  obtain ⟨-, -, apart⟩ := List.nodup_append.mp nodup
  have ahead : b ∉ front := fun on => apart b on b List.mem_cons_self rfl
  rw [List.idxOf_append_of_mem member, List.idxOf_append_of_notMem ahead]
  exact Nat.lt_add_right _ (List.idxOf_lt_length_iff.mpr member)

/-- The nodes a search has come to, and those it is done with, in this order. -/
structure Search (α : Type) where
  visited : List α
  order : List α

/-- There is an edge. -/
def Edge (next : α → List α) (a b : α) : Prop := b ∈ next a

/-- A node that has been visited and is not done. -/
def Search.Open (s : Search α) (a : α) : Prop := a ∈ s.visited ∧ a ∉ s.order

/-- The nodes done stand behind their successors, except those that lead back to them. -/
structure Search.Sorted (next : α → List α) (nodes : List α) (s : Search α) : Prop where
  inside : ∀ a ∈ s.visited, a ∈ nodes
  nodup : s.order.Nodup
  visited : ∀ a ∈ s.order, a ∈ s.visited
  behind : ∀ a ∈ s.order, ∀ b ∈ next a,
    Before s.order b a ∨ Relation.TransGen (Edge next) b a

/-- What a search adds. -/
structure Search.Continues (s t : Search α) : Prop where
  visited : ∀ a ∈ s.visited, a ∈ t.visited
  open_ : ∀ a, t.Open a ↔ s.Open a

theorem Search.Continues.refl (s : Search α) : s.Continues s :=
  ⟨fun _ member => member, fun _ => Iff.rfl⟩

theorem Search.Continues.trans {s t u : Search α} (first : s.Continues t)
    (second : t.Continues u) : s.Continues u where
  visited a on := second.visited a (first.visited a on)
  open_ a := (second.open_ a).trans (first.open_ a)

/-- A node is done when its successors are visited and every open node leads to it. -/
theorem Search.Sorted.close {next : α → List α} {nodes : List α} {t : Search α}
    (sorted : t.Sorted next nodes) {a : α} (openA : t.Open a) (done : ∀ b ∈ next a, b ∈ t.visited)
    (reach : ∀ g, t.Open g → g = a ∨ Relation.TransGen (Edge next) g a) :
    Search.Sorted next nodes { t with order := t.order ++ [a] } where
  inside := sorted.inside
  nodup := by
    apply List.nodup_append.mpr
    refine ⟨sorted.nodup, List.nodup_cons.mpr ⟨List.not_mem_nil, List.nodup_nil⟩, ?_⟩
    intro b on c last same
    rw [List.mem_singleton.mp last] at same
    exact openA.2 (same ▸ on)
  visited := by
    intro b on
    rcases List.mem_append.mp on with old | last
    · exact sorted.visited b old
    · rw [List.mem_singleton.mp last]
      exact openA.1
  behind := by
    intro b on c edge
    rcases List.mem_append.mp on with old | last
    · rcases sorted.behind b old c edge with before | back
      · exact .inl (before.append [a])
      · exact .inr back
    · rw [List.mem_singleton.mp last] at edge ⊢
      by_cases ordered : c ∈ t.order
      · exact .inl (.last ordered a)
      · -- an open successor is the node itself or on the way to it
        right
        rcases reach c ⟨done c edge, ordered⟩ with same | path
        · rw [same] at edge ⊢
          exact .single edge
        · exact path

theorem Search.Continues.close {s t : Search α} {a : α} (new : a ∉ s.visited)
    (continues : Search.Continues { s with visited := a :: s.visited } t) :
    s.Continues { t with order := t.order ++ [a] } where
  visited b on := continues.visited b (List.mem_cons_of_mem _ on)
  open_ b := by
    constructor
    · intro open_
      have apart : b ∉ t.order := fun on => open_.2 (List.mem_append_left _ on)
      have opened := (continues.open_ b).mp ⟨open_.1, apart⟩
      rcases List.mem_cons.mp opened.1 with same | old
      · exact absurd (List.mem_append_right _ (List.mem_singleton.mpr same)) open_.2
      · exact ⟨old, opened.2⟩
    · intro open_
      have opened := (continues.open_ b).mpr ⟨List.mem_cons_of_mem _ open_.1, open_.2⟩
      refine ⟨opened.1, ?_⟩
      intro on
      rcases List.mem_append.mp on with old | last
      · exact opened.2 old
      · rw [List.mem_singleton.mp last] at open_
        exact new open_.1

section

variable [DecidableEq α]

/-- Visit a node, to a depth. -/
def visit (next : α → List α) : Nat → α → Search α → Search α
  | 0, _, s => s
  | depth + 1, a, s =>
    if a ∈ s.visited then s
    else
      let s := (next a).foldl (fun s b => visit next depth b s)
        { s with visited := a :: s.visited }
      { s with order := s.order ++ [a] }

/-- The nodes of a graph that have not been visited. -/
def Search.unvisited (nodes : List α) (s : Search α) : List α := nodes.filter (· ∉ s.visited)

theorem Search.unvisited_mono (nodes : List α) {s t : Search α}
    (more : ∀ a ∈ s.visited, a ∈ t.visited) :
    (t.unvisited nodes).length ≤ (s.unvisited nodes).length := by
  apply List.Sublist.length_le
  apply List.monotone_filter_right
  intro a new
  simp only [decide_eq_true_eq] at new ⊢
  exact fun old => new (more a old)

theorem Search.unvisited_visit {nodes : List α} {s : Search α} {a : α} (member : a ∈ nodes)
    (new : a ∉ s.visited) :
    (Search.unvisited nodes { s with visited := a :: s.visited }).length <
      (s.unvisited nodes).length := by
  unfold unvisited
  have split : nodes.filter (· ∉ a :: s.visited) =
      (nodes.filter (· ∉ s.visited)).filter (· ≠ a) := by
    rw [List.filter_filter]
    apply List.filter_congr
    intro b _
    simp [not_or]
  dsimp only
  rw [split]
  apply List.length_filter_lt_length_iff_exists.mpr
  exact ⟨a, List.mem_filter.mpr ⟨member, by simpa using new⟩, by simp⟩

/-- The loop over the successors of an open node. -/
theorem visitAll_spec {next : α → List α} {nodes : List α} {depth : Nat} {a : α}
    (one : ∀ (b : α) (s : Search α), b ∈ nodes → (s.unvisited nodes).length ≤ depth →
      s.Sorted next nodes → (∀ g, s.Open g → Relation.TransGen (Edge next) g b) →
      (visit next depth b s).Sorted next nodes ∧ s.Continues (visit next depth b s) ∧
        b ∈ (visit next depth b s).visited)
    (successors : List α) (inside : ∀ b ∈ successors, b ∈ nodes)
    (edges : ∀ b ∈ successors, Edge next a b) (s : Search α)
    (enough : (s.unvisited nodes).length ≤ depth) (sorted : s.Sorted next nodes)
    (reach : ∀ g, s.Open g → g = a ∨ Relation.TransGen (Edge next) g a) :
    let t := successors.foldl (fun s b => visit next depth b s) s
    t.Sorted next nodes ∧ s.Continues t ∧ ∀ b ∈ successors, b ∈ t.visited := by
  induction successors generalizing s with
  | nil => exact ⟨sorted, .refl s, fun b member => absurd member List.not_mem_nil⟩
  | cons b rest ih =>
    obtain ⟨here, later⟩ := List.forall_mem_cons.mp inside
    obtain ⟨edge, edges⟩ := List.forall_mem_cons.mp edges
    have leads : ∀ g, s.Open g → Relation.TransGen (Edge next) g b := by
      intro g open_
      rcases reach g open_ with same | path
      · rw [same]
        exact .single edge
      · exact path.tail edge
    obtain ⟨sorted', continues, done⟩ := one b s here enough sorted leads
    have enough' := Nat.le_trans (Search.unvisited_mono nodes continues.visited) enough
    obtain ⟨sorted'', continues', others⟩ := ih later edges (visit next depth b s) enough' sorted'
      (fun g open_ => reach g ((continues.open_ g).mp open_))
    refine ⟨sorted'', continues.trans continues', ?_⟩
    intro c member
    rcases List.mem_cons.mp member with same | member
    · rw [same]
      exact continues'.visited b done
    · exact others c member

theorem visit_spec {next : α → List α} {nodes : List α}
    (closed : ∀ a ∈ nodes, ∀ b ∈ next a, b ∈ nodes) (depth : Nat) (a : α) (s : Search α)
    (member : a ∈ nodes) (enough : (s.unvisited nodes).length ≤ depth)
    (sorted : s.Sorted next nodes)
    (reach : ∀ g, s.Open g → Relation.TransGen (Edge next) g a) :
    (visit next depth a s).Sorted next nodes ∧ s.Continues (visit next depth a s) ∧
      a ∈ (visit next depth a s).visited := by
  induction depth generalizing a s with
  | zero =>
    have none_ : s.unvisited nodes = [] := List.length_eq_zero_iff.mp (by omega)
    have on : a ∈ s.visited := by simpa using List.filter_eq_nil_iff.mp none_ a member
    exact ⟨sorted, .refl s, on⟩
  | succ depth ih =>
    unfold visit
    split
    · rename_i on
      exact ⟨sorted, .refl s, on⟩
    · rename_i new
      have fewer := Search.unvisited_visit member new
      have sorted' : Search.Sorted next nodes { s with visited := a :: s.visited } :=
        ⟨List.forall_mem_cons.mpr ⟨member, sorted.inside⟩, sorted.nodup,
          fun b on => List.mem_cons_of_mem _ (sorted.visited b on), sorted.behind⟩
      have reach' : ∀ g, Search.Open { s with visited := a :: s.visited } g →
          g = a ∨ Relation.TransGen (Edge next) g a := by
        intro g open_
        rcases List.mem_cons.mp open_.1 with same | old
        · exact .inl same
        · exact .inr (reach g ⟨old, open_.2⟩)
      obtain ⟨inner, continues, done⟩ := visitAll_spec ih (next a) (closed a member)
        (fun b edge => edge) { s with visited := a :: s.visited } (by omega) sorted' reach'
      have openA := (continues.open_ a).mpr
        ⟨List.mem_cons_self, fun done => new (sorted.visited a done)⟩
      refine ⟨inner.close openA done ?_, continues.close new, openA.1⟩
      exact fun g open_ => reach' g ((continues.open_ g).mp open_)

/-- A search from some nodes, one after the other. -/
def search (next : α → List α) (depth : Nat) (starts : List α) : Search α :=
  starts.foldl (fun s a => visit next depth a s) ⟨[], []⟩

/-- A search from all nodes of a graph orders them. -/
theorem search_spec {next : α → List α} {nodes : List α}
    (closed : ∀ a ∈ nodes, ∀ b ∈ next a, b ∈ nodes) :
    (search next nodes.length nodes).Sorted next nodes ∧
      ∀ a, a ∈ (search next nodes.length nodes).order ↔ a ∈ nodes := by
  have rest : ∀ (starts : List α) (s : Search α), (∀ a ∈ starts, a ∈ nodes) → s.Sorted next nodes →
      (∀ g, ¬ s.Open g) →
      let t := starts.foldl (fun s a => visit next nodes.length a s) s
      t.Sorted next nodes ∧ (∀ a ∈ s.visited, a ∈ t.visited) ∧ (∀ g, ¬ t.Open g) ∧
        ∀ a ∈ starts, a ∈ t.visited := by
    intro starts
    induction starts with
    | nil =>
      intro s _ sorted closed_
      exact ⟨sorted, fun _ on => on, closed_, fun a member => absurd member List.not_mem_nil⟩
    | cons a rest ih =>
      intro s inside sorted closed_
      obtain ⟨here, later⟩ := List.forall_mem_cons.mp inside
      obtain ⟨sorted', continues, done⟩ := visit_spec closed nodes.length a s here
        (List.length_filter_le _ _) sorted (fun g open_ => absurd open_ (closed_ g))
      obtain ⟨sorted'', more, closed', others⟩ := ih (visit next nodes.length a s) later sorted'
        (fun g open_ => closed_ g ((continues.open_ g).mp open_))
      refine ⟨sorted'', fun b on => more b (continues.visited b on), closed', ?_⟩
      exact List.forall_mem_cons.mpr ⟨more a done, others⟩
  obtain ⟨sorted, -, closed_, all⟩ := rest nodes ⟨[], []⟩ (fun a on => on)
    ⟨fun a on => absurd on List.not_mem_nil, List.nodup_nil,
      fun a on => absurd on List.not_mem_nil, fun a on => absurd on List.not_mem_nil⟩
    (fun g open_ => absurd open_.1 List.not_mem_nil)
  refine ⟨sorted, fun a => ⟨fun done => sorted.inside a (sorted.visited a done), ?_⟩⟩
  intro member
  by_contra missing
  exact closed_ a ⟨all a member, missing⟩

end

end ElmWrap.Lib.PostOrder
