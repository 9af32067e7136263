import Mathlib.Data.List.Basic
import Mathlib.Logic.Relation

/-!
# What is reached along the edges of a finite graph

Targets of edges are added to a list of nodes, one after the other, until no edge
leads out of it.
-/

namespace ElmWrap.Lib.Closure

variable {α : Type}

/-- There is an edge. -/
def Edge (edges : List (α × α)) (a b : α) : Prop := (a, b) ∈ edges

/-- A node is reached from one of the nodes. -/
def Reached (edge : α → α → Prop) (start : α → Prop) (b : α) : Prop :=
  ∃ a, start a ∧ Relation.ReflTransGen edge a b

theorem Reached.mono {edge other : α → α → Prop} {start : α → Prop}
    (more : ∀ a b, edge a b → other a b) {b : α} (reached : Reached edge start b) :
    Reached other start b := by
  obtain ⟨a, first, path⟩ := reached
  exact ⟨a, first, Relation.ReflTransGen.mono more a b path⟩

theorem Reached.tail {edge : α → α → Prop} {start : α → Prop} {b c : α}
    (reached : Reached edge start b) (step : edge b c) : Reached edge start c := by
  obtain ⟨a, first, path⟩ := reached
  exact ⟨a, first, path.tail step⟩

theorem Reached.start {edge : α → α → Prop} {start : α → Prop} {a : α} (first : start a) :
    Reached edge start a := ⟨a, first, .refl⟩

section

variable [DecidableEq α]

/-- The first edge that leads out of the nodes. -/
def leaving (edges : List (α × α)) (nodes : List α) : Option (α × α) :=
  edges.find? fun e => nodes.contains e.1 && !nodes.contains e.2

/-- Add the targets of edges, at most as often as said. -/
def saturate (edges : List (α × α)) : Nat → List α → List α
  | 0, nodes => nodes
  | n + 1, nodes =>
    match leaving edges nodes with
    | none => nodes
    | some e => saturate edges n (e.2 :: nodes)

/-- The nodes reached from some. -/
def closure (edges : List (α × α)) (nodes : List α) : List α :=
  saturate edges edges.length nodes

theorem leaving_some {edges : List (α × α)} {nodes : List α} {e : α × α}
    (found : leaving edges nodes = some e) : e ∈ edges ∧ e.1 ∈ nodes ∧ e.2 ∉ nodes := by
  have passes := List.find?_some found
  simp only [Bool.and_eq_true, Bool.not_eq_true',
    List.contains_eq_mem, decide_eq_false_iff_not] at passes
  exact ⟨List.mem_of_find?_eq_some found, by simpa using passes⟩

theorem leaving_none {edges : List (α × α)} {nodes : List α} (closed : leaving edges nodes = none)
    {a b : α} (edge : Edge edges a b) (from_ : a ∈ nodes) : b ∈ nodes := by
  have fails := List.find?_eq_none.mp closed (a, b) edge
  simpa [from_] using fails

theorem mem_saturate {edges : List (α × α)} (n : Nat) {nodes : List α} {b : α}
    (member : b ∈ nodes) : b ∈ saturate edges n nodes := by
  induction n generalizing nodes with
  | zero => exact member
  | succ n ih =>
    unfold saturate
    split
    · exact member
    · exact ih (List.mem_cons_of_mem _ member)

/-- Only reached nodes are added. -/
theorem saturate_sound {edges : List (α × α)} {start : α → Prop} (n : Nat) {nodes : List α}
    (reached : ∀ a ∈ nodes, Reached (Edge edges) start a) {b : α}
    (member : b ∈ saturate edges n nodes) : Reached (Edge edges) start b := by
  induction n generalizing nodes with
  | zero => exact reached b member
  | succ n ih =>
    unfold saturate at member
    split at member
    · exact reached b member
    · rename_i e found
      obtain ⟨edge, source, _⟩ := leaving_some found
      apply ih _ member
      intro a on
      rcases List.mem_cons.mp on with here | old
      · rw [here]
        exact (reached e.1 source).tail edge
      · exact reached a old

/-- The edges whose target is not among the nodes. -/
def open_ (edges : List (α × α)) (nodes : List α) : List (α × α) :=
  edges.filter fun e => e.2 ∉ nodes

/-- After as many steps as there are open edges, no edge leads out. -/
theorem saturate_closed {edges : List (α × α)} {n : Nat} {nodes : List α}
    (enough : (open_ edges nodes).length ≤ n) {a b : α} (edge : Edge edges a b)
    (source : a ∈ saturate edges n nodes) : b ∈ saturate edges n nodes := by
  induction n generalizing nodes with
  | zero =>
    have empty : open_ edges nodes = [] := List.length_eq_zero_iff.mp (by omega)
    have closed := List.filter_eq_nil_iff.mp empty (a, b) edge
    exact mem_saturate 0 (by simpa using closed)
  | succ n ih =>
    unfold saturate at source ⊢
    split at source
    · rename_i closed
      exact leaving_none closed edge source
    · rename_i e found
      apply ih _ source
      obtain ⟨there, _, new⟩ := leaving_some found
      have fewer : (open_ edges (e.2 :: nodes)).length < (open_ edges nodes).length := by
        unfold open_
        have split : edges.filter (fun f => f.2 ∉ e.2 :: nodes) =
            (edges.filter fun f => f.2 ∉ nodes).filter fun f => f.2 ≠ e.2 := by
          rw [List.filter_filter]
          apply List.filter_congr
          intro f _
          simp [not_or]
        rw [split]
        apply List.length_filter_lt_length_iff_exists.mpr
        exact ⟨e, List.mem_filter.mpr ⟨there, by simpa using new⟩, by simp⟩
      omega

/-- The closure is what is reached. -/
theorem mem_closure {edges : List (α × α)} {nodes : List α} {b : α} :
    b ∈ closure edges nodes ↔ Reached (Edge edges) (· ∈ nodes) b := by
  constructor
  · intro member
    exact saturate_sound edges.length (fun a on => Reached.start on) member
  · intro reached
    obtain ⟨a, first, path⟩ := reached
    induction path with
    | refl => exact mem_saturate edges.length first
    | tail _ step ih => exact saturate_closed (List.length_filter_le _ _) step ih

end

end ElmWrap.Lib.Closure
