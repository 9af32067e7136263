import Mathlib.Data.List.Basic
import Mathlib.Data.List.Pairwise

/-!
# Nodes among their siblings

A place of a list is an item with the items before it. A tree has a label at each node
and its children in order, as a parser gives it; the places of the tree down to a depth
are listed in the order of the text, a node before what is below it.
-/

namespace ElmWrap.Lib.Siblings

/-! ## Places -/

/-- An item of a list and the items before it, the nearest first. -/
structure Place (β : Type) where
  before : List β
  node : β

section Places

variable {β γ : Type}

/-- The places of a list that follows other items. -/
def places (before : List β) : List β → List (Place β)
  | [] => []
  | node :: rest => ⟨before, node⟩ :: places (node :: before) rest

theorem places_append (before front back : List β) :
    places before (front ++ back) =
      places before front ++ places (front.reverse ++ before) back := by
  induction front generalizing before with
  | nil => rfl
  | cons node front ih =>
    simp only [List.cons_append, places, ih, List.reverse_cons, List.append_assoc, List.nil_append]

theorem map_node_places (before items : List β) : (places before items).map Place.node = items := by
  induction items generalizing before with
  | nil => rfl
  | cons node items ih => simp only [places, List.map_cons, ih]

theorem node_mem_of_mem_places {before items : List β} {place : Place β}
    (member : place ∈ places before items) : place.node ∈ items := by
  have mapped := List.mem_map_of_mem (f := Place.node) member
  rwa [map_node_places] at mapped

theorem filterMap_cons_toList (read : β → Option γ) (item : β) (items : List β) :
    (item :: items).filterMap read = (read item).toList ++ items.filterMap read := by
  rw [List.filterMap_cons]
  cases read item <;> rfl

/-- What is read of the items alone does not depend on their places. -/
theorem filterMap_places (read : β → Option γ) (before items : List β) :
    (places before items).filterMap (fun place => read place.node) = items.filterMap read := by
  have mapped : ((places before items).map Place.node).filterMap read =
      (places before items).filterMap fun place => read place.node := List.filterMap_map
  rw [map_node_places] at mapped
  exact mapped.symm

/-- A place of a list splits it. -/
theorem exists_split_of_mem_places {before items : List β} {place : Place β}
    (member : place ∈ places before items) :
    ∃ front back, items = front ++ place.node :: back ∧ place.before = front.reverse ++ before := by
  induction items generalizing before with
  | nil => cases member
  | cons node items ih =>
    rcases List.mem_cons.mp member with rfl | later
    · exact ⟨[], items, rfl, rfl⟩
    · obtain ⟨front, back, split, earlier⟩ := ih later
      refine ⟨node :: front, back, by rw [split, List.cons_append], ?_⟩
      rw [earlier, List.reverse_cons, List.append_assoc, List.singleton_append]

/-- The places of a list that joins others are the places of these, behind what is joined before. -/
theorem places_flatMap (nodes : β → List γ) (start : List γ) (before items : List β) :
    places ((before.reverse.flatMap nodes).reverse ++ start) (items.flatMap nodes) =
      (places before items).flatMap fun place =>
        places ((place.before.reverse.flatMap nodes).reverse ++ start) (nodes place.node) := by
  induction items generalizing before with
  | nil => rfl
  | cons item items ih =>
    have next := ih (item :: before)
    rw [List.reverse_cons, List.flatMap_append, List.flatMap_singleton, List.reverse_append,
      List.append_assoc] at next
    rw [List.flatMap_cons, places_append, next, places, List.flatMap_cons]

/-- Two places of which something apart is read are the same when they agree on it. -/
theorem eq_of_mem_places {key : β → Option γ} {items : List β}
    (apart : (items.filterMap key).Nodup) {p q : Place β} (first : p ∈ places [] items)
    (second : q ∈ places [] items) {k : γ} (left : key p.node = some k)
    (right : key q.node = some k) : p = q := by
  have pairs : (places [] items).Pairwise fun p q =>
      ∀ k, key p.node = some k → ∀ l, key q.node = some l → k ≠ l := by
    have listed := List.pairwise_filterMap.mp apart
    rw [← map_node_places [] items, List.pairwise_map] at listed
    exact listed
  by_contra other
  have symmetric : Std.Symm fun p q : Place β =>
      ∀ k, key p.node = some k → ∀ l, key q.node = some l → k ≠ l :=
    ⟨fun p q disjoint k here l there same => disjoint l there k here same.symm⟩
  exact pairs.forall first second other k left k right rfl

/-- Something apart differs between an item and the items before it. -/
theorem ne_of_mem_before {key : β → Option γ} {items : List β}
    (apart : (items.filterMap key).Nodup) {p : Place β} (member : p ∈ places [] items) {b : β}
    (earlier : b ∈ p.before) {k l : γ} (left : key b = some k) (right : key p.node = some l) :
    k ≠ l := by
  obtain ⟨front, back, split, before⟩ := exists_split_of_mem_places member
  rw [before, List.append_nil, List.mem_reverse] at earlier
  rw [split, List.filterMap_append, filterMap_cons_toList, right] at apart
  rintro rfl
  exact (List.nodup_append.mp apart).2.2 k (List.mem_filterMap.mpr ⟨b, earlier, left⟩) k
    (List.mem_append_left _ (List.mem_singleton.mpr rfl)) rfl

/-- Two readings of the places of a list, of which each entry names the item it is read of, give
the same entries exactly when they agree at every place. -/
theorem perm_filterMap_places_iff {δ : Type} {key : β → Option δ} {name : γ → δ} {items : List β}
    {f g : Place β → Option γ} (apart : (items.filterMap key).Nodup)
    (left : ∀ p a, f p = some a → key p.node = some (name a))
    (right : ∀ p a, g p = some a → key p.node = some (name a)) :
    ((places [] items).filterMap f).Perm ((places [] items).filterMap g) ↔
      ∀ p ∈ places [] items, f p = g p := by
  constructor
  · intro perm p member
    cases here : f p with
    | some a =>
      obtain ⟨q, on, there⟩ := List.mem_filterMap.mp
        (perm.mem_iff.mp (List.mem_filterMap.mpr ⟨p, member, here⟩))
      obtain rfl := eq_of_mem_places apart member on (left p a here) (right q a there)
      exact there.symm
    | none =>
      cases there : g p with
      | none => rfl
      | some a =>
        obtain ⟨q, on, other⟩ := List.mem_filterMap.mp
          (perm.mem_iff.mpr (List.mem_filterMap.mpr ⟨p, member, there⟩))
        obtain rfl := eq_of_mem_places apart member on (right p a there) (left q a other)
        rw [here] at other
        cases other
  · intro same
    rw [List.filterMap_congr same]

/-- Places at which nothing is read give nothing. -/
theorem filterMap_places_eq_nil {read : Place β → Option γ} {before items : List β}
    (quiet : ∀ place : Place β, place.node ∈ items → read place = none) :
    (places before items).filterMap read = [] :=
  List.filterMap_eq_nil_iff.mpr fun place member => quiet place (node_mem_of_mem_places member)

end Places

/-! ## Trees -/

inductive Rose (α : Type) where
  | node (label : α) (children : List (Rose α))

variable {α : Type}

def Rose.label : Rose α → α
  | .node label _ => label

def Rose.children : Rose α → List (Rose α)
  | .node _ children => children

/-- The places of so many levels, below the nodes that open. -/
def within (opens : α → Bool) : Nat → List (Rose α) → List (Place (Rose α))
  | 0, _ => []
  | n + 1, nodes =>
    (places [] nodes).flatMap fun place =>
      place :: if opens place.node.label then within opens n place.node.children else []

/-- The places below a list of nodes, of so many levels. -/
def below (opens : α → Bool) (n : Nat) (nodes : List (Rose α)) : List (Place (Rose α)) :=
  nodes.flatMap fun node => if opens node.label then within opens n node.children else []

section Find

variable {opens : α → Bool} {wanted : Place (Rose α) → Bool}

/-- Among siblings of which none is wanted itself, the first wanted place is below them. -/
theorem find?_flatMap_places {n : Nat} {before nodes : List (Rose α)}
    (unwanted : ∀ place ∈ places before nodes, wanted place = false) :
    ((places before nodes).flatMap fun place =>
        place :: if opens place.node.label then within opens n place.node.children else []).find?
      wanted = (below opens n nodes).find? wanted := by
  induction nodes generalizing before with
  | nil => rfl
  | cons node nodes ih =>
    have first := unwanted ⟨before, node⟩ List.mem_cons_self
    have rest := ih fun place member => unwanted place (List.mem_cons_of_mem _ member)
    simp only [places, below, List.flatMap_cons, List.find?_append, List.find?_cons, first,
      List.cons_append]
    rw [rest]
    rfl

theorem find?_within_of_unwanted {n : Nat} {nodes : List (Rose α)}
    (unwanted : ∀ place ∈ places [] nodes, wanted place = false) :
    (within opens (n + 1) nodes).find? wanted = (below opens n nodes).find? wanted :=
  find?_flatMap_places unwanted

/-- A wanted node behind unwanted siblings is found, unless one is found below these first. -/
theorem find?_within_of_wanted {n : Nat} {front back : List (Rose α)} {node : Rose α}
    (unwanted : ∀ place ∈ places [] front, wanted place = false)
    (here : wanted ⟨front.reverse, node⟩ = true) :
    (within opens (n + 1) (front ++ node :: back)).find? wanted =
      ((below opens n front).find? wanted).or (some ⟨front.reverse, node⟩) := by
  have split := places_append [] front (node :: back)
  rw [List.append_nil] at split
  rw [within, split, List.flatMap_append, List.find?_append, find?_flatMap_places unwanted, places,
    List.flatMap_cons, List.cons_append, List.find?_cons, here]

end Find

end ElmWrap.Lib.Siblings
