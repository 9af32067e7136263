import Mathlib.Data.Fintype.EquivFin
import Mathlib.Data.List.Sort
import Mathlib.Logic.Relation
import Mathlib.Order.WellFounded

/-!
# Orders that put needs first

A relation says which nodes a node needs. An order of the nodes puts needs first
when every node comes after the nodes it needs, and it is the least such order
when every place holds the least node whose needs are all placed before it.
Such an order exists for the acyclic relations only.
-/

namespace ElmWrap.Lib.LeastFirst

variable {α κ : Type}

/-! ## Sorting by exchange -/

section Exchange

variable [LinearOrder κ] (key : α → κ)

/-- An item is exchanged with each smaller one of the list: the item it ends as, and the list. -/
def exchange (a : α) : List α → α × List α
  | [] => (a, [])
  | b :: rest =>
    if key b < key a then
      let (least, rest) := exchange b rest
      (least, a :: rest)
    else
      let (least, rest) := exchange a rest
      (least, b :: rest)

/-- The sort by exchange, for as many places as there are. -/
def exchangeSort : Nat → List α → List α
  | 0, items => items
  | _, [] => []
  | n + 1, a :: rest =>
    let (least, rest) := exchange key a rest
    least :: exchangeSort n rest

theorem exchange_perm (a : α) (items : List α) :
    ((exchange key a items).1 :: (exchange key a items).2).Perm (a :: items) := by
  induction items generalizing a with
  | nil => exact List.Perm.refl _
  | cons b items ih =>
    unfold exchange
    split
    · exact (List.Perm.swap _ _ _).trans (((ih b).cons a))
    · exact (List.Perm.swap _ _ _).trans (((ih a).cons b).trans (List.Perm.swap _ _ _))

/-- What an item ends as is not above it, nor above an item of the list. -/
theorem exchange_le (a : α) (items : List α) :
    key (exchange key a items).1 ≤ key a ∧ ∀ b ∈ items, key (exchange key a items).1 ≤ key b := by
  induction items generalizing a with
  | nil => exact ⟨le_refl _, by simp [exchange]⟩
  | cons b items ih =>
    unfold exchange
    split
    · rename_i smaller
      obtain ⟨low, rest⟩ := ih b
      refine ⟨low.trans smaller.le, fun c member => ?_⟩
      rcases List.mem_cons.mp member with rfl | later
      · exact low
      · exact rest c later
    · rename_i other
      obtain ⟨low, rest⟩ := ih a
      refine ⟨low, fun c member => ?_⟩
      rcases List.mem_cons.mp member with rfl | later
      · exact low.trans (not_lt.mp other)
      · exact rest c later

theorem exchangeSort_perm (n : Nat) (items : List α) : (exchangeSort key n items).Perm items := by
  induction n generalizing items with
  | zero => exact List.Perm.refl _
  | succ n ih =>
    cases items with
    | nil => exact List.Perm.refl _
    | cons a items =>
      unfold exchangeSort
      exact ((ih _).cons _).trans (exchange_perm key a items)

theorem exchangeSort_sorted {n : Nat} {items : List α} (enough : items.length ≤ n) :
    (exchangeSort key n items).Pairwise fun a b => key a ≤ key b := by
  induction n generalizing items with
  | zero =>
    rw [List.length_eq_zero_iff.mp (Nat.le_zero.mp enough)]
    exact List.Pairwise.nil
  | succ n ih =>
    cases items with
    | nil => exact List.Pairwise.nil
    | cons a items =>
      have perm := exchange_perm key a items
      obtain ⟨low, least⟩ := exchange_le key a items
      have count : (exchange key a items).2.length ≤ n := by
        have same := perm.length_eq
        simp only [List.length_cons] at same enough
        omega
      unfold exchangeSort
      refine List.pairwise_cons.mpr ⟨fun b member => ?_, ih count⟩
      have on : b ∈ a :: items :=
        perm.mem_iff.mp (List.mem_cons_of_mem _ ((exchangeSort_perm key n _).mem_iff.mp member))
      rcases List.mem_cons.mp on with rfl | later
      · exact low
      · exact least b later

end Exchange

/-! ## Orders -/

/-- All nodes that a node needs are placed. -/
def Ready (needs : α → α → Prop) (nodes placed : List α) (a : α) : Prop :=
  ∀ b ∈ nodes, needs a b → b ∈ placed

/-- An order of the nodes in which every place holds the least node that is ready there. -/
structure Order [LinearOrder κ] (needs : α → α → Prop) (key : α → κ) (nodes order : List α) :
    Prop where
  perm : order.Perm nodes
  ready : ∀ front a back, order = front ++ a :: back → Ready needs nodes front a
  least : ∀ front a back, order = front ++ a :: back → ∀ b ∈ nodes, b ∉ front →
    Ready needs nodes front b → key a ≤ key b

/-- No node needs itself, directly or through other nodes. -/
def Acyclic (needs : α → α → Prop) (nodes : List α) : Prop :=
  ∀ a ∈ nodes, ¬ Relation.TransGen (fun a b => needs a b ∧ b ∈ nodes) a a

theorem Ready.congr {needs : α → α → Prop} {nodes nodes' placed : List α}
    (same : ∀ a, a ∈ nodes ↔ a ∈ nodes') {a : α} :
    Ready needs nodes placed a ↔ Ready needs nodes' placed a := by
  simp only [Ready, same]

theorem Acyclic.congr {needs : α → α → Prop} {nodes nodes' : List α}
    (same : ∀ a, a ∈ nodes ↔ a ∈ nodes') : Acyclic needs nodes ↔ Acyclic needs nodes' := by
  simp only [Acyclic, same]

theorem Order.of_perm [LinearOrder κ] {needs : α → α → Prop} {key : α → κ}
    {nodes nodes' order : List α} (perm : nodes.Perm nodes')
    (ordered : Order needs key nodes order) : Order needs key nodes' order where
  perm := ordered.perm.trans perm
  ready front a back split :=
    (Ready.congr fun _ => perm.mem_iff).mp (ordered.ready front a back split)
  least front a back split b member new ready :=
    ordered.least front a back split b (perm.mem_iff.mpr member) new
      ((Ready.congr fun _ => perm.mem_iff).mpr ready)

/-- A list in which no place holds an item that is in front of it has no duplicates. -/
theorem nodup_of_new {order : List α}
    (new : ∀ front a back, order = front ++ a :: back → a ∉ front) : order.Nodup := by
  induction order using List.reverseRecOn with
  | nil => exact List.nodup_nil
  | append_singleton order a ih =>
    refine List.nodup_append.mpr ⟨ih fun front b back split => ?_, List.nodup_singleton a, ?_⟩
    · exact new front b (back ++ [a]) (by rw [split]; simp)
    · intro b member c last same
      rw [List.mem_singleton.mp last] at same
      exact new order a [] rfl (same ▸ member)

/-- Where needs can be put first there is no cycle. -/
theorem Order.acyclic [LinearOrder κ] {needs : α → α → Prop} {key : α → κ} {nodes order : List α}
    (ordered : Order needs key nodes order) (nodup : nodes.Nodup) : Acyclic needs nodes := by
  have distinct : order.Nodup := ordered.perm.nodup_iff.mpr nodup
  -- what a node needs through others is placed in front of it
  have before : ∀ a b, a ∈ nodes → Relation.TransGen (fun a b => needs a b ∧ b ∈ nodes) a b →
      ∃ front back, order = front ++ a :: back ∧ b ∈ front := by
    intro a b member path
    induction path with
    | single edge =>
      obtain ⟨front, back, split⟩ := List.append_of_mem (ordered.perm.mem_iff.mpr member)
      exact ⟨front, back, split, ordered.ready front a back split _ edge.2 edge.1⟩
    | tail path edge ih =>
      obtain ⟨front, back, split, placed⟩ := ih
      obtain ⟨first, second, inner⟩ := List.append_of_mem placed
      refine ⟨front, back, split, ?_⟩
      have earlier := ordered.ready first _ (second ++ a :: back)
        (by rw [split, inner]; simp) _ edge.2 edge.1
      rw [inner]
      exact List.mem_append_left _ earlier
  intro a member cycle
  obtain ⟨front, back, split, placed⟩ := before a a member cycle
  rw [split] at distinct
  exact (List.nodup_append.mp distinct).2.2 a placed a List.mem_cons_self rfl

/-- Where there is no cycle, some node that is not placed yet is ready. -/
theorem Acyclic.exists_ready {needs : α → α → Prop} {nodes placed : List α}
    (acyclic : Acyclic needs nodes) {a : α} (member : a ∈ nodes) (open_ : a ∉ placed) :
    ∃ b ∈ nodes, b ∉ placed ∧ Ready needs nodes placed b := by
  classical
  let Node := { b // b ∈ nodes }
  let Path : Node → Node → Prop := fun b c =>
    Relation.TransGen (fun a b => needs a b ∧ b ∈ nodes) c.1 b.1
  have trans : IsTrans Node Path := ⟨fun b c d first second => Relation.TransGen.trans second first⟩
  have irrefl : Std.Irrefl Path := ⟨fun b cycle => acyclic b.1 b.2 cycle⟩
  have finite : Finite Node := by
    refine Finite.of_injective (fun b : Node => (⟨b.1, List.mem_toFinset.mpr b.2⟩ : nodes.toFinset))
      fun b c same => Subtype.ext ?_
    exact congrArg (fun d => d.1) same
  have founded : WellFounded Path := Finite.wellFounded_of_trans_of_irrefl Path
  obtain ⟨b, unplaced, minimal⟩ :=
    founded.has_min { b : Node | b.1 ∉ placed } ⟨⟨a, member⟩, open_⟩
  refine ⟨b.1, b.2, unplaced, fun c on need => ?_⟩
  by_contra missing
  exact minimal ⟨c, on⟩ missing (Relation.TransGen.single ⟨need, on⟩)

end ElmWrap.Lib.LeastFirst
