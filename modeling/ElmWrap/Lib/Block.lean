import Mathlib.Data.List.Infix
import Mathlib.Tactic.Common

/-!
# Blocks of memory

A block has a number of cells, each written or not. A write behind its last cell fails.
An array that grows is a block that holds its items in its first cells, and a larger
block is taken when it is full. The capacity of one that doubles can be told from the
number of its items.
-/

namespace ElmWrap.Lib

/-- A block of memory, cell by cell. -/
structure Block (α : Type) where
  cells : List (Option α)

namespace Block

variable {α : Type}

/-- The number of cells. -/
def size (block : Block α) : Nat := block.cells.length

/-- A block nothing has been written to. -/
def fresh (size : Nat) : Block α := ⟨List.replicate size none⟩

/-- A block of another size, with the cells that fit. -/
def resize (block : Block α) (size : Nat) : Block α :=
  ⟨block.cells.take size ++ List.replicate (size - block.size) none⟩

/-- A write to a cell. -/
def write (block : Block α) (i : Nat) (a : α) : Option (Block α) :=
  if i < block.size then some ⟨block.cells.set i (some a)⟩ else none

/-- What the first cells hold. -/
def items (block : Block α) (count : Nat) : List α := (block.cells.take count).reduceOption

/-- The first cells of a block hold the items of a list. -/
def Holds (block : Block α) (items : List α) : Prop := items.map some <+: block.cells

@[simp] theorem size_fresh (size : Nat) : (fresh size : Block α).size = size :=
  List.length_replicate

@[simp] theorem size_resize (block : Block α) (size : Nat) : (block.resize size).size = size := by
  unfold resize Block.size
  rw [List.length_append, List.length_take, List.length_replicate]
  omega

theorem write_outside {block : Block α} {i : Nat} {a : α} (outside : block.size ≤ i) :
    block.write i a = none :=
  if_neg (Nat.not_lt.mpr outside)

theorem holds_nil (block : Block α) : block.Holds [] := List.nil_prefix

theorem Holds.length_le {block : Block α} {items : List α} (holds : block.Holds items) :
    items.length ≤ block.size := by
  have short := List.IsPrefix.length_le holds
  rwa [List.length_map] at short

/-- The items of an array are what its first cells hold. -/
theorem Holds.items_eq {block : Block α} {items : List α} (holds : block.Holds items) :
    block.items items.length = items := by
  obtain ⟨rest, same⟩ := holds
  unfold Block.items
  rw [← same, List.take_left' (List.length_map some)]
  unfold List.reduceOption
  rw [List.filterMap_map]
  exact List.filterMap_some

/-- Growth keeps the items. -/
theorem Holds.resize {block : Block α} {items : List α} (holds : block.Holds items) {size : Nat}
    (fits : items.length ≤ size) : (block.resize size).Holds items := by
  obtain ⟨rest, same⟩ := holds
  refine List.IsPrefix.trans ?_ (List.prefix_append _ _)
  rw [← same]
  refine ⟨rest.take (size - items.length), ?_⟩
  rw [List.take_append, List.length_map,
    List.take_of_length_le (fits.trans' (List.length_map some).le)]

/-- An item is written behind the others. -/
theorem Holds.write {block : Block α} {items : List α} (holds : block.Holds items)
    (room : items.length < block.size) (a : α) :
    ∃ written, block.write items.length a = some written ∧ written.size = block.size ∧
      written.Holds (items ++ [a]) := by
  refine ⟨_, if_pos room, List.length_set, ?_⟩
  obtain ⟨rest, same⟩ := holds
  unfold Block.size at room
  unfold Holds
  rw [← same, List.length_append, List.length_map] at room
  dsimp only
  rw [← same, List.set_append_right _ _ (List.length_map some).le, List.length_map, Nat.sub_self]
  cases rest with
  | nil => simp at room
  | cons old rest =>
    rw [List.set_cons_zero, List.map_append]
    exact ⟨rest, by simp⟩

/-- An item is replaced. -/
theorem Holds.set {block : Block α} {items : List α} (holds : block.Holds items) {i : Nat}
    (inside : i < items.length) (a : α) :
    ∃ written, block.write i a = some written ∧ written.size = block.size ∧
      written.Holds (items.set i a) := by
  refine ⟨_, if_pos (inside.trans_le holds.length_le), List.length_set, ?_⟩
  obtain ⟨rest, same⟩ := holds
  unfold Holds
  dsimp only
  rw [← same, List.set_append_left _ _ (by rwa [List.length_map]), ← List.map_set]
  exact List.prefix_append _ _

end Block

/-! ## Capacities that double -/

/-- The first of a capacity, its double and so on that is enough for a number of items. -/
def doubledCapacity (capacity count : Nat) : Nat :=
  if capacity < count ∧ 0 < capacity then doubledCapacity (capacity * 2) count else capacity
termination_by count - capacity

theorem le_doubledCapacity {capacity : Nat} (some_ : 0 < capacity) (count : Nat) :
    count ≤ doubledCapacity capacity count := by
  induction capacity using doubledCapacity.induct count with
  | case1 capacity less ih =>
    rw [doubledCapacity, if_pos less]
    exact ih (by omega)
  | case2 capacity enough =>
    rw [doubledCapacity, if_neg enough]
    omega

theorem doubledCapacity_pos {capacity : Nat} (some_ : 0 < capacity) (count : Nat) :
    0 < doubledCapacity capacity count := by
  induction capacity using doubledCapacity.induct count with
  | case1 capacity less ih =>
    rw [doubledCapacity, if_pos less]
    exact ih (by omega)
  | case2 capacity enough =>
    rw [doubledCapacity, if_neg enough]
    exact some_

/-- An item for which there is room leaves the capacity as it is. -/
theorem doubledCapacity_room {capacity count : Nat} (some_ : 0 < capacity)
    (room : count < doubledCapacity capacity count) :
    doubledCapacity capacity (count + 1) = doubledCapacity capacity count := by
  induction capacity using doubledCapacity.induct count with
  | case1 capacity less ih =>
    have here : doubledCapacity capacity count = doubledCapacity (capacity * 2) count := by
      rw [doubledCapacity, if_pos less]
    rw [here] at room ⊢
    rw [doubledCapacity, if_pos ⟨by omega, some_⟩]
    exact ih (by omega) room
  | case2 capacity enough =>
    have here : doubledCapacity capacity count = capacity := by
      rw [doubledCapacity, if_neg enough]
    rw [here] at room ⊢
    rw [doubledCapacity, if_neg (by omega)]

/-- An item for which there is none doubles it. -/
theorem doubledCapacity_full {capacity count : Nat} (some_ : 0 < capacity)
    (full : doubledCapacity capacity count ≤ count) :
    doubledCapacity capacity (count + 1) = doubledCapacity capacity count * 2 := by
  induction capacity using doubledCapacity.induct count with
  | case1 capacity less ih =>
    have here : doubledCapacity capacity count = doubledCapacity (capacity * 2) count := by
      rw [doubledCapacity, if_pos less]
    rw [here] at full ⊢
    rw [doubledCapacity, if_pos ⟨by omega, some_⟩]
    exact ih (by omega) full
  | case2 capacity enough =>
    have here : doubledCapacity capacity count = capacity := by
      rw [doubledCapacity, if_neg enough]
    rw [here] at full ⊢
    rw [doubledCapacity, if_pos ⟨by omega, some_⟩, doubledCapacity, if_neg (by omega)]

end ElmWrap.Lib
