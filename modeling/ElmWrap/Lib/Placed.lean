import Mathlib.Data.Set.Insert
import Mathlib.Logic.Function.Basic

/-!
# Sets in named places

A set is kept item by item, each in a place named after it. The names need not tell the
items apart: an item is written over whatever its place holds, and what its place holds
goes when it is taken out. The places hold the set as long as no change is about the
place of another item.
-/

namespace ElmWrap.Lib.Placed

variable {α κ : Type}

/-- An item is added, or taken out. -/
inductive Change (α : Type)
  | add (a : α)
  | remove (a : α)

def Change.item : Change α → α
  | .add a => a
  | .remove a => a

/-- What becomes of the set. -/
def Change.apply (S : Set α) : Change α → Set α
  | .add a => insert a S
  | .remove a => S \ {a}

/-- What the place of the item holds then. -/
def Change.left : Change α → Option α
  | .add a => some a
  | .remove _ => none

/-- What becomes of the places. -/
def Change.write [DecidableEq κ] (name : α → κ) (held : κ → Option α) (change : Change α) :
    κ → Option α :=
  Function.update held (name change.item) change.left

/-- The places hold the items of the set, each in its own. -/
def Holds (name : α → κ) (held : κ → Option α) (S : Set α) : Prop :=
  ∀ k a, held k = some a ↔ a ∈ S ∧ name a = k

/-- The change is about the place of no other item. -/
def Change.Clean (name : α → κ) (S : Set α) (change : Change α) : Prop :=
  ∀ b ∈ S, name b = name change.item → b = change.item

theorem Holds.empty (name : α → κ) : Holds name (fun _ => none) ∅ :=
  fun _ _ => ⟨nofun, fun on => absurd on.1 (Set.notMem_empty _)⟩

variable {name : α → κ} {held : κ → Option α} {S : Set α}

theorem Change.mem_apply_other {change : Change α} {b : α} (other : b ≠ change.item) :
    b ∈ change.apply S ↔ b ∈ S := by
  cases change with
  | add a => exact Set.mem_insert_iff.trans (or_iff_right other)
  | remove a => exact and_iff_left other

theorem Change.mem_apply_item {change : Change α} {b : α} (same : b = change.item) :
    b ∈ change.apply S ↔ change.left = some b := by
  subst same
  cases change with
  | add a => exact ⟨fun _ => rfl, fun _ => Set.mem_insert a S⟩
  | remove a => exact ⟨fun on => absurd rfl on.2, nofun⟩

theorem Change.left_item {change : Change α} {b : α} (left : change.left = some b) :
    b = change.item := by
  cases change with
  | add a => exact (Option.some_inj.mp left).symm
  | remove a => cases left

variable [DecidableEq κ]

theorem Holds.step (holds : Holds name held S) {change : Change α}
    (clean : change.Clean name S) : Holds name (change.write name held) (change.apply S) := by
  intro k b
  unfold Change.write
  by_cases here : k = name change.item
  · subst here
    rw [Function.update_self]
    constructor
    · intro left
      have same := Change.left_item left
      exact ⟨(Change.mem_apply_item same).mpr left, congrArg name same⟩
    · rintro ⟨on, same⟩
      by_cases item : b = change.item
      · exact (Change.mem_apply_item item).mp on
      · exact absurd (clean b ((Change.mem_apply_other item).mp on) same) item
  · rw [Function.update_of_ne here, holds k b]
    by_cases same : b = change.item
    · subst same
      exact ⟨fun at_ => absurd at_.2.symm here, fun at_ => absurd at_.2.symm here⟩
    · rw [Change.mem_apply_other same]

/-- A change about the place of another item loses that item. -/
theorem Holds.lost (holds : Holds name held S) {change : Change α}
    (unclean : ¬ change.Clean name S) :
    ∃ b ∈ change.apply S, ∀ k, change.write name held k ≠ some b := by
  obtain ⟨b, on, same, other⟩ : ∃ b ∈ S, name b = name change.item ∧ b ≠ change.item := by
    by_contra none_
    exact unclean fun b on same => by_contra fun other => none_ ⟨b, on, same, other⟩
  refine ⟨b, (Change.mem_apply_other other).mpr on, fun k found => ?_⟩
  unfold Change.write at found
  by_cases here : k = name change.item
  · rw [here, Function.update_self] at found
    exact other (Change.left_item found)
  · rw [Function.update_of_ne here] at found
    exact here (((holds k b).mp found).2.symm.trans same)

end ElmWrap.Lib.Placed
