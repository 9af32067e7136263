import Mathlib.Data.List.Basic

/-!
# Resuming a list by a mark

A worker goes through a list that grows between its runs and leaves a mark, the
number of places it need not look at again. What is not settled must stand at a
place past the mark, else it is never looked at again.
-/

namespace ElmWrap.Lib

variable {α : Type}

/-- What is not settled stands at a place past the mark. -/
def Pending (settled : α → Prop) (xs : List α) (mark : Nat) : Prop :=
  ∀ x ∈ xs, ¬ settled x → x ∈ xs.drop mark

/-- The places of a list past a mark are past it in a longer list. -/
theorem mem_drop_of_sublist {xs ys : List α} (grown : xs.Sublist ys) {mark : Nat} {x : α}
    (member : x ∈ xs.drop mark) : x ∈ ys.drop mark :=
  (grown.drop mark).subset member

/-- A mark stays right while the list grows, if what is new or settled no longer stands past
it. -/
theorem Pending.grow {settled settled' : α → Prop} {xs ys : List α} {mark : Nat}
    (pending : Pending settled xs mark) (grown : xs.Sublist ys)
    (fresh : ∀ y ∈ ys, y ∉ xs ∨ settled y → ¬ settled' y → y ∈ ys.drop mark) :
    Pending settled' ys mark := by
  intro y member open'
  by_cases old : y ∈ xs
  · by_cases done : settled y
    · exact fresh y member (.inr done) open'
    · exact mem_drop_of_sublist grown (pending y old done)
  · exact fresh y member (.inl old) open'

theorem Pending.mono {settled settled' : α → Prop} {xs : List α} {mark : Nat}
    (pending : Pending settled xs mark) (more : ∀ x ∈ xs, settled x → settled' x) :
    Pending settled' xs mark :=
  fun x member open' => pending x member fun done => open' (more x member done)

/-- An element past the mark has a place there. -/
theorem mem_drop_iff {xs : List α} {mark : Nat} {x : α} :
    x ∈ xs.drop mark ↔ ∃ i, mark ≤ i ∧ xs[i]? = some x := by
  rw [List.mem_iff_getElem?]
  constructor
  · rintro ⟨i, found⟩
    rw [List.getElem?_drop] at found
    exact ⟨mark + i, Nat.le_add_right mark i, found⟩
  · rintro ⟨i, past, found⟩
    refine ⟨i - mark, ?_⟩
    rw [List.getElem?_drop, Nat.add_sub_cancel' past]
    exact found

end ElmWrap.Lib
