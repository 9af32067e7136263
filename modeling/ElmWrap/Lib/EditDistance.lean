import Mathlib.Data.List.Basic
import Mathlib.Order.Lattice

/-!
# The restricted Damerau-Levenshtein distance

The distance of the first `i` items of one text and the first `j` items of another
by its recurrence: an item is deleted, inserted or replaced, or two neighbouring
items are exchanged, each at the price of one.
-/

namespace ElmWrap.Lib.EditDistance

variable {α : Type*} [DecidableEq α]

/-- The price of putting item `j` of the second text in place of item `i` of the first. -/
def replacing (a b : List α) (i j : Nat) : Nat := if a[i]? = b[j]? then 0 else 1

/-- The items `i - 1`, `i` of the first text are the items `j`, `j - 1` of the second. -/
def Exchanged (a b : List α) (i j : Nat) : Prop :=
  0 < i ∧ 0 < j ∧ a[i]? = b[j - 1]? ∧ a[i - 1]? = b[j]?

instance (a b : List α) (i j : Nat) : Decidable (Exchanged a b i j) :=
  inferInstanceAs (Decidable (_ ∧ _))

/-- The distance of the first `i` items of `a` and the first `j` items of `b`. -/
def distanceTo (a b : List α) : Nat → Nat → Nat
  | 0, j => j
  | i + 1, 0 => i + 1
  | i + 1, j + 1 =>
    let best := min (min (distanceTo a b i (j + 1) + 1) (distanceTo a b (i + 1) j + 1))
      (distanceTo a b i j + replacing a b i j)
    if Exchanged a b i j then min best (distanceTo a b (i - 1) (j - 1) + 1) else best
termination_by i j => i + j

/-- The distance of two texts. -/
def distance (a b : List α) : Nat := distanceTo a b a.length b.length

theorem distanceTo_zero_left (a b : List α) (j : Nat) : distanceTo a b 0 j = j := by
  rw [distanceTo]

theorem distanceTo_zero_right (a b : List α) (i : Nat) : distanceTo a b i 0 = i := by
  cases i with
  | zero => rw [distanceTo]
  | succ i => rw [distanceTo]

theorem distanceTo_le_deletion (a b : List α) (i j : Nat) :
    distanceTo a b (i + 1) (j + 1) ≤ distanceTo a b i (j + 1) + 1 := by
  have least : min (min (distanceTo a b i (j + 1) + 1) (distanceTo a b (i + 1) j + 1))
      (distanceTo a b i j + replacing a b i j) ≤ distanceTo a b i (j + 1) + 1 :=
    (min_le_left _ _).trans (min_le_left _ _)
  rw [distanceTo]
  split
  · exact (min_le_left _ _).trans least
  · exact least

/-- All of one text can be deleted and all of the other inserted. -/
theorem distanceTo_le (a b : List α) (i j : Nat) : distanceTo a b i j ≤ i + j := by
  induction i generalizing j with
  | zero => exact (distanceTo_zero_left a b j).trans_le (Nat.le_add_left j 0)
  | succ i ih =>
    cases j with
    | zero => exact (distanceTo_zero_right a b (i + 1)).le
    | succ j =>
      have deletion := distanceTo_le_deletion a b i j
      have above := ih (j + 1)
      omega

end ElmWrap.Lib.EditDistance
