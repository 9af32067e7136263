import Mathlib.Data.List.Basic

/-!
# Growable tables

A table is a list read with a default value: cells past its end hold the
default. `grow` extends a table with default cells until it has a given
capacity, by doubling, so it changes no cell that a reader can see.
-/

namespace ElmWrap.Lib.Table

variable {α : Type}

/-- Double a positive capacity until it exceeds `i`. -/
def growCapacity (i : Nat) : Nat → Nat → Nat
  | 0, capacity => capacity
  | fuel + 1, capacity =>
    if capacity ≤ i then growCapacity i fuel (capacity * 2) else capacity

/-- The capacity a table of capacity `capacity` has once cell `i` exists. -/
def capacityFor (capacity i : Nat) : Nat :=
  if i < capacity then capacity
  else growCapacity i (i + 1) (if capacity = 0 then i + 1 else capacity)

/-- Extend a table with default cells so that cell `i` exists. -/
def grow (d : α) (t : List α) (i : Nat) : List α :=
  t ++ List.replicate (capacityFor t.length i - t.length) d

/-- Write cell `i`, growing the table first. -/
def put (d : α) (t : List α) (i : Nat) (a : α) : List α :=
  (grow d t i).set i a

theorem lt_growCapacity {i : Nat} :
    ∀ (fuel capacity : Nat), 0 < capacity → i < capacity + fuel →
      i < growCapacity i fuel capacity := by
  intro fuel
  induction fuel with
  | zero =>
    intro capacity _ bound
    simpa [growCapacity] using bound
  | succ fuel ih =>
    intro capacity positive bound
    unfold growCapacity
    split
    · exact ih (capacity * 2) (by omega) (by omega)
    · omega

theorem le_growCapacity {i : Nat} :
    ∀ (fuel capacity : Nat), capacity ≤ growCapacity i fuel capacity := by
  intro fuel
  induction fuel with
  | zero => intro capacity; simp [growCapacity]
  | succ fuel ih =>
    intro capacity
    unfold growCapacity
    split
    · exact Nat.le_trans (by omega) (ih (capacity * 2))
    · exact Nat.le_refl capacity

theorem lt_capacityFor (capacity i : Nat) : i < capacityFor capacity i := by
  unfold capacityFor
  split
  · assumption
  · split
    · exact lt_growCapacity _ _ (by omega) (by omega)
    · exact lt_growCapacity _ _ (by omega) (by omega)

theorem le_capacityFor (capacity i : Nat) : capacity ≤ capacityFor capacity i := by
  unfold capacityFor
  split
  · exact Nat.le_refl capacity
  · split
    · omega
    · exact le_growCapacity _ _

@[simp] theorem length_grow (d : α) (t : List α) (i : Nat) :
    (grow d t i).length = capacityFor t.length i := by
  have := le_capacityFor t.length i
  simp [grow]
  omega

/-- Growing is invisible to a reader. -/
@[simp] theorem getD_grow (d : α) (t : List α) (i j : Nat) :
    (grow d t i).getD j d = t.getD j d := by
  unfold grow
  simp only [List.getD_eq_getElem?_getD, List.getElem?_append, List.getElem?_replicate]
  by_cases inside : j < t.length
  · simp [inside]
  · simp only [inside, if_false]
    rw [List.getElem?_eq_none (by omega : t.length ≤ j)]
    split <;> rfl

@[simp] theorem getD_put_self (d : α) (t : List α) (i : Nat) (a : α) :
    (put d t i a).getD i d = a := by
  have inside : i < (grow d t i).length := by
    rw [length_grow]; exact lt_capacityFor _ _
  unfold put
  rw [List.getD_eq_getElem?_getD, List.getElem?_set_self inside]
  rfl

theorem getD_put_ne (d : α) (t : List α) {i j : Nat} (a : α) (other : j ≠ i) :
    (put d t i a).getD j d = t.getD j d := by
  unfold put
  rw [List.getD_eq_getElem?_getD, List.getElem?_set_ne (Ne.symm other),
    ← List.getD_eq_getElem?_getD, getD_grow]

theorem getD_put (d : α) (t : List α) (i j : Nat) (a : α) :
    (put d t i a).getD j d = if j = i then a else t.getD j d := by
  split
  · subst j; exact getD_put_self d t i a
  · exact getD_put_ne d t a (by assumption)

end ElmWrap.Lib.Table
