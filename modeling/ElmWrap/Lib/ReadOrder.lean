import Mathlib.Data.List.Induction
import Mathlib.Data.List.Nodup
import Mathlib.Data.List.Perm.Basic

/-!
# Scans of a listing without an order

A loop over a listing keeps the first or the last item that passes a test. The
items are listed in any order. What is kept does not depend on the order if and
only if at most one item passes; then it is that item.
-/

namespace ElmWrap.Lib.ReadOrder

variable {α : Type*} {items listed : List α} {test : α → Bool}

/-- Lists of at most one item have one order. -/
theorem eq_of_perm_short (perm : listed.Perm items) (short : items.length ≤ 1) :
    listed = items := by
  match items with
  | [] => exact perm.eq_nil
  | [a] => exact List.perm_singleton.mp perm

/-- Where the first and the last of distinct items are the same there is at most one. -/
theorem short_of_head_eq_last (distinct : items.Nodup) (same : items.head? = items.getLast?) :
    items.length ≤ 1 := by
  cases items with
  | nil => exact Nat.zero_le 1
  | cons a rest =>
    cases rest with
    | nil => exact Nat.le_refl 1
    | cons b rest =>
      rw [List.head?_cons, List.getLast?_cons_cons] at same
      have last : a ∈ b :: rest := List.mem_of_getLast? same.symm
      exact absurd last (List.nodup_cons.mp distinct).1

/-- A loop that keeps what an item stands for ends with the last one that passes. -/
theorem foldl_last {β : Type*} (value : α → β) (items : List α) :
    items.foldl (fun kept a => if test a then some (value a) else kept) none =
      ((items.filter test).getLast?).map value := by
  induction items using List.reverseRecOn with
  | nil => rfl
  | append_singleton items a ih =>
    rw [List.foldl_append, List.foldl_cons, List.foldl_nil, List.filter_append]
    split
    · rename_i passes
      rw [List.filter_cons_of_pos passes, List.filter_nil, List.getLast?_append]
      rfl
    · rename_i fails
      rw [List.filter_cons_of_neg fails, List.filter_nil, List.append_nil, ih]

end ElmWrap.Lib.ReadOrder
