import Mathlib.Data.List.Induction
import Mathlib.Data.List.Sort

/-!
# The best of a list, one item at a time

A list of the `k` best items seen so far, best first; of two items that are as
good as each other the one seen first stays in front. Each new item is put in its
place and what is then too much is dropped. At the end the list is the beginning
of the stable sort of everything seen.
-/

namespace ElmWrap.Lib.BestOf

variable {α κ : Type*} [LinearOrder κ] (key : α → κ)

/-- Items are ordered by their keys. -/
def AtMost (a b : α) : Prop := key a ≤ key b

instance : DecidableRel (AtMost key) := fun a b => inferInstanceAs (Decidable (key a ≤ key b))

/-- The items of a list by their keys; those with equal keys stay in the order of the list. -/
def sorted (items : List α) : List α := items.insertionSort (AtMost key)

theorem mem_sorted {key : α → κ} {a : α} {items : List α} : a ∈ sorted key items ↔ a ∈ items :=
  List.mem_insertionSort (AtMost key)

theorem pairwise_sorted (items : List α) : (sorted key items).Pairwise (AtMost key) := by
  have : Std.Total (AtMost key) := ⟨fun a b => le_total (key a) (key b)⟩
  have : IsTrans α (AtMost key) := ⟨fun _ _ _ => le_trans⟩
  exact List.pairwise_insertionSort (AtMost key) items

/-- A later item is put in front of the first item it is less than. -/
def insertLate (a : α) : List α → List α
  | [] => [a]
  | b :: rest => if key a < key b then a :: b :: rest else b :: insertLate a rest

/-- The first `k` items after a later one has been put in its place. -/
def keep (k : Nat) (best : List α) (a : α) : List α := (insertLate key a best).take k

theorem insertLate_cons_lt {a b : α} (rest : List α) (less : key a < key b) :
    insertLate key a (b :: rest) = a :: b :: rest := by
  rw [insertLate, if_pos less]

theorem insertLate_cons_le {a b : α} (rest : List α) (le : key b ≤ key a) :
    insertLate key a (b :: rest) = b :: insertLate key a rest := by
  rw [insertLate, if_neg (not_lt.mpr le)]

/-- Where the later item goes: behind all that are at most it. -/
theorem insertLate_append {a : α} {front back : List α} (behind : ∀ b ∈ front, key b ≤ key a)
    (before : ∀ b ∈ back.head?, key a < key b) :
    insertLate key a (front ++ back) = front ++ a :: back := by
  induction front with
  | nil =>
    cases back with
    | nil => rfl
    | cons b rest => exact insertLate_cons_lt key rest (before b rfl)
  | cons c front ih =>
    rw [List.cons_append, insertLate_cons_le key _ (behind c List.mem_cons_self),
      ih fun b member => behind b (List.mem_cons_of_mem c member)]
    rfl

/-! ## Sorting from the end -/

/-- An earlier item and a later one can be put in place in either order. -/
theorem orderedInsert_insertLate (early late : α) (items : List α) :
    (insertLate key late items).orderedInsert (AtMost key) early =
      insertLate key late (items.orderedInsert (AtMost key) early) := by
  induction items with
  | nil =>
    simp only [insertLate, List.orderedInsert_nil, List.orderedInsert_cons, AtMost]
    split
    · rename_i le
      rw [if_neg (not_lt.mpr le)]
    · rename_i less
      rw [if_pos (not_le.mp less)]
  | cons b rest ih =>
    by_cases first : key early ≤ key b
    · rw [List.orderedInsert_cons_of_le (AtMost key) rest first]
      by_cases less : key late < key b
      · rw [insertLate_cons_lt key rest less]
        by_cases order : key early ≤ key late
        · rw [List.orderedInsert_cons_of_le (AtMost key) _ order, insertLate_cons_le key _ order,
            insertLate_cons_lt key rest less]
        · rw [List.orderedInsert_of_not_le (AtMost key) _ order,
            List.orderedInsert_cons_of_le (AtMost key) rest first,
            insertLate_cons_lt key _ (not_le.mp order)]
      · have le := not_lt.mp less
        rw [insertLate_cons_le key rest le, List.orderedInsert_cons_of_le (AtMost key) _ first,
          insertLate_cons_le key _ (first.trans le), insertLate_cons_le key rest le]
    · rw [List.orderedInsert_of_not_le (AtMost key) rest first]
      by_cases less : key late < key b
      · have order : ¬ key early ≤ key late := not_le.mpr (less.trans (not_le.mp first))
        rw [insertLate_cons_lt key rest less, List.orderedInsert_of_not_le (AtMost key) _ order,
          List.orderedInsert_of_not_le (AtMost key) rest first, insertLate_cons_lt key _ less]
      · have le := not_lt.mp less
        rw [insertLate_cons_le key rest le, List.orderedInsert_of_not_le (AtMost key) _ first, ih,
          insertLate_cons_le key _ le]

theorem sorted_append_singleton (items : List α) (late : α) :
    sorted key (items ++ [late]) = insertLate key late (sorted key items) := by
  induction items with
  | nil => rfl
  | cons early items ih =>
    calc sorted key (early :: items ++ [late])
        = (sorted key (items ++ [late])).orderedInsert (AtMost key) early := rfl
      _ = (insertLate key late (sorted key items)).orderedInsert (AtMost key) early := by
          rw [ih]
      _ = insertLate key late ((sorted key items).orderedInsert (AtMost key) early) :=
          orderedInsert_insertLate key early late (sorted key items)

/-! ## Keeping the first items only -/

/-- What has been dropped is not missed when a further item comes. -/
theorem keep_take (k : Nat) (items : List α) (late : α) :
    keep key k (items.take k) late = (insertLate key late items).take k := by
  unfold keep
  induction items generalizing k with
  | nil => rw [List.take_nil]
  | cons b rest ih =>
    cases k with
    | zero => rw [List.take_zero, List.take_zero]
    | succ k =>
      rw [List.take_succ_cons]
      by_cases less : key late < key b
      · rw [insertLate_cons_lt key _ less, insertLate_cons_lt key rest less,
          List.take_succ_cons, List.take_succ_cons]
        cases k with
        | zero => rfl
        | succ k =>
          rw [List.take_succ_cons, List.take_succ_cons, List.take_take,
            Nat.min_eq_left (Nat.le_succ k)]
      · have le := not_lt.mp less
        rw [insertLate_cons_le key _ le, insertLate_cons_le key rest le,
          List.take_succ_cons, List.take_succ_cons, ih k]

/-- Of all items, the first `k` of the stable sort are kept. -/
theorem foldl_keep (k : Nat) (items : List α) :
    items.foldl (keep key k) [] = (sorted key items).take k := by
  induction items using List.reverseRecOn with
  | nil => exact (List.take_nil).symm
  | append_singleton items late ih =>
    rw [List.foldl_append, List.foldl_cons, List.foldl_nil, ih, keep_take,
      sorted_append_singleton]

/-- Where the later item goes: in front of the first item it is less than. -/
theorem insertLate_findIdx (a : α) (items : List α) :
    insertLate key a items =
      items.take (items.findIdx fun b => key a < key b) ++
        a :: items.drop (items.findIdx fun b => key a < key b) := by
  induction items with
  | nil => rfl
  | cons b rest ih =>
    by_cases less : key a < key b
    · rw [insertLate_cons_lt key rest less, List.findIdx_cons, decide_eq_true less]
      rfl
    · rw [insertLate_cons_le key rest (not_lt.mp less), List.findIdx_cons,
        decide_eq_false less, ih]
      rfl

/-- An item that is not less than any of `k` kept ones is not kept. -/
theorem keep_full {k : Nat} {best : List α} {a : α} (full : best.length = k)
    (least : ∀ b ∈ best, key b ≤ key a) : keep key k best a = best := by
  have behind : insertLate key a (best ++ []) = best ++ [a] :=
    insertLate_append key least fun _ none => by cases none
  unfold keep
  rw [← List.append_nil best, behind, List.append_nil, ← full, List.take_left]

/-- Two keys that agree on the items sort them alike. -/
theorem sorted_congr {key key' : α → κ} {items : List α}
    (agree : ∀ a ∈ items, key a = key' a) : sorted key items = sorted key' items := by
  have order : ∀ a ∈ items, ∀ b ∈ items, AtMost key a b ↔ AtMost key' (id a) (id b) := by
    intro a first b second
    unfold AtMost
    rw [agree a first, agree b second]
    rfl
  have same := List.map_insertionSort (AtMost key) (AtMost key') id items order
  rwa [List.map_id, List.map_id] at same

end ElmWrap.Lib.BestOf
