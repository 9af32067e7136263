import Mathlib.Data.List.Basic
import Mathlib.Data.Set.Finite.Lemmas
import Mathlib.Order.UpperLower.Basic

/-!
# The greatest item of a list

A loop that keeps an item when nothing has been kept yet or when it is greater
than the item kept. It ends with the greatest of all items, and with none when
there are no items. Where several are the greatest it ends with the first of them.
-/

namespace ElmWrap.Lib.Greatest

variable {α κ : Type*} [LinearOrder κ] (key : α → κ)

/-- One turn of the loop. -/
def keepGreater (kept : Option α) (a : α) : Option α :=
  match kept with
  | none => some a
  | some b => if key b < key a then some a else some b

/-- What is kept of the items: one that is not below any other, none when there are none. -/
structure Keeps (items : List α) (kept : Option α) : Prop where
  greatest : ∀ a, kept = some a → a ∈ items ∧ ∀ b ∈ items, key b ≤ key a
  failure : kept = none ↔ items = []

variable {key}

theorem Keeps.next {items : List α} {kept : Option α} (keeps : Keeps key items kept) (a : α) :
    Keeps key (items ++ [a]) (keepGreater key kept a) := by
  have last : a ∈ items ++ [a] := List.mem_append_right _ List.mem_cons_self
  cases kept with
  | none =>
    rw [keeps.failure.mp rfl, List.nil_append]
    refine ⟨?_, by simp [keepGreater]⟩
    intro c same
    cases same
    exact ⟨List.mem_cons_self, List.forall_mem_singleton.mpr le_rfl⟩
  | some b =>
    obtain ⟨member, above⟩ := keeps.greatest b rfl
    unfold keepGreater
    dsimp only
    split
    · rename_i less
      refine ⟨?_, by simp⟩
      intro c same
      cases same
      refine ⟨last, fun d inside => ?_⟩
      rcases List.mem_append.mp inside with old | new
      · exact (above d old).trans less.le
      · exact (congrArg key (List.mem_singleton.mp new)).le
    · rename_i notLess
      refine ⟨?_, by simp⟩
      intro c same
      cases same
      refine ⟨List.mem_append_left _ member, fun d inside => ?_⟩
      rcases List.mem_append.mp inside with old | new
      · exact above d old
      · exact (congrArg key (List.mem_singleton.mp new)).trans_le (not_lt.mp notLess)

theorem Keeps.foldl {items more : List α} {kept : Option α} (keeps : Keeps key items kept) :
    Keeps key (items ++ more) (more.foldl (keepGreater key) kept) := by
  induction more generalizing items kept with
  | nil => rwa [List.append_nil]
  | cons a more ih =>
    have rest := ih (keeps.next a)
    rwa [List.append_assoc] at rest

theorem keeps_foldl (key : α → κ) (items : List α) :
    Keeps key items (items.foldl (keepGreater key) none) :=
  @Keeps.foldl _ _ _ key [] items none ⟨by simp, by simp⟩

/-! ## Upper parts of a finite set -/

/-- A smaller upper part of a finite set has the same greatest element as a larger part when
it is not empty while the larger one is not. -/
theorem isGreatest_inter_iff {β : Type*} [LinearOrder β] {items : Set β} (finite : items.Finite)
    {upper larger : Set β} (isUpper : IsUpperSet upper) (sub : upper ⊆ larger) :
    (∀ a, IsGreatest (items ∩ upper) a ↔ IsGreatest (items ∩ larger) a) ↔
      ((items ∩ larger).Nonempty → (items ∩ upper).Nonempty) := by
  constructor
  · intro same nonempty
    obtain ⟨a, member, above⟩ := Set.exists_max_image _ id
      (finite.subset Set.inter_subset_left) nonempty
    exact ⟨a, ((same a).mpr ⟨member, above⟩).1⟩
  · intro nonempty a
    constructor
    · rintro ⟨⟨listed, inside⟩, above⟩
      refine ⟨⟨listed, sub inside⟩, fun b member => ?_⟩
      rcases le_total b a with below | beyond
      · exact below
      · exact above ⟨member.1, isUpper beyond inside⟩
    · rintro ⟨⟨listed, inside⟩, above⟩
      obtain ⟨b, member, least⟩ := nonempty ⟨a, listed, inside⟩
      have below : b ≤ a := above ⟨member, sub least⟩
      exact ⟨⟨listed, isUpper below least⟩, fun c other => above ⟨other.1, sub other.2⟩⟩

end ElmWrap.Lib.Greatest
