import Mathlib.Data.List.Basic

/-!
# Sections of a list

A list cut in front of each of its heads: the items in front of the first head,
and for every head the items below it, up to the next one.
-/

namespace ElmWrap.Lib

variable {α : Type} (head : α → Bool)

/-- The items in front of the first head, and the sections. -/
def sections : List α → List α × List (α × List α)
  | [] => ([], [])
  | a :: rest =>
    let (front, blocks) := sections rest
    if head a then ([], (a, front) :: blocks) else (a :: front, blocks)

variable {head}

/-- The sections are the list. -/
theorem sections_join (l : List α) :
    (sections head l).1 ++ (sections head l).2.flatMap (fun block => block.1 :: block.2) = l := by
  induction l with
  | nil => rfl
  | cons a rest ih =>
    unfold sections
    dsimp only
    split
    · rw [List.nil_append, List.flatMap_cons, List.cons_append, ih]
    · rw [List.cons_append, ih]

theorem sections_head {l : List α} {block : α × List α} (member : block ∈ (sections head l).2) :
    head block.1 = true := by
  induction l with
  | nil => cases member
  | cons a rest ih =>
    unfold sections at member
    dsimp only at member
    split at member
    · rename_i here
      rcases List.mem_cons.mp member with same | on
      · rw [same]
        exact here
      · exact ih on
    · exact ih member

theorem sections_front {l : List α} {a : α} (member : a ∈ (sections head l).1) :
    head a = false := by
  induction l with
  | nil => cases member
  | cons b rest ih =>
    unfold sections at member
    dsimp only at member
    split at member
    · cases member
    · rename_i other
      rcases List.mem_cons.mp member with same | on
      · rw [same]
        exact Bool.eq_false_iff.mpr other
      · exact ih on

theorem sections_body {l : List α} {block : α × List α} (member : block ∈ (sections head l).2)
    {a : α} (below : a ∈ block.2) : head a = false := by
  induction l with
  | nil => cases member
  | cons b rest ih =>
    unfold sections at member
    dsimp only at member
    split at member
    · rcases List.mem_cons.mp member with same | on
      · rw [same] at below
        exact sections_front below
      · exact ih on
    · exact ih member

theorem mem_of_sections_front {l : List α} {a : α} (member : a ∈ (sections head l).1) : a ∈ l := by
  rw [← @sections_join _ head l]
  exact List.mem_append_left _ member

theorem mem_of_sections_body {l : List α} {block : α × List α}
    (member : block ∈ (sections head l).2) {a : α} (inside : a ∈ block.1 :: block.2) : a ∈ l := by
  rw [← @sections_join _ head l]
  exact List.mem_append_right _ (List.mem_flatMap.mpr ⟨block, member, inside⟩)

theorem sections_append {front : List α} (above : ∀ a ∈ front, head a = false) (rest : List α) :
    sections head (front ++ rest) = (front ++ (sections head rest).1, (sections head rest).2) := by
  induction front with
  | nil => rfl
  | cons a front ih =>
    obtain ⟨first, later⟩ := List.forall_mem_cons.mp above
    rw [List.cons_append, sections, ih later]
    simp [first]

/-- A list that is written section by section is cut into these sections. -/
theorem sections_blocks {front : List α} {blocks : List (α × List α)}
    (above : ∀ a ∈ front, head a = false) (heads : ∀ block ∈ blocks, head block.1 = true)
    (bodies : ∀ block ∈ blocks, ∀ a ∈ block.2, head a = false) :
    sections head (front ++ blocks.flatMap fun block => block.1 :: block.2) = (front, blocks) := by
  have cut : sections head (blocks.flatMap fun block => block.1 :: block.2) = ([], blocks) := by
    induction blocks with
    | nil => rfl
    | cons block blocks ih =>
      obtain ⟨here, heads⟩ := List.forall_mem_cons.mp heads
      obtain ⟨body, bodies⟩ := List.forall_mem_cons.mp bodies
      rw [List.flatMap_cons, List.cons_append]
      unfold sections
      rw [sections_append body, ih heads bodies]
      simp [here]
  rw [sections_append above, cut, List.append_nil]

end ElmWrap.Lib
