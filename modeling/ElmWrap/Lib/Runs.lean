import Mathlib.Data.List.Chain
import Mathlib.Data.List.TakeWhile

/-!
# Runs of a list

A scan that skips to an element where a run may start, and takes what follows as long
as it belongs to a word. The words of a list are what stands between the elements that
belong to none; a run is the end of a word from its first start on.
-/

namespace ElmWrap.Lib.Runs

variable {α : Type} {start word : α → Bool}

/-- The runs of a list, in order. -/
def runs (start word : α → Bool) : List α → List (List α)
  | [] => []
  | c :: rest =>
    if start c then (c :: rest.takeWhile word) :: runs start word (rest.dropWhile word)
    else runs start word rest
termination_by list => list.length
decreasing_by
  · exact Nat.lt_succ_of_le (List.length_dropWhile_le word rest)
  · exact Nat.lt_succ_self _

@[simp]
theorem runs_nil : runs start word [] = [] := by
  rw [runs]

theorem runs_start {c : α} (starts : start c = true) (rest : List α) :
    runs start word (c :: rest) =
      (c :: rest.takeWhile word) :: runs start word (rest.dropWhile word) := by
  rw [runs, if_pos starts]

theorem runs_skip {c : α} (skipped : start c = false) (rest : List α) :
    runs start word (c :: rest) = runs start word rest := by
  rw [runs, skipped, if_neg Bool.false_ne_true]

/-- The lists do not meet inside a word. -/
def Apart (word : α → Bool) (a b : List α) : Prop :=
  ∀ c ∈ a.getLast?, ∀ d ∈ b.head?, word c = true → word d = false

theorem Apart.tail {c : α} {a b : List α} (apart : Apart word (c :: a) b) : Apart word a b := by
  cases a with
  | nil => exact fun _ on => nomatch on
  | cons d a => exact apart

theorem Apart.dropWhile {a b : List α} (apart : Apart word a b) :
    Apart word (a.dropWhile word) b := by
  induction a with
  | nil => exact apart
  | cons c a ih =>
    cases within : word c with
    | true =>
      rw [List.dropWhile_cons_of_pos within]
      exact ih apart.tail
    | false =>
      rw [List.dropWhile_cons_of_neg (by rw [within]; exact Bool.false_ne_true)]
      exact apart

/-- After an element of a word, the word ends where it ends in the first list. -/
theorem Apart.cut {c : α} {a b : List α} (within : word c = true)
    (apart : Apart word (c :: a) b) :
    (a ++ b).takeWhile word = a.takeWhile word ∧
      (a ++ b).dropWhile word = a.dropWhile word ++ b := by
  induction a generalizing c with
  | nil =>
    cases b with
    | nil => exact ⟨rfl, rfl⟩
    | cons d b =>
      have outside : word d = false := apart c rfl d rfl within
      simp [outside]
  | cons d a ih =>
    cases next : word d with
    | false => simp [next]
    | true =>
      obtain ⟨taken, dropped⟩ := ih next apart.tail
      simp [next, taken, dropped]

/-- The runs of two lists that do not meet inside a word. -/
theorem runs_append (starts : ∀ c, start c = true → word c = true) {a b : List α}
    (apart : Apart word a b) :
    runs start word (a ++ b) = runs start word a ++ runs start word b := by
  induction count : a.length using Nat.strong_induction_on generalizing a with
  | _ n ih =>
    subst count
    cases a with
    | nil => rw [runs_nil, List.nil_append, List.nil_append]
    | cons c rest =>
      rw [List.cons_append]
      cases first : start c with
      | false =>
        rw [runs_skip first, runs_skip first]
        exact ih rest.length (Nat.lt_succ_self _) apart.tail rfl
      | true =>
        obtain ⟨taken, dropped⟩ := apart.cut (starts c first)
        have shorter := Nat.lt_succ_of_le (List.length_dropWhile_le word rest)
        rw [runs_start first, runs_start first, taken, dropped,
          ih _ shorter apart.tail.dropWhile rfl, List.cons_append]

/-- The runs of lists of which no two neighbours meet inside a word. -/
theorem runs_flatten (starts : ∀ c, start c = true → word c = true) {lists : List (List α)}
    (nonempty : ∀ list ∈ lists, list ≠ []) (apart : lists.IsChain (Apart word)) :
    runs start word lists.flatten = lists.flatMap (runs start word) := by
  induction lists with
  | nil => exact runs_nil
  | cons list lists ih =>
    obtain ⟨_, others⟩ := List.forall_mem_cons.mp nonempty
    rw [List.flatten_cons, List.flatMap_cons, ← ih others apart.tail]
    apply runs_append starts
    cases lists with
    | nil => exact fun _ _ _ on => nomatch on
    | cons next lists =>
      have meets : Apart word list next := (List.isChain_cons_cons.mp apart).1
      intro c last d first
      refine meets c last d ?_
      rw [List.flatten_cons, List.head?_append_of_ne_nil _ (others next List.mem_cons_self)]
        at first
      exact first

/-! ## The words of a list -/

/-- What stands between the elements that belong to no word. -/
def words (word : α → Bool) (list : List α) : List (List α) := list.splitOnP fun c => !word c

theorem words_of_all {list : List α} (all : ∀ c ∈ list, word c = true) :
    words word list = [list] := by
  apply List.splitOnP_eq_singleton
  intro c member
  rw [all c member]
  rfl

theorem words_append_cons {list : List α} (all : ∀ c ∈ list, word c = true) {c : α}
    (outside : word c = false) (rest : List α) :
    words word (list ++ c :: rest) = list :: words word rest := by
  apply List.splitOnP_append_cons_of_forall_mem
  · intro d member
    rw [all d member]
    rfl
  · rw [outside]
    rfl

/-- A list is one word, or begins with a word that ends in it. -/
theorem word_cases (word : α → Bool) (list : List α) : (∀ c ∈ list, word c = true) ∨
    ∃ first c rest, list = first ++ c :: rest ∧ (∀ d ∈ first, word d = true) ∧
      word c = false := by
  induction list with
  | nil => exact Or.inl fun _ on => nomatch on
  | cons c list ih =>
    cases here : word c with
    | false => exact Or.inr ⟨[], c, list, rfl, (fun _ on => nomatch on), here⟩
    | true =>
      rcases ih with all | ⟨first, d, rest, rfl, all, outside⟩
      · exact Or.inl (List.forall_mem_cons.mpr ⟨here, all⟩)
      · exact Or.inr ⟨c :: first, d, rest, rfl, List.forall_mem_cons.mpr ⟨here, all⟩, outside⟩

theorem mem_words {list w : List α} (on : w ∈ words word list) {c : α} (member : c ∈ w) :
    word c = true := by
  induction count : list.length using Nat.strong_induction_on generalizing list with
  | _ n ih =>
    subst count
    rcases word_cases word list with all | ⟨first, d, rest, rfl, all, outside⟩
    · rw [words_of_all all, List.mem_singleton] at on
      subst on
      exact all c member
    · rw [words_append_cons all outside, List.mem_cons] at on
      rcases on with rfl | later
      · exact all c member
      · refine ih rest.length ?_ later rfl
        rw [List.length_append, List.length_cons]
        omega

/-- A word has one run, from its first start on. -/
theorem runs_word {list : List α} (all : ∀ c ∈ list, word c = true) (run : List α) :
    run ∈ runs start word list ↔ run = list.dropWhile (fun c => !start c) ∧ run ≠ [] := by
  induction list with
  | nil =>
    rw [runs_nil]
    simp
  | cons c list ih =>
    obtain ⟨_, others⟩ := List.forall_mem_cons.mp all
    cases first : start c with
    | false =>
      rw [runs_skip first, ih others]
      simp [first]
    | true =>
      rw [runs_start first, List.takeWhile_eq_self_iff.mpr others,
        List.dropWhile_eq_nil_iff.mpr others, runs_nil]
      simp only [List.mem_singleton, first, Bool.not_true, Bool.false_eq_true,
        not_false_eq_true, List.dropWhile_cons_of_neg]
      constructor
      · rintro rfl
        exact ⟨rfl, List.cons_ne_nil _ _⟩
      · exact fun same => same.1

/-- The runs of a list are the ends of its words. -/
theorem mem_runs (starts : ∀ c, start c = true → word c = true) {list run : List α} :
    run ∈ runs start word list ↔
      ∃ w ∈ words word list, run = w.dropWhile (fun c => !start c) ∧ run ≠ [] := by
  induction count : list.length using Nat.strong_induction_on generalizing list with
  | _ n ih =>
    subst count
    rcases word_cases word list with all | ⟨first, c, rest, rfl, all, outside⟩
    · rw [words_of_all all, runs_word all]
      simp
    · have apart : Apart word first (c :: rest) := by
        rintro _ _ _ ⟨⟩ _
        exact outside
      have skipped : start c = false := by
        cases starting : start c with
        | false => rfl
        | true =>
          rw [starts c starting] at outside
          cases outside
      have shorter : rest.length < (first ++ c :: rest).length := by
        rw [List.length_append, List.length_cons]
        omega
      rw [runs_append starts apart, runs_skip skipped, List.mem_append, runs_word all,
        ih _ shorter rfl, words_append_cons all outside]
      simp

end ElmWrap.Lib.Runs
