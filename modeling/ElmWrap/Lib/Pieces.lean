import Mathlib.Data.List.Basic
import Mathlib.Tactic.Common

/-!
# Lines through a buffer

A text is read line by line through a buffer of some size: a line that does not fit is
read in several pieces. Every piece but the last of a line fills the buffer.
-/

namespace ElmWrap.Lib

/-- The pieces that are read one after the other, where there is room for some more characters of
the first one. -/
def piecesFrom (size : Nat) : Nat → List Char → List (List Char)
  | _, [] => []
  | room, c :: rest =>
    if c = '\n' ∨ room ≤ 1 then [c] :: piecesFrom size size rest
    else
      match piecesFrom size (room - 1) rest with
      | [] => [[c]]
      | piece :: more => (c :: piece) :: more

/-- The pieces of a text. -/
def pieces (size : Nat) (text : List Char) : List (List Char) := piecesFrom size size text

theorem piecesFrom_ne_nil (size room : Nat) (c : Char) (rest : List Char) :
    piecesFrom size room (c :: rest) ≠ [] := by
  unfold piecesFrom
  split
  · exact List.cons_ne_nil _ _
  · split
    · exact List.cons_ne_nil _ _
    · exact List.cons_ne_nil _ _

/-- The pieces of a line are those of its characters, and the next line begins anew. -/
theorem piecesFrom_line (size room : Nat) {line : List Char} (one : '\n' ∉ line)
    (rest : List Char) :
    piecesFrom size room (line ++ '\n' :: rest) =
      piecesFrom size room (line ++ ['\n']) ++ pieces size rest := by
  induction line generalizing room with
  | nil => simp [piecesFrom, pieces]
  | cons c line ih =>
    obtain ⟨here, later⟩ := not_or.mp fun on => one (List.mem_cons.mpr on)
    rw [List.cons_append, List.cons_append]
    unfold piecesFrom
    by_cases full : c = '\n' ∨ room ≤ 1
    · rw [if_pos full, if_pos full, ih _ later, List.cons_append]
    · rw [if_neg full, if_neg full, ih _ later]
      cases first : piecesFrom size (room - 1) (line ++ ['\n']) with
      | nil =>
        cases line with
        | nil => exact absurd first (piecesFrom_ne_nil _ _ _ _)
        | cons d line => exact absurd first (piecesFrom_ne_nil _ _ _ _)
      | cons piece more => rfl

theorem pieces_line (size : Nat) {line : List Char} (one : '\n' ∉ line) (rest : List Char) :
    pieces size (line ++ '\n' :: rest) = pieces size (line ++ ['\n']) ++ pieces size rest :=
  piecesFrom_line size size one rest

/-- The first piece of a line fills the buffer, or is the line. -/
theorem piecesFrom_head (size : Nat) {room : Nat} (some_ : 0 < room) {line : List Char}
    (one : '\n' ∉ line) :
    ∃ more, piecesFrom size room (line ++ ['\n']) = (line ++ ['\n']).take room :: more := by
  induction line generalizing room with
  | nil =>
    obtain ⟨n, rfl⟩ : ∃ n, room = n + 1 := ⟨room - 1, by omega⟩
    exact ⟨[], by simp [piecesFrom]⟩
  | cons c line ih =>
    obtain ⟨here, later⟩ := not_or.mp fun on => one (List.mem_cons.mpr on)
    obtain ⟨n, rfl⟩ : ∃ n, room = n + 1 := ⟨room - 1, by omega⟩
    rw [List.cons_append, List.take_succ_cons]
    unfold piecesFrom
    by_cases full : n = 0
    · rw [if_pos (Or.inr (by omega)), full]
      exact ⟨_, rfl⟩
    · rw [if_neg (by rintro (same | small) <;> [exact here same.symm; omega])]
      obtain ⟨more, rest⟩ := ih (show 0 < n by omega) later
      rw [Nat.add_sub_cancel, rest]
      exact ⟨more, rfl⟩

/-- A line ends at the end of a piece only. -/
theorem mem_piecesFrom {size room : Nat} {text piece : List Char}
    (on : piece ∈ piecesFrom size room text) :
    ∃ body, '\n' ∉ body ∧ (piece = body ∨ piece = body ++ ['\n']) ∧ ∀ c ∈ body, c ∈ text := by
  induction text generalizing room piece with
  | nil => cases on
  | cons c rest ih =>
    have single : ∃ body, '\n' ∉ body ∧ ([c] = body ∨ [c] = body ++ ['\n']) ∧
        ∀ d ∈ body, d ∈ c :: rest := by
      by_cases ends : c = '\n'
      · exact ⟨[], List.not_mem_nil, Or.inr (ends ▸ rfl), nofun⟩
      · refine ⟨[c], by simpa using Ne.symm ends, Or.inl rfl, fun d on => ?_⟩
        exact List.mem_singleton.mp on ▸ List.mem_cons_self ..
    have later : ∀ {room piece}, piece ∈ piecesFrom size room rest →
        ∃ body, '\n' ∉ body ∧ (piece = body ∨ piece = body ++ ['\n']) ∧
          ∀ d ∈ body, d ∈ c :: rest := by
      intro room piece on
      obtain ⟨body, one, same, inside⟩ := ih on
      exact ⟨body, one, same, fun d on => List.mem_cons_of_mem _ (inside d on)⟩
    unfold piecesFrom at on
    by_cases full : c = '\n' ∨ room ≤ 1
    · rw [if_pos full] at on
      rcases List.mem_cons.mp on with rfl | on
      · exact single
      · exact later on
    · rw [if_neg full] at on
      split at on
      · rw [List.mem_singleton] at on
        exact on ▸ single
      · rename_i first more begins
        rcases List.mem_cons.mp on with rfl | on
        · -- the piece goes on with `c` in front
          obtain ⟨body, one, same, inside⟩ := later (begins ▸ List.mem_cons_self ..)
          refine ⟨c :: body, ?_, ?_, ?_⟩
          · exact fun on => (List.mem_cons.mp on).elim (fun same => full (Or.inl same.symm)) one
          · exact same.imp (congrArg (c :: ·)) (congrArg (c :: ·))
          · exact List.forall_mem_cons.mpr ⟨List.mem_cons_self .., inside⟩
        · exact later (begins ▸ List.mem_cons_of_mem _ on)

/-- A piece is no longer than the buffer. -/
theorem length_piecesFrom {size room : Nat} (some_ : 0 < room) (fits : room ≤ size)
    {text first : List Char} {more : List (List Char)}
    (cut : piecesFrom size room text = first :: more) :
    first.length ≤ room ∧ ∀ piece ∈ more, piece.length ≤ size := by
  induction text generalizing room first more with
  | nil => cases cut
  | cons c rest ih =>
    -- what is read into an empty buffer
    have later : ∀ piece ∈ piecesFrom size size rest, piece.length ≤ size := by
      intro piece on
      cases next : piecesFrom size size rest with
      | nil => exact nomatch next ▸ on
      | cons first more =>
        obtain ⟨here, there⟩ := ih (Nat.lt_of_lt_of_le some_ fits) (Nat.le_refl _) next
        rcases List.mem_cons.mp (next ▸ on) with rfl | on
        · exact here
        · exact there piece on
    unfold piecesFrom at cut
    by_cases full : c = '\n' ∨ room ≤ 1
    · rw [if_pos full] at cut
      cases cut
      exact ⟨some_, later⟩
    · rw [if_neg full] at cut
      have two : 1 < room := Nat.not_le.mp (not_or.mp full).2
      split at cut
      · cases cut
        exact ⟨some_, nofun⟩
      · rename_i begins
        cases cut
        obtain ⟨here, there⟩ := ih (by omega) (by omega) begins
        exact ⟨by rw [List.length_cons]; omega, there⟩

theorem mem_pieces {size : Nat} {text piece : List Char} (on : piece ∈ pieces size text) :
    ∃ body, '\n' ∉ body ∧ (piece = body ∨ piece = body ++ ['\n']) ∧ ∀ c ∈ body, c ∈ text :=
  mem_piecesFrom on

theorem length_pieces {size : Nat} (some_ : 0 < size) {text piece : List Char}
    (on : piece ∈ pieces size text) : piece.length ≤ size := by
  unfold pieces at on
  cases cut : piecesFrom size size text with
  | nil => exact nomatch cut ▸ on
  | cons first more =>
    obtain ⟨here, there⟩ := length_piecesFrom some_ (Nat.le_refl _) cut
    rcases List.mem_cons.mp (cut ▸ on) with rfl | on
    · exact here
    · exact there piece on

end ElmWrap.Lib
