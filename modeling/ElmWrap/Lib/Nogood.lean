import Mathlib.Data.List.Basic
import Mathlib.Data.Set.Basic

/-!
# Nogoods over a product of domains

An assignment gives each variable `i : ι` a value of `α`. A literal restricts
one variable; a list of literals is a *nogood* of a set of assignments when no
assignment of the set satisfies all of them at once. Clause learning rests on
two rules: a nogood whose literals hold but for one refutes that one, and two
nogoods resolve on a variable whose every value satisfies all the literals that
one of them has on it.
-/

namespace ElmWrap.Lib

variable {ι α : Type}

/-- A restriction on the value of one variable. -/
structure Lit (ι α : Type) where
  var : ι
  admits : α → Prop

/-- The literal is satisfied. -/
def Lit.Holds (l : Lit ι α) (σ : ι → α) : Prop := l.admits (σ l.var)

/-- No assignment of `S` satisfies all the literals at once. -/
def Nogood (S : Set (ι → α)) (c : List (Lit ι α)) : Prop :=
  ∀ σ ∈ S, ¬ ∀ l ∈ c, l.Holds σ

/-- All literals of a nogood but one refute the remaining one. -/
theorem Nogood.unit {S : Set (ι → α)} {c : List (Lit ι α)} {l : Lit ι α} {σ : ι → α}
    (nogood : Nogood S c) (member : σ ∈ S)
    (others : ∀ k ∈ c, k = l ∨ k.Holds σ) : ¬ l.Holds σ := by
  intro holds
  refine nogood σ member fun k hk => ?_
  rcases others k hk with rfl | held
  · exact holds
  · exact held

/-- Resolution: if every value of the variable satisfies all literals that the
left nogood, or all that the right one, has on it, then both may drop them. -/
theorem Nogood.resolve {S : Set (ι → α)} {c d : List (Lit ι α)} {i : ι}
    (left : Nogood S c) (right : Nogood S d)
    (cover : ∀ x : α, (∀ l ∈ c, l.var = i → l.admits x) ∨ (∀ l ∈ d, l.var = i → l.admits x))
    {e : List (Lit ι α)}
    (keepLeft : ∀ l ∈ c, l.var = i ∨ l ∈ e) (keepRight : ∀ l ∈ d, l.var = i ∨ l ∈ e) :
    Nogood S e := by
  intro σ member hold
  have close : ∀ {b : List (Lit ι α)}, Nogood S b →
      (∀ l ∈ b, l.var = i ∨ l ∈ e) → (∀ l ∈ b, l.var = i → l.admits (σ i)) → False := by
    intro b nogood keep on
    refine nogood σ member fun l hl => ?_
    rcases keep l hl with same | kept
    · have admitted := on l hl same
      rw [← same] at admitted
      exact admitted
    · exact hold l kept
  rcases cover (σ i) with all | all
  · exact close left keepLeft all
  · exact close right keepRight all

end ElmWrap.Lib
