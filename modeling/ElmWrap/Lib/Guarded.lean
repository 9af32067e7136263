import Mathlib.Logic.Relation
import Mathlib.Logic.Function.Iterate
import Mathlib.Data.List.Induction

/-!
# Guarded runs of a deterministic machine

A machine is a step function. `Guarded step G c c'` says that the machine gets
from `c` to `c'` by finitely many steps, each taken from a configuration that
meets `G`. With the trivial guard it is plain reachability; a guard states what
is assumed of every step of a run.
-/

namespace ElmWrap.Lib

variable {C : Type}

/-- Reachability through configurations that meet the guard. -/
def Guarded (step : C → C) (G : C → Prop) : C → C → Prop :=
  Relation.ReflTransGen fun c c' => G c ∧ step c = c'

/-- Plain reachability. -/
def Reaches (step : C → C) : C → C → Prop := Guarded step fun _ => True

variable {step : C → C} {G H : C → Prop}

theorem Guarded.refl (c : C) : Guarded step G c c := Relation.ReflTransGen.refl

theorem Guarded.next {c c' : C} (run : Guarded step G c c') (guard : G c') :
    Guarded step G c (step c') :=
  Relation.ReflTransGen.tail run ⟨guard, rfl⟩

theorem Guarded.trans {a b c : C} (left : Guarded step G a b) (right : Guarded step G b c) :
    Guarded step G a c :=
  Relation.ReflTransGen.trans left right

theorem Guarded.mono (weaker : ∀ c, G c → H c) {c c' : C} (run : Guarded step G c c') :
    Guarded step H c c' :=
  Relation.ReflTransGen.mono (fun _ _ edge => ⟨weaker _ edge.1, edge.2⟩) _ _ run

theorem Guarded.reaches {c c' : C} (run : Guarded step G c c') : Reaches step c c' :=
  run.mono fun _ _ => trivial

/-- The invariant rule: what holds at the start and survives every guarded step
holds in every configuration the run reaches. -/
theorem Guarded.invariant {I : C → Prop} {c c' : C} (run : Guarded step G c c')
    (start : I c) (preserved : ∀ d, G d → I d → I (step d)) : I c' := by
  induction run with
  | refl => exact start
  | tail _ edge ih =>
    obtain ⟨guard, rfl⟩ := edge
    exact preserved _ guard ih

/-- The invariant rule for plain reachability. -/
theorem Reaches.invariant {I : C → Prop} {c c' : C} (run : Reaches step c c')
    (start : I c) (preserved : ∀ d, I d → I (step d)) : I c' :=
  Guarded.invariant run start fun d _ => preserved d

theorem reaches_iterate (n : Nat) (c : C) : Reaches step c (step^[n] c) := by
  induction n with
  | zero => exact Guarded.refl c
  | succ n ih =>
    rw [Function.iterate_succ_apply']
    exact ih.next trivial

/-- A run whose first `n` configurations all meet the guard is guarded. -/
theorem guarded_iterate {n : Nat} {c : C} (guard : ∀ m, m < n → G (step^[m] c)) :
    Guarded step G c (step^[n] c) := by
  induction n with
  | zero => exact Guarded.refl c
  | succ n ih =>
    rw [Function.iterate_succ_apply']
    exact (ih fun m lt => guard m (Nat.lt_succ_of_lt lt)).next (guard n (Nat.lt_succ_self n))

/-! ## Runs over inputs -/

section Inputs

variable {σ ι : Type} {move : σ → ι → σ} {I : σ → Prop} {inputs : List ι} {start : σ}

/-- The invariant rule for a run over inputs. -/
theorem inputs_invariant {fits : σ → ι → Prop} (starts : I start)
    (preserved : ∀ s, ∀ i ∈ inputs, I s → fits s i → I (move s i))
    (each : ∀ before i, before ++ [i] <+: inputs → I (before.foldl move start) →
      fits (before.foldl move start) i)
    {before : List ι} (begins : before <+: inputs) : I (before.foldl move start) := by
  induction before using List.reverseRecOn with
  | nil => exact starts
  | append_singleton before i ih =>
    have on : i ∈ inputs := begins.subset (List.mem_append_right _ (List.mem_singleton_self i))
    have earlier := ih ((List.prefix_append _ _).trans begins)
    rw [List.foldl_append]
    exact preserved _ i on earlier (each before i begins earlier)

/-- What the invariant gives holds throughout a run just if each input fits, where an input that
does not fit breaks it at once. -/
theorem inputs_throughout_iff {fits : σ → ι → Prop} {right : σ → Prop} (starts : I start)
    (gives : ∀ s, I s → right s)
    (preserved : ∀ s, ∀ i ∈ inputs, I s → fits s i → I (move s i))
    (breaks : ∀ s, ∀ i ∈ inputs, I s → ¬ fits s i → ¬ right (move s i)) :
    (∀ before, before <+: inputs → right (before.foldl move start)) ↔
      ∀ before i, before ++ [i] <+: inputs → fits (before.foldl move start) i := by
  constructor
  · intro throughout
    -- an input that breaks nothing fits
    have fits_ : ∀ before i, before ++ [i] <+: inputs → I (before.foldl move start) →
        fits (before.foldl move start) i := by
      intro before i begins inv
      have on : i ∈ inputs := begins.subset (List.mem_append_right _ (List.mem_singleton_self i))
      by_contra unfit
      have right_ := throughout _ begins
      rw [List.foldl_append] at right_
      exact breaks _ i on inv unfit right_
    intro before i begins
    exact fits_ before i begins
      (inputs_invariant starts preserved fits_ ((List.prefix_append _ _).trans begins))
  · intro each before begins
    exact gives _ (inputs_invariant starts preserved (fun b i on _ => each b i on) begins)

end Inputs

end ElmWrap.Lib
