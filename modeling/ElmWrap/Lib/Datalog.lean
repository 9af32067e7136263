import Mathlib.Data.List.Basic

/-!
# Datalog with stratified negation

Rules over atoms without function symbols. A program carries its stratification,
so that negation is only applied to what a lower stratum has settled, and its
model is built stratum by stratum: within one stratum it is the least set that
has the facts and is closed under the rules.
-/

namespace ElmWrap.Lib.Datalog

variable {Pred Const : Type}

/-- A variable or a constant. -/
inductive Term (Const : Type)
  | var (name : String)
  | const (value : Const)

/-- A predicate with its arguments. -/
structure Atom (Pred Const : Type) where
  pred : Pred
  args : List (Term Const)

/-- A rule; the body is split into its positive and its negated atoms. -/
structure Rule (Pred Const : Type) where
  head : Atom Pred Const
  body : List (Atom Pred Const)
  negated : List (Atom Pred Const)

/-- Which tuples a predicate holds of. -/
abbrev Interp (Pred Const : Type) := Pred → List Const → Prop

def Term.value (σ : String → Const) : Term Const → Const
  | .var name => σ name
  | .const value => value

/-- The tuple of an atom. -/
def Atom.tuple (σ : String → Const) (a : Atom Pred Const) : List Const :=
  a.args.map (Term.value σ)

/-- What follows from facts by rules, where `below` decides the negated atoms. -/
inductive Derives (facts : Interp Pred Const) (rules : List (Rule Pred Const))
    (below : Interp Pred Const) : Pred → List Const → Prop
  | fact {pred : Pred} {tuple : List Const} :
    facts pred tuple → Derives facts rules below pred tuple
  | rule {r : Rule Pred Const} (σ : String → Const) :
    r ∈ rules →
    (∀ a ∈ r.body, Derives facts rules below a.pred (a.tuple σ)) →
    (∀ a ∈ r.negated, ¬ below a.pred (a.tuple σ)) →
    Derives facts rules below r.head.pred (r.head.tuple σ)

/-- A stratified program. -/
structure Program (Pred Const : Type) where
  rules : List (Rule Pred Const)
  stratum : Pred → Nat
  positive : ∀ r ∈ rules, ∀ a ∈ r.body, stratum a.pred ≤ stratum r.head.pred
  negative : ∀ r ∈ rules, ∀ a ∈ r.negated, stratum a.pred < stratum r.head.pred

/-- The rules of a stratum. -/
def Program.layer (P : Program Pred Const) (n : Nat) : List (Rule Pred Const) :=
  P.rules.filter fun r => P.stratum r.head.pred = n

/-- The model up to a stratum. -/
def Program.upTo (P : Program Pred Const) (facts : Interp Pred Const) : Nat → Interp Pred Const
  | 0 => Derives facts (P.layer 0) fun _ _ => False
  | n + 1 => Derives (P.upTo facts n) (P.layer (n + 1)) (P.upTo facts n)

/-- The stratified model. -/
def Program.model (P : Program Pred Const) (facts : Interp Pred Const) : Interp Pred Const :=
  fun pred tuple => P.upTo facts (P.stratum pred) pred tuple

/-- What is derived is a fact or the head of a rule. -/
theorem Derives.inversion {facts below : Interp Pred Const} {rules : List (Rule Pred Const)}
    {pred : Pred} {tuple : List Const} (derived : Derives facts rules below pred tuple) :
    facts pred tuple ∨ ∃ r ∈ rules, ∃ σ, r.head.pred = pred ∧ r.head.tuple σ = tuple ∧
      (∀ a ∈ r.body, Derives facts rules below a.pred (a.tuple σ)) ∧
      ∀ a ∈ r.negated, ¬ below a.pred (a.tuple σ) := by
  cases derived with
  | fact given => exact Or.inl given
  | rule σ member body negated => exact Or.inr ⟨_, member, σ, rfl, rfl, body, negated⟩

/-- What is derived holds in every interpretation that has the facts and is closed under the
rules. -/
theorem Derives.least {facts below meaning : Interp Pred Const} {rules : List (Rule Pred Const)}
    (given : ∀ pred tuple, facts pred tuple → meaning pred tuple)
    (closed : ∀ r ∈ rules, ∀ σ, (∀ a ∈ r.body, meaning a.pred (a.tuple σ)) →
      (∀ a ∈ r.negated, ¬ below a.pred (a.tuple σ)) → meaning r.head.pred (r.head.tuple σ))
    {pred : Pred} {tuple : List Const} (derived : Derives facts rules below pred tuple) :
    meaning pred tuple := by
  induction derived with
  | fact fact => exact given _ _ fact
  | rule σ member _ negated ih => exact closed _ member σ ih negated

/-- A rule with one atom in its body. -/
theorem Derives.unary {facts below : Interp Pred Const} {rules : List (Rule Pred Const)}
    {r : Rule Pred Const} {a : Atom Pred Const} (σ : String → Const) (member : r ∈ rules)
    (body : r.body = [a]) (positive : r.negated = [])
    (holds : Derives facts rules below a.pred (a.tuple σ)) :
    Derives facts rules below r.head.pred (r.head.tuple σ) := by
  refine .rule σ member ?_ ?_
  · rw [body]
    exact List.forall_mem_singleton.mpr holds
  · rw [positive]
    exact List.forall_mem_nil _

/-- A rule with two atoms in its body. -/
theorem Derives.binary {facts below : Interp Pred Const} {rules : List (Rule Pred Const)}
    {r : Rule Pred Const} {a b : Atom Pred Const} (σ : String → Const) (member : r ∈ rules)
    (body : r.body = [a, b]) (positive : r.negated = [])
    (first : Derives facts rules below a.pred (a.tuple σ))
    (second : Derives facts rules below b.pred (b.tuple σ)) :
    Derives facts rules below r.head.pred (r.head.tuple σ) := by
  refine .rule σ member ?_ ?_
  · rw [body]
    exact List.forall_mem_cons.mpr ⟨first, List.forall_mem_singleton.mpr second⟩
  · rw [positive]
    exact List.forall_mem_nil _

/-- A predicate that is no head of the rules only has its facts. -/
theorem Derives.of_no_head {facts below : Interp Pred Const} {rules : List (Rule Pred Const)}
    {pred : Pred} (none : ∀ r ∈ rules, r.head.pred ≠ pred) {tuple : List Const} :
    Derives facts rules below pred tuple ↔ facts pred tuple := by
  constructor
  · intro derived
    rcases derived.inversion with given | ⟨r, member, _, same, _⟩
    · exact given
    · exact absurd same (none r member)
  · exact Derives.fact

theorem Program.mem_layer {P : Program Pred Const} {n : Nat} {r : Rule Pred Const} :
    r ∈ P.layer n ↔ r ∈ P.rules ∧ P.stratum r.head.pred = n := by
  simp [layer]

end ElmWrap.Lib.Datalog
