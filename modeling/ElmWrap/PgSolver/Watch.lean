import ElmWrap.PgSolver.Invariants
import ElmWrap.PgSolver.TermState

/-!
# Unit propagation misses nothing

An incompatibility is settled when the term loop of `pg_unit_propagate` would
skip it. While the solver searches, every attached incompatibility that mentions
a package of the trail is settled or still waiting: on the stack of changed
packages, or among those left to examine. When propagation ends the stack is
empty, so everything the trail touches is settled.
-/

namespace ElmWrap

open Lib

variable {γ : Type} {P : PgDependencyProvider γ}

/-- The incompatibility mentions a package of the trail. -/
def PgTouched (trail : List PgAssignment) (terms : List PgTerm) : Prop :=
  ∃ t ∈ terms, ∃ a ∈ trail, a.pkg = t.pkg

/-- Unit propagation would skip the incompatibility. -/
def PgSettled (trail : List PgAssignment) (terms : List PgTerm) : Prop :=
  pgExamineTerms trail 0 none terms = .skip

/-- A package the incompatibility mentions is on the stack of changed packages. -/
def PgPending (changed : List PgPackageId) (terms : List PgTerm) : Prop :=
  ∃ t ∈ terms, t.pkg ∈ changed

/-- The incompatibilities the current phase is about to examine. -/
def PgPhase.waiting : PgPhase → List PgIncompatId
  | .examine rest => rest
  | _ => []

/-- Everything the trail touches is settled or waiting. -/
def PgCovered (c : PgConfig γ) : Prop :=
  ∀ id, c.solver.Attached id → PgTouched c.solver.trail (c.solver.terms id) →
    PgSettled c.solver.trail (c.solver.terms id) ∨
      PgPending c.solver.changedPkgs (c.solver.terms id) ∨ id ∈ c.phase.waiting

/-- The phases of the search, conflict resolution apart. -/
def PgPhase.searching : PgPhase → Bool
  | .loop => true
  | .propagate => true
  | .examine _ => true
  | .decide => true
  | _ => false

/-- What unit propagation guarantees. -/
structure PgPropagates (c : PgConfig γ) : Prop where
  covered : c.phase.searching = true → PgCovered c
  drained : c.phase = .decide → c.solver.changedPkgs = []

/-! ## States of terms when the trail grows -/

/-- The term loop sees the trail through the states of the terms alone. -/
theorem pgExamineTerms_congr {trail trail' : List PgAssignment} {terms : List PgTerm}
    (same : ∀ t ∈ terms, pgTermState trail' t = pgTermState trail t) (index : Nat)
    (seen : Option Nat) :
    pgExamineTerms trail' index seen terms = pgExamineTerms trail index seen terms := by
  induction terms generalizing index seen with
  | nil => cases seen <;> rfl
  | cons term terms ih =>
    have rest := ih fun t member => same t (List.mem_cons_of_mem _ member)
    rw [pgExamineTerms_cons, pgExamineTerms_cons, same term List.mem_cons_self]
    simp only [rest]

/-- An assignment on another package changes neither whether an incompatibility
is touched nor whether it is settled. -/
theorem pgUntouched_snoc (trail : List PgAssignment) {a : PgAssignment} {terms : List PgTerm}
    (other : ∀ t ∈ terms, a.pkg ≠ t.pkg) :
    (PgTouched (trail ++ [a]) terms → PgTouched trail terms) ∧
      (PgSettled trail terms → PgSettled (trail ++ [a]) terms) := by
  constructor
  · intro touched
    obtain ⟨t, member, b, on, same⟩ := touched
    rcases List.mem_append.mp on with old | new
    · exact ⟨t, member, b, old, same⟩
    · rw [List.mem_singleton.mp new] at same
      exact absurd same (other t member)
  · intro settled
    unfold PgSettled
    rw [pgExamineTerms_congr fun t member => pgTermState_append_other (other t member)]
    exact settled

theorem PgPending.mono {changed changed' : List PgPackageId} {terms : List PgTerm}
    (pending : PgPending changed terms) (more : ∀ pkg ∈ changed, pkg ∈ changed') :
    PgPending changed' terms := by
  obtain ⟨t, member, on⟩ := pending
  exact ⟨t, member, more t.pkg on⟩

/-- Pushing an assignment and putting its package on the stack keeps what was
covered covered. -/
theorem pgCovered_snoc {trail : List PgAssignment} {a : PgAssignment} {terms : List PgTerm}
    {changed changed' : List PgPackageId} {waiting waiting' : Prop}
    (covered : PgTouched trail terms → PgSettled trail terms ∨ PgPending changed terms ∨ waiting)
    (more : ∀ pkg ∈ changed, pkg ∈ changed') (new : a.pkg ∈ changed')
    (kept : waiting → waiting' ∨ ∃ t ∈ terms, t.pkg = a.pkg)
    (touched : PgTouched (trail ++ [a]) terms) :
    PgSettled (trail ++ [a]) terms ∨ PgPending changed' terms ∨ waiting' := by
  by_cases mentions : ∃ t ∈ terms, t.pkg = a.pkg
  · obtain ⟨t, member, same⟩ := mentions
    exact Or.inr (Or.inl ⟨t, member, by rw [same]; exact new⟩)
  · have other : ∀ t ∈ terms, a.pkg ≠ t.pkg := by
      intro t member same
      exact mentions ⟨t, member, same.symm⟩
    obtain ⟨before, after⟩ := pgUntouched_snoc trail other
    rcases covered (before touched) with settled | pending | waits
    · exact Or.inl (after settled)
    · exact Or.inr (Or.inl (pending.mono more))
    · rcases kept waits with waits' | mention
      · exact Or.inr (Or.inr waits')
      · exact absurd mention mentions

/-! ## The stack of changed packages -/

theorem add_pending (s : PgSolver γ) (terms : List PgTerm) (reason : PgIncompatibilityReason) :
    (∀ pkg ∈ s.changedPkgs, pkg ∈ (pgSolverAddIncompatibility s terms reason).1.changedPkgs) ∧
      ∀ t ∈ terms, t.pkg ∈ (pgSolverAddIncompatibility s terms reason).1.changedPkgs := by
  rw [add_changedPkgs]
  constructor
  · intro pkg member
    exact List.mem_append_right _ member
  · intro t member
    apply List.mem_append_left
    rw [List.mem_reverse]
    exact List.mem_map.mpr ⟨t, member, rfl⟩

/-- Registering dependencies keeps the stack and puts the new incompatibilities
on it. -/
theorem pgAddDependencies_pending (s : PgSolver γ) (pkg : PgPackageId)
    (range : PgVersionRange) (deps : List PgDependency) :
    (∀ p ∈ s.changedPkgs, p ∈ (pgAddDependencies s pkg range deps).changedPkgs) ∧
      ∀ id, (pgAddDependencies s pkg range deps).Tracked id → s.Tracked id ∨
        PgPending (pgAddDependencies s pkg range deps).changedPkgs
          ((pgAddDependencies s pkg range deps).terms id) := by
  induction deps generalizing s with
  | nil => exact ⟨fun p member => member, fun id tracked => Or.inl tracked⟩
  | cons dep deps ih =>
    rw [pgAddDependencies_cons]
    obtain ⟨kept, rest⟩ := ih (pgSolverAddIncompatibility s (pgDependencyTerms pkg range dep)
      .dependency).1
    obtain ⟨old, new⟩ := add_pending s (pgDependencyTerms pkg range dep) .dependency
    refine ⟨fun p member => kept p (old p member), fun id tracked => ?_⟩
    rcases rest id tracked with before | pending
    · rcases Nat.lt_or_ge id s.incompatibilities.length with lt | ge
      · exact Or.inl lt
      · have same : id = s.incompatibilities.length := by
          rw [PgSolver.Tracked, add_length] at before
          exact Nat.le_antisymm (Nat.le_of_lt_succ before) ge
        subst same
        apply Or.inr
        rw [(PgExtends.addDependencies _ pkg range deps).terms before]
        have terms := add_terms_new s (pgDependencyTerms pkg range dep) .dependency
        rw [PgSolver.terms, terms]
        have first : (⟨pkg, range, true⟩ : PgTerm) ∈ pgDependencyTerms pkg range dep :=
          List.mem_cons_self
        exact ⟨_, first, kept _ (new _ first)⟩
    · exact Or.inr pending

/-- After registering dependencies on top of a covered state, the state is
covered. -/
theorem pgCovered_addDependencies {s : PgSolver γ} (pkg : PgPackageId)
    (range : PgVersionRange) (deps : List PgDependency)
    (covered : ∀ id, s.Attached id → PgTouched s.trail (s.terms id) →
      PgSettled s.trail (s.terms id) ∨ PgPending s.changedPkgs (s.terms id)) :
    ∀ id, (pgAddDependencies s pkg range deps).Attached id →
      PgTouched (pgAddDependencies s pkg range deps).trail
        ((pgAddDependencies s pkg range deps).terms id) →
      PgSettled (pgAddDependencies s pkg range deps).trail
          ((pgAddDependencies s pkg range deps).terms id) ∨
        PgPending (pgAddDependencies s pkg range deps).changedPkgs
          ((pgAddDependencies s pkg range deps).terms id) := by
  intro id on touched
  obtain ⟨kept, new⟩ := pgAddDependencies_pending s pkg range deps
  rcases new id on.1 with old | pending
  · rw [(PgExtends.addDependencies s pkg range deps).terms old, pgAddDependencies_trail]
      at touched ⊢
    rcases covered id (pgAddDependencies_attached_old s pkg range deps old on) touched with
      settled | pending
    · exact Or.inl settled
    · exact Or.inr (pending.mono kept)
  · exact Or.inr pending

/-! ## Steps -/

theorem PgCovered.of_eq {s s' : PgSolver γ} {phase phase' : PgPhase}
    (covered : PgCovered ⟨phase, s⟩) (store : s'.incompatibilities = s.incompatibilities)
    (trail : s'.trail = s.trail) (changed : s'.changedPkgs = s.changedPkgs)
    (waiting : phase.waiting = phase'.waiting) : PgCovered ⟨phase', s'⟩ := by
  intro id attached touched
  have terms : s'.terms id = s.terms id := by
    rw [PgSolver.terms, PgSolver.terms, PgSolver.incompat, PgSolver.incompat, store]
  have before : s.Attached id := by
    rw [PgSolver.Attached, PgSolver.Tracked, PgSolver.incompat, ← store]
    exact attached
  dsimp only at touched ⊢
  rw [terms, trail] at touched
  rw [terms, trail, changed, ← waiting]
  exact covered id before touched

theorem PgPropagates.of_idle {c : PgConfig γ} (idle : c.phase.searching = false) :
    PgPropagates c := by
  constructor
  · intro searching
    rw [idle] at searching
    cases searching
  · intro phase
    rw [phase] at idle
    cases idle

/-- After a backtrack every package of the trail is on the stack. -/
theorem PgCovered.backtrack (s : PgSolver γ) (level : Nat) :
    PgCovered ⟨.loop, pgSolverBacktrackToLevel s level⟩ := by
  intro id _ touched
  obtain ⟨t, member, a, on, same⟩ := touched
  refine Or.inr (Or.inl ⟨t, member, ?_⟩)
  rw [← same]
  exact (mem_backtrack_changedPkgs s level).mpr ⟨a, on, rfl⟩

theorem PgTransition.propagates {c c' : PgConfig γ} (step : PgTransition P c c')
    (watches : PgWatches c.solver) (holds : PgPropagates c) : PgPropagates c' := by
  cases step with
  | budget => exact PgPropagates.of_idle rfl
  | enter =>
    exact ⟨fun _ => (holds.covered rfl).of_eq rfl rfl rfl rfl, fun phase => by cases phase⟩
  | settled empty =>
    exact ⟨fun _ => (holds.covered rfl).of_eq rfl rfl rfl rfl, fun _ => empty⟩
  | @pop s pkg changed stack =>
    refine ⟨fun _ id attached touched => ?_, fun phase => by cases phase⟩
    rcases holds.covered rfl id attached touched with settled | ⟨t, member, on⟩ | waiting
    · exact Or.inl settled
    · rw [stack] at on
      rcases List.mem_cons.mp on with same | later
      · have listed := (watches pkg id).mpr ⟨attached, t, member, same⟩
        exact Or.inr (Or.inr (List.mem_reverse.mpr listed))
      · exact Or.inr (Or.inl ⟨t, member, later⟩)
    · cases waiting
  | swept =>
    exact ⟨fun _ => (holds.covered rfl).of_eq rfl rfl rfl rfl, fun phase => by cases phase⟩
  | conflict => exact PgPropagates.of_idle rfl
  | @skip s id rest run =>
    refine ⟨fun _ j attached touched => ?_, fun phase => by cases phase⟩
    rcases holds.covered rfl j attached touched with settled | pending | waiting
    · exact Or.inl settled
    · exact Or.inr (Or.inl pending)
    · rcases List.mem_cons.mp waiting with rfl | later
      · exact Or.inl run
      · exact Or.inr (Or.inr later)
  | @derive s id rest t run =>
    have unit := pgExamineTerms_derive run
    refine ⟨fun _ j attached touched => ?_, fun phase => by cases phase⟩
    refine pgCovered_snoc (holds.covered rfl j attached) (fun p on => ?_) ?_ ?_ touched
    · exact List.mem_cons_of_mem _ on
    · exact List.mem_cons_self
    · intro waiting
      rcases List.mem_cons.mp waiting with rfl | later
      · exact Or.inr ⟨_, unit.mem, rfl⟩
      · exact Or.inl later
  | decideError => exact PgPropagates.of_idle rfl
  | noVersions => exact PgPropagates.of_idle rfl
  | finished => exact PgPropagates.of_idle rfl
  | @decided s s' outcome =>
    refine ⟨fun _ => ?_, fun phase => by cases phase⟩
    cases outcome with
    | @made cv pkg version ctx deps choice answer =>
      have pushed : ∀ id, s.Attached id →
          PgTouched (s.trail ++ [pgDecisionAssignment pkg version
            (s.currentDecisionLevel + 1)]) (s.terms id) →
          PgSettled (s.trail ++ [pgDecisionAssignment pkg version
            (s.currentDecisionLevel + 1)]) (s.terms id) ∨
            PgPending (pkg :: s.changedPkgs) (s.terms id) ∨ False := by
        intro id attached
        apply pgCovered_snoc (holds.covered rfl id attached)
        · intro p on
          exact List.mem_cons_of_mem _ on
        · exact List.mem_cons_self
        · intro waiting
          cases waiting
      intro id attached touched
      have added := pgCovered_addDependencies (s := { pgDecided { s with cachedVersions := cv }
        pkg version with providerCtx := ctx }) pkg (pgRangeExact version) deps
        (fun j on touches => ?_) id attached touched
      · rcases added with settled | pending
        · exact Or.inl settled
        · exact Or.inr (Or.inl pending)
      · rcases pushed j on touches with settled | pending | no
        · exact Or.inl settled
        · exact Or.inr pending
        · exact no.elim
  | giveUp => exact PgPropagates.of_idle rfl
  | resolved => exact PgPropagates.of_idle rfl
  | learned => exact ⟨fun _ => PgCovered.backtrack _ _, fun phase => by cases phase⟩
  | halted => exact holds

theorem PgPropagates.start {ctx : γ} {rootPkg : PgPackageId} {rootVersion : PgVersion}
    {roots : List PgDependency} {c : PgConfig γ}
    (started : PgStarted P ctx rootPkg rootVersion roots c) : PgPropagates c := by
  cases started with
  | failed => exact PgPropagates.of_idle rfl
  | @registered ctx' deps answer =>
    refine ⟨fun _ id attached touched => ?_, fun phase => by cases phase⟩
    have added := pgCovered_addDependencies
      (s := { pgRootDecided ctx rootPkg rootVersion roots with providerCtx := ctx' })
      rootPkg (pgRangeExact rootVersion) deps
      (fun j on _ => absurd on.1 (pgRootDecided_untracked ctx rootPkg rootVersion roots j))
      id attached touched
    rcases added with settled | pending
    · exact Or.inl settled
    · exact Or.inr (Or.inl pending)

end ElmWrap
