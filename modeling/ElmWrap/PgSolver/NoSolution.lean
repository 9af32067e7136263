import ElmWrap.PgSolver.Conflict
import ElmWrap.PgSolver.Validity

/-!
# When the solver reports that there is no solution

`pg_resolve_conflict` gives up on an incompatibility about the root alone, or on
one whose satisfier it takes to lie at the root. The verdict is right when the
incompatibility is valid and what satisfies it holds in every solution, which is
so at decision levels 0 and 1.
-/

namespace ElmWrap

open Lib

variable {γ : Type} {P : PgDependencyProvider γ} {Q : PgProblem}

/-- If `pg_resolve_conflict` gives up although the incompatibility is not about
the root alone, no decision of the search is behind it: the satisfier is at a
ground level, or, when there is none, the whole trail is. -/
structure PgSoundGiveUp (s : PgSolver γ) (current : PgIncompatId) : Prop where
  noSatisfier : pgIncompatibilityIsRootFailure s.rootPkg (s.incompat current) = false →
    pgIncompatibilityFindSatisfier s.trail (s.incompat current).terms = none →
    s.currentDecisionLevel ≤ 1
  rootLevel : ∀ index termIndex satisfier term,
    PgSatisfierAt s current index termIndex satisfier term →
    (satisfier.decided = true ∨ pgPreviousLevelAt s current satisfier = satisfier.decisionLevel) →
    pgPreviousLevelAt s current satisfier < 1 → satisfier.decisionLevel ≤ 1

/-- The next step neither stores an incompatibility nor gives up for a reason
that is not sound. -/
def PgSoundVerdict (L : PgListing) (c : PgConfig γ) : Prop :=
  PgSoundStep L c ∧ ∀ current, c.phase = .resolve current → PgSoundGiveUp c.solver current

/-- A valid incompatibility satisfied by ground assignments leaves no solution. -/
theorem PgValidState.unsolvable {s : PgSolver γ} (valid : PgValidState Q s) (id : PgIncompatId)
    (tracked : s.Tracked id)
    (holds : ∀ σ, Q.Solution σ → ∀ t ∈ s.terms id, t.Admits (σ t.pkg)) :
    ∀ σ, ¬ Q.Solution σ :=
  fun σ solution => PgProblem.valid_iff.mp (valid.store id tracked) σ solution (holds σ solution)

/-- A negative assignment is never flagged empty. -/
theorem PgValidState.negative_unflagged {s : PgSolver γ} (valid : PgValidState Q s)
    {a : PgAssignment} (entry : PgEntry Q.roots s a) (negative : a.positive = false) :
    a.range.isEmpty = false := by
  cases entry with
  | required => cases negative
  | root => cases negative
  | decision => cases negative
  | derived attached member =>
    exact valid.unflagged _ attached.1 _ member
      (by simpa [pgAssignmentFromTermNegation] using negative)

/-- With the satisfier at a ground level, every solution satisfies the
incompatibility. -/
theorem PgValidState.unsolvable_of_satisfier {s : PgSolver γ} {current : PgIncompatId}
    (well : PgWellFormed Q.roots ⟨.resolve current, s⟩) (valid : PgValidState Q s)
    {index termIndex : Nat} {satisfier : PgAssignment} {term : PgTerm}
    (at_ : PgSatisfierAt s current index termIndex satisfier term)
    (low : satisfier.decisionLevel ≤ 1) : ∀ σ, ¬ Q.Solution σ := by
  have levels := well.levels (by intro status same; cases same)
  obtain ⟨pre, post, spec⟩ := at_.spec
  refine valid.unsolvable current well.refers fun σ solution t member => ?_
  obtain ⟨b, on, below, satisfies⟩ := spec.low levels.sorted t member
  have admits := valid.grounded b on (Nat.le_trans below low) σ solution
  rw [pgAssignmentSatisfiesTerm_pkg satisfies] at admits
  exact pgAssignmentSatisfiesTerm_sound satisfies (valid.unflagged current well.refers t member)
    (valid.negative_unflagged (well.entries b on)) admits

theorem PgValidState.giveUp {s s' : PgSolver γ} {current : PgIncompatId} {branch : PgGiveUp}
    (outcome : PgResolveOutcome s current s' (.giveUp branch))
    (well : PgWellFormed Q.roots ⟨.resolve current, s⟩) (valid : PgValidState Q s)
    (conflicting : PgConflicting ⟨.resolve current, s⟩) (sound : PgSoundGiveUp s current) :
    ∀ σ, ¬ Q.Solution σ := by
  have tracked : s.Tracked current := well.refers
  have levels := well.levels (by intro status same; cases same)
  cases outcome with
  | rootFailure root =>
    refine valid.unsolvable current tracked fun σ solution t member => ?_
    -- the incompatibility has no term, or one positive term on the root package
    unfold pgIncompatibilityIsRootFailure at root
    split at root
    · rename_i none
      rw [PgSolver.terms, none] at member
      cases member
    · rename_i only one
      have same : t = only := by
        rw [PgSolver.terms, one] at member
        exact List.mem_singleton.mp member
      subst same
      obtain ⟨positive, on⟩ : t.positive = true ∧ t.pkg = s.rootPkg := by simpa using root
      have contains := valid.rootTerms current tracked t member positive
        (on.trans valid.rootPkg)
      rw [on, valid.rootPkg, solution.root, PgTerm.Admits, positive]
      exact pgAdmits_positive.mpr ⟨_, rfl, contains⟩
    · cases root
  | noSatisfier notRoot none =>
    have low := sound.noSatisfier notRoot none
    refine valid.unsolvable current tracked fun σ solution t member => ?_
    exact valid.grounded.admits (fun a on => Nat.le_trans (levels.bounded a on) low)
      (conflicting current rfl t member) (valid.unflagged current tracked t member) solution
  | rootLevel at_ stop low =>
    exact valid.unsolvable_of_satisfier well at_ (sound.rootLevel _ _ _ _ at_ stop low)
  | @noCause index termIndex satisfier term inc at_ undecided causeless =>
    refine valid.unsolvable_of_satisfier well at_ ?_
    obtain ⟨pre, post, spec⟩ := at_.spec
    cases well.entries _ spec.member with
    | required => exact Nat.zero_le 1
    | root => exact Nat.le_refl 1
    | decision => cases undecided
    | derived => cases causeless

/-- What holds along a run whose verdicts are sound. -/
structure PgVerdict (Q : PgProblem) (c : PgConfig γ) : Prop where
  well : PgWellFormed Q.roots c
  valid : PgValidState Q c.solver
  justified : PgJustified c.solver
  conflicting : PgConflicting c
  verdict : c.phase = .done .noSolution → ∀ σ, ¬ Q.Solution σ

theorem PgVerdict.start {ctx : γ} {c : PgConfig γ} (answers : Q.listing.Answers P)
    (started : PgStarted P ctx Q.rootPkg Q.rootVersion Q.roots c) : PgVerdict Q c where
  well := PgWellFormed.start started
  valid := PgValidState.start answers started
  justified := PgJustified.start started
  conflicting := by cases started <;> (intro current phase; cases phase)
  verdict := by cases started <;> (intro phase; cases phase)

theorem PgVerdict.step {c : PgConfig γ} (answers : Q.listing.Answers P)
    (holds : PgVerdict Q c) (sound : PgSoundVerdict Q.listing c) :
    PgVerdict Q (pgStep P c) where
  well := holds.well.step
  valid := holds.valid.step answers holds.well sound.1
  justified := (pgStep_transition P c).justified holds.well holds.justified
  conflicting :=
    (pgStep_transition P c).conflicting holds.well holds.justified holds.conflicting
  verdict := by
    have step := pgStep_transition P c
    generalize pgStep P c = c' at step
    intro phase
    cases step with
    | giveUp outcome =>
      exact PgValidState.giveUp outcome holds.well holds.valid holds.conflicting
        (sound.2 _ rfl)
    | halted => exact holds.verdict phase
    | _ => cases phase

/-- If `pg_solver_solve` reports that there is no solution, and every step it
took was sound, then there is none. -/
theorem pgSolverSolve_noSolution {ctx : γ} {s s' : PgSolver γ} {fuel : Nat}
    (answers : Q.listing.Answers P)
    (prepared : pgSolverAddRootDependencies (pgSolverNew ctx Q.rootPkg Q.rootVersion) Q.roots =
      some s)
    (sound : ∀ n < fuel, PgSoundVerdict Q.listing (pgRun P n (pgSolverStart P s)))
    (returned : pgSolverSolve P fuel s = some (.noSolution, s')) :
    ∀ σ, ¬ Q.Solution σ := by
  have started : PgStart P ctx Q.rootPkg Q.rootVersion Q.roots (pgSolverStart P s) :=
    ⟨s, prepared, rfl⟩
  have verdict : PgVerdict Q (pgRun P fuel (pgSolverStart P s)) :=
    Guarded.invariant (guarded_iterate sound) (PgVerdict.start answers started.started)
      fun _ guard holds => holds.step answers guard
  refine verdict.verdict ?_
  unfold pgSolverSolve at returned
  split at returned
  · rename_i status s₁ here
    cases returned
    rw [here]
  · cases returned

/-- An executable test for giving up: what is behind it is at a ground level. -/
def pgGiveUpTest (s : PgSolver γ) (current : PgIncompatId) : Bool :=
  match pgIncompatibilityFindSatisfier s.trail (s.incompat current).terms with
  | none => s.currentDecisionLevel ≤ 1
  | some (index, _) =>
    let satisfier := s.trail.getD index pgNoAssignment
    let previous := pgPreviousLevelAt s current satisfier
    satisfier.decided || previous = satisfier.decisionLevel →
      previous < 1 → satisfier.decisionLevel ≤ 1

theorem PgSoundGiveUp.of_test {s : PgSolver γ} {current : PgIncompatId}
    (test : pgGiveUpTest s current = true) : PgSoundGiveUp s current := by
  unfold pgGiveUpTest at test
  constructor
  · intro _ none
    rw [none] at test
    exact of_decide_eq_true test
  · intro index termIndex satisfier term at_ stops low
    rw [at_.found] at test
    have ground := of_decide_eq_true test
    rw [← at_.satisfier_eq] at ground
    exact ground (by simpa using stops) low

def pgSoundVerdictTest (L : PgListing) (c : PgConfig γ) : Bool :=
  pgSoundStepTest L c &&
    match c.phase with
    | .resolve current => pgGiveUpTest c.solver current
    | _ => true

theorem PgSoundVerdict.of_test {L : PgListing} {c : PgConfig γ}
    (test : pgSoundVerdictTest L c = true) : PgSoundVerdict L c := by
  obtain ⟨step, outcome⟩ := Bool.and_eq_true_iff.mp test
  refine ⟨.of_test step, fun current phase => .of_test ?_⟩
  rwa [phase] at outcome

theorem pgSolverSolve_noSolution_unmet : ¬ ∃ σ, pgUnmet.Solution σ := by
  obtain ⟨s', returned⟩ : ∃ s', pgSolverSolve pgUnmet.listing.provider 24
      (pgRootsPushed (pgSolverNew () pgUnmet.rootPkg pgUnmet.rootVersion) pgUnmet.roots) =
        some (.noSolution, s') := by
    have status : (pgSolverSolve pgUnmet.listing.provider 24
        (pgRootsPushed (pgSolverNew () pgUnmet.rootPkg pgUnmet.rootVersion)
          pgUnmet.roots)).map Prod.fst = some .noSolution := by decide
    obtain ⟨⟨st, s'⟩, same, rfl⟩ := Option.map_eq_some_iff.mp status
    exact ⟨s', same⟩
  have tests : ∀ n < 24, pgSoundVerdictTest pgUnmet.listing
      (pgRun pgUnmet.listing.provider n pgUnmetStart) = true := by decide
  exact not_exists.mpr (pgSolverSolve_noSolution pgUnmet_answers rfl
    (fun n lt => .of_test (tests n lt)) returned)

/-! ## A solvable problem that is reported unsolvable -/

/-- The newer version of package 1 needs package 2, of which there is no
version; the older one needs nothing. -/
def pgDeadEnd : PgProblem where
  listing := .ofTables [(1, [pgMajor 2, pgMajor 1])] [((1, pgMajor 2), [(2, pgRangeAny)])]
  rootPkg := 0
  rootVersion := pgMajor 1
  roots := [(1, pgRangeAny)]

set_option maxRecDepth 4000 in
/-- Resolution leads back to the decision for the newer version, with nothing
else in the incompatibility: the previous level is 0, and the solver gives up
where it had to try the older version. -/
theorem pgSolverSolve_noSolution_wrong :
    ¬ ∀ (Q : PgProblem) (P : PgDependencyProvider Unit), Q.listing.Answers P →
      ∀ (s s' : PgSolver Unit) (fuel : Nat),
        pgSolverAddRootDependencies (pgSolverNew () Q.rootPkg Q.rootVersion) Q.roots = some s →
        pgSolverSolve P fuel s = some (.noSolution, s') → ∀ σ, ¬ Q.Solution σ := by
  intro claim
  have answers : pgDeadEnd.listing.Answers pgDeadEnd.listing.provider :=
    PgListing.answers_provider (PgListing.fits_ofTables (by decide) (by decide))
  have solution : pgDeadEnd.Solution fun pkg => [(0, pgMajor 1), (1, pgMajor 1)].lookup pkg :=
    PgProblem.solution_ofTables (by decide) (by decide) (by decide) (by decide)
  have status : (pgSolverSolve pgDeadEnd.listing.provider 40
      (pgRootsPushed (pgSolverNew () pgDeadEnd.rootPkg pgDeadEnd.rootVersion)
        pgDeadEnd.roots)).map Prod.fst = some .noSolution := by decide
  obtain ⟨⟨st, s'⟩, returned, rfl⟩ := Option.map_eq_some_iff.mp status
  exact claim pgDeadEnd _ answers _ s' 40 rfl returned _ solution

end ElmWrap
