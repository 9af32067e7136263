import Mathlib.Tactic.IntervalCases
import ElmWrap.PgSolver.Descent
import ElmWrap.PgSolver.Explanation

/-!
# The text of a failed run

Every run keeps a derivation graph: an incompatibility is added for a dependency, for a
package without versions, or for two earlier ones. A run that fails leaves a root in it,
and the text `pg_solver_explain_failure` writes for that root is faithful exactly when
the root is tellable.
-/

namespace ElmWrap

open Lib

variable {γ : Type} {P : PgDependencyProvider γ}

/-! ## The derivation graph of a run -/

theorem PgOrigin.of_eq {rootPkg : PgPackageId} {id : PgIncompatId} {inc inc' : PgIncompatibility}
    (origin : PgOrigin rootPkg id inc) (terms : inc'.terms = inc.terms)
    (reason : inc'.reason = inc.reason) (causes : inc'.causes = inc.causes) :
    PgOrigin rootPkg id inc' := by
  rcases origin with ⟨same, none_, two⟩ | ⟨same, none_, one⟩ | ⟨same, two⟩
  · exact .dependency (reason.trans same) (causes.trans none_) (terms ▸ two)
  · exact .noVersions (reason.trans same) (causes.trans none_) (terms ▸ one)
  · exact .resolved (reason.trans same) (causes ▸ two)

/-- Attaching changes neither the reason nor the causes. -/
theorem attach_derivation (s : PgSolver γ) (id j : PgIncompatId) :
    ((pgSolverAttachIncompatibility s id).incompat j).reason = (s.incompat j).reason ∧
      ((pgSolverAttachIncompatibility s id).incompat j).causes = (s.incompat j).causes := by
  cases flag : (s.incompat id).attached
  · rw [attach_eq s id flag, PgSolver.incompat, incompat_modify]
    split <;> exact ⟨rfl, rfl⟩
  · rw [attach_attached s id flag]
    exact ⟨rfl, rfl⟩

theorem PgDerivationGraph.of_eq {s s' : PgSolver γ} (graph : PgDerivationGraph s)
    (store : s'.incompatibilities = s.incompatibilities) (root : s'.rootPkg = s.rootPkg) :
    PgDerivationGraph s' := by
  unfold PgDerivationGraph PgSolver.incompat
  rw [store, root]
  exact graph

theorem PgDerivationGraph.attach {s : PgSolver γ} (graph : PgDerivationGraph s)
    (id : PgIncompatId) : PgDerivationGraph (pgSolverAttachIncompatibility s id) := by
  intro j stored
  rw [attach_length] at stored
  rw [attach_rootPkg]
  exact (graph j stored).of_eq (attach_terms s id j) (attach_derivation s id j).1
    (attach_derivation s id j).2

theorem PgDerivationGraph.track {s : PgSolver γ} (graph : PgDerivationGraph s)
    {terms : List PgTerm} {reason : PgIncompatibilityReason} {causes : List PgIncompatId}
    (origin : PgOrigin s.rootPkg s.incompatibilities.length ⟨terms, reason, causes, false⟩) :
    PgDerivationGraph (pgSolverTrackIncompatibility s terms reason causes).1 := by
  intro j stored
  rw [track_rootPkg]
  rcases track_incompat_cases s terms reason causes stored with ⟨old, same⟩ | ⟨rfl, same⟩
  · rw [same]
    exact graph j old
  · rw [same]
    exact origin

theorem PgDerivationGraph.add {s : PgSolver γ} (graph : PgDerivationGraph s)
    {terms : List PgTerm} {reason : PgIncompatibilityReason}
    (origin : PgOrigin s.rootPkg s.incompatibilities.length ⟨terms, reason, [], false⟩) :
    PgDerivationGraph (pgSolverAddIncompatibility s terms reason).1 := by
  rw [add_fst]
  exact (graph.track origin).attach _

theorem PgDerivationGraph.addDependencies {s : PgSolver γ} (graph : PgDerivationGraph s)
    (pkg : PgPackageId) (range : PgVersionRange) (deps : List PgDependency) :
    PgDerivationGraph (pgAddDependencies s pkg range deps) := by
  induction deps generalizing s with
  | nil => exact graph
  | cons dep deps ih =>
    rw [pgAddDependencies_cons]
    exact ih (graph.add (.dependency rfl rfl ⟨_, _, rfl⟩))

theorem PgTransition.derivationGraph {c c' : PgConfig γ} (step : PgTransition P c c')
    (refers : c.phase.Refers c.solver) (derivations : PgDerivations PgDerivedBy c.solver)
    (graph : PgDerivationGraph c.solver) : PgDerivationGraph c'.solver := by
  cases step with
  | derive => exact graph.of_eq rfl rfl
  | decideError outcome => cases outcome <;> exact graph.of_eq rfl rfl
  | noVersions outcome =>
    cases outcome with
    | noVersions _ _ candidate =>
      rename_i s cv pkg required vs _ _ _ _
      have cached : PgDerivationGraph { s with cachedVersions := cv } := graph.of_eq rfl rfl
      exact (cached.add (.noVersions rfl rfl ⟨_, rfl, candidate.notRoot⟩)).of_eq rfl rfl
  | finished outcome => cases outcome; exact graph.of_eq rfl rfl
  | decided outcome =>
    cases outcome with
    | made =>
      rename_i s cv pkg version ctx deps _ _
      have pushed : PgDerivationGraph
          { pgDecided { s with cachedVersions := cv } pkg version with
            providerCtx := ctx } := graph.of_eq rfl rfl
      exact (pushed.addDependencies pkg (pgRangeExact version) deps).of_eq rfl rfl
  | giveUp outcome => cases outcome <;> exact graph.of_eq rfl rfl
  | resolved outcome =>
    cases outcome with
    | resolved at_ undecided differs hasCause =>
      obtain ⟨pre, post, w, resolution⟩ := at_.resolution derivations hasCause
      exact graph.track (.resolved rfl ⟨_, _, rfl, refers, resolution.tracked⟩)
  | learned outcome =>
    cases outcome
    exact (graph.attach _).of_eq rfl rfl
  | _ => exact graph.of_eq rfl rfl

/-! ## The root of a failed run -/

/-- No failure has been recorded. -/
def PgUnfailed (s : PgSolver γ) : Prop := s.rootIncompatibility = none ∧ s.budgetExceeded = false

/-- What explaining a failure starts from. -/
structure PgFailed (s : PgSolver γ) : Prop where
  graph : PgDerivationGraph s
  withinBudget : s.budgetExceeded = false
  root : ∀ root, s.rootIncompatibility = some root → PgRootOf s root

theorem PgUnfailed.attach {s : PgSolver γ} (unfailed : PgUnfailed s) (id : PgIncompatId) :
    PgUnfailed (pgSolverAttachIncompatibility s id) := by
  cases flag : (s.incompat id).attached
  · rw [attach_eq s id flag]
    exact unfailed
  · rw [attach_attached s id flag]
    exact unfailed

theorem PgUnfailed.add {s : PgSolver γ} (unfailed : PgUnfailed s) (terms : List PgTerm)
    (reason : PgIncompatibilityReason) :
    PgUnfailed (pgSolverAddIncompatibility s terms reason).1 := by
  have tracked : PgUnfailed (pgSolverTrackIncompatibility s terms reason []).1 := unfailed
  exact tracked.attach _

theorem PgUnfailed.addDependencies {s : PgSolver γ} (unfailed : PgUnfailed s)
    (pkg : PgPackageId) (range : PgVersionRange) (deps : List PgDependency) :
    PgUnfailed (pgAddDependencies s pkg range deps) := by
  induction deps generalizing s with
  | nil => exact unfailed
  | cons dep deps ih =>
    rw [pgAddDependencies_cons]
    exact ih (unfailed.add _ _)

theorem PgTransition.unfailed {c c' : PgConfig γ} (step : PgTransition P c c')
    (unfailed : PgUnfailed c.solver) (live : c'.Live) : PgUnfailed c'.solver := by
  cases step with
  | budget => exact absurd rfl (live _)
  | decideError => exact absurd rfl (live _)
  | noVersions outcome =>
    cases outcome with
    | noVersions =>
      rename_i s cv pkg required vs _ _ _ _ _
      have cached : PgUnfailed { s with cachedVersions := cv } := unfailed
      exact cached.add (pgNoVersionsTerms pkg required) .noVersions
  | finished => exact absurd rfl (live _)
  | decided outcome =>
    cases outcome with
    | made =>
      rename_i s cv pkg version ctx deps _ _
      have pushed : PgUnfailed { pgDecided { s with cachedVersions := cv } pkg version with
          providerCtx := ctx } := unfailed
      exact pushed.addDependencies pkg (pgRangeExact version) deps
  | giveUp => exact absurd rfl (live _)
  | resolved outcome => cases outcome; exact unfailed
  | learned outcome =>
    cases outcome
    exact PgUnfailed.attach unfailed _
  | halted => exact absurd rfl (live _)
  | _ => exact unfailed

/-- The root incompatibility when `pg_resolve_conflict` returns `NULL`. -/
theorem pgResolveConflictIteration_failed {s s' : PgSolver γ} {current : PgIncompatId}
    {branch : PgGiveUp} (run : pgResolveConflictIteration s current = (s', .giveUp branch))
    (tracked : s.Tracked current) (graph : PgDerivationGraph s) (unfailed : PgUnfailed s) :
    PgFailed s' := by
  have here : PgFailed { s with rootIncompatibility := some (s.incompat current) } := by
    refine ⟨graph.of_eq rfl rfl, unfailed.2, fun root same => .tracked current tracked ?_⟩
    exact (Option.some.inj same).symm
  simp only [pgResolveConflictIteration] at run
  split at run
  · cases run
    exact here
  · split at run
    · cases run
      refine ⟨graph, unfailed.2, fun root same => ?_⟩
      rw [unfailed.1] at same
      cases same
    · split at run
      · split at run
        · cases run
          exact here
        · cases run
      · split at run
        · split at run
          · cases run
            refine ⟨graph.of_eq rfl rfl, unfailed.2, fun root same => ?_⟩
            rw [← Option.some.inj same]
            exact .untracked current tracked rfl rfl
          · cases run
            exact here
        · cases run

theorem pgStep_failed {c : PgConfig γ} (failure : (pgStep P c).phase = .done .noSolution) :
    c.phase = .done .noSolution ∧ pgStep P c = c ∨ ∃ current branch,
      c.phase = .resolve current ∧
        pgResolveConflictIteration c.solver current = ((pgStep P c).solver, .giveUp branch) := by
  rcases c with ⟨phase, s⟩
  cases phase with
  | loop =>
    simp only [pgStep] at failure
    split at failure <;> cases failure
  | propagate =>
    simp only [pgStep] at failure
    split at failure <;> cases failure
  | examine rest =>
    cases rest with
    | nil => cases failure
    | cons id rest =>
      simp only [pgStep] at failure
      split at failure <;> cases failure
  | decide =>
    simp only [pgStep] at failure
    split at failure <;> cases failure
  | resolve current =>
    refine Or.inr ⟨current, ?_⟩
    cases result : pgResolveConflictIteration s current with
    | mk s' resolved =>
      simp only [pgStep, result] at failure
      cases resolved with
      | giveUp branch => exact ⟨branch, rfl, by simp only [pgStep, result]⟩
      | learned level => cases failure
      | resolved id => cases failure
  | done status =>
    cases failure
    exact Or.inl ⟨rfl, rfl⟩

/-- What holds in every configuration of a run. -/
structure PgAccounted (c : PgConfig γ) : Prop where
  graph : PgDerivationGraph c.solver
  unfailed : c.Live → PgUnfailed c.solver
  failed : c.phase = .done .noSolution → PgFailed c.solver

theorem PgAccounted.step {roots : List PgDependency} {c : PgConfig γ} (well : PgWellFormed roots c)
    (derivations : PgDerivations PgDerivedBy c.solver) (accounted : PgAccounted c) :
    PgAccounted (pgStep P c) where
  graph := (pgStep_transition P c).derivationGraph well.refers derivations accounted.graph
  unfailed live := by
    have step := pgStep_transition P c
    exact step.unfailed (accounted.unfailed (step.live live)) live
  failed failure := by
    rcases pgStep_failed failure with ⟨before, same⟩ | ⟨current, branch, phase, run⟩
    · rw [same]
      exact accounted.failed before
    · have refers := well.refers
      rw [phase] at refers
      have live : c.Live := fun status done => by
        rw [phase] at done
        cases done
      exact pgResolveConflictIteration_failed run refers accounted.graph (accounted.unfailed live)

theorem pgRootDecided_unfailed (ctx : γ) (rootPkg : PgPackageId) (rootVersion : PgVersion)
    (roots : List PgDependency) : PgUnfailed (pgRootDecided ctx rootPkg rootVersion roots) := by
  have pushed : ∀ s : PgSolver γ, PgUnfailed s → PgUnfailed (pgRootsPushed s roots) := by
    induction roots with
    | nil => exact fun _ unfailed => unfailed
    | cons dep roots ih => exact fun s unfailed => ih _ unfailed
  exact pushed _ ⟨rfl, rfl⟩

theorem PgAccounted.start {ctx : γ} {rootPkg : PgPackageId} {rootVersion : PgVersion}
    {roots : List PgDependency} {c : PgConfig γ}
    (started : PgStarted P ctx rootPkg rootVersion roots c) : PgAccounted c := by
  have unfailed := pgRootDecided_unfailed ctx rootPkg rootVersion roots
  have empty : PgDerivationGraph (pgRootDecided ctx rootPkg rootVersion roots) :=
    fun id stored => absurd stored (pgRootDecided_untracked ctx rootPkg rootVersion roots id)
  cases started with
  | failed =>
    refine ⟨empty.of_eq rfl rfl, fun live => absurd rfl (live _), fun failure => ?_⟩
    cases failure
  | @registered ctx' deps answer =>
    have decided : PgDerivationGraph
        { pgRootDecided ctx rootPkg rootVersion roots with providerCtx := ctx' } :=
      empty.of_eq rfl rfl
    have unfailed' : PgUnfailed
        { pgRootDecided ctx rootPkg rootVersion roots with providerCtx := ctx' } := unfailed
    refine ⟨(decided.addDependencies rootPkg (pgRangeExact rootVersion) deps).of_eq rfl rfl,
      fun _ => unfailed'.addDependencies rootPkg (pgRangeExact rootVersion) deps,
      fun failure => ?_⟩
    cases failure

theorem PgReachable.accounted {ctx : γ} {rootPkg : PgPackageId} {rootVersion : PgVersion}
    {roots : List PgDependency} {c : PgConfig γ}
    (reachable : PgReachable P ctx rootPkg rootVersion roots c) : PgAccounted c := by
  obtain ⟨start, started, run⟩ := reachable
  refine (Guarded.invariant (I := fun d => PgReachable P ctx rootPkg rootVersion roots d ∧
    PgAccounted d) run ⟨⟨start, started, Guarded.refl start⟩,
      PgAccounted.start started.started⟩ fun d _ holds => ?_).2
  have here := holds.1
  exact ⟨here.later (reaches_iterate 1 d), holds.2.step here.wellFormed here.derivations⟩

theorem PgReachable.failed {ctx : γ} {rootPkg : PgPackageId} {rootVersion : PgVersion}
    {roots : List PgDependency} {s : PgSolver γ}
    (run : PgReachable P ctx rootPkg rootVersion roots ⟨.done .noSolution, s⟩) : PgFailed s :=
  run.accounted.failed rfl

/-! ## The buffer -/

/-- The first configuration of the run for a problem. -/
def PgProblem.start (Q : PgProblem) : PgConfig Unit :=
  pgSolverStart Q.listing.provider (pgRootsPushed (pgSolverNew () Q.rootPkg Q.rootVersion) Q.roots)

end ElmWrap
