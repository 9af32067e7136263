import ElmWrap.PgSolver.Positives
import ElmWrap.PgSolver.PkgStates
import ElmWrap.PgSolver.Solution

/-!
# The trail and the package states of every run

The decision levels grow along the trail, no package is decided twice, the
positive assignments of a package meet, and `pkg_states` is what a scan of the
trail computes. With that `pg_make_decision` can only fail where the provider
does.
-/

namespace ElmWrap

open Lib

variable {γ : Type} {P : PgDependencyProvider γ}

/-! ## What a scan of the trail computes -/

variable {roots : List PgDependency} {pkg : PgPackageId} {trail : List PgAssignment}
  {rootPkg : PgPackageId} {rootVersion : PgVersion}

theorem pgPkgStateOf_used_iff :
    (pgPkgStateOf trail pkg).used = true ↔ ∃ a ∈ trail, a.pkg = pkg := by
  constructor
  · intro used
    induction trail using List.reverseRecOn with
    | nil => cases used
    | append_singleton trail b ih =>
      rw [pgPkgStateOf_append] at used
      split at used
      · rename_i same
        exact ⟨b, by simp, same⟩
      · obtain ⟨a, member, same⟩ := ih used
        exact ⟨a, List.mem_append_left _ member, same⟩
  · rintro ⟨a, member, rfl⟩
    exact pgPkgStateOf_used member

theorem pgPkgStateRecord_version {version : PgVersion} {level : Nat} {state : PgPkgState} :
    (pgPkgStateRecord (pgDecisionAssignment pkg version level) state).decisionVersion =
      version := by
  simp [pgPkgStateRecord, pgDecisionAssignment, pgRangeIsExact_exact]

theorem pgPkgStateRecord_undecided {a : PgAssignment} {state : PgPkgState}
    (undecided : a.decided = false) :
    (pgPkgStateRecord a state).decisionVersion = state.decisionVersion := by
  simp [pgPkgStateRecord, undecided]

/-! ## One decision for a package -/

/-- No two decisions are for the same package. -/
def PgDecidedOnce (trail : List PgAssignment) : Prop :=
  trail.Pairwise fun a b => ¬ (a.decided = true ∧ b.decided = true ∧ a.pkg = b.pkg)

/-- A decided assignment is a decision on an exact version. -/
theorem PgEntry.decision_eq {s : PgSolver γ} {a : PgAssignment} (entry : PgEntry roots s a)
    (decided : a.decided = true) :
    ∃ version level, a = pgDecisionAssignment a.pkg version level := by
  cases entry with
  | required => cases decided
  | root => exact ⟨_, _, rfl⟩
  | decision => exact ⟨_, _, rfl⟩
  | derived => cases decided

/-- The recorded version is the one of the decision on the trail. -/
theorem pgPkgStateOf_version {s : PgSolver γ} (entries : ∀ a ∈ trail, PgEntry roots s a)
    (once : PgDecidedOnce trail) {version : PgVersion} {level : Nat}
    (member : pgDecisionAssignment pkg version level ∈ trail) :
    (pgPkgStateOf trail pkg).decisionVersion = version := by
  induction trail using List.reverseRecOn with
  | nil => cases member
  | append_singleton trail b ih =>
    unfold PgDecidedOnce at once
    rw [List.pairwise_append] at once
    rw [pgPkgStateOf_append]
    rcases List.mem_append.mp member with old | new
    · have earlier := ih (fun a on => entries a (List.mem_append_left _ on)) once.1 old
      split
      · rename_i same
        have undecided : b.decided = false := by
          by_contra decided
          exact once.2.2 _ old b (List.mem_singleton_self b)
            ⟨rfl, Bool.eq_true_of_not_eq_false decided, same.symm⟩
        rw [pgPkgStateRecord_undecided undecided]
        exact earlier
      · exact earlier
    · rw [← List.mem_singleton.mp new,
        if_pos (show (pgDecisionAssignment pkg version level).pkg = pkg from rfl)]
      exact pgPkgStateRecord_version

theorem PgTrailChange.decidedOnce {c : PgConfig γ} (change : PgTrailChange P c trail)
    (well : PgWellFormed roots c) (states : PgPkgStates c.solver)
    (once : PgDecidedOnce c.solver.trail) :
    PgDecidedOnce trail := by
  unfold PgDecidedOnce at once ⊢
  cases change with
  | same => exact once
  | derived =>
    refine List.pairwise_append.mpr ⟨once, List.pairwise_singleton _ _, fun a _ b on => ?_⟩
    rw [List.mem_singleton.mp on]
    rintro ⟨-, decided, -⟩
    cases decided
  | @decided s cv pkg version choice =>
    refine List.pairwise_append.mpr ⟨once, List.pairwise_singleton _ _, fun a member b on => ?_⟩
    rw [List.mem_singleton.mp on]
    rintro ⟨decided, -, same⟩
    -- an earlier decision for the package would be recorded
    obtain ⟨required, candidate, -⟩ := choice.candidate
    obtain ⟨version', level, shape⟩ := (well.entries a member).decision_eq decided
    have recorded : (pgPkgStateOf s.trail pkg).hasDecision = true := by
      rw [shape] at member
      rw [show a.pkg = pkg from same] at member
      exact pgPkgStateOf_decision member
    have undecided := candidate.undecided
    rw [states.states pkg, recorded] at undecided
    cases undecided
  | cut => exact once.sublist (pgTrailCut_initial _ _).sublist

/-! ## Levels -/

/-- Decision levels grow along the trail, also where the run has returned. -/
theorem PgTrailChange.sorted {c : PgConfig γ} (change : PgTrailChange P c trail)
    (well : PgWellFormed roots c)
    (sorted : c.solver.trail.Pairwise fun a b => a.decisionLevel ≤ b.decisionLevel) :
    trail.Pairwise fun a b => a.decisionLevel ≤ b.decisionLevel := by
  cases change with
  | same => exact sorted
  | derived =>
    have levels := well.levels (by intro status same; cases same)
    refine List.pairwise_append.mpr ⟨sorted, List.pairwise_singleton _ _, fun a member b on => ?_⟩
    rw [List.mem_singleton.mp on]
    exact levels.bounded a member
  | decided =>
    have levels := well.levels (by intro status same; cases same)
    refine List.pairwise_append.mpr ⟨sorted, List.pairwise_singleton _ _, fun a member b on => ?_⟩
    rw [List.mem_singleton.mp on]
    exact Nat.le_succ_of_le (levels.bounded a member)
  | cut => exact sorted.sublist (pgTrailCut_initial _ _).sublist

/-! ## Positive assignments -/

/-- A version that is available is in the range required of its package. -/
theorem pgVersionAvailable_contains {s : PgSolver γ} {required : PgVersionRange}
    {version : PgVersion} (available : pgVersionAvailable s pkg required version = true) :
    pgRangeContains required version = true := by
  unfold pgVersionAvailable at available
  rw [Bool.and_eq_true, Bool.and_eq_true] at available
  exact available.1.1

/-- A derived positive assignment meets the range its package already has. -/
theorem PgPositivesMeet.derive {trail : List PgAssignment} {term : PgTerm}
    (meet : PgPositivesMeet trail term.pkg) (open_ : pgTermState trail term = .inconclusive)
    (id : PgIncompatId) (level : Nat) :
    PgPositivesMeet (trail ++ [pgAssignmentFromTermNegation term id level]) term.pkg := by
  cases positive : term.positive with
  | true => exact meet.other (by simp [pgPositiveFor, pgAssignmentFromTermNegation, positive])
  | false =>
    have own : pgPositiveFor term.pkg (pgAssignmentFromTermNegation term id level) = true := by
      simp [pgPositiveFor, pgAssignmentFromTermNegation, positive]
    obtain ⟨found, run, spec⟩ := meet
    cases found with
    | none => exact PgPositivesMeet.first run own
    | some required =>
      refine PgPositivesMeet.next run own ?_
      have scan := pgComputePositiveRangeFrom_scan term trail ⟨none, false⟩ _ run
      rw [pgTermState_eq, pgTermScan, scan] at open_
      simp only [positive, Bool.false_eq_true, if_false] at open_
      split at open_
      · cases open_
      · rename_i meets
        exact Bool.eq_false_of_not_eq_true meets

theorem PgTrailChange.positives {c : PgConfig γ} (change : PgTrailChange P c trail)
    (meet : PgPositivesMeet c.solver.trail pkg) : PgPositivesMeet trail pkg := by
  cases change with
  | same => exact meet
  | @derived s id rest term unit =>
    by_cases same : term.pkg = pkg
    · subst same
      obtain ⟨pre, post, -, open_, -⟩ := unit
      exact meet.derive open_ id s.currentDecisionLevel
    · exact meet.other (by simp [pgPositiveFor, pgAssignmentFromTermNegation, same])
  | @decided s cv chosen version choice =>
    by_cases same : chosen = pkg
    · subst same
      obtain ⟨required, candidate, available⟩ := choice.candidate
      refine PgPositivesMeet.next candidate.range (by simp [pgPositiveFor, pgDecisionAssignment])
        (pgRangeIntersect_open (pgVersionAvailable_contains available)
          (pgRangeContains_exact.mpr rfl))
    · exact meet.other (by simp [pgPositiveFor, pgDecisionAssignment, same])
  | cut => exact meet.initial (pgTrailCut_initial _ _)

/-- The root requirements, pushed one after the other. -/
theorem pgSolverAddRootDependencies_positives :
    ∀ (roots : List PgDependency) {s s' : PgSolver γ},
      pgSolverAddRootDependencies s roots = some s' → PgPositivesMeet s.trail pkg →
        PgPositivesMeet s'.trail pkg := by
  intro roots
  induction roots with
  | nil =>
    intro s s' run meet
    cases run
    exact meet
  | cons dep roots ih =>
    intro s s' run meet
    simp only [pgSolverAddRootDependencies] at run
    split at run
    · cases run
    · rename_i s₁ added
      refine ih run ?_
      have pushed := pgSolverAddRootDependency_eq added
      by_cases same : dep.1 = pkg
      · have own : pgPositiveFor pkg (pgRootAssignment dep) = true := by
          simp [pgPositiveFor, pgRootAssignment, same]
        rw [pushed, push_trail]
        simp only [pgSolverAddRootDependency] at added
        rw [same] at added
        split at added
        · cases added
        · rename_i existing run'
          split at added
          · cases added
          · rename_i meets
            exact PgPositivesMeet.next run' own (Bool.eq_false_of_not_eq_true meets)
        · rename_i run'
          exact PgPositivesMeet.first run' own
      · rw [pushed, push_trail]
        exact meet.other (by simp [pgPositiveFor, pgRootAssignment, same])

/-- The root requirements on the root package itself admit the root version. -/
def PgRootFits (rootPkg : PgPackageId) (rootVersion : PgVersion) (roots : List PgDependency) :
    Prop :=
  ∀ dep ∈ roots, dep.1 = rootPkg → pgRangeContains dep.2 rootVersion = true

theorem PgStart.positives {ctx : γ} {c : PgConfig γ}
    (start : PgStart P ctx rootPkg rootVersion roots c)
    (fits : pkg = rootPkg → PgRootFits rootPkg rootVersion roots) :
    PgPositivesMeet c.solver.trail pkg := by
  have trail : c.solver.trail = roots.map pgRootAssignment ++
      [pgDecisionAssignment rootPkg rootVersion 1] := by
    rw [← pgRootDecided_trail ctx rootPkg rootVersion roots]
    cases start.started <;> simp
  rw [trail]
  obtain ⟨s, run, -⟩ := start
  have meet := pgSolverAddRootDependencies_positives roots run (pgPositivesMeet_nil pkg)
  have required : s.trail = roots.map pgRootAssignment := by
    rw [pgSolverAddRootDependencies_eq run, (pgRootsPushed_frame _ roots).1]
    rfl
  rw [required] at meet
  by_cases same : rootPkg = pkg
  · have own : pgPositiveFor pkg (pgDecisionAssignment rootPkg rootVersion 1) = true := by
      simp [pgPositiveFor, pgDecisionAssignment, same]
    obtain ⟨found, run', -⟩ := meet
    cases found with
    | none => exact PgPositivesMeet.first run' own
    | some range =>
      refine PgPositivesMeet.next run' own ?_
      have inside : pgRangeContains range rootVersion = true := by
        rw [(pgSolverComputePositiveRange_some run').2]
        rintro a ⟨member, on, -⟩
        obtain ⟨dep, listed, rfl⟩ := List.mem_map.mp member
        exact fits same.symm dep listed (on.trans same.symm)
      exact pgRangeIntersect_open inside (pgRangeContains_exact.mpr rfl)
  · exact meet.other (by simp [pgPositiveFor, pgDecisionAssignment, same])

/-! ## Where `pg_make_decision` fails -/

/-- The provider fails on some package in its present context. -/
def PgProviderFails (P : PgDependencyProvider γ) (s : PgSolver γ) : Prop :=
  (∃ pkg, P.getVersions s.providerCtx pkg pgDecisionVersionBuffer = none) ∨
    ∃ pkg version, (P.getDependencies s.providerCtx pkg version pgDependencyBuffer).2 = none

theorem pgSolverEvaluateCandidate_error {s s' : PgSolver γ} {required : PgVersionRange}
    (run : pgSolverEvaluateCandidate P s pkg required = (s', .error)) :
    P.getVersions s.providerCtx pkg pgDecisionVersionBuffer = none := by
  unfold pgSolverEvaluateCandidate at run
  split at run
  · rename_i lookup
    unfold pgSolverVersions at lookup
    split at lookup
    · cases lookup
    · split at lookup
      · assumption
      · cases lookup
  · split at run <;> cases run

theorem pgBestCandidate_error {s : PgSolver γ}
    (computes : ∀ pkg, pkg ≠ s.rootPkg → pgSolverComputePositiveRange s.trail pkg ≠ none) :
    ∀ (pkgs : List PgPackageId) (cv : List (Option (List PgVersion)))
      (best : Option (PgPackageId × PgDecisionEval)) {s' : PgSolver γ},
      pgBestCandidate P pkgs { s with cachedVersions := cv } best = (s', .error) →
      ∃ pkg, P.getVersions s.providerCtx pkg pgDecisionVersionBuffer = none := by
  intro pkgs
  induction pkgs with
  | nil => intro cv best s' run; cases run
  | cons pkg rest ih =>
    intro cv best s' run
    simp only [pgBestCandidate] at run
    split at run
    · exact ih cv best run
    · rename_i notRoot
      split at run
      · exact ih cv best run
      · split at run
        · exact absurd (by assumption) (computes pkg notRoot)
        · exact ih cv best run
        · split at run
          · rename_i s₁ evaluated
            have failed := pgSolverEvaluateCandidate_error evaluated
            exact ⟨pkg, failed⟩
          · cases run
          · rename_i s₁ eval evaluated
            rcases pgSolverEvaluateCandidate_spec evaluated with
              ⟨h, -⟩ | ⟨cv', vs, -, -, ⟨id, h, -⟩ | ⟨eval', -, same, -, -⟩⟩
            · cases h
            · cases h
            · rw [same] at run
              exact ih cv' _ run

theorem pgMakeDecision_error {s s' : PgSolver γ}
    (computes : ∀ pkg, pkg ≠ s.rootPkg → pgSolverComputePositiveRange s.trail pkg ≠ none)
    (run : pgMakeDecision P s = (s', .error)) : PgProviderFails P s := by
  unfold pgMakeDecision at run
  split at run
  · rename_i s₁ best
    exact Or.inl (pgBestCandidate_error computes _ s.cachedVersions none best)
  · cases run
  · cases run
  · rename_i s₁ pkg eval best
    have context : s₁.providerCtx = s.providerCtx := by
      cases pgBestCandidate_outcome _ s.cachedVersions none (PgCacheFilled.refl s) (by simp)
        best
      rfl
    dsimp only at run
    split at run
    · cases run
    · rename_i s₂ registered
      simp only [pgSolverRegisterDependencies] at registered
      split at registered
      · rename_i failed
        rw [push_providerCtx] at failed
        exact Or.inr ⟨pkg, eval.newest, by rw [← context]; exact failed⟩
      · cases registered

/-! ## Every state of a run -/

/-- What holds of the trail and the package states. -/
structure PgTrailConsistent (rootPkg : PgPackageId) (rootVersion : PgVersion)
    (roots : List PgDependency) (s : PgSolver γ) : Prop where
  /-- Decision levels never decrease along the trail. -/
  levels : s.trail.Pairwise fun a b => a.decisionLevel ≤ b.decisionLevel
  /-- A package has at most one decision. -/
  decisions : PgDecidedOnce s.trail
  /-- `pg_solver_compute_positive_range` succeeds, with a range that is not empty
  unless it is the range of the package's only positive assignment. -/
  positives : ∀ pkg, (pkg = rootPkg → PgRootFits rootPkg rootVersion roots) →
    PgPositivesMeet s.trail pkg
  /-- Over inclusive lower bounds such a range has a version. -/
  versions : ∀ pkg range, pgSolverComputePositiveRange s.trail pkg = some (some range) →
    range.Open →
    (∀ a, PgPositiveOn s.trail pkg a →
      a.range.lower.inclusive = true ∧ a.range.lower.unbounded = false) →
    ∃ v, ∀ a, PgPositiveOn s.trail pkg a → pgRangeContains a.range v = true
  /-- The cached state of a package is recomputed by a scan of the trail. -/
  states : ∀ pkg, s.pkgState pkg = pgPkgStateOf s.trail pkg
  used : ∀ pkg, (s.pkgState pkg).used = true ↔ ∃ a ∈ s.trail, a.pkg = pkg
  hasDecision : ∀ pkg, (s.pkgState pkg).hasDecision = true ↔
    ∃ version level, pgDecisionAssignment pkg version level ∈ s.trail
  decisionVersion : ∀ pkg version level, pgDecisionAssignment pkg version level ∈ s.trail →
    (s.pkgState pkg).decisionVersion = version

/-- The part of `PgTrailConsistent` that steps preserve. -/
structure PgTrailTracked (rootPkg : PgPackageId) (rootVersion : PgVersion)
    (roots : List PgDependency) (c : PgConfig γ) : Prop where
  well : PgWellFormed roots c
  states : PgPkgStates c.solver
  root : c.solver.rootPkg = rootPkg
  sorted : c.solver.trail.Pairwise fun a b => a.decisionLevel ≤ b.decisionLevel
  once : PgDecidedOnce c.solver.trail
  meet : ∀ pkg, (pkg = rootPkg → PgRootFits rootPkg rootVersion roots) →
    PgPositivesMeet c.solver.trail pkg

theorem PgTrailTracked.step {c : PgConfig γ}
    (tracked : PgTrailTracked rootPkg rootVersion roots c) :
    PgTrailTracked rootPkg rootVersion roots (pgStep P c) := by
  have step := pgStep_transition P c
  exact
    { well := tracked.well.step
      states := step.pkgStates tracked.states
      root := step.root.1.trans tracked.root
      sorted := step.trail.sorted tracked.well tracked.sorted
      once := step.trail.decidedOnce tracked.well tracked.states tracked.once
      meet := fun pkg fits => step.trail.positives (tracked.meet pkg fits) }

theorem PgTrailTracked.start {ctx : γ} {c : PgConfig γ}
    (start : PgStart P ctx rootPkg rootVersion roots c) :
    PgTrailTracked rootPkg rootVersion roots c := by
  have trail : c.solver.trail = roots.map pgRootAssignment ++
      [pgDecisionAssignment rootPkg rootVersion 1] := by
    rw [← pgRootDecided_trail ctx rootPkg rootVersion roots]
    cases start.started <;> simp
  have root : c.solver.rootPkg = rootPkg := by
    have decided := (pgRootDecided_root ctx rootPkg rootVersion roots).1
    cases start.started <;> simpa using decided
  refine ⟨PgWellFormed.start start.started, PgPkgStates.start start.started, root, ?_, ?_,
    fun pkg fits => start.positives fits⟩
  · rw [trail, List.pairwise_append]
    refine ⟨List.pairwise_map.mpr (List.pairwise_of_forall fun _ _ => Nat.le_refl 0),
      List.pairwise_singleton _ _, fun a member b _ => ?_⟩
    obtain ⟨dep, -, rfl⟩ := List.mem_map.mp member
    exact Nat.zero_le _
  · unfold PgDecidedOnce
    rw [trail, List.pairwise_append]
    have undecided : ∀ a ∈ roots.map pgRootAssignment, a.decided = false := by
      intro a member
      obtain ⟨dep, -, rfl⟩ := List.mem_map.mp member
      rfl
    refine ⟨List.pairwise_map.mpr (List.pairwise_of_forall fun dep _ both => ?_),
      List.pairwise_singleton _ _, fun a member b _ both => ?_⟩
    · cases both.1
    · rw [undecided a member] at both
      cases both.1

theorem PgTrailTracked.consistent {c : PgConfig γ}
    (tracked : PgTrailTracked rootPkg rootVersion roots c) :
    PgTrailConsistent rootPkg rootVersion roots c.solver where
  levels := tracked.sorted
  decisions := tracked.once
  positives := tracked.meet
  versions := by
    intro pkg range run open_ inclusive
    obtain ⟨a, on, lower⟩ := pgSolverComputePositiveRange_lower run
    have odd : range.lower.lowerCut % 2 = 1 := by
      rw [lower]
      simp only [VersionBound.lowerCut, inclusive a on, Bool.false_eq_true, if_false, if_true]
      omega
    obtain ⟨v, inside⟩ := open_.admits odd
    exact ⟨v, ((pgSolverComputePositiveRange_some run).2 v).mp inside⟩
  states := tracked.states.states
  used pkg := by rw [tracked.states.states, pgPkgStateOf_used_iff]
  hasDecision pkg := by
    rw [tracked.states.states]
    constructor
    · intro decision
      obtain ⟨a, member, rfl, decided⟩ := pgPkgStateOf_hasDecision decision
      obtain ⟨version, level, shape⟩ := (tracked.well.entries a member).decision_eq decided
      exact ⟨version, level, by rw [← shape]; exact member⟩
    · rintro ⟨version, level, member⟩
      exact pgPkgStateOf_decision member
  decisionVersion pkg version level member := by
    rw [tracked.states.states]
    exact pgPkgStateOf_version tracked.well.entries tracked.once member

theorem PgReachable.trailTracked {ctx : γ} {c : PgConfig γ}
    (reachable : PgReachable P ctx rootPkg rootVersion roots c) :
    PgTrailTracked rootPkg rootVersion roots c := by
  obtain ⟨start, started, run⟩ := reachable
  exact Reaches.invariant run (PgTrailTracked.start started) fun _ tracked => tracked.step

/-- Every state of every run is consistent, and `pg_make_decision` reports an
internal error there only if the provider fails. -/
theorem pgSolver_trailConsistent {ctx : γ} {rootPkg : PgPackageId} {rootVersion : PgVersion}
    {roots : List PgDependency} {c : PgConfig γ}
    (reachable : PgReachable P ctx rootPkg rootVersion roots c) :
    PgTrailConsistent rootPkg rootVersion roots c.solver ∧
      (∀ pkg, pkg ≠ c.solver.rootPkg → pgSolverComputePositiveRange c.solver.trail pkg ≠ none) ∧
      ∀ s', pgMakeDecision P c.solver = (s', .error) → PgProviderFails P c.solver := by
  have tracked := reachable.trailTracked
  have computes : ∀ pkg, pkg ≠ c.solver.rootPkg →
      pgSolverComputePositiveRange c.solver.trail pkg ≠ none := by
    intro pkg other failed
    obtain ⟨found, succeeds, -⟩ := tracked.meet pkg fun same =>
      absurd (same.trans tracked.root.symm) other
    rw [failed] at succeeds
    cases succeeds
  exact ⟨tracked.consistent, computes, fun s' failed => pgMakeDecision_error computes failed⟩

/-! ## A requirement without versions -/

/-- From version 2 on, below version 1. -/
def pgCrossedRange : PgVersionRange :=
  { lower := { v := ⟨2, 0, 0⟩, inclusive := true, unbounded := false }
    upper := { v := ⟨1, 0, 0⟩, inclusive := false, unbounded := false }
    isEmpty := false }

/-- The root depends on package 1 with crossed bounds. -/
def pgCrossed : PgProblem where
  listing := .ofTables [(1, [⟨1, 0, 0⟩])] [((0, ⟨1, 0, 0⟩), [(1, pgCrossedRange)])]
  rootPkg := 0
  rootVersion := ⟨1, 0, 0⟩
  roots := []

/-- The first configuration of its run. -/
def pgCrossedStart : PgConfig Unit :=
  pgSolverStart pgCrossed.listing.provider
    (pgRootsPushed (pgSolverNew () pgCrossed.rootPkg pgCrossed.rootVersion) pgCrossed.roots)

theorem pgCrossed_reachable (n : Nat) : PgReachable pgCrossed.listing.provider ()
    pgCrossed.rootPkg pgCrossed.rootVersion pgCrossed.roots
    (pgRun pgCrossed.listing.provider n pgCrossedStart) :=
  ⟨pgCrossedStart, ⟨_, rfl, rfl⟩, reaches_iterate n pgCrossedStart⟩

theorem pgSolver_trailConsistent_crossed :
    PgTrailConsistent pgCrossed.rootPkg pgCrossed.rootVersion pgCrossed.roots
      (pgRun pgCrossed.listing.provider 5 pgCrossedStart).solver :=
  (pgSolver_trailConsistent (pgCrossed_reachable 5)).1

/-- A package whose only positive assignment has no version in common with
itself. -/
theorem pgSolver_trailConsistent_fails :
    ¬ ∀ c, PgReachable pgCrossed.listing.provider () pgCrossed.rootPkg pgCrossed.rootVersion
        pgCrossed.roots c →
      ∀ pkg a, PgPositiveOn c.solver.trail pkg a →
        ∃ v, ∀ b, PgPositiveOn c.solver.trail pkg b → pgRangeContains b.range v = true := by
  intro claim
  have derived : pgAssignmentFromTermNegation
      { pkg := 1, range := pgCrossedRange, positive := false } 0 1 ∈
        (pgRun pgCrossed.listing.provider 5 pgCrossedStart).solver.trail := by
    decide
  obtain ⟨v, all⟩ := claim _ (pgCrossed_reachable 5) 1 _ ⟨derived, rfl, rfl⟩
  obtain ⟨-, low, high⟩ := pgRangeContains_iff.mp (all _ ⟨derived, rfl, rfl⟩)
  have crossed : ¬ pgCrossedRange.lower.lowerCut < pgCrossedRange.upper.upperCut := by decide
  exact crossed (Nat.lt_of_le_of_lt low high)

end ElmWrap
