import Mathlib.Data.List.DropRight
import ElmWrap.Version
import ElmWrap.Lib.Table

/-!
# The solver state of `pg_core.c`

The private types of `pgsolver/pg_core.c` and the operations on its state that
every phase of the search uses: reading the trail, pushing an assignment,
tracking and attaching an incompatibility, cutting the trail back.

A pointer to a `PgIncompatibility` is its index in `solver->incompatibilities`;
an array that the source grows by doubling is a `Lib.Table`. Allocation never
fails, so the branches that handle a failed allocation are absent.
-/

namespace ElmWrap

open Lib

/-- `PgPackageId`; the source rejects negative ids wherever it takes one. -/
abbrev PgPackageId := Nat

/-- A pointer to an incompatibility the solver tracks. -/
abbrev PgIncompatId := Nat

/-- A dependency as a provider reports it: `out_pkgs[i]` and `out_ranges[i]`. -/
abbrev PgDependency := PgPackageId × PgVersionRange

/-- `PgDependencyProvider`. A failing callback (`-1`) is `none`; what a callback
writes is bounded by the capacity it is given. `getDependencies` may change the
provider's context, which is how the Elm wiring interns package names. -/
@[ext] structure PgDependencyProvider (γ : Type) where
  getVersions : γ → PgPackageId → Nat → Option (List PgVersion)
  getDependencies : γ → PgPackageId → PgVersion → Nat → γ × Option (List PgDependency)
  getVersions_length : ∀ ctx pkg cap vs,
    getVersions ctx pkg cap = some vs → vs.length ≤ cap
  getDependencies_length : ∀ ctx pkg v cap ds,
    (getDependencies ctx pkg v cap).2 = some ds → ds.length ≤ cap

/-- `PG_DECISION_VERSION_BUFFER`. -/
def pgDecisionVersionBuffer : Nat := 128
/-- `PG_DEPENDENCY_BUFFER`. -/
def pgDependencyBuffer : Nat := 128
/-- `PG_MAX_DECISIONS`. -/
def pgMaxDecisions : Nat := 200000
/-- `PG_MAX_PROPAGATIONS`. -/
def pgMaxPropagations : Nat := 1000000
/-- `PG_MAX_CONFLICTS`. -/
def pgMaxConflicts : Nat := 200000
/-- `PG_MAX_PACKAGES`. -/
def pgMaxPackages : Nat := 10000
/-- `PG_MAX_TRAIL_ASSIGNMENTS`. -/
def pgMaxTrailAssignments : Nat := 200000
/-- `PG_MAX_INCOMPATIBILITIES`. -/
def pgMaxIncompatibilities : Nat := 200000

/-- `PgTerm`. -/
structure PgTerm where
  pkg : PgPackageId
  range : PgVersionRange
  positive : Bool
deriving DecidableEq, Repr

/-- `PgIncompatibilityReason`. -/
inductive PgIncompatibilityReason
  | dependency
  | noVersions
  | root
  | internal
deriving DecidableEq, Repr

/-- `PgIncompatibility`. -/
structure PgIncompatibility where
  terms : List PgTerm
  reason : PgIncompatibilityReason
  causes : List PgIncompatId
  attached : Bool
deriving DecidableEq, Repr

instance : Inhabited PgIncompatibility := ⟨⟨[], .internal, [], false⟩⟩

/-- `PgAssignment`. -/
structure PgAssignment where
  pkg : PgPackageId
  range : PgVersionRange
  positive : Bool
  decided : Bool
  decisionLevel : Nat
  cause : Option PgIncompatId
deriving DecidableEq, Repr

/-- `PgPkgState`; the decision version is meaningful when `hasDecision` is set. -/
structure PgPkgState where
  used : Bool
  hasDecision : Bool
  decisionVersion : PgVersion
deriving DecidableEq, Repr

/-- The state a fresh or reset package slot holds. -/
def PgPkgState.fresh : PgPkgState :=
  { used := false, hasDecision := false, decisionVersion := ⟨0, 0, 0⟩ }

/-- `PgDecisionEval`, when a version was found. -/
structure PgDecisionEval where
  availableCount : Nat
  newest : PgVersion
deriving DecidableEq, Repr

/-- `PgTermState`. -/
inductive PgTermState
  | satisfied
  | contradicted
  | inconclusive
deriving DecidableEq, Repr

/-- `PgSolverStatus`. -/
inductive PgSolverStatus
  | ok
  | noSolution
  | budgetExceeded
  | internalError
deriving DecidableEq, Repr

/-- `struct PgSolver`, less the cache-hit counters that only reports read. The
trail is listed from `items[0]` on; `changedPkgs` has the top of the stack
first. -/
structure PgSolver (γ : Type) where
  providerCtx : γ
  rootPkg : PgPackageId
  rootVersion : PgVersion
  trail : List PgAssignment
  pkgStates : List PgPkgState
  incompatibilities : List PgIncompatibility
  pkgIncompatLists : List (List PgIncompatId)
  currentDecisionLevel : Nat
  changedPkgs : List PgPackageId
  solved : Bool
  rootIncompatibility : Option PgIncompatibility
  cachedVersions : List (Option (List PgVersion))
  statsDecisions : Nat
  statsPropagations : Nat
  statsConflicts : Nat
  budgetExceeded : Bool
  budgetReason : Option String
deriving DecidableEq

variable {γ : Type}

/-- `pg_solver_new`. -/
def pgSolverNew (providerCtx : γ) (rootPkg : PgPackageId) (rootVersion : PgVersion) :
    PgSolver γ :=
  { providerCtx := providerCtx
    rootPkg := rootPkg
    rootVersion := rootVersion
    trail := []
    pkgStates := []
    incompatibilities := []
    pkgIncompatLists := []
    currentDecisionLevel := 0
    changedPkgs := []
    solved := false
    rootIncompatibility := none
    cachedVersions := []
    statsDecisions := 0
    statsPropagations := 0
    statsConflicts := 0
    budgetExceeded := false
    budgetReason := none }

/-- `solver->pkg_state_capacity`. -/
def PgSolver.pkgStateCapacity (s : PgSolver γ) : Nat := s.pkgStates.length

/-- `solver->pkg_states[pkg]`. -/
def PgSolver.pkgState (s : PgSolver γ) (pkg : PgPackageId) : PgPkgState :=
  s.pkgStates.getD pkg PgPkgState.fresh

/-- `solver->pkg_incompat_lists[pkg]`. -/
def PgSolver.pkgIncompatList (s : PgSolver γ) (pkg : PgPackageId) : List PgIncompatId :=
  s.pkgIncompatLists.getD pkg []

/-- The incompatibility a pointer refers to. -/
def PgSolver.incompat (s : PgSolver γ) (id : PgIncompatId) : PgIncompatibility :=
  s.incompatibilities.getD id default

/-- `pg_solver_budget_check`, with the reason it records. -/
def pgSolverBudgetCheck (s : PgSolver γ) : Option String :=
  if s.statsDecisions ≥ pgMaxDecisions then some "too many decisions"
  else if s.statsPropagations ≥ pgMaxPropagations then some "too many propagations"
  else if s.statsConflicts ≥ pgMaxConflicts then some "too many conflicts"
  else if s.pkgStateCapacity > pgMaxPackages then some "too many packages"
  else if s.trail.length > pgMaxTrailAssignments then some "too many assignments"
  else if s.incompatibilities.length > pgMaxIncompatibilities then
    some "too many incompatibilities"
  else none

/-! ## Reading the trail -/

/-- The loop of `pg_solver_compute_positive_range`; `none` is its early
`return false` on an empty combination. -/
def pgComputePositiveRangeFrom (pkg : PgPackageId) :
    Option PgVersionRange → List PgAssignment → Option (Option PgVersionRange)
  | acc, [] => some acc
  | acc, assignment :: rest =>
    if assignment.pkg ≠ pkg || !assignment.positive then
      pgComputePositiveRangeFrom pkg acc rest
    else
      match acc with
      | none => pgComputePositiveRangeFrom pkg (some assignment.range) rest
      | some combined =>
        let combined := pgRangeIntersect combined assignment.range
        if combined.isEmpty then none
        else pgComputePositiveRangeFrom pkg (some combined) rest

/-- `pg_solver_compute_positive_range`: `some none` when the trail holds no
positive assignment for the package. -/
def pgSolverComputePositiveRange (trail : List PgAssignment) (pkg : PgPackageId) :
    Option (Option PgVersionRange) :=
  pgComputePositiveRangeFrom pkg none trail

/-- The local variables of the loop of `pg_term_state`. -/
structure PgTermScan where
  positiveRange : Option PgVersionRange
  hasNegative : Bool
deriving DecidableEq, Repr

/-- The body of the loop of `pg_term_state`; `positiveRange` is `none` while
`has_positive` is unset. -/
def pgTermScanStep (term : PgTerm) (scan : PgTermScan) (assignment : PgAssignment) :
    PgTermScan :=
  if assignment.pkg ≠ term.pkg then scan
  else if assignment.positive then
    match scan.positiveRange with
    | none => { scan with positiveRange := some assignment.range }
    | some range => { scan with positiveRange := some (pgRangeIntersect range assignment.range) }
  else if term.positive then
    if !(pgRangeIntersect term.range assignment.range).isEmpty then
      { scan with hasNegative := true }
    else scan
  else scan

/-- The verdict `pg_term_state` draws from what its loop collected. -/
def pgTermVerdict (term : PgTerm) (scan : PgTermScan) : PgTermState :=
  if term.positive then
    match scan.positiveRange with
    | some range =>
      if pgRangeSubset range term.range then .satisfied
      else if (pgRangeIntersect range term.range).isEmpty || scan.hasNegative then
        .contradicted
      else .inconclusive
    | none => if scan.hasNegative then .contradicted else .inconclusive
  else
    match scan.positiveRange with
    | some range =>
      if (pgRangeIntersect range term.range).isEmpty then .satisfied
      else if pgRangeSubset range term.range then .contradicted
      else .inconclusive
    | none => .inconclusive

/-- The loop of `pg_term_state`. -/
def pgTermScan (trail : List PgAssignment) (term : PgTerm) : PgTermScan :=
  trail.foldl (pgTermScanStep term) ⟨none, false⟩

/-- `pg_term_state`. -/
def pgTermState (trail : List PgAssignment) (term : PgTerm) : PgTermState :=
  pgTermVerdict term (pgTermScan trail term)

/-- `pg_assignment_satisfies_term`. -/
def pgAssignmentSatisfiesTerm (assignment : PgAssignment) (term : PgTerm) : Bool :=
  if assignment.pkg ≠ term.pkg then false
  else if term.positive then
    if !assignment.positive then false
    else pgRangeSubset assignment.range term.range
  else if assignment.positive then
    (pgRangeIntersect assignment.range term.range).isEmpty
  else pgRangeSubset term.range assignment.range

/-- `pg_solver_version_is_forbidden`. -/
def pgSolverVersionIsForbidden (trail : List PgAssignment) (pkg : PgPackageId)
    (version : PgVersion) : Bool :=
  trail.any fun assignment =>
    assignment.pkg = pkg && !assignment.positive && pgRangeContains assignment.range version

/-! ## Writing the state -/

/-- `pg_solver_enqueue_changed`. -/
def pgSolverEnqueueChanged (s : PgSolver γ) (pkg : PgPackageId) : PgSolver γ :=
  { s with changedPkgs := pkg :: s.changedPkgs }

/-- `pg_solver_ensure_pkg_state`. -/
def pgSolverEnsurePkgState (s : PgSolver γ) (pkg : PgPackageId) : PgSolver γ :=
  { s with pkgStates := Table.grow PgPkgState.fresh s.pkgStates pkg }

/-- The update both `pg_solver_push_assignment` and the rebuild in
`pg_solver_backtrack_to_level` make to the state of an assignment's package. -/
def pgPkgStateRecord (assignment : PgAssignment) (state : PgPkgState) : PgPkgState :=
  let state := { state with used := true }
  if assignment.decided && assignment.positive then
    match pgRangeIsExact assignment.range with
    | some version => { state with hasDecision := true, decisionVersion := version }
    | none => state
  else state

/-- `pg_solver_push_assignment`. -/
def pgSolverPushAssignment (s : PgSolver γ) (assignment : PgAssignment) : PgSolver γ :=
  let s := pgSolverEnsurePkgState s assignment.pkg
  let s := { s with
    trail := s.trail ++ [assignment]
    pkgStates := s.pkgStates.set assignment.pkg
      (pgPkgStateRecord assignment (s.pkgState assignment.pkg)) }
  pgSolverEnqueueChanged s assignment.pkg

/-- `pg_incompatibility_new` followed by `pg_solver_track_incompatibility`. -/
def pgSolverTrackIncompatibility (s : PgSolver γ) (terms : List PgTerm)
    (reason : PgIncompatibilityReason) (causes : List PgIncompatId) :
    PgSolver γ × PgIncompatId :=
  ({ s with incompatibilities := s.incompatibilities ++
      [{ terms := terms, reason := reason, causes := causes, attached := false }] },
    s.incompatibilities.length)

/-- The body of the loop of `pg_solver_attach_incompatibility`. -/
def pgSolverAttachTerm (id : PgIncompatId) (s : PgSolver γ) (term : PgTerm) : PgSolver γ :=
  let s := pgSolverEnsurePkgState s term.pkg
  let s := { s with
    pkgIncompatLists :=
      Table.put [] s.pkgIncompatLists term.pkg (s.pkgIncompatList term.pkg ++ [id]) }
  pgSolverEnqueueChanged s term.pkg

/-- `pg_solver_attach_incompatibility`. -/
def pgSolverAttachIncompatibility (s : PgSolver γ) (id : PgIncompatId) : PgSolver γ :=
  if (s.incompat id).attached then s
  else
    let s := (s.incompat id).terms.foldl (pgSolverAttachTerm id) s
    { s with incompatibilities :=
        s.incompatibilities.modify id fun inc => { inc with attached := true } }

/-- `pg_solver_add_incompatibility`, for a nonempty list of terms. -/
def pgSolverAddIncompatibility (s : PgSolver γ) (terms : List PgTerm)
    (reason : PgIncompatibilityReason) : PgSolver γ × PgIncompatId :=
  let (s, id) := pgSolverTrackIncompatibility s terms reason []
  (pgSolverAttachIncompatibility s id, id)

/-- The trail once `pg_solver_backtrack_to_level` has popped it. -/
def pgTrailCut (level : Nat) (trail : List PgAssignment) : List PgAssignment :=
  trail.rdropWhile fun assignment => level < assignment.decisionLevel

/-- The rebuild of one package slot in `pg_solver_backtrack_to_level`. -/
def pgPkgStatesRebuild (states : List PgPkgState) (assignment : PgAssignment) :
    List PgPkgState :=
  if assignment.pkg ≥ states.length then states
  else states.set assignment.pkg
    (pgPkgStateRecord assignment (states.getD assignment.pkg PgPkgState.fresh))

/-- `pg_solver_backtrack_to_level`; a negative level is clamped to zero. -/
def pgSolverBacktrackToLevel (s : PgSolver γ) (level : Nat) : PgSolver γ :=
  let trail := pgTrailCut level s.trail
  { s with
    trail := trail
    pkgStates := trail.foldl pgPkgStatesRebuild (s.pkgStates.map fun _ => PgPkgState.fresh)
    currentDecisionLevel := level
    changedPkgs := (trail.map PgAssignment.pkg).reverse }

end ElmWrap
