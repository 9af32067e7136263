import ElmWrap.PgSolver.State
import Mathlib.Logic.Function.Iterate

/-!
# The search of `pg_core.c`

Unit propagation, decisions, conflict resolution and the main loop of
`pg_solver_solve`. The three nested loops that have no static bound (the
`while` of `pg_unit_propagate`, the `while (true)` of `pg_resolve_conflict` and
the one of `pg_solver_solve`) are the phases of one machine, so that every state
the solver passes through is a configuration of it: `pgStep` runs the body of
the loop its phase names once.
-/

namespace ElmWrap

open Lib

variable {γ : Type}

/-! ## Decisions -/

/-- Whether every term of an incompatibility would be satisfied by choosing
`version`: the inner loop of `pg_solver_version_would_conflict`, with its
`found_pkg_term`. -/
def pgTermsWouldSatisfy (trail : List PgAssignment) (pkg : PgPackageId)
    (version : PgVersion) : Bool → List PgTerm → Bool
  | foundPkgTerm, [] => foundPkgTerm
  | foundPkgTerm, term :: rest =>
    if term.pkg = pkg then
      if term.positive then
        if !pgRangeContains term.range version then false
        else pgTermsWouldSatisfy trail pkg version true rest
      else
        if pgRangeContains term.range version then false
        else pgTermsWouldSatisfy trail pkg version true rest
    else if pgTermState trail term ≠ .satisfied then false
    else pgTermsWouldSatisfy trail pkg version foundPkgTerm rest

/-- `pg_solver_version_would_conflict`. -/
def pgSolverVersionWouldConflict (s : PgSolver γ) (pkg : PgPackageId)
    (version : PgVersion) : Bool :=
  (s.pkgIncompatList pkg).any fun id =>
    pgTermsWouldSatisfy s.trail pkg version false (s.incompat id).terms

/-- The tests a listed version must pass in the loop of
`pg_solver_evaluate_candidate`. -/
def pgVersionAvailable (s : PgSolver γ) (pkg : PgPackageId) (required : PgVersionRange)
    (version : PgVersion) : Bool :=
  pgRangeContains required version &&
    !pgSolverVersionIsForbidden s.trail pkg version &&
    !pgSolverVersionWouldConflict s pkg version

/-- The cache lookup that opens `pg_solver_evaluate_candidate`; `none` when the
provider fails. -/
def pgSolverVersions (P : PgDependencyProvider γ) (s : PgSolver γ) (pkg : PgPackageId) :
    Option (PgSolver γ × List PgVersion) :=
  match s.cachedVersions.getD pkg none with
  | some versions => some (s, versions)
  | none =>
    match P.getVersions s.providerCtx pkg pgDecisionVersionBuffer with
    | none => none
    | some versions =>
      some ({ s with cachedVersions := Table.put none s.cachedVersions pkg (some versions) },
        versions)

/-- What `pg_solver_evaluate_candidate` reports: a failing provider, the
`NO_VERSIONS` conflict, or the choice it found. -/
inductive PgCandidate
  | error
  | conflict (id : PgIncompatId)
  | found (eval : PgDecisionEval)
deriving DecidableEq, Repr

/-- `pg_solver_evaluate_candidate`. -/
def pgSolverEvaluateCandidate (P : PgDependencyProvider γ) (s : PgSolver γ)
    (pkg : PgPackageId) (required : PgVersionRange) : PgSolver γ × PgCandidate :=
  match pgSolverVersions P s pkg with
  | none => (s, .error)
  | some (s, versions) =>
    match versions.filter (pgVersionAvailable s pkg required) with
    | [] =>
      let (s, id) := pgSolverAddIncompatibility s
        [{ pkg := pkg, range := required, positive := true }] .noVersions
      (s, .conflict id)
    | chosen :: others =>
      (s, .found { availableCount := (chosen :: others).length, newest := chosen })

/-- The incompatibility `pg_solver_register_dependencies` adds for one
dependency. -/
def pgDependencyTerms (pkg : PgPackageId) (decisionRange : PgVersionRange)
    (dep : PgDependency) : List PgTerm :=
  [{ pkg := pkg, range := decisionRange, positive := true },
    { pkg := dep.1, range := dep.2, positive := false }]

/-- `pg_solver_register_dependencies`, with whether it succeeded. -/
def pgSolverRegisterDependencies (P : PgDependencyProvider γ) (s : PgSolver γ)
    (pkg : PgPackageId) (decisionRange : PgVersionRange) (version : PgVersion) :
    PgSolver γ × Bool :=
  let answer := P.getDependencies s.providerCtx pkg version pgDependencyBuffer
  let s := { s with providerCtx := answer.1 }
  match answer.2 with
  | none => (s, false)
  | some deps =>
    (deps.foldl (fun s dep =>
      (pgSolverAddIncompatibility s (pgDependencyTerms pkg decisionRange dep) .dependency).1) s,
      true)

/-- How `pg_make_decision` ends. -/
inductive PgDecision
  | error
  | conflict (id : PgIncompatId)
  | nothing
  | made
deriving DecidableEq, Repr

/-- How the package loop of `pg_make_decision` ends: early, or with the best
candidate seen (`best_pkg` is `-1` when there is none). -/
inductive PgBest
  | error
  | conflict (id : PgIncompatId)
  | best (candidate : Option (PgPackageId × PgDecisionEval))
deriving DecidableEq, Repr

/-- The test by which a new candidate replaces the best one. -/
def pgBetterCandidate (pkg : PgPackageId) (eval : PgDecisionEval) :
    Option (PgPackageId × PgDecisionEval) → Bool
  | none => true
  | some (bestPkg, bestEval) =>
    eval.availableCount < bestEval.availableCount ||
      (eval.availableCount = bestEval.availableCount && pkg < bestPkg)

/-- The package loop of `pg_make_decision` over the ids still to visit. -/
def pgBestCandidate (P : PgDependencyProvider γ) :
    List PgPackageId → PgSolver γ → Option (PgPackageId × PgDecisionEval) →
      PgSolver γ × PgBest
  | [], s, best => (s, .best best)
  | pkg :: rest, s, best =>
    if pkg = s.rootPkg then pgBestCandidate P rest s best
    else if !(s.pkgState pkg).used || (s.pkgState pkg).hasDecision then
      pgBestCandidate P rest s best
    else
      match pgSolverComputePositiveRange s.trail pkg with
      | none => (s, .error)
      | some none => pgBestCandidate P rest s best
      | some (some required) =>
        match pgSolverEvaluateCandidate P s pkg required with
        | (s, .error) => (s, .error)
        | (s, .conflict id) => (s, .conflict id)
        | (s, .found eval) =>
          pgBestCandidate P rest s
            (if pgBetterCandidate pkg eval best then some (pkg, eval) else best)

/-- The decision assignment for a package and version. -/
def pgDecisionAssignment (pkg : PgPackageId) (version : PgVersion) (level : Nat) :
    PgAssignment :=
  { pkg := pkg, range := pgRangeExact version, positive := true, decided := true
    decisionLevel := level, cause := none }

/-- `pg_make_decision`. -/
def pgMakeDecision (P : PgDependencyProvider γ) (s : PgSolver γ) : PgSolver γ × PgDecision :=
  match pgBestCandidate P (List.range s.pkgStateCapacity) s none with
  | (s, .error) => (s, .error)
  | (s, .conflict id) => (s, .conflict id)
  | (s, .best none) => (s, .nothing)
  | (s, .best (some (pkg, eval))) =>
    let prevLevel := s.currentDecisionLevel
    let s := { s with currentDecisionLevel := prevLevel + 1 }
    let s := pgSolverPushAssignment s (pgDecisionAssignment pkg eval.newest (prevLevel + 1))
    match pgSolverRegisterDependencies P s pkg (pgRangeExact eval.newest) eval.newest with
    | (s, true) => (s, .made)
    | (s, false) => ({ s with currentDecisionLevel := prevLevel }, .error)

/-! ## Unit propagation -/

/-- What the term loop of `pg_unit_propagate` finds out about an
incompatibility. -/
inductive PgExamined
  | conflict
  | derive (index : Nat)
  | skip
deriving DecidableEq, Repr

/-- The term loop of `pg_unit_propagate`: `index` is `t`, `inconclusive` is
`inconclusive_index`. It stops at a contradiction and at a second inconclusive
term; when it reaches the end, every other term was satisfied. -/
def pgExamineTerms (trail : List PgAssignment) :
    Nat → Option Nat → List PgTerm → PgExamined
  | _, none, [] => .conflict
  | _, some t, [] => .derive t
  | index, inconclusive, term :: rest =>
    match pgTermState trail term with
    | .satisfied => pgExamineTerms trail (index + 1) inconclusive rest
    | .contradicted => .skip
    | .inconclusive =>
      match inconclusive with
      | none => pgExamineTerms trail (index + 1) (some index) rest
      | some _ => .skip

/-- `pg_assignment_from_term_negation`. -/
def pgAssignmentFromTermNegation (term : PgTerm) (cause : PgIncompatId) (level : Nat) :
    PgAssignment :=
  { pkg := term.pkg, range := term.range, positive := !term.positive, decided := false
    decisionLevel := level, cause := some cause }

/-! ## Conflict resolution -/

/-- The body of the inner loop of `pg_incompatibility_find_satisfier`, for the
assignment at `index` and the term whose `satisfier_index` is given. -/
def pgMarkSatisfied (assignment : PgAssignment) (index : Nat) (term : PgTerm) :
    Option Nat → Option Nat
  | some i => some i
  | none => if pgAssignmentSatisfiesTerm assignment term then some index else none

/-- The loop of `pg_incompatibility_find_satisfier` over the rest of the trail.
`index` is `i`; `found[t]` is `satisfier_index[t]`, `none` while `satisfied[t]`
is unset. -/
def pgFindSatisfierFrom (terms : List PgTerm) :
    List PgAssignment → Nat → List (Option Nat) → Option (Nat × Nat)
  | [], _, _ => none
  | assignment :: rest, index, found =>
    let found := List.zipWith (pgMarkSatisfied assignment index) terms found
    if found.all Option.isSome then
      some (index, (found.findIdx? (· == some index)).getD 0)
    else pgFindSatisfierFrom terms rest (index + 1) found

/-- `pg_incompatibility_find_satisfier`: the assignment index and the term
index. -/
def pgIncompatibilityFindSatisfier (trail : List PgAssignment) (terms : List PgTerm) :
    Option (Nat × Nat) :=
  if terms.isEmpty then none
  else pgFindSatisfierFrom terms trail 0 (terms.map fun _ => none)

/-- `pg_find_assignment_for_term`: the last assignment that satisfies the term
by itself. -/
def pgFindAssignmentForTerm (trail : List PgAssignment) (term : PgTerm) :
    Option PgAssignment :=
  trail.reverse.find? fun assignment => pgAssignmentSatisfiesTerm assignment term

/-- The body of the loop of `pg_incompatibility_previous_level`. -/
def pgPreviousLevelStep (trail : List PgAssignment) (skipPkg : PgPackageId)
    (level : Nat) (term : PgTerm) : Nat :=
  if term.pkg = skipPkg then level
  else
    match pgFindAssignmentForTerm trail term with
    | some assignment =>
      if assignment.decisionLevel > level then assignment.decisionLevel else level
    | none => level

/-- `pg_incompatibility_previous_level`. -/
def pgIncompatibilityPreviousLevel (trail : List PgAssignment) (terms : List PgTerm)
    (skipPkg : PgPackageId) : Nat :=
  terms.foldl (pgPreviousLevelStep trail skipPkg) 0

/-- `pg_incompatibility_is_root_failure`. -/
def pgIncompatibilityIsRootFailure (rootPkg : PgPackageId) (inc : PgIncompatibility) : Bool :=
  match inc.terms with
  | [] => true
  | [term] => term.positive && term.pkg = rootPkg
  | _ => false

/-- The terms `pg_incompatibility_resolve_with` keeps of both sides. -/
def pgResolveTerms (left right : List PgTerm) (elimPkg : PgPackageId) : List PgTerm :=
  (left.filter fun term => term.pkg ≠ elimPkg) ++
    right.filter fun term => term.pkg ≠ elimPkg

/-- `pg_incompatibility_resolve_with`; the result is tracked but not attached. -/
def pgIncompatibilityResolveWith (s : PgSolver γ) (left right : PgIncompatId)
    (elimPkg : PgPackageId) : PgSolver γ × PgIncompatId :=
  pgSolverTrackIncompatibility s
    (pgResolveTerms (s.incompat left).terms (s.incompat right).terms elimPkg)
    .internal [left, right]

/-- The branches on which `pg_resolve_conflict` returns `NULL`. -/
inductive PgGiveUp
  | rootFailure
  | noSatisfier
  | rootLevel
  | noCause
deriving DecidableEq, Repr

/-- How one iteration of `pg_resolve_conflict` ends. -/
inductive PgResolved
  | giveUp (branch : PgGiveUp)
  | learned (backjumpLevel : Nat)
  | resolved (id : PgIncompatId)
deriving DecidableEq, Repr

/-- The default an out-of-range trail index would read. -/
def pgNoAssignment : PgAssignment :=
  { pkg := 0, range := pgRangeAny, positive := false, decided := false
    decisionLevel := 0, cause := none }

/-- The default an out-of-range term index would read. -/
def pgNoTerm : PgTerm := { pkg := 0, range := pgRangeAny, positive := false }

/-- The body of the loop of `pg_resolve_conflict`, for the incompatibility
`current`. -/
def pgResolveConflictIteration (s : PgSolver γ) (current : PgIncompatId) :
    PgSolver γ × PgResolved :=
  let inc := s.incompat current
  if pgIncompatibilityIsRootFailure s.rootPkg inc then
    ({ s with rootIncompatibility := some inc }, .giveUp .rootFailure)
  else
    match pgIncompatibilityFindSatisfier s.trail inc.terms with
    | none => (s, .giveUp .noSatisfier)
    | some (satisfierIndex, termIndex) =>
      let satisfier := s.trail.getD satisfierIndex pgNoAssignment
      let term := inc.terms.getD termIndex pgNoTerm
      let previousLevel := pgIncompatibilityPreviousLevel s.trail inc.terms satisfier.pkg
      if satisfier.decided || previousLevel = satisfier.decisionLevel then
        if previousLevel < 1 then
          ({ s with rootIncompatibility := some inc }, .giveUp .rootLevel)
        else (s, .learned previousLevel)
      else
        match satisfier.cause with
        | none =>
          if (satisfier.pkg = s.rootPkg && satisfier.decisionLevel = 1) ||
              satisfier.decisionLevel = 0 then
            -- the derived incompatibility is neither tracked nor attached
            let derived : PgIncompatibility :=
              { terms := inc.terms.eraseIdx termIndex, reason := .internal
                causes := [current], attached := false }
            ({ s with rootIncompatibility := some derived }, .giveUp .noCause)
          else ({ s with rootIncompatibility := some inc }, .giveUp .noCause)
        | some cause =>
          let (s, id) := pgIncompatibilityResolveWith s current cause term.pkg
          (s, .resolved id)

/-! ## The main loop -/

/-- Where the run of `pg_solver_solve` is. -/
inductive PgPhase
  /-- The top of the `while (true)` of `pg_solver_solve`. -/
  | loop
  /-- The top of the `while` of `pg_unit_propagate`. -/
  | propagate
  /-- The `for` of `pg_unit_propagate`, with the incompatibilities still to be
  examined for the popped package. -/
  | examine (rest : List PgIncompatId)
  /-- Before the call of `pg_make_decision`. -/
  | decide
  /-- The top of the `while (true)` of `pg_resolve_conflict`. -/
  | resolve (current : PgIncompatId)
  /-- `pg_solver_solve` has returned. -/
  | done (status : PgSolverStatus)
deriving DecidableEq, Repr

/-- A configuration of the run. -/
structure PgConfig (γ : Type) where
  phase : PgPhase
  solver : PgSolver γ
deriving DecidableEq

/-- The step of `pg_solver_solve` after unit propagation: it counts the
propagation and, on a conflict, the conflict. -/
def pgPropagated (s : PgSolver γ) : Option PgIncompatId → PgConfig γ
  | none => ⟨.decide, { s with statsPropagations := s.statsPropagations + 1 }⟩
  | some id => ⟨.resolve id, { s with
      statsPropagations := s.statsPropagations + 1
      statsConflicts := s.statsConflicts + 1 }⟩

/-- One iteration of the loop that the phase names. -/
def pgStep (P : PgDependencyProvider γ) (c : PgConfig γ) : PgConfig γ :=
  let s := c.solver
  match c.phase with
  | .loop =>
    match pgSolverBudgetCheck s with
    | none => ⟨.propagate, s⟩
    | some reason =>
      ⟨.done .budgetExceeded, { s with budgetExceeded := true, budgetReason := some reason }⟩
  | .propagate =>
    match s.changedPkgs with
    | [] => pgPropagated s none
    | pkg :: changed =>
      ⟨.examine (s.pkgIncompatList pkg).reverse, { s with changedPkgs := changed }⟩
  | .examine [] => ⟨.propagate, s⟩
  | .examine (id :: rest) =>
    match pgExamineTerms s.trail 0 none (s.incompat id).terms with
    | .conflict => pgPropagated s (some id)
    | .skip => ⟨.examine rest, s⟩
    | .derive t =>
      ⟨.examine rest, pgSolverPushAssignment s
        (pgAssignmentFromTermNegation ((s.incompat id).terms.getD t pgNoTerm) id
          s.currentDecisionLevel)⟩
  | .decide =>
    match pgMakeDecision P s with
    | (s, .error) => ⟨.done .internalError, s⟩
    | (s, .conflict id) => ⟨.resolve id, { s with statsConflicts := s.statsConflicts + 1 }⟩
    | (s, .nothing) => ⟨.done .ok, { s with solved := true }⟩
    | (s, .made) => ⟨.loop, { s with statsDecisions := s.statsDecisions + 1 }⟩
  | .resolve current =>
    match pgResolveConflictIteration s current with
    | (s, .giveUp _) => ⟨.done .noSolution, s⟩
    | (s, .resolved id) => ⟨.resolve id, s⟩
    | (s, .learned level) =>
      ⟨.loop, pgSolverBacktrackToLevel (pgSolverAttachIncompatibility s current) level⟩
  | .done status => ⟨.done status, s⟩

/-- `pg_solver_add_root_dependency`; `none` when the source returns `false`. -/
def pgSolverAddRootDependency (s : PgSolver γ) (pkg : PgPackageId) (range : PgVersionRange) :
    Option (PgSolver γ) :=
  let assignment : PgAssignment :=
    { pkg := pkg, range := range, positive := true, decided := false
      decisionLevel := 0, cause := none }
  match pgSolverComputePositiveRange s.trail pkg with
  | none => none
  | some (some existing) =>
    if (pgRangeIntersect existing range).isEmpty then none
    else some (pgSolverPushAssignment s assignment)
  | some none => some (pgSolverPushAssignment s assignment)

/-- A solver with a list of root dependencies added in order; `none` when one of
the calls fails. -/
def pgSolverAddRootDependencies (s : PgSolver γ) :
    List PgDependency → Option (PgSolver γ)
  | [] => some s
  | dep :: rest =>
    match pgSolverAddRootDependency s dep.1 dep.2 with
    | none => none
    | some s => pgSolverAddRootDependencies s rest

/-- The part of `pg_solver_solve` before its loop: the root decision and the
root's own dependencies. -/
def pgSolverStart (P : PgDependencyProvider γ) (s : PgSolver γ) : PgConfig γ :=
  if s.solved then ⟨.done .ok, s⟩
  else
    let s := pgSolverPushAssignment s (pgDecisionAssignment s.rootPkg s.rootVersion 1)
    match pgSolverRegisterDependencies P s s.rootPkg (pgRangeExact s.rootVersion)
        s.rootVersion with
    | (s, false) => ⟨.done .internalError, s⟩
    | (s, true) => ⟨.loop, { s with currentDecisionLevel := 1 }⟩

/-- `n` iterations. -/
def pgRun (P : PgDependencyProvider γ) (n : Nat) (c : PgConfig γ) : PgConfig γ :=
  (pgStep P)^[n] c

/-- `pg_solver_solve`, given `fuel` loop iterations; `none` when it is still
running then. -/
def pgSolverSolve (P : PgDependencyProvider γ) (fuel : Nat) (s : PgSolver γ) :
    Option (PgSolverStatus × PgSolver γ) :=
  match pgRun P fuel (pgSolverStart P s) with
  | ⟨.done status, s⟩ => some (status, s)
  | _ => none

/-- `pg_solver_get_selected_version`. -/
def pgSolverGetSelectedVersion (s : PgSolver γ) (pkg : PgPackageId) : Option PgVersion :=
  s.trail.findSome? fun a =>
    if a.pkg ≠ pkg || !a.positive then none
    else if a.range.lower.unbounded || a.range.upper.unbounded then none
    else if pgVersionCmpInternal a.range.lower.v a.range.upper.v = 0 &&
        a.range.lower.inclusive && a.range.upper.inclusive then some a.range.lower.v
    else none

end ElmWrap
