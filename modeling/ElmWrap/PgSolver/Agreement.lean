import ElmWrap.PgSolver.Selection

/-!
# Providers that answer alike

A run asks for the dependencies of a version only when the provider has listed
the version before. Two providers that list the same versions and report the
same dependencies for what they list lead to the same run.
-/

namespace ElmWrap

variable {γ : Type} {P P' : PgDependencyProvider γ}

/-- The providers list the same versions, and report the same dependencies for
the root and for what has been listed. -/
structure PgAgrees (P P' : PgDependencyProvider γ) (rootPkg : PgPackageId) (first : γ) : Prop where
  versions : ∀ ctx pkg, P.getVersions ctx pkg pgDecisionVersionBuffer =
    P'.getVersions ctx pkg pgDecisionVersionBuffer
  dependencies : ∀ ctx pkg v, PgCtxReach P first ctx →
    (pkg ≠ rootPkg → ∃ vs, PgListed P first ctx pkg vs ∧ v ∈ vs) →
    P.getDependencies ctx pkg v pgDependencyBuffer =
      P'.getDependencies ctx pkg v pgDependencyBuffer

section Congruence

variable {rootPkg : PgPackageId} {first : γ}

theorem PgAgrees.evaluate (agrees : PgAgrees P P' rootPkg first) (s : PgSolver γ)
    (pkg : PgPackageId) (required : PgVersionRange) :
    pgSolverEvaluateCandidate P s pkg required = pgSolverEvaluateCandidate P' s pkg required := by
  have versions : pgSolverVersions P s pkg = pgSolverVersions P' s pkg := by
    unfold pgSolverVersions
    rw [agrees.versions]
  unfold pgSolverEvaluateCandidate
  rw [versions]

theorem PgAgrees.best (agrees : PgAgrees P P' rootPkg first) :
    ∀ (pkgs : List PgPackageId) (s : PgSolver γ) (best : Option (PgPackageId × PgDecisionEval)),
      pgBestCandidate P pkgs s best = pgBestCandidate P' pkgs s best := by
  intro pkgs
  induction pkgs with
  | nil => intro s best; rfl
  | cons pkg rest ih =>
    intro s best
    simp only [pgBestCandidate, agrees.evaluate, ih]

theorem pgSolverRegisterDependencies_congr (P P' : PgDependencyProvider γ) {s : PgSolver γ}
    {pkg : PgPackageId} {version : PgVersion} (decisionRange : PgVersionRange)
    (same : P.getDependencies s.providerCtx pkg version pgDependencyBuffer =
      P'.getDependencies s.providerCtx pkg version pgDependencyBuffer) :
    pgSolverRegisterDependencies P s pkg decisionRange version =
      pgSolverRegisterDependencies P' s pkg decisionRange version := by
  unfold pgSolverRegisterDependencies
  rw [same]

/-- Decisions are made of listed versions, so that one is the same decision for
both. -/
theorem PgAgrees.decision (agrees : PgAgrees P P' rootPkg first) {s : PgSolver γ}
    (recorded : PgRecorded P first ⟨.decide, s⟩) :
    pgMakeDecision P s = pgMakeDecision P' s := by
  unfold pgMakeDecision
  rw [← agrees.best]
  cases run : pgBestCandidate P (List.range s.pkgStateCapacity) s none with
  | mk s' result =>
    have outcome := pgBestCandidate_outcome _ s.cachedVersions none (PgCacheFilled.refl s)
      (by simp) run
    cases result with
    | error => rfl
    | conflict id => rfl
    | best candidate =>
      cases candidate with
      | none => rfl
      | some chosen =>
        obtain ⟨pkg, eval⟩ := chosen
        cases outcome with
        | found filled choice =>
          obtain ⟨vs, cell, member⟩ := choice.listed
          have listed := recorded.filled filled cell
          have same := agrees.dependencies s.providerCtx pkg eval.newest recorded.reach
            fun _ => ⟨vs, listed, member⟩
          dsimp only
          rw [pgSolverRegisterDependencies_congr P P']
          exact same

variable {rootVersion : PgVersion} {roots : List PgDependency}

theorem PgAgrees.step (agrees : PgAgrees P P' rootPkg first) {c : PgConfig γ}
    (search : PgSearch P first rootPkg rootVersion roots c) : pgStep P c = pgStep P' c := by
  obtain ⟨phase, s⟩ := c
  cases phase with
  | decide =>
    simp only [pgStep]
    rw [agrees.decision search.recorded]
  | examine rest => cases rest <;> rfl
  | _ => rfl

theorem PgAgrees.run (agrees : PgAgrees P P' rootPkg first) {c : PgConfig γ}
    (search : PgSearch P first rootPkg rootVersion roots c) (n : Nat) :
    pgRun P n c = pgRun P' n c ∧ PgSearch P first rootPkg rootVersion roots (pgRun P n c) := by
  unfold pgRun
  induction n with
  | zero => exact ⟨rfl, search⟩
  | succ n ih =>
    rw [Function.iterate_succ_apply', Function.iterate_succ_apply', ← ih.1]
    exact ⟨agrees.step ih.2, ih.2.step⟩

/-- `pg_solver_solve` returns the same for both providers. -/
theorem PgAgrees.solve (agrees : PgAgrees P P' rootPkg first) {s : PgSolver γ}
    (prepared : pgSolverAddRootDependencies (pgSolverNew first rootPkg rootVersion) roots = some s)
    (self : ∀ dep ∈ roots, dep.1 = rootPkg → pgRangeContains dep.2 rootVersion = true)
    (fuel : Nat) : pgSolverSolve P fuel s = pgSolverSolve P' fuel s := by
  have started : PgStart P first rootPkg rootVersion roots (pgSolverStart P s) :=
    ⟨s, prepared, rfl⟩
  have search := PgSearch.start started.started self
  have frame := pgRootsPushed_frame (pgSolverNew first rootPkg rootVersion) roots
  rw [← pgSolverAddRootDependencies_eq prepared] at frame
  obtain ⟨-, -, -, ctx, pkg, version, -⟩ := frame
  have start : pgSolverStart P s = pgSolverStart P' s := by
    unfold pgSolverStart
    dsimp only
    rw [pgSolverRegisterDependencies_congr P P']
    simp only [push_providerCtx, push_rootPkg, ctx, pkg, version]
    exact agrees.dependencies first rootPkg s.rootVersion Relation.ReflTransGen.refl
      fun other => absurd rfl other
  unfold pgSolverSolve
  rw [← start, (agrees.run search fuel).1]

end Congruence

end ElmWrap
