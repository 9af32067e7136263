import ElmWrap.ElmJson.Listing
import ElmWrap.Solver.AddPackages

/-!
# `solver_upgrade_all`, and where the changes of a plan come from

An upgrade of all packages runs the solver once, and plans the packages that are
listed at another version. The changes of every plan of the solver write the
text of a version, and have the text that `elm.json` lists as the old one.
-/

namespace ElmWrap

/-- The root requirements of `solver_upgrade_all_v1` and `solver_upgrade_all_v2`. -/
def upgradeAllRoots (elmJson : ElmJson) (majorUpgrade : Bool) : Option PgElmContext :=
  match elmJson.type with
  | .application =>
    if majorUpgrade then some pgElmContextNew
    else buildRootsStrategyUpgradableApp elmJson true true false pgElmContextNew
  | .package =>
    (solverAddConstraintMapDependencies (elmJson.maps .packageDependencies) pgElmContextNew).bind
      (solverAddConstraintMapDependencies (elmJson.maps .packageTestDependencies))

/-- The body of the loop that collects the changes: a package that is not listed is left out. -/
def upgradePlanStep (currentPackages : PackageMap) (plan : InstallPlan)
    (p : PackageName × Version) : Option InstallPlan :=
  let versionStr := versionFormat p.2.major p.2.minor p.2.patch
  match packageMapFind currentPackages p.1 with
  | none => some plan
  | some existing =>
    if existing.version ≠ versionStr then
      installPlanAddChange plan p.1 (some existing.version) (some versionStr)
    else some plan

/-- The run of the solver, for the provider of the protocol. `none` when it is still running
after `fuel` steps. -/
def upgradeAllWith (P : PgDependencyProvider PgElmContext) (fuel : Nat) (elmJson : ElmJson)
    (majorUpgrade : Bool) : Option SolverOutcome :=
  match upgradeAllRoots elmJson majorUpgrade with
  | none => some (.failed .noSolution)
  | some ctx =>
    match pgSolverSolve P fuel (pgSolverNew ctx pgElmRootPackageId pgElmRootVersion) with
    | none => none
    | some (status, s) =>
      if status ≠ .ok then some (.failed .noSolution)
      else
        let selected := pgElmSelected s.providerCtx (pgSolverGetSelectedVersion s)
        match selected.foldlM (upgradePlanStep (collectCurrentPackages elmJson)) [] with
        | none => some (.failed .invalidPackage)
        | some plan => some ⟨.ok, selected, plan⟩

/-- `solver_upgrade_all_v1`. -/
def solverUpgradeAllV1 (fuel : Nat) (state : SolverState) (elmJson : ElmJson)
    (majorUpgrade : Bool) : Option SolverOutcome :=
  if !state.online && !state.cacheRegistryExists then some (.failed .noOfflineSolution)
  else if !state.cacheRegistryExists then some (.failed .networkError)
  else upgradeAllWith (pgElmMakeProvider state.pgElmEnv) fuel elmJson majorUpgrade

/-- `solver_upgrade_all_v2`. -/
def solverUpgradeAllV2 (fuel : Nat) (state : SolverState) (elmJson : ElmJson)
    (majorUpgrade : Bool) : Option SolverOutcome :=
  match state.v2Registry with
  | none => some (.failed .networkError)
  | some registry => upgradeAllWith (pgElmV2MakeProvider registry) fuel elmJson majorUpgrade

/-- `solver_upgrade_all`. -/
def solverUpgradeAll (fuel : Nat) (state : SolverState) (elmJson : ElmJson)
    (majorUpgrade : Bool) : Option SolverOutcome :=
  match state.protocolMode with
  | .v2 => solverUpgradeAllV2 fuel state elmJson majorUpgrade
  | .v1 => solverUpgradeAllV1 fuel state elmJson majorUpgrade

/-! ## The changes of a plan -/

/-- The change writes a version, its old version is the one `elm.json` lists, and they differ. -/
structure PackageChange.PlannedFor (elmJson : ElmJson) (change : PackageChange) : Prop where
  version : ∃ v, change.newVersion = some (versionText v)
  old : change.oldVersion =
    (packageMapFind (collectCurrentPackages elmJson) change.name).map Package.version
  differs : change.oldVersion ≠ change.newVersion

variable {elmJson : ElmJson} {fuel : Nat}

/-- The old version of a planned change is the one in the first map. -/
theorem PackageChange.PlannedFor.first {change : PackageChange}
    (planned : change.PlannedFor elmJson) :
    change.oldVersion = (firstMap elmJson.type (elmJson.listing change.name)).bind
      (elmJson.listing change.name) := by
  rw [planned.old, find_collectCurrentPackages, findExistingPackage_eq, findPackageMap_eq]
  cases firstMap elmJson.type (elmJson.listing change.name) with
  | none => rfl
  | some field => rfl

/-- All changes do, and a package is changed once. -/
structure InstallPlan.PlannedFor (elmJson : ElmJson) (plan : InstallPlan) : Prop where
  nodup : (plan.map PackageChange.name).Nodup
  changes : ∀ change ∈ plan, change.PlannedFor elmJson

theorem InstallPlan.PlannedFor.nil (elmJson : ElmJson) : InstallPlan.PlannedFor elmJson [] where
  nodup := List.nodup_nil
  changes _ member := absurd member List.not_mem_nil

theorem InstallPlan.PlannedFor.perm {plan other : InstallPlan} (planned : plan.PlannedFor elmJson)
    (same : List.Perm other plan) :
    other.PlannedFor elmJson where
  nodup := (same.map PackageChange.name).nodup_iff.mpr planned.nodup
  changes change member := planned.changes change (same.mem_iff.mp member)

/-- A package that no map lists has no old version. -/
theorem PackageChange.PlannedFor.new_iff {change : PackageChange}
    (planned : change.PlannedFor elmJson) :
    change.oldVersion = none ↔
      ∀ field ∈ elmJson.type.maps, ¬ elmJson.ListsName field change.name := by
  rw [planned.old, Option.map_eq_none_iff]
  obtain ⟨listed, covers⟩ := collectCurrentPackages_spec elmJson
  constructor
  · intro missing field used here
    obtain ⟨p, member, same⟩ := List.mem_map.mp here
    obtain ⟨q, found, _⟩ := covers p ⟨field, used, member⟩
    rw [same, missing] at found
    cases found
  · intro absent
    cases found : packageMapFind (collectCurrentPackages elmJson) change.name with
    | none => rfl
    | some q =>
      obtain ⟨member, same⟩ := packageMapFind_some found
      obtain ⟨field, used, here⟩ := listed q member
      exact absurd (same ▸ ElmJson.ListsName.of_mem here) (absent field used)

theorem plannedChange_differs {currentPackages : PackageMap} {p : PackageName × Version}
    {c : PackageChange} (planned : plannedChange currentPackages p = some c) :
    c.oldVersion ≠ c.newVersion := by
  unfold plannedChange at planned
  split at planned
  · cases planned
    exact (Option.some_ne_none _).symm
  · split at planned
    · rename_i other
      cases planned
      intro same
      exact other (Option.some.inj same)
    · cases planned

theorem planSelected_planned {selected : List (PackageName × Version)} {plan : InstallPlan}
    (nodup : (selected.map Prod.fst).Nodup)
    (planned : planSelected (collectCurrentPackages elmJson) selected = some plan) :
    plan.PlannedFor elmJson := by
  rw [planSelected_eq] at planned
  cases planned
  refine ⟨plannedChanges_nodup _ nodup, ?_⟩
  intro change member
  obtain ⟨p, _, some_⟩ := List.mem_filterMap.mp member
  obtain ⟨name, new, old⟩ := plannedChange_some some_
  exact ⟨⟨p.2, new⟩, name ▸ old, plannedChange_differs some_⟩

/-- The names of the changes are those of the packages, with some left out. -/
theorem upgradePlan_names {currentPackages : PackageMap} {selected : List (PackageName × Version)}
    {start plan : InstallPlan}
    (planned : selected.foldlM (upgradePlanStep currentPackages) start = some plan) :
    List.Sublist (plan.map PackageChange.name)
      (start.map PackageChange.name ++ selected.map Prod.fst) := by
  induction selected generalizing start with
  | nil =>
    cases planned
    rw [List.map_nil, List.append_nil]
  | cons p rest ih =>
    rw [List.foldlM_cons] at planned
    obtain ⟨middle, step, later⟩ := Option.bind_eq_some_iff.mp planned
    have left : List.Sublist (middle.map PackageChange.name)
        (start.map PackageChange.name ++ [p.1]) := by
      unfold upgradePlanStep at step
      dsimp only at step
      split at step
      · cases step
        exact List.sublist_append_left _ _
      split at step
      · unfold installPlanAddChange at step
        rw [if_neg (by simp)] at step
        cases step
        rw [List.map_append]
        exact List.Sublist.refl _
      · cases step
        exact List.sublist_append_left _ _
    have both := (ih later).trans (left.append_right (rest.map Prod.fst))
    rw [List.append_assoc] at both
    exact both

theorem upgradePlan_changes {selected : List (PackageName × Version)} {start plan : InstallPlan}
    (before : ∀ change ∈ start, change.PlannedFor elmJson)
    (planned : selected.foldlM (upgradePlanStep (collectCurrentPackages elmJson)) start =
      some plan) : ∀ change ∈ plan, change.PlannedFor elmJson := by
  induction selected generalizing start with
  | nil =>
    cases planned
    exact before
  | cons p rest ih =>
    rw [List.foldlM_cons] at planned
    obtain ⟨middle, step, later⟩ := Option.bind_eq_some_iff.mp planned
    apply ih _ later
    unfold upgradePlanStep at step
    dsimp only at step
    split at step
    · cases step
      exact before
    · rename_i existing found
      split at step
      · rename_i other
        unfold installPlanAddChange at step
        rw [if_neg (by simp)] at step
        cases step
        intro change member
        rcases List.mem_append.mp member with old | new
        · exact before change old
        · rw [List.mem_singleton.mp new]
          refine ⟨⟨p.2, rfl⟩, by rw [found]; rfl, ?_⟩
          intro same
          exact other (Option.some.inj same)
      · cases step
        exact before

/-- The run behind a plan of `solver_add_package`. -/
theorem solverAddPackage_solved {state : SolverState} {request : AddRequest}
    {outcome : SolverOutcome} (solved : solverAddPackage fuel state elmJson request = some outcome)
    (ok : outcome.result = .ok) :
    ∃ ctx, Solved state.listing request (collectCurrentPackages elmJson) ctx outcome := by
  unfold solverAddPackage at solved
  dsimp only at solved
  split at solved
  · cases solved
    cases ok
  · split at solved
    · cases solved
      cases ok
    · obtain ⟨strategy, _, run⟩ := climbLadder_ok solved ok
      obtain ⟨ctx, _, success⟩ := runWithStrategy_ok run ok
      exact ⟨ctx, success⟩

theorem solverAddPackage_planned {state : SolverState} {request : AddRequest}
    {outcome : SolverOutcome} (solved : solverAddPackage fuel state elmJson request = some outcome)
    (ok : outcome.result = .ok) : outcome.plan.PlannedFor elmJson := by
  obtain ⟨ctx, success⟩ := solverAddPackage_solved solved ok
  exact planSelected_planned success.selection.nodup success.plan

/-- The plan has the package that is asked for, unless it is listed. -/
theorem solverAddPackage_requested {state : SolverState} {request : AddRequest}
    {outcome : SolverOutcome} (solved : solverAddPackage fuel state elmJson request = some outcome)
    (ok : outcome.result = .ok)
    (missing : packageMapFind (collectCurrentPackages elmJson) request.name = none) :
    ∃ change ∈ outcome.plan, change.name = request.name := by
  obtain ⟨ctx, success⟩ := solverAddPackage_solved solved ok
  obtain ⟨v, member⟩ := success.requested
  have planned := success.plan
  rw [planSelected_eq] at planned
  rw [← Option.some.inj planned]
  refine ⟨⟨request.name, none, some (versionText v)⟩, ?_, rfl⟩
  apply List.mem_filterMap.mpr
  refine ⟨(request.name, v), member, ?_⟩
  unfold plannedChange
  dsimp only
  rw [missing]

theorem solveEach_planned {solve : PackageVersionSpec → Option SolverOutcome}
    (each : ∀ spec outcome, solve spec = some outcome → outcome.result = .ok →
      outcome.plan.PlannedFor elmJson) {packages : List PackageVersionSpec}
    {combined plan : InstallPlan} (before : combined.PlannedFor elmJson)
    (solved : solveEach solve packages combined = some (.ok, plan)) :
    plan.PlannedFor elmJson := by
  induction packages generalizing combined with
  | nil =>
    cases solved
    exact before
  | cons spec rest ih =>
    unfold solveEach at solved
    split at solved
    · cases solved
    · rename_i outcome found
      split at solved
      · rename_i failed
        exact absurd (congrArg Prod.fst (Option.some.inj solved)) failed
      · rename_i ok
        have single := each spec outcome found (not_not.mp ok)
        have writes : ∀ change ∈ outcome.plan, change.newVersion ≠ none := by
          intro change member
          obtain ⟨v, new⟩ := (single.changes change member).version
          rw [new]
          exact Option.some_ne_none _
        obtain ⟨unique, from_, _, _⟩ :=
          installPlanMerge_spec outcome.plan combined writes before.nodup
        apply ih _ solved
        refine ⟨unique, ?_⟩
        intro change member
        rcases from_ change member with old | new
        · exact before.changes change old
        · exact single.changes change new

theorem solverAddPackages_planned {state : SolverState} {packages : List PackageVersionSpec}
    {isTest upgradeAll : Bool} {plan : InstallPlan}
    (solved : solverAddPackages fuel state elmJson packages isTest upgradeAll = some (.ok, plan)) :
    plan.PlannedFor elmJson := by
  apply solveEach_planned _ _ (solverAddPackages_ok solved).2
  · intro spec outcome found ok
    exact solverAddPackage_planned found ok
  · exact InstallPlan.PlannedFor.nil elmJson

theorem upgradeAllWith_planned {P : PgDependencyProvider PgElmContext} {majorUpgrade : Bool}
    {outcome : SolverOutcome} (solved : upgradeAllWith P fuel elmJson majorUpgrade = some outcome)
    (ok : outcome.result = .ok) : outcome.plan.PlannedFor elmJson := by
  unfold upgradeAllWith at solved
  split at solved
  · cases solved
    cases ok
  · split at solved
    · cases solved
    · split at solved
      · cases solved
        cases ok
      · dsimp only at solved
        split at solved
        · cases solved
          cases ok
        · rename_i plan planned
          cases solved
          constructor
          · exact (upgradePlan_names planned).nodup (pgElmSelected_nodup _ _)
          · apply upgradePlan_changes _ planned
            intro change member
            cases member

theorem solverUpgradeAll_planned {state : SolverState} {majorUpgrade : Bool}
    {outcome : SolverOutcome}
    (solved : solverUpgradeAll fuel state elmJson majorUpgrade = some outcome)
    (ok : outcome.result = .ok) : outcome.plan.PlannedFor elmJson := by
  unfold solverUpgradeAll at solved
  split at solved
  · unfold solverUpgradeAllV2 at solved
    split at solved
    · cases solved
      cases ok
    · exact upgradeAllWith_planned solved ok
  · unfold solverUpgradeAllV1 at solved
    split at solved
    · cases solved
      cases ok
    · split at solved
      · cases solved
        cases ok
      · exact upgradeAllWith_planned solved ok

end ElmWrap
