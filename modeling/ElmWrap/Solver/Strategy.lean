import ElmWrap.Solver.PgElm
import ElmWrap.PgSolver.Search

/-!
# The strategy ladder

`solver_add_package` of `solver.c` tries a ladder of strategies. Each builds root
requirements from the maps of `elm.json`, runs the solver and turns what it
selects into a plan. The V1 and V2 files under `protocol_v1/solver` and
`protocol_v2/solver` repeat the code for their own provider.
-/

namespace ElmWrap

/-- `SolverResult`. -/
inductive SolverResult
  | ok
  | noSolution
  | noOfflineSolution
  | networkError
  | invalidPackage
deriving DecidableEq, Repr

/-- `SolverStrategy`. -/
inductive SolverStrategy
  | exactAll
  | exactDirectUpgradableIndirect
  | upgradableWithinMajor
  | crossMajorForTarget
deriving DecidableEq, Repr

/-- `ProtocolMode`. -/
inductive ProtocolMode
  | v1
  | v2
deriving DecidableEq, Repr

/-- `SolverState`, with what the solver sees of its `InstallEnv` and cache. -/
structure SolverState where
  protocolMode : ProtocolMode
  online : Bool
  registry : Option Registry
  v2Registry : Option V2Registry
  elmJsonRead : PackageName → String → Option ElmJson
  elmJsonDownloaded : PackageName → String → Option ElmJson
  /-- `cache_registry_exists`. -/
  cacheRegistryExists : Bool
  /-- `cache_package_exists`, when the requested package has been solved for. -/
  cachePackageExists : PackageName → String → Bool
  /-- `cache_download_package_with_env`, then. -/
  cacheDownloadPackage : PackageName → String → Bool

/-- What `pg_elm_context_new` puts into its context. -/
def SolverState.pgElmEnv (state : SolverState) : PgElmEnv where
  registry := state.registry
  online := state.online
  elmJsonRead := state.elmJsonRead
  elmJsonDownloaded := state.elmJsonDownloaded

/-! ## Root requirements -/

/-- A root requirement with the range made of a version text; `none` when the
source returns `false`. -/
def solverAddRootDependency (rangeOf : String → Option PgVersionRange) (ctx : PgElmContext)
    (p : Package) : Option PgElmContext :=
  let (ctx, pkgId) := pgElmInternPackage ctx p.name
  match rangeOf p.version with
  | none => none
  | some range => pgElmAddRootDependency ctx pkgId range

/-- A root requirement for every entry of a map. -/
def solverAddMapDependencies (rangeOf : String → Option PgVersionRange) (map : PackageMap)
    (ctx : PgElmContext) : Option PgElmContext :=
  map.packages.foldlM (solverAddRootDependency rangeOf) ctx

/-- The range of `solver_add_exact_root_dependency`. -/
def exactRange (version : String) : Option PgVersionRange :=
  (pgVersionParse version).map pgRangeExact

/-- The range of `solver_add_upgradable_root_dependency`. -/
def upgradableRange (version : String) : Option PgVersionRange :=
  (pgVersionParse version).map pgRangeUntilNextMajor

/-- `solver_add_exact_map_dependencies`, `solver_v2_add_exact_map_dependencies`. -/
def solverAddExactMapDependencies : PackageMap → PgElmContext → Option PgElmContext :=
  solverAddMapDependencies exactRange

/-- `solver_add_upgradable_map_dependencies`,
`solver_v2_add_upgradable_map_dependencies`. -/
def solverAddUpgradableMapDependencies : PackageMap → PgElmContext → Option PgElmContext :=
  solverAddMapDependencies upgradableRange

/-- `solver_add_constraint_map_dependencies`,
`solver_v2_add_constraint_map_dependencies`. -/
def solverAddConstraintMapDependencies : PackageMap → PgElmContext → Option PgElmContext :=
  solverAddMapDependencies pgElmParseConstraint

/-- `build_roots_strategy_exact_app`, `build_roots_strategy_exact_app_v2`. -/
def buildRootsStrategyExactApp (elmJson : ElmJson) (includeProd includeTest : Bool)
    (ctx : PgElmContext) : Option PgElmContext := do
  let mut ctx := ctx
  if includeProd then
    ctx ← solverAddExactMapDependencies (elmJson.maps .dependenciesDirect) ctx
    ctx ← solverAddExactMapDependencies (elmJson.maps .dependenciesIndirect) ctx
  if includeTest then
    ctx ← solverAddExactMapDependencies (elmJson.maps .dependenciesTestDirect) ctx
    ctx ← solverAddExactMapDependencies (elmJson.maps .dependenciesTestIndirect) ctx
  return ctx

/-- `build_roots_strategy_exact_direct_app`, `build_roots_strategy_exact_direct_app_v2`. -/
def buildRootsStrategyExactDirectApp (elmJson : ElmJson) (includeProd includeTest pinProd : Bool)
    (ctx : PgElmContext) : Option PgElmContext := do
  let mut ctx := ctx
  if includeProd then
    ctx ← solverAddExactMapDependencies (elmJson.maps .dependenciesDirect) ctx
    if pinProd then
      ctx ← solverAddExactMapDependencies (elmJson.maps .dependenciesIndirect) ctx
    else
      ctx ← solverAddUpgradableMapDependencies (elmJson.maps .dependenciesIndirect) ctx
  if includeTest then
    ctx ← solverAddExactMapDependencies (elmJson.maps .dependenciesTestDirect) ctx
    ctx ← solverAddExactMapDependencies (elmJson.maps .dependenciesTestIndirect) ctx
  return ctx

/-- `build_roots_strategy_upgradable_app`, `build_roots_strategy_upgradable_app_v2`. -/
def buildRootsStrategyUpgradableApp (elmJson : ElmJson) (includeProd includeTest pinProd : Bool)
    (ctx : PgElmContext) : Option PgElmContext := do
  let mut ctx := ctx
  if includeProd then
    if pinProd then
      ctx ← solverAddExactMapDependencies (elmJson.maps .dependenciesDirect) ctx
      ctx ← solverAddExactMapDependencies (elmJson.maps .dependenciesIndirect) ctx
    else
      ctx ← solverAddUpgradableMapDependencies (elmJson.maps .dependenciesDirect) ctx
      ctx ← solverAddUpgradableMapDependencies (elmJson.maps .dependenciesIndirect) ctx
  if includeTest then
    ctx ← solverAddUpgradableMapDependencies (elmJson.maps .dependenciesTestDirect) ctx
    ctx ← solverAddUpgradableMapDependencies (elmJson.maps .dependenciesTestIndirect) ctx
  return ctx

/-- `build_roots_strategy_cross_major_for_target`,
`build_roots_strategy_cross_major_for_target_v2`. -/
def buildRootsStrategyCrossMajorForTarget (elmJson : ElmJson) (includeTest : Bool)
    (ctx : PgElmContext) : Option PgElmContext := do
  let mut ctx := ctx
  if includeTest then
    ctx ← solverAddExactMapDependencies (elmJson.maps .dependenciesTestDirect) ctx
    ctx ← solverAddExactMapDependencies (elmJson.maps .dependenciesTestIndirect) ctx
  return ctx

/-- What a caller asks `solver_add_package` for. -/
structure AddRequest where
  name : PackageName
  targetVersion : Option Version
  isTestDependency : Bool
  majorUpgrade : Bool
  upgradeAll : Bool
deriving DecidableEq

/-- The root requirements of the maps, the part of `run_with_strategy_v1` and
`run_with_strategy_v2` that sets `root_ok`. The cross-major strategy has added the
target before. -/
def buildRoots (elmJson : ElmJson) (request : AddRequest) (strategy : SolverStrategy)
    (ctx : PgElmContext) : Option PgElmContext :=
  let includeProd := true
  let includeTest := request.isTestDependency
  match elmJson.type with
  | .application =>
    let pinProd := request.isTestDependency && !request.upgradeAll
    match strategy with
    | .exactAll => buildRootsStrategyExactApp elmJson includeProd includeTest ctx
    | .exactDirectUpgradableIndirect =>
      buildRootsStrategyExactDirectApp elmJson includeProd includeTest pinProd ctx
    | .upgradableWithinMajor =>
      buildRootsStrategyUpgradableApp elmJson includeProd includeTest pinProd ctx
    | .crossMajorForTarget => buildRootsStrategyCrossMajorForTarget elmJson includeTest ctx
  | .package => do
    let mut ctx := ctx
    if strategy ≠ .crossMajorForTarget then
      if includeProd then
        ctx ← solverAddConstraintMapDependencies (elmJson.maps .packageDependencies) ctx
    if includeTest then
      ctx ← solverAddConstraintMapDependencies (elmJson.maps .packageTestDependencies) ctx
    return ctx

/-- The range the requested package gets. -/
def requestedRange (request : AddRequest) (strategy : SolverStrategy) : PgVersionRange :=
  match strategy, request.targetVersion with
  | .crossMajorForTarget, _ => pgRangeAny
  | _, some v => pgRangeExact v
  | _, none => pgRangeAny

/-- The requested package as a root requirement. -/
def addRequested (request : AddRequest) (strategy : SolverStrategy) (ctx : PgElmContext) :
    Option PgElmContext :=
  let (ctx, pkgId) := pgElmInternPackage ctx request.name
  pgElmAddRootDependency ctx pkgId (requestedRange request strategy)

/-- All root requirements of a strategy. The cross-major strategy adds the requested
package before the maps, the others after them. -/
def rootsForStrategy (elmJson : ElmJson) (request : AddRequest) (strategy : SolverStrategy) :
    Option PgElmContext :=
  if strategy = .crossMajorForTarget then
    (addRequested request strategy pgElmContextNew).bind (buildRoots elmJson request strategy)
  else
    (buildRoots elmJson request strategy pgElmContextNew).bind (addRequested request strategy)

/-! ## Plans -/

/-- The packages of a context that have a selected version, in the order of their
ids. -/
def pgElmSelected (ctx : PgElmContext) (selected : PgPackageId → Option PgVersion) :
    List (PackageName × Version) :=
  ctx.packages.zipIdx.filterMap fun p => (selected (p.2 + 1)).map fun v => (p.1, v)

/-- The body of the loop that collects the changes. -/
def planStep (currentPackages : PackageMap) (plan : InstallPlan) (p : PackageName × Version) :
    Option InstallPlan :=
  let versionStr := versionFormat p.2.major p.2.minor p.2.patch
  match packageMapFind currentPackages p.1 with
  | none => installPlanAddChange plan p.1 none (some versionStr)
  | some existing =>
    if existing.version ≠ versionStr then
      installPlanAddChange plan p.1 (some existing.version) (some versionStr)
    else some plan

/-- The plan for a selection. -/
def planSelected (currentPackages : PackageMap) (selected : List (PackageName × Version)) :
    Option InstallPlan :=
  selected.foldlM (planStep currentPackages) []

/-- What a run gives: the result, and for `SOLVER_OK` the packages it has selected
and the plan. -/
structure SolverOutcome where
  result : SolverResult
  selected : List (PackageName × Version)
  plan : InstallPlan
deriving DecidableEq

/-- A run that ends without a plan. -/
def SolverOutcome.failed (result : SolverResult) : SolverOutcome := ⟨result, [], []⟩

/-- The part of `run_with_strategy_v1` and `run_with_strategy_v2` after the root
requirements. `none` when the solver is still running after `fuel` steps. -/
def solveRoots (P : PgDependencyProvider PgElmContext) (fuel : Nat) (state : SolverState)
    (request : AddRequest) (currentPackages : PackageMap) (ctx : PgElmContext) :
    Option SolverOutcome :=
  let (ctx, newPkgId) := pgElmInternPackage ctx request.name
  match pgSolverSolve P fuel (pgSolverNew ctx pgElmRootPackageId pgElmRootVersion) with
  | none => none
  | some (status, s) =>
    if status ≠ .ok then some (.failed .noSolution)
    else
      match pgSolverGetSelectedVersion s newPkgId with
      | none => some (.failed .noSolution)
      | some chosen =>
        let selected := pgElmSelected s.providerCtx (pgSolverGetSelectedVersion s)
        match planSelected currentPackages selected with
        | none => some (.failed .invalidPackage)
        | some plan =>
          let text := versionToString chosen
          if !state.cachePackageExists request.name text &&
              !state.cacheDownloadPackage request.name text then some (.failed .networkError)
          else some ⟨.ok, selected, plan⟩

/-- One rung, for the provider of the protocol. -/
def runStrategy (P : PgDependencyProvider PgElmContext) (fuel : Nat) (state : SolverState)
    (elmJson : ElmJson) (request : AddRequest) (currentPackages : PackageMap)
    (strategy : SolverStrategy) : Option SolverOutcome :=
  match rootsForStrategy elmJson request strategy with
  | none => some (.failed .noSolution)
  | some ctx => solveRoots P fuel state request currentPackages ctx

/-- `run_with_strategy_v1`. -/
def runWithStrategyV1 (fuel : Nat) (state : SolverState) (elmJson : ElmJson)
    (request : AddRequest) (currentPackages : PackageMap) (strategy : SolverStrategy) :
    Option SolverOutcome :=
  runStrategy (pgElmMakeProvider state.pgElmEnv) fuel state elmJson request currentPackages
    strategy

/-- `run_with_strategy_v2`. -/
def runWithStrategyV2 (fuel : Nat) (state : SolverState) (elmJson : ElmJson)
    (request : AddRequest) (currentPackages : PackageMap) (strategy : SolverStrategy) :
    Option SolverOutcome :=
  match state.v2Registry with
  | none => some (.failed .networkError)
  | some registry =>
    runStrategy (pgElmV2MakeProvider registry) fuel state elmJson request currentPackages strategy

/-! ## `solver.c` -/

/-- `run_with_strategy`. -/
def runWithStrategy (fuel : Nat) (state : SolverState) (elmJson : ElmJson)
    (request : AddRequest) (currentPackages : PackageMap) (strategy : SolverStrategy) :
    Option SolverOutcome :=
  match state.protocolMode with
  | .v2 => runWithStrategyV2 fuel state elmJson request currentPackages strategy
  | .v1 => runWithStrategyV1 fuel state elmJson request currentPackages strategy

/-- The strategies `solver_add_package` tries, in order. -/
def strategyLadder (request : AddRequest) : List SolverStrategy :=
  if request.targetVersion.isSome then
    [.upgradableWithinMajor, .exactDirectUpgradableIndirect, .exactAll]
  else if request.majorUpgrade then [.crossMajorForTarget]
  else [.exactAll, .exactDirectUpgradableIndirect, .upgradableWithinMajor]

/-- The loop of `solver_add_package`: it ends with the first result other than
`SOLVER_NO_SOLUTION`. -/
def climbLadder (run : SolverStrategy → Option SolverOutcome) :
    List SolverStrategy → Option SolverOutcome
  | [] => some (.failed .noSolution)
  | strategy :: rest =>
    match run strategy with
    | none => none
    | some outcome => if outcome.result = .noSolution then climbLadder run rest else some outcome

/-- `solver_add_package`. -/
def solverAddPackage (fuel : Nat) (state : SolverState) (elmJson : ElmJson)
    (request : AddRequest) : Option SolverOutcome :=
  let currentPackages := collectCurrentPackages elmJson
  if !state.online && !state.cacheRegistryExists then some (.failed .noOfflineSolution)
  else if !state.cacheRegistryExists then some (.failed .networkError)
  else climbLadder (runWithStrategy fuel state elmJson request currentPackages)
    (strategyLadder request)

/-- `package_exists_in_registry_internal`. -/
def packageExistsInRegistryInternal (state : SolverState) (name : PackageName) : Bool :=
  match state.protocolMode with
  | .v2 =>
    match state.v2Registry with
    | none => false
    | some registry =>
      match v2RegistryFind registry name.author name.project with
      | none => false
      | some entry => entry.versions.any fun v => v.status = .valid
  | .v1 =>
    match state.registry with
    | none => false
    | some registry => (registryFind registry name.author name.project).isSome

/-- The body of the loop of `install_plan_merge`: the first change of a package
stays. -/
def installPlanMergeStep (dest : InstallPlan) (change : PackageChange) : InstallPlan :=
  if dest.any fun c => c.name = change.name then dest
  else (installPlanAddChange dest change.name change.oldVersion change.newVersion).getD dest

/-- `install_plan_merge`. -/
def installPlanMerge (dest source : InstallPlan) : InstallPlan :=
  source.foldl installPlanMergeStep dest

/-- `PackageVersionSpec`. -/
structure PackageVersionSpec where
  name : PackageName
  version : Option Version
deriving DecidableEq

/-- The request `solver_add_packages` makes for one of its packages. -/
def PackageVersionSpec.request (spec : PackageVersionSpec) (isTest upgradeAll : Bool) :
    AddRequest where
  name := spec.name
  targetVersion := spec.version
  isTestDependency := isTest
  majorUpgrade := false
  upgradeAll := upgradeAll

/-- Phase 3 of `solver_add_packages`: each package is solved for by itself, and its
plan is merged into the combined one. -/
def solveEach (solve : PackageVersionSpec → Option SolverOutcome) :
    List PackageVersionSpec → InstallPlan → Option (SolverResult × InstallPlan)
  | [], combined => some (.ok, combined)
  | spec :: rest, combined =>
    match solve spec with
    | none => none
    | some outcome =>
      if outcome.result ≠ .ok then some (outcome.result, [])
      else solveEach solve rest (installPlanMerge combined outcome.plan)

/-- `solver_add_packages`, without the validation results it reports. -/
def solverAddPackages (fuel : Nat) (state : SolverState) (elmJson : ElmJson)
    (packages : List PackageVersionSpec) (isTest upgradeAll : Bool) :
    Option (SolverResult × InstallPlan) :=
  if packages.isEmpty then some (.invalidPackage, [])
  else if packages.all fun spec => packageExistsInRegistryInternal state spec.name then
    solveEach (fun spec => solverAddPackage fuel state elmJson (spec.request isTest upgradeAll))
      packages []
  else some (.invalidPackage, [])

end ElmWrap
