import ElmWrap.ElmJson.Promotion
import ElmWrap.Remove.CmdRemove
import ElmWrap.Solver.UpgradeAll

/-!
# `install_cmd.c`

The three ways to install: one package, several packages in one operation, and
a package from a file. A package that is listed already is promoted or added to
the test dependencies; otherwise the solver makes a plan, which is applied
change by change.
-/

namespace ElmWrap

open Lib

/-! ## Runs -/

/-- What an install or an upgrade meets. -/
structure CommandRun where
  fuel : Nat
  solver : SolverState
  /-- `solver_init` works. -/
  solverStarts : Bool
  /-- `ensure_local_dev_symlink`. -/
  symlinkEnsured : PackageName → String → Bool
  /-- `package_name` of a package project, where it is a package name. -/
  packageName : Option PackageName
  autoYes : Bool
  /-- The first character of the answer; `none` where no answer can be read. -/
  response : Option Char
  /-- `elm_json_write` works. -/
  saves : Bool

/-- The exit code, and what the file lists at the end. -/
structure CommandResult where
  code : Nat
  elmJson : ElmJson

/-- The confirmation; `none` where the answer cannot be read. -/
def CommandRun.confirmed (run : CommandRun) : Option Bool :=
  if run.autoYes then some true
  else run.response.map fun c => c = 'Y' || c = 'y' || c = '\n'

/-- `elm_json_write` of the changed maps, at the end of a command. -/
def CommandRun.save (run : CommandRun) (elmJson changed : ElmJson) : CommandResult :=
  if run.saves then ⟨0, changed.sortMaps⟩ else ⟨1, elmJson⟩

/-- `ensure_local_dev_symlink` for the entry of a listed package. -/
def CommandRun.linked (run : CommandRun) (elmJson : ElmJson) (name : PackageName) : Bool :=
  match findExistingPackage elmJson name with
  | some p => run.symlinkEnsured name p.version
  | none => true

/-! ## Missing dependencies -/

/-- `check_package_deps_completeness`. -/
def checkPackageDepsCompleteness (elmJsonRead : PackageName → String → Option ElmJson)
    (app : ElmJson) (missing : PackageMap) (p : Package) : PackageMap :=
  if !p.exact then missing
  else
    match elmJsonRead p.name p.version with
    | none => missing
    | some pkgJson =>
      let deps := match pkgJson.type with
        | .package => pkgJson.maps .packageDependencies
        | .application => pkgJson.maps .dependenciesDirect
      deps.packages.foldl (fun missing dep =>
        if (findExistingPackage app dep.name).isSome || missing.has dep.name then missing
        else missing.add dep.name p.name.full) missing

/-- `find_missing_dependencies`. -/
def findMissingDependencies (elmJsonRead : PackageName → String → Option ElmJson)
    (elmJson : ElmJson) : Nat :=
  match elmJson.type with
  | .package => 0
  | .application =>
    let entries := ElmProjectType.application.maps.flatMap fun field =>
      (elmJson.maps field).packages
    (entries.foldl (checkPackageDepsCompleteness elmJsonRead elmJson)
      packageMapCreate).packages.length

/-- Something a listed package depends on is not listed. -/
def CommandRun.incomplete (run : CommandRun) (elmJson : ElmJson) : Bool :=
  0 < findMissingDependencies run.solver.elmJsonRead elmJson

/-! ## The registry -/

/-- `package_exists_in_registry`, which makes the same tests as
`package_exists_in_registry_internal`. -/
def packageExistsInRegistry : SolverState → PackageName → Bool := packageExistsInRegistryInternal

/-- `version_exists_in_registry`. -/
def versionExistsInRegistry (state : SolverState) (name : PackageName) (target : Version) : Bool :=
  match state.protocolMode with
  | .v2 =>
    match state.v2Registry with
    | none => false
    | some registry =>
      match v2RegistryFind registry name.author name.project with
      | none => false
      | some entry => entry.versions.any fun v => v.status = .valid && v.version = target
  | .v1 =>
    match state.registry with
    | none => false
    | some registry =>
      match registryFind registry name.author name.project with
      | none => false
      | some entry => entry.versions.any fun v => versionCompare v target = 0

/-! ## One package -/

/-- `install_package` from the registry lookup on. `none` when the solver does not end. -/
def solveAndInstall (run : CommandRun) (elmJson : ElmJson) (request : AddRequest) :
    Option CommandResult :=
  if !packageExistsInRegistry run.solver request.name then some ⟨1, elmJson⟩
  else if request.targetVersion.any fun v => !versionExistsInRegistry run.solver request.name v then
    some ⟨1, elmJson⟩
  else if !run.solverStarts then some ⟨1, elmJson⟩
  else
    match solverAddPackage run.fuel run.solver elmJson request with
    | none => none
    | some outcome =>
      if outcome.result ≠ .ok then some ⟨1, elmJson⟩
      else
        match run.confirmed with
        | none => some ⟨1, elmJson⟩
        | some false => some ⟨0, elmJson⟩
        | some true =>
          match applyPlan [request.name] request.isTestDependency elmJson outcome.plan with
          | none => some ⟨1, elmJson⟩
          | some changed => some (run.save elmJson changed)

/-- A package that is listed is asked for as a test dependency of an application. -/
def addToTestDirect (run : CommandRun) (elmJson : ElmJson) (existing : Package) : CommandResult :=
  if (elmJson.maps .dependenciesTestDirect).has existing.name then ⟨0, elmJson⟩
  else
    match packageMapFind (elmJson.maps .dependenciesTestIndirect) existing.name with
    | some testIndirect =>
      run.save elmJson (elmJson.move existing.name testIndirect.version .dependenciesTestIndirect
        .dependenciesTestDirect)
    | none =>
      -- it is a production dependency, and stays one
      run.save elmJson (elmJson.setMap .dependenciesTestDirect
        ((elmJson.maps .dependenciesTestDirect).add existing.name existing.version))

/-- The same for a package project. -/
def addToTestDependencies (run : CommandRun) (elmJson : ElmJson) (existing : Package) :
    CommandResult :=
  if (elmJson.maps .packageTestDependencies).has existing.name then ⟨0, elmJson⟩
  else run.save elmJson (elmJson.setMap .packageTestDependencies
    ((elmJson.maps .packageTestDependencies).add existing.name existing.version))

/-- A listed package, without a version and without `--major`. -/
def installListed (run : CommandRun) (elmJson : ElmJson) (existing : Package)
    (request : AddRequest) : Option CommandResult :=
  if request.isTestDependency then
    match elmJson.type with
    | .application => some (addToTestDirect run elmJson existing)
    | .package => some (addToTestDependencies run elmJson existing)
  else if elmJsonFindPackage elmJson request.name ≠ .none then
    match elmJsonPromotePackage elmJson request.name with
    | some promoted => some (run.save elmJson promoted)
    | none => some ⟨0, elmJson⟩
  else if run.incomplete elmJson then solveAndInstall run elmJson request
  else some ⟨0, elmJson⟩

/-- `install_package`. -/
def installPackage (run : CommandRun) (elmJson : ElmJson) (request : AddRequest) :
    Option CommandResult :=
  if elmJson.type = .package && run.packageName = some request.name then some ⟨1, elmJson⟩
  else
    match findExistingPackage elmJson request.name with
    | none => solveAndInstall run elmJson request
    | some existing =>
      if !run.linked elmJson request.name then some ⟨1, elmJson⟩
      else
        match request.targetVersion with
        | some target =>
          if versionParseSafe existing.version = some target && !run.incomplete elmJson then
            some ⟨0, elmJson⟩
          else solveAndInstall run elmJson request
        | none =>
          if request.majorUpgrade then solveAndInstall run elmJson request
          else installListed run elmJson existing request

/-! ## Several packages -/

/-- The packages of `install_multiple_packages` that are promoted. -/
def promotions (elmJson : ElmJson) (specs : List PackageVersionSpec) : List PackageName :=
  (specs.filter fun spec => elmJsonFindPackage elmJson spec.name = .indirectToDirect).map
    PackageVersionSpec.name

/-- The packages the solver is asked for. -/
def toSolve (run : CommandRun) (elmJson : ElmJson) (specs : List PackageVersionSpec) :
    List PackageVersionSpec :=
  specs.filter fun spec =>
    let promotion := elmJsonFindPackage elmJson spec.name
    promotion = .none || (promotion ≠ .indirectToDirect && run.incomplete elmJson)

/-- A change is displayed. -/
def displayedChange (elmJson : ElmJson) (requested : List PackageName) (change : PackageChange) :
    Bool :=
  match elmJson.type with
  | .application => true
  | .package => requested.contains change.name && (findPackageMap elmJson change.name).isNone &&
    change.oldVersion.isNone

/-- `install_multiple_packages` from the plan on. -/
def installPlanned (run : CommandRun) (elmJson : ElmJson) (specs : List PackageVersionSpec)
    (isTest : Bool) (plan : InstallPlan) : CommandResult :=
  let requested := specs.map PackageVersionSpec.name
  let promoted := promotions elmJson specs
  if !plan.any (displayedChange elmJson requested) && promoted.isEmpty then ⟨0, elmJson⟩
  else
    match run.confirmed with
    | none => ⟨1, elmJson⟩
    | some false => ⟨0, elmJson⟩
    | some true =>
      match promoted.foldlM elmJsonPromotePackage elmJson with
      | none => ⟨1, elmJson⟩
      | some direct =>
        match applyPlan requested isTest direct plan with
        | none => ⟨1, elmJson⟩
        | some changed => run.save elmJson changed

/-- `install_multiple_packages`. `none` when the solver does not end. -/
def installMultiplePackages (run : CommandRun) (elmJson : ElmJson)
    (specs : List PackageVersionSpec) (isTest upgradeAll : Bool) : Option CommandResult :=
  if elmJson.type = .package && specs.any fun spec => run.packageName = some spec.name then
    some ⟨1, elmJson⟩
  else if specs.any fun spec =>
      spec.version.any fun v => !versionExistsInRegistry run.solver spec.name v then
    some ⟨1, elmJson⟩
  else if specs.any fun spec => !run.linked elmJson spec.name then some ⟨1, elmJson⟩
  else if (toSolve run elmJson specs).isEmpty then
    some (installPlanned run elmJson specs isTest [])
  else if !run.solverStarts then some ⟨1, elmJson⟩
  else
    match solverAddPackages run.fuel run.solver elmJson (toSolve run elmJson specs) isTest
        upgradeAll with
    | none => none
    | some (result, plan) =>
      if result ≠ .ok then some ⟨1, elmJson⟩
      else some (installPlanned run elmJson specs isTest plan)

/-! ## A package from a file -/

/-- What `install --from-file` and `--from-url` meet. -/
structure PackageFile where
  /-- The name and version of `read_package_info_from_elm_json`, where it works. -/
  info : Option (PackageName × String)
  /-- The answer where the name is another one than the one asked for. -/
  continues : Bool
  /-- The answer to the plan. -/
  accepted : Bool
  /-- `install_from_file`. -/
  installed : Bool

/-- The branch of `cmd_install` for `--from-file` and `--from-url`. -/
def installFromFile (run : CommandRun) (elmJson : ElmJson) (name : PackageName) (isTest : Bool)
    (file : PackageFile) : CommandResult :=
  match file.info with
  | none => ⟨1, elmJson⟩
  | some (actual, version) =>
    if name ≠ actual && !run.autoYes && !file.continues then ⟨0, elmJson⟩
    else if !run.autoYes && !file.accepted then ⟨0, elmJson⟩
    else if !file.installed then ⟨1, elmJson⟩
    else
      match addOrUpdatePackageInElmJson elmJson actual version isTest true with
      | none => ⟨1, elmJson⟩
      | some changed => run.save elmJson changed

end ElmWrap
