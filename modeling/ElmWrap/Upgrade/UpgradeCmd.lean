import ElmWrap.Install.InstallCmd

/-!
# `upgrade_v1.c` and `upgrade_v2.c`

Upgrading one package or all of them. The two files repeat each other for their
registry; they differ in where versions and dependencies are looked up and in
how a plan is applied.
-/

namespace ElmWrap

open Lib

/-! ## Versions -/

/-- What the two files have of their own. -/
structure UpgradeProtocol where
  /-- The versions that can be chosen, in the order of the registry. -/
  versions : PackageName → Option (List Version)
  /-- The constraint that a listed package has on another one. -/
  dependencyConstraint : Package → PackageName → Option String
  /-- Applying the plan for one package, which is a test dependency or not. -/
  applySingle : PackageName → Bool → ElmJson → InstallPlan → Option ElmJson
  /-- A change of a plan for all packages is displayed. -/
  displayed : ElmJson → PackageChange → Bool
  /-- Applying the plan for all packages. -/
  applyAll : ElmJson → InstallPlan → Option ElmJson

/-- The version to upgrade to; `none` where the listed version cannot be read. -/
def latestVersion (versions : List Version) (existing : Package) (majorUpgrade : Bool) :
    Option (Option Version) :=
  if majorUpgrade then some versions.head?
  else
    match versionParseSafe existing.version with
    | none => none
    | some current => some (versions.find? fun v => v.major = current.major)

/-! ## Reverse dependencies -/

/-- `all_deps`. -/
def allDependencies (elmJson : ElmJson) : PackageMap :=
  ((ElmProjectType.application.maps ++ ElmProjectType.package.maps).flatMap fun field =>
    (elmJson.maps field).packages).foldl (fun all p => all.add p.name p.version) packageMapCreate

/-- One of the test maps lists the package. -/
def isTestDependency (elmJson : ElmJson) (name : PackageName) : Bool :=
  (elmJson.maps .dependenciesTestDirect).has name ||
    (elmJson.maps .dependenciesTestIndirect).has name ||
    (elmJson.maps .packageTestDependencies).has name

/-- The constraint does not admit the new version; one that cannot be read does not either. -/
def blocksUpgrade (latest : Version) : Option String → Bool
  | none => false
  | some text =>
    match versionParseConstraint text with
    | some range => !versionInRange latest range
    | none => true

/-- The newest version of a package is another one than the listed version. -/
def hasUpgrade (protocol : UpgradeProtocol) (p : Package) : Bool :=
  match protocol.versions p.name with
  | some (newest :: _) => versionText newest ≠ p.version
  | _ => false

/-- A package that depends on the target stands in the way of a major upgrade. -/
def majorUpgradeBlocked (protocol : UpgradeProtocol) (elmJson : ElmJson) (target : PackageName)
    (latest : Version) (majorIgnoreTest : Bool) : Bool :=
  (allDependencies elmJson).packages.any fun p =>
    p.name ≠ target && blocksUpgrade latest (protocol.dependencyConstraint p target) &&
      !hasUpgrade protocol p && (!isTestDependency elmJson p.name || !majorIgnoreTest)

/-- A major upgrade ends here: the listed version cannot be read, or a package stands in the
way of another major version. -/
def majorUpgradeEnds (protocol : UpgradeProtocol) (elmJson : ElmJson) (existing : Package)
    (latest : Version) (majorIgnoreTest : Bool) : Bool :=
  match versionParseSafe existing.version with
  | none => true
  | some current => current.major ≠ latest.major &&
    majorUpgradeBlocked protocol elmJson existing.name latest majorIgnoreTest

/-! ## The two commands -/

/-- The solver run of an upgrade, the confirmation, and the changes. -/
def solveAndUpgrade (run : CommandRun) (elmJson : ElmJson)
    (solve : ElmJson → Option SolverOutcome) (idle : InstallPlan → Bool)
    (apply : ElmJson → InstallPlan → Option ElmJson) : Option CommandResult :=
  if !run.solverStarts then some ⟨1, elmJson⟩
  else
    match solve elmJson with
    | none => none
    | some outcome =>
      if outcome.result ≠ .ok then some ⟨1, elmJson⟩
      else if idle outcome.plan then some ⟨0, elmJson⟩
      else
        match run.confirmed with
        | none => some ⟨1, elmJson⟩
        | some false => some ⟨0, elmJson⟩
        | some true =>
          match apply elmJson outcome.plan with
          | none => some ⟨1, elmJson⟩
          | some changed => some (run.save elmJson changed)

/-- `upgrade_single_package_v1` and `upgrade_single_package_v2`. -/
def upgradeSinglePackage (protocol : UpgradeProtocol) (run : CommandRun) (elmJson : ElmJson)
    (package : String) (majorUpgrade majorIgnoreTest : Bool) : Option CommandResult :=
  match parsePackageName package with
  | none => some ⟨1, elmJson⟩
  | some name =>
    match findExistingPackage elmJson name, protocol.versions name with
    | some existing, some versions =>
      match latestVersion versions existing majorUpgrade with
      | none => some ⟨1, elmJson⟩
      | some none => some ⟨0, elmJson⟩
      | some (some latest) =>
        if versionParseSafe existing.version = some latest then some ⟨0, elmJson⟩
        else if majorUpgrade &&
            majorUpgradeEnds protocol elmJson existing latest majorIgnoreTest then
          some ⟨1, elmJson⟩
        else
          let isTest := isTestDependency elmJson name
          solveAndUpgrade run elmJson
            (fun elmJson => solverAddPackage run.fuel run.solver elmJson
              ⟨name, none, isTest, majorUpgrade, false⟩)
            (fun _ => false) (protocol.applySingle name isTest)
    | _, _ => some ⟨1, elmJson⟩

/-- `upgrade_all_packages_v1` and `upgrade_all_packages_v2`. -/
def upgradeAllPackages (protocol : UpgradeProtocol) (run : CommandRun) (elmJson : ElmJson)
    (majorUpgrade : Bool) : Option CommandResult :=
  solveAndUpgrade run elmJson
    (fun elmJson => solverUpgradeAll run.fuel run.solver elmJson majorUpgrade)
    (fun plan => !plan.any (protocol.displayed elmJson))
    (fun elmJson plan => protocol.applyAll elmJson (Keyed.sortBy PackageChange.key plan))

/-! ## V1 -/

/-- `v1_package_dependency_constraint`. -/
def v1PackageDependencyConstraint (state : SolverState) (p : Package) (target : PackageName) :
    Option String :=
  let pkgElmJson := match state.elmJsonRead p.name p.version with
    | some elmJson => some elmJson
    | none => state.elmJsonDownloaded p.name p.version
  match pkgElmJson with
  | none => none
  | some elmJson =>
    let dep := match packageMapFind (elmJson.maps .packageDependencies) target with
      | some dep => some dep
      | none => packageMapFind (elmJson.maps .packageTestDependencies) target
    dep.map Package.version

/-- The version a reverse dependency is looked up with: the lower bound of a constraint. -/
def concreteVersion (p : Package) : Package :=
  match versionParseSafe p.version with
  | some v => { p with version := versionText v }
  | none => p

/-- The maps that list a package: `detect_package_presence`. -/
def detectPackagePresence (elmJson : ElmJson) (name : PackageName) : List ElmJsonMap :=
  elmJson.type.maps.filter fun field => (elmJson.maps field).has name

/-- `set_pkg_version_in_map`. -/
def setPkgVersionInMap (elmJson : ElmJson) (field : ElmJsonMap) (name : PackageName)
    (newVersion : String) : ElmJson :=
  let versionToWrite := match elmJson.type with
    | .application => newVersion
    | .package => (versionToConstraint newVersion).getD newVersion
  elmJson.setMap field (packageMapUpdate (elmJson.maps field) name versionToWrite)

/-- `apply_change_preserving_location`; `none` when it returns `false`. -/
def applyChangePreservingLocation (elmJson : ElmJson) (change : PackageChange)
    (defaultIsTest defaultIsDirect : Bool) : Option ElmJson :=
  match change.newVersion with
  | none => none
  | some newVersion =>
    let presence := detectPackagePresence elmJson change.name
    if 1 < presence.length then
      some (presence.foldl (fun elmJson field =>
        setPkgVersionInMap elmJson field change.name newVersion) elmJson)
    else addOrUpdatePackageInElmJson elmJson change.name newVersion defaultIsTest defaultIsDirect

/-- The body of the loop that applies the plan for one package. -/
def applySingleChangeV1 (name : PackageName) (isTest : Bool) (elmJson : ElmJson)
    (change : PackageChange) : Option ElmJson :=
  if elmJson.type = .package && change.name ≠ name then some elmJson
  else applyChangePreservingLocation elmJson change isTest (change.name = name)

/-- The body of the loop that applies the plan for all packages. -/
def applyAllChangeV1 (elmJson : ElmJson) (change : PackageChange) : Option ElmJson :=
  if elmJson.type = .package && (findPackageMap elmJson change.name).isNone then some elmJson
  else applyChangePreservingLocation elmJson change false true

/-- What `upgrade_v1.c` has of its own. -/
def upgradeProtocolV1 (state : SolverState) : UpgradeProtocol where
  versions name :=
    (state.registry.bind fun registry => registryFind registry name.author name.project).map
      RegistryEntry.versions
  dependencyConstraint p target := v1PackageDependencyConstraint state (concreteVersion p) target
  applySingle name isTest elmJson plan := plan.foldlM (applySingleChangeV1 name isTest) elmJson
  displayed elmJson change :=
    elmJson.type = .application || (findPackageMap elmJson change.name).isSome
  applyAll elmJson plan := plan.foldlM applyAllChangeV1 elmJson

/-! ## V2 -/

/-- `v2_package_dependency_constraint`. -/
def v2PackageDependencyConstraint (registry : Option V2Registry) (p : Package)
    (target : PackageName) : Option String :=
  match registry, versionParseSafe p.version with
  | some registry, some v =>
    match v2RegistryFindVersion registry p.name.author p.name.project v.major v.minor v.patch with
    | none => none
    | some version =>
      (version.dependencies.find? fun dep => dep.packageName = target.full).map
        V2Dependency.constraint
  | _, _ => none

/-- The assignment to `pkg->version` in the first map that lists the package. -/
def setPkgVersion (elmJson : ElmJson) (name : PackageName) (newVersion : String) : ElmJson :=
  match findPackageMap elmJson name with
  | some field =>
    elmJson.setMap field (packageMapUpdate (elmJson.maps field) name newVersion)
  | none => elmJson

/-- The body of the loop that applies the plan for one package. A planned change has a new
version. -/
def applySingleChangeV2 (name : PackageName) (isTest : Bool) (elmJson : ElmJson)
    (change : PackageChange) : ElmJson :=
  match change.oldVersion, change.newVersion with
  | some _, some newVersion => setPkgVersion elmJson change.name newVersion
  | none, some newVersion =>
    let field := targetMap elmJson.type isTest (change.name = name)
    elmJson.setMap field ((elmJson.maps field).add change.name newVersion)
  | _, none => elmJson

/-- The body of the loop that applies the plan for all packages. -/
def applyAllChangeV2 (elmJson : ElmJson) (change : PackageChange) : ElmJson :=
  match change.newVersion with
  | some newVersion => setPkgVersion elmJson change.name newVersion
  | none => elmJson

/-- What `upgrade_v2.c` has of its own. -/
def upgradeProtocolV2 (state : SolverState) : UpgradeProtocol where
  versions name :=
    (state.v2Registry.bind fun registry => v2RegistryFind registry name.author name.project).map
      fun entry => (entry.versions.filter fun v => v.status = .valid).map V2PackageVersion.version
  dependencyConstraint := v2PackageDependencyConstraint state.v2Registry
  applySingle name isTest elmJson plan :=
    some (plan.foldl (applySingleChangeV2 name isTest) elmJson)
  displayed _ _ := true
  applyAll elmJson plan := some (plan.foldl applyAllChangeV2 elmJson)

/-! ## `cmd_upgrade` -/

/-- The protocol is V2 where it is the mode and its registry is loaded. -/
def CommandRun.upgradesV2 (run : CommandRun) : Bool :=
  run.solver.protocolMode = .v2 && run.solver.v2Registry.isSome

/-- The protocol of an upgrade. -/
def CommandRun.upgradeProtocol (run : CommandRun) : UpgradeProtocol :=
  if run.upgradesV2 then upgradeProtocolV2 run.solver else upgradeProtocolV1 run.solver

/-- `cmd_upgrade` with or without the name of a package. -/
def cmdUpgrade (run : CommandRun) (elmJson : ElmJson) (package : Option String)
    (majorUpgrade majorIgnoreTest : Bool) : Option CommandResult :=
  match package with
  | none => upgradeAllPackages run.upgradeProtocol run elmJson majorUpgrade
  | some text =>
    if text = "all" then upgradeAllPackages run.upgradeProtocol run elmJson majorUpgrade
    else upgradeSinglePackage run.upgradeProtocol run elmJson text majorUpgrade majorIgnoreTest

end ElmWrap
