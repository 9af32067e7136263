import ElmWrap.Orphans.Facts

/-!
# `cmd_remove`

The command that removes packages from a project, from the validation of the
names to the saving of `elm.json`. For an application the requested packages are
moved to the indirect ones for as long as the orphaned packages are computed;
those that something still needs are then demoted, the others removed together
with what nothing needs any more.
-/

namespace ElmWrap

open Lib

/-- What a run of the command meets: the cache, whether the environment and the rule engine can
be set up, the confirmation, and whether `elm.json` can be written. -/
structure RemoveRun where
  cache : PackageCache
  envWorks : Bool
  ruleWorks : Bool
  autoYes : Bool
  /-- The first character of the answer; `none` where no answer can be read. -/
  response : Option Char
  saves : Bool

/-- How the command ends. -/
inductive RemoveOutcome
  /-- With an error, before anything is saved. -/
  | failed
  /-- The user has said no. -/
  | aborted
  /-- `elm_json_write` has failed. -/
  | notSaved
  | removed
deriving DecidableEq, Repr

/-- The exit code. -/
def RemoveOutcome.code : RemoveOutcome → Nat
  | .failed => 1
  | .aborted => 0
  | .notSaved => 1
  | .removed => 0

/-- The outcome, `elm_json` at the end, and the file. -/
structure RemoveResult where
  outcome : RemoveOutcome
  memory : Option ElmJson
  disk : Option ElmJson

/-! ## Targets -/

/-- `RemovalTarget`, without `demote`. -/
structure RemovalTarget where
  name : PackageName
  version : Option String
  sourceMap : Option ElmJsonMap
  demoteMap : Option ElmJsonMap

/-- The indirect counterpart of a map. -/
def ElmJsonMap.indirect : ElmJsonMap → Option ElmJsonMap
  | .dependenciesDirect => some .dependenciesIndirect
  | .dependenciesTestDirect => some .dependenciesTestIndirect
  | _ => none

/-- The first step. -/
def removalTarget (elmJson : ElmJson) (name : PackageName) : RemovalTarget where
  name := name
  version := (findExistingPackage elmJson name).map Package.version
  sourceMap := findPackageMap elmJson name
  demoteMap := (findPackageMap elmJson name).bind ElmJsonMap.indirect

/-- A target moved to its indirect counterpart. -/
def moveToDemote (elmJson : ElmJson) (target : RemovalTarget) : ElmJson :=
  match target.demoteMap, target.version, target.sourceMap with
  | some demoteMap, some version, some sourceMap =>
    elmJson.move target.name version sourceMap demoteMap
  | _, _, _ => elmJson

/-- A target moved back. -/
def moveBack (elmJson : ElmJson) (target : RemovalTarget) : ElmJson :=
  match target.demoteMap, target.version, target.sourceMap with
  | some demoteMap, some version, some sourceMap =>
    elmJson.move target.name version demoteMap sourceMap
  | _, _, _ => elmJson

/-- `demote`: the target is not among the orphaned packages. -/
def RemovalTarget.demote (orphaned : PackageMap) (target : RemovalTarget) : Bool :=
  target.demoteMap.isSome && (packageMapFind orphaned target.name).isNone

/-- `install_plan_add_change` of a removal. -/
def addRemoval (plan : InstallPlan) (name : PackageName) (version : String) : InstallPlan :=
  (installPlanAddChange plan name (some version) none).getD plan

/-- The removal of a target that is not demoted. -/
def addTargetRemoval (orphaned : PackageMap) (plan : InstallPlan) (target : RemovalTarget) :
    InstallPlan :=
  match target.version with
  | some version => if target.demote orphaned then plan else addRemoval plan target.name version
  | none => plan

/-- The removal of an orphaned package that is no target. -/
def addOrphanRemoval (targets : List RemovalTarget) (plan : InstallPlan) (p : Package) :
    InstallPlan :=
  if targets.any fun target => target.name = p.name then plan else addRemoval plan p.name p.version

/-- The removals of targets, followed by those of the other orphaned packages. -/
def removalPlan (targets : List RemovalTarget) (orphaned : PackageMap) : InstallPlan :=
  orphaned.packages.foldl (addOrphanRemoval targets)
    (targets.foldl (addTargetRemoval orphaned) [])

/-- The order of `compare_package_changes`. -/
def PackageChange.key (change : PackageChange) : String ×ₗ String :=
  toLex (change.name.author, change.name.project)

/-! ## The command -/

/-- The confirmation; `none` where the answer cannot be read. -/
def RemoveRun.confirmed (run : RemoveRun) : Option Bool :=
  if run.autoYes then some true
  else run.response.map fun c => c = 'Y' || c = 'y' || c = '\n'

/-- `elm_json_write` and the end of the command. -/
def saveAndFinish (run : RemoveRun) (disk : Option ElmJson) (elmJson : ElmJson) : RemoveResult :=
  let elmJson := elmJson.sortMaps
  if run.saves then ⟨.removed, some elmJson, some elmJson⟩ else ⟨.notSaved, some elmJson, disk⟩

/-- The branch for applications. -/
def removeFromApplication (run : RemoveRun) (disk : Option ElmJson) (elmJson : ElmJson)
    (names : List PackageName) : RemoveResult :=
  let targets := names.map (removalTarget elmJson)
  let elmJson := targets.foldl moveToDemote elmJson
  let orphaned := findOrphanedPackages run.ruleWorks elmJson run.cache []
  let elmJson := targets.foldl moveBack elmJson
  match orphaned with
  | none => ⟨.failed, some elmJson, disk⟩
  | some orphaned =>
    let plan := Keyed.sortBy PackageChange.key (removalPlan targets orphaned)
    match run.confirmed with
    | none => ⟨.failed, some elmJson, disk⟩
    | some false => ⟨.aborted, some elmJson, disk⟩
    | some true =>
      let elmJson := targets.foldl (fun elmJson target =>
        if target.demote orphaned then moveToDemote elmJson target else elmJson) elmJson
      let elmJson := plan.foldl (fun elmJson change => removeFromAllAppMaps elmJson change.name)
        elmJson
      saveAndFinish run disk elmJson

/-- A package taken out of the two maps of a package project. -/
def removeFromPackageMaps (elmJson : ElmJson) (name : PackageName) : ElmJson :=
  let elmJson := elmJson.setMap .packageDependencies
    (packageMapRemove (elmJson.maps .packageDependencies) name)
  elmJson.setMap .packageTestDependencies
    (packageMapRemove (elmJson.maps .packageTestDependencies) name)

/-- The removal of a package that is listed. -/
def addPackageRemoval (elmJson : ElmJson) (plan : InstallPlan) (name : PackageName) :
    InstallPlan :=
  match findExistingPackage elmJson name with
  | some p => addRemoval plan name p.version
  | none => plan

/-- The branch for packages. -/
def removeFromPackage (run : RemoveRun) (disk : Option ElmJson) (elmJson : ElmJson)
    (names : List PackageName) : RemoveResult :=
  let plan := Keyed.sortBy PackageChange.key (names.foldl (addPackageRemoval elmJson) [])
  match run.confirmed with
  | none => ⟨.failed, some elmJson, disk⟩
  | some false => ⟨.aborted, some elmJson, disk⟩
  | some true =>
    saveAndFinish run disk
      (plan.foldl (fun elmJson change => removeFromPackageMaps elmJson change.name) elmJson)

/-- `cmd_remove` with names of packages. -/
def cmdRemove (run : RemoveRun) (disk : Option ElmJson) (package_names : List String) :
    RemoveResult :=
  if package_names = [] then ⟨.failed, none, disk⟩
  else
    match disk with
    | none => ⟨.failed, none, disk⟩
    | some elmJson =>
      match package_names.mapM parsePackageName with
      | none => ⟨.failed, some elmJson, disk⟩
      | some names =>
        if names.any fun name => (findExistingPackage elmJson name).isNone then
          ⟨.failed, some elmJson, disk⟩
        else if !run.envWorks then ⟨.failed, some elmJson, disk⟩
        else if elmJson.type = .application then removeFromApplication run disk elmJson names
        else removeFromPackage run disk elmJson names

end ElmWrap
