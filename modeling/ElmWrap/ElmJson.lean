import ElmWrap.PackageName
import Mathlib.Data.List.Nodup

/-!
# `elm.json` and install plans

The package maps of `elm_json.c`, and what `package_common.c` and
`install_cmd.c` do with them: a map never lists a package twice, and a plan is
applied change by change.
-/

namespace ElmWrap

/-- `Package`: an entry of a package map. -/
structure Package where
  name : PackageName
  version : String
deriving DecidableEq

/-- `PackageMap`; `package_map_add` refuses a package that is there already. -/
structure PackageMap where
  packages : List Package
  nodup : (packages.map Package.name).Nodup
deriving DecidableEq

/-- `package_map_create`. -/
def packageMapCreate : PackageMap := ⟨[], List.nodup_nil⟩

/-- `package_map_find`. -/
def packageMapFind (map : PackageMap) (name : PackageName) : Option Package :=
  map.packages.find? fun p => p.name = name

theorem packageMapFind_some {map : PackageMap} {name : PackageName} {p : Package}
    (found : packageMapFind map name = some p) : p ∈ map.packages ∧ p.name = name :=
  ⟨List.mem_of_find?_eq_some found, by simpa using List.find?_some found⟩

theorem packageMapFind_none {map : PackageMap} {name : PackageName}
    (missing : packageMapFind map name = none) : name ∉ map.packages.map Package.name := by
  intro member
  obtain ⟨p, on, same⟩ := List.mem_map.mp member
  have other := List.find?_eq_none.mp missing p on
  simp [same] at other

theorem packageMapFind_mem {map : PackageMap} {p : Package} (member : p ∈ map.packages) :
    packageMapFind map p.name = some p := by
  cases found : packageMapFind map p.name with
  | none => exact absurd (List.mem_map_of_mem member) (packageMapFind_none found)
  | some q =>
    obtain ⟨on, same⟩ := packageMapFind_some found
    rw [List.inj_on_of_nodup_map map.nodup on member same]

/-- `package_map_add`; `none` when it returns `false`. -/
def packageMapAdd (map : PackageMap) (name : PackageName) (version : String) :
    Option PackageMap :=
  if missing : packageMapFind map name = none then
    some {
      packages := map.packages ++ [⟨name, version⟩]
      nodup := by
        rw [List.map_append]
        refine List.nodup_append.mpr ⟨map.nodup, List.nodup_singleton _, ?_⟩
        intro a on b new same
        have here : a = name := same.trans (List.mem_singleton.mp new)
        subst here
        exact packageMapFind_none missing on }
  else none

/-- The assignment to `existing->version`. -/
def packageMapUpdate (map : PackageMap) (name : PackageName) (version : String) : PackageMap where
  packages := map.packages.map fun p => if p.name = name then { p with version := version } else p
  nodup := by
    have names : (fun p : Package => (if p.name = name then { p with version := version }
        else p).name) = Package.name := by
      funext p
      split <;> rfl
    rw [List.map_map]
    exact (congrArg (fun f => (map.packages.map f).Nodup) names).mpr map.nodup

/-- `ElmProjectType`. -/
inductive ElmProjectType
  | application
  | package
deriving DecidableEq, Repr

/-- The package maps of an `ElmJson`. -/
inductive ElmJsonMap
  | dependenciesDirect
  | dependenciesIndirect
  | dependenciesTestDirect
  | dependenciesTestIndirect
  | packageDependencies
  | packageTestDependencies
deriving DecidableEq, Repr

/-- `ElmJson`. A map the source leaves `NULL` is empty here. -/
structure ElmJson where
  type : ElmProjectType
  maps : ElmJsonMap → PackageMap

/-- The maps of a project of this type, in the order in which the source goes
through them. -/
def ElmProjectType.maps : ElmProjectType → List ElmJsonMap
  | .application =>
    [.dependenciesDirect, .dependenciesIndirect, .dependenciesTestDirect,
      .dependenciesTestIndirect]
  | .package => [.packageDependencies, .packageTestDependencies]

def ElmJson.setMap (elmJson : ElmJson) (field : ElmJsonMap) (map : PackageMap) : ElmJson :=
  { elmJson with maps := Function.update elmJson.maps field map }

/-- A package of `elm.json`: it is an entry of one of the maps. -/
def ElmJson.Lists (elmJson : ElmJson) (p : Package) : Prop :=
  ∃ field ∈ elmJson.type.maps, p ∈ (elmJson.maps field).packages

/-- `collect_current_packages`: of a package listed in several maps the first
entry counts, `package_map_add` refuses the others. -/
def collectCurrentPackages (elmJson : ElmJson) : PackageMap :=
  (elmJson.type.maps.flatMap fun field => (elmJson.maps field).packages).foldl
    (fun current p => (packageMapAdd current p.name p.version).getD current) packageMapCreate

/-- `find_package_map`. -/
def findPackageMap (elmJson : ElmJson) (name : PackageName) : Option ElmJsonMap :=
  elmJson.type.maps.find? fun field => (packageMapFind (elmJson.maps field) name).isSome

/-- `find_existing_package`. -/
def findExistingPackage (elmJson : ElmJson) (name : PackageName) : Option Package :=
  elmJson.type.maps.findSome? fun field => packageMapFind (elmJson.maps field) name

/-- `version_to_constraint`. -/
def versionToConstraint (version : String) : Option String :=
  match Lib.Scan.sscanf version "%d.%d.%d" with
  | [major, minor, patch] =>
    some (toString major ++ "." ++ toString minor ++ "." ++ toString patch ++ " <= v < " ++
      toString (major + 1) ++ ".0.0")
  | _ => none

/-- The map `add_or_update_package_in_elm_json` adds a new package to. -/
def targetMap (type : ElmProjectType) (isTest isDirect : Bool) : ElmJsonMap :=
  match type with
  | .application =>
    if isTest then
      if isDirect then .dependenciesTestDirect else .dependenciesTestIndirect
    else if isDirect then .dependenciesDirect else .dependenciesIndirect
  | .package => if isTest then .packageTestDependencies else .packageDependencies

/-- `add_or_update_package_in_elm_json`; `none` when it returns `false`. Where it
adds a package, none of the maps lists it, so that `remove_from_all_app_maps` has
nothing to remove. -/
def addOrUpdatePackageInElmJson (elmJson : ElmJson) (name : PackageName) (version : String)
    (isTest isDirect : Bool) : Option ElmJson :=
  let versionToAdd := match elmJson.type with
    | .application => version
    | .package => (versionToConstraint version).getD version
  match findPackageMap elmJson name with
  | some field =>
    some (elmJson.setMap field (packageMapUpdate (elmJson.maps field) name versionToAdd))
  | none =>
    let field := targetMap elmJson.type isTest isDirect
    (packageMapAdd (elmJson.maps field) name versionToAdd).map (elmJson.setMap field)

/-! ## Install plans -/

/-- `PackageChange`. -/
structure PackageChange where
  name : PackageName
  oldVersion : Option String
  newVersion : Option String
deriving DecidableEq

/-- `InstallPlan`. -/
abbrev InstallPlan := List PackageChange

/-- `install_plan_add_change`; `none` when it returns `false`. -/
def installPlanAddChange (plan : InstallPlan) (name : PackageName)
    (oldVersion newVersion : Option String) : Option InstallPlan :=
  if oldVersion = none ∧ newVersion = none then none
  else some (plan ++ [⟨name, oldVersion, newVersion⟩])

/-- The body of the loop with which `install_package` and
`install_multiple_packages` apply a plan; `requested` are the packages asked for. -/
def applyChange (requested : List PackageName) (isTest : Bool) (elmJson : ElmJson)
    (change : PackageChange) : Option ElmJson :=
  let isRequestedPackage := requested.contains change.name
  if elmJson.type = .package &&
      (!isRequestedPackage || (findExistingPackage elmJson change.name).isSome) then some elmJson
  else
    let isDirect := match elmJson.type, findPackageMap elmJson change.name with
      | .application, some field => field = .dependenciesDirect || field = .dependenciesTestDirect
      | _, _ => isRequestedPackage
    match change.newVersion with
    | none => none
    | some version => addOrUpdatePackageInElmJson elmJson change.name version isTest isDirect

/-- The loop itself. -/
def applyPlan (requested : List PackageName) (isTest : Bool) (elmJson : ElmJson)
    (plan : InstallPlan) : Option ElmJson :=
  plan.foldlM (applyChange requested isTest) elmJson

end ElmWrap
