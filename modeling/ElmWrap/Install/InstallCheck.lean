import ElmWrap.ConstraintText
import ElmWrap.Lib.Greatest
import ElmWrap.Registry.Operations
import ElmWrap.Registry.Resolve
import ElmWrap.Solver.PgElm
import Mathlib.Order.Bounds.Basic

/-!
# Which upgrades are reported

`install_check.c`: for every listed package of an application the greatest newer
versions with the same and with a higher major version, for every dependency of a
package the greatest version beyond its constraint. There is one copy of each scan
for the V1 registry and one for the V2 registry.
-/

namespace ElmWrap

open Lib

/-! ## The scans -/

/-- `compare_versions`. -/
def compareVersions (v1 v2 : String) : Int :=
  match versionParseSafe v1 with
  | none => -1
  | some v1 =>
    match versionParseSafe v2 with
    | none => -1
    | some v2 => versionCompare v1 v2

/-- `is_minor_upgrade`. -/
def isMinorUpgrade (current candidate : String) : Bool :=
  match versionParseSafe current with
  | none => false
  | some curr =>
    match versionParseSafe candidate with
    | none => false
    | some cand => cand.major = curr.major && versionCompare cand curr > 0

/-- `is_major_upgrade`. -/
def isMajorUpgrade (current candidate : String) : Bool :=
  match versionParseSafe current with
  | none => false
  | some curr =>
    match versionParseSafe candidate with
    | none => false
    | some cand => cand.major > curr.major

/-- The version is kept when there is none yet or it is greater. -/
def keepLatest (latest : Option String) (verStr : String) : Option String :=
  match latest with
  | none => some verStr
  | some l => if compareVersions verStr l > 0 then some verStr else some l

/-- The body of the loop of `find_latest_versions`: the latest minor and major upgrade. -/
def latestUpgrades (currentVersion : String) (latest : Option String × Option String)
    (verStr : String) : Option String × Option String :=
  (if isMinorUpgrade currentVersion verStr then keepLatest latest.1 verStr else latest.1,
    if isMajorUpgrade currentVersion verStr then keepLatest latest.2 verStr else latest.2)

/-- `find_latest_versions`. -/
def findLatestVersions (registry : Registry) (author name currentVersion : String) :
    Option String × Option String :=
  match registryFind registry author name with
  | none => (none, none)
  | some entry => entry.versions.foldl (fun latest v =>
    latestUpgrades currentVersion latest (versionToString v)) (none, none)

/-- `find_latest_versions_v2`. -/
def findLatestVersionsV2 (registry : V2Registry) (author name currentVersion : String) :
    Option String × Option String :=
  match v2RegistryFind registry author name with
  | none => (none, none)
  | some entry => entry.versions.foldl (fun latest v =>
    if v.status ≠ .valid then latest
    else latestUpgrades currentVersion latest (versionFormat v.major v.minor v.patch))
      (none, none)

/-- `find_versions_beyond_constraint`. -/
def findVersionsBeyondConstraint (registry : Registry) (author name constraint : String) :
    Option String :=
  match versionParseConstraint constraint with
  | none => none
  | some range =>
    match registryFind registry author name with
    | none => none
    | some entry => entry.versions.foldl (fun latestBeyond v =>
      -- a version that is the upper bound counts, also where the constraint admits it
      if versionCompare v range.upper.v ≥ 0 then keepLatest latestBeyond (versionToString v)
      else latestBeyond) none

/-- `find_versions_beyond_constraint_v2`. -/
def findVersionsBeyondConstraintV2 (registry : V2Registry) (author name constraint : String) :
    Option String :=
  match versionParseConstraint constraint with
  | none => none
  | some range =>
    match v2RegistryFind registry author name with
    | none => none
    | some entry => entry.versions.foldl (fun latestBeyond v =>
      if v.status ≠ .valid then latestBeyond
      else if versionCompare ⟨v.major, v.minor, v.patch⟩ range.upper.v ≥ 0 then
        keepLatest latestBeyond (versionFormat v.major v.minor v.patch)
      else latestBeyond) none

/-! ## The report -/

/-- `PackageUpgrade`; the flags say which of the two versions are there. -/
structure PackageUpgrade where
  name : PackageName
  currentVersion : String
  latestMinor : Option String
  latestMajor : Option String
  isTestDependency : Bool
deriving DecidableEq

/-- `has_minor_upgrade`. -/
def PackageUpgrade.hasMinorUpgrade (upg : PackageUpgrade) : Bool := upg.latestMinor.isSome

/-- `has_major_upgrade`. -/
def PackageUpgrade.hasMajorUpgrade (upg : PackageUpgrade) : Bool := upg.latestMajor.isSome

/-- What is collected for a package, when anything has been found. -/
def packageUpgrade (pkg : Package) (isTest : Bool) (latest : Option String × Option String) :
    Option PackageUpgrade :=
  if latest.1.isSome || latest.2.isSome then
    some ⟨pkg.name, pkg.version, latest.1, latest.2, isTest⟩
  else none

/-- The loop of `check_package_map_upgrades` and of `check_package_constraint_upgrades`, also
in the V2 copies: they differ in the scan. -/
def checkPackageMap (scan : Package → Option String × Option String) (map : PackageMap)
    (isTest : Bool) : List PackageUpgrade :=
  map.packages.filterMap fun pkg => packageUpgrade pkg isTest (scan pkg)

/-- `check_package_map_upgrades`. -/
def checkPackageMapUpgrades (map : PackageMap) (registry : Registry) (isTest : Bool) :
    List PackageUpgrade :=
  checkPackageMap (fun pkg =>
    findLatestVersions registry pkg.name.author pkg.name.project pkg.version) map isTest

/-- `check_package_map_upgrades_v2`. -/
def checkPackageMapUpgradesV2 (map : PackageMap) (registry : V2Registry) (isTest : Bool) :
    List PackageUpgrade :=
  checkPackageMap (fun pkg =>
    findLatestVersionsV2 registry pkg.name.author pkg.name.project pkg.version) map isTest

/-- `check_package_constraint_upgrades`. -/
def checkPackageConstraintUpgrades (map : PackageMap) (registry : Registry) (isTest : Bool) :
    List PackageUpgrade :=
  checkPackageMap (fun pkg => (none, findVersionsBeyondConstraint registry pkg.name.author
    pkg.name.project pkg.version)) map isTest

/-- `check_package_constraint_upgrades_v2`. -/
def checkPackageConstraintUpgradesV2 (map : PackageMap) (registry : V2Registry)
    (isTest : Bool) : List PackageUpgrade :=
  checkPackageMap (fun pkg => (none, findVersionsBeyondConstraintV2 registry pkg.name.author
    pkg.name.project pkg.version)) map isTest

/-- `compare_package_names`. -/
def comparePackageNames (a b : PackageUpgrade) : Int :=
  if a.isTestDependency ≠ b.isTestDependency then if a.isTestDependency then 1 else -1
  else if a.name.full < b.name.full then -1
  else if b.name.full < a.name.full then 1
  else if a.hasMinorUpgrade && !a.hasMajorUpgrade && b.hasMajorUpgrade && !b.hasMinorUpgrade then
    -1
  else if a.hasMajorUpgrade && !a.hasMinorUpgrade && b.hasMinorUpgrade && !b.hasMajorUpgrade then
    1
  else 0

/-- What the command returns, and the upgrades in the order in which it prints them. -/
structure UpgradeReport where
  code : Nat
  upgrades : List PackageUpgrade
deriving DecidableEq

/-- `EXIT_NO_UPGRADES_AVAILABLE`. -/
def exitNoUpgradesAvailable : Nat := 100

/-- The end of `check_all_upgrades` and `check_all_upgrades_v2`. -/
def printUpgrades (upgrades : List PackageUpgrade) : UpgradeReport :=
  if upgrades.length = 0 then ⟨exitNoUpgradesAvailable, []⟩
  else ⟨0, upgrades.mergeSort fun a b => comparePackageNames a b ≤ 0⟩

/-- `check_all_upgrades`; `none` for an `elm.json` that cannot be read. -/
def checkAllUpgrades (elmJson : Option ElmJson) (registry : Option Registry) : UpgradeReport :=
  match registry with
  | none => ⟨1, []⟩
  | some registry =>
    match elmJson with
    | none => ⟨1, []⟩
    | some elmJson => printUpgrades (match elmJson.type with
      | .application =>
        checkPackageMapUpgrades (elmJson.maps .dependenciesDirect) registry false ++
          checkPackageMapUpgrades (elmJson.maps .dependenciesIndirect) registry false ++
          checkPackageMapUpgrades (elmJson.maps .dependenciesTestDirect) registry true ++
          checkPackageMapUpgrades (elmJson.maps .dependenciesTestIndirect) registry true
      | .package =>
        checkPackageConstraintUpgrades (elmJson.maps .packageDependencies) registry false ++
          checkPackageConstraintUpgrades (elmJson.maps .packageTestDependencies) registry true)

/-- `check_all_upgrades_v2`. -/
def checkAllUpgradesV2 (elmJson : Option ElmJson) (registry : Option V2Registry) :
    UpgradeReport :=
  match registry with
  | none => ⟨1, []⟩
  | some registry =>
    match elmJson with
    | none => ⟨1, []⟩
    | some elmJson => printUpgrades (match elmJson.type with
      | .application =>
        checkPackageMapUpgradesV2 (elmJson.maps .dependenciesDirect) registry false ++
          checkPackageMapUpgradesV2 (elmJson.maps .dependenciesIndirect) registry false ++
          checkPackageMapUpgradesV2 (elmJson.maps .dependenciesTestDirect) registry true ++
          checkPackageMapUpgradesV2 (elmJson.maps .dependenciesTestIndirect) registry true
      | .package =>
        checkPackageConstraintUpgradesV2 (elmJson.maps .packageDependencies) registry false ++
          checkPackageConstraintUpgradesV2 (elmJson.maps .packageTestDependencies) registry true)

/-! ## What is to be reported -/

/-- The result is the greatest of the candidates, as text, and nothing where there are none. -/
def ReportsGreatest (candidate : Version → Prop) (result : Option String) : Prop :=
  ∀ text, result = some text ↔ ∃ v, IsGreatest {w | candidate w} v ∧ text = versionToString v

/-- The versions that a registry lists for a package. -/
abbrev VersionListing := PackageName → Version → Prop

/-- The listed versions of a V1 registry. -/
def Registry.offered (registry : Registry) : VersionListing :=
  fun name => registry.Lists name.author name.project

/-- The valid versions of a V2 registry. -/
def V2Registry.offered (registry : V2Registry) : VersionListing :=
  fun name v => v ∈ registry.validVersions name

/-- A newer version with the same major version, of a package of an application. -/
def MinorUpgrade (type : ElmProjectType) (listing : VersionListing) (pkg : Package) (w : Version) :
    Prop :=
  type = .application ∧ listing pkg.name w ∧
    ∃ current, versionParseSafe pkg.version = some current ∧
      w.major = current.major ∧ current < w

/-- A version with a higher major version, of a package of an application; one above
everything that the constraint admits, of a dependency of a package. -/
def MajorUpgrade (type : ElmProjectType) (listing : VersionListing) (pkg : Package) (w : Version) :
    Prop :=
  listing pkg.name w ∧
    match type with
    | .application => ∃ current, versionParseSafe pkg.version = some current ∧
        current.major < w.major
    | .package => ∃ range, versionParseConstraint pkg.version = some range ∧
        ∀ u, versionInRange u range = true → u < w

/-- The listed packages and whether they are test dependencies. -/
def ElmJson.checked (elmJson : ElmJson) : List (Package × Bool) :=
  elmJson.type.maps.flatMap fun field => (elmJson.maps field).packages.map fun pkg =>
    (pkg, field ∈ [.dependenciesTestDirect, .dependenciesTestIndirect, .packageTestDependencies])

/-- The upgrades are exactly those there are of the listed packages. -/
def ReportsExactly (elmJson : ElmJson) (listing : VersionListing) (upgrades : List PackageUpgrade) :
    Prop :=
  ∃ latest : Package → Option String × Option String,
    (∀ pkg, elmJson.Lists pkg →
      ReportsGreatest (MinorUpgrade elmJson.type listing pkg) (latest pkg).1 ∧
        ReportsGreatest (MajorUpgrade elmJson.type listing pkg) (latest pkg).2) ∧
    upgrades.Perm (elmJson.checked.filterMap fun p => packageUpgrade p.1 p.2 (latest p.1))

/-- Both copies report exactly the upgrades there are, and the same ones when the registries
list the same versions. -/
structure UpgradesRight (elmJson : ElmJson) (registry : Registry) (v2Registry : V2Registry) :
    Prop where
  v1 : ReportsExactly elmJson registry.offered
    (checkAllUpgrades (some elmJson) (some registry)).upgrades
  v2 : ReportsExactly elmJson v2Registry.offered
    (checkAllUpgradesV2 (some elmJson) (some v2Registry)).upgrades
  same : (∀ name w, registry.offered name w ↔ v2Registry.offered name w) →
    checkAllUpgrades (some elmJson) (some registry) =
      checkAllUpgradesV2 (some elmJson) (some v2Registry)

theorem ReportsGreatest.unique {candidate : Version → Prop} {result result' : Option String}
    (one : ReportsGreatest candidate result) (two : ReportsGreatest candidate result') :
    result = result' :=
  Option.ext fun text => (one text).trans (two text).symm

/-! ## The scans find the greatest -/

/-- The greatest of some versions, as text. -/
def greatestText (versions : List Version) : Option String :=
  (versions.foldl (Greatest.keepGreater Version.key) none).map versionToString

theorem reportsGreatest_greatestText {versions : List Version} {candidate : Version → Prop}
    (members : ∀ w, w ∈ versions ↔ candidate w) :
    ReportsGreatest candidate (greatestText versions) := by
  have keeps := Greatest.keeps_foldl Version.key versions
  intro text
  unfold greatestText
  rw [Option.map_eq_some_iff]
  constructor
  · rintro ⟨v, kept, rfl⟩
    obtain ⟨member, above⟩ := keeps.greatest v kept
    exact ⟨v, ⟨(members v).mp member, fun w candidate => above w ((members w).mpr candidate)⟩,
      rfl⟩
  · rintro ⟨v, ⟨candidate_v, above⟩, rfl⟩
    have member := (members v).mpr candidate_v
    cases kept : versions.foldl (Greatest.keepGreater Version.key) none with
    | none =>
      rw [keeps.failure.mp kept] at member
      cases member
    | some w =>
      obtain ⟨inside, greatest⟩ := keeps.greatest w kept
      have le := above ((members w).mp inside)
      exact ⟨w, rfl, congrArg versionToString (le_antisymm le (greatest v member))⟩

theorem compareVersions_toString (v w : Version) :
    compareVersions (versionToString v) (versionToString w) = versionCompare v w := by
  unfold compareVersions
  rw [versionParseSafe_versionToString, versionParseSafe_versionToString]

/-- Keeping the latest text is keeping the greater version. -/
theorem keepLatest_map (latest : Option Version) (v : Version) :
    keepLatest (latest.map versionToString) (versionToString v) =
      (Greatest.keepGreater Version.key latest v).map versionToString := by
  cases latest with
  | none => rfl
  | some l =>
    simp only [keepLatest, Greatest.keepGreater, Option.map_some, compareVersions_toString,
      versionCompare_above]
    split
    · rfl
    · rfl

/-- A scan that keeps the latest of the versions that pass a test. -/
theorem foldl_keepLatest (test : Version → Bool) (versions : List Version) :
    versions.foldl (fun latest v => if test v then keepLatest latest (versionToString v)
        else latest) none = greatestText (versions.filter test) := by
  unfold greatestText
  rw [← List.foldl_filter]
  induction versions.filter test using List.reverseRecOn with
  | nil => rfl
  | append_singleton versions v ih =>
    rw [List.foldl_append, List.foldl_append, ih, List.foldl_cons, List.foldl_nil,
      List.foldl_cons, List.foldl_nil, keepLatest_map]

/-- The two scans of `latestUpgrades` do not look at each other. -/
theorem foldl_latestUpgrades (currentVersion : String) (versions : List Version) :
    versions.foldl (fun latest v =>
        latestUpgrades currentVersion latest (versionToString v)) (none, none) =
      (greatestText (versions.filter fun v => isMinorUpgrade currentVersion (versionToString v)),
        greatestText (versions.filter fun v =>
          isMajorUpgrade currentVersion (versionToString v))) := by
  rw [← foldl_keepLatest, ← foldl_keepLatest]
  induction versions using List.reverseRecOn with
  | nil => rfl
  | append_singleton versions v ih =>
    rw [List.foldl_append, List.foldl_append, List.foldl_append, ih]
    rfl

/-! ## One copy and the other -/

/-- The versions of the package in the order in which a scan meets them. -/
def Registry.versionsOf (registry : Registry) (name : PackageName) : List Version :=
  (registryFind registry name.author name.project).elim [] RegistryEntry.versions

theorem Registry.mem_versionsOf {registry : Registry} {name : PackageName} {v : Version} :
    v ∈ registry.versionsOf name ↔ registry.offered name v := by
  unfold versionsOf offered Lists
  cases registryFind registry name.author name.project with
  | none => simp
  | some entry => simp

theorem V2Registry.mem_validVersions {registry : V2Registry} {name : PackageName} {v : Version} :
    v ∈ registry.validVersions name ↔ registry.offered name v := Iff.rfl

theorem findLatestVersions_eq (registry : Registry) (name : PackageName)
    (currentVersion : String) :
    findLatestVersions registry name.author name.project currentVersion =
      (registry.versionsOf name).foldl (fun latest v =>
        latestUpgrades currentVersion latest (versionToString v)) (none, none) := by
  unfold findLatestVersions Registry.versionsOf
  cases registryFind registry name.author name.project with
  | none => rfl
  | some entry => rfl

theorem findLatestVersionsV2_eq (registry : V2Registry) (name : PackageName)
    (currentVersion : String) :
    findLatestVersionsV2 registry name.author name.project currentVersion =
      (registry.validVersions name).foldl (fun latest v =>
        latestUpgrades currentVersion latest (versionToString v)) (none, none) := by
  unfold findLatestVersionsV2 V2Registry.validVersions
  cases v2RegistryFind registry name.author name.project with
  | none => rfl
  | some entry =>
    dsimp only
    rw [List.foldl_map, List.foldl_filter]
    congr 1
    funext latest v
    by_cases valid : v.status = .valid
    · rw [if_neg (not_not.mpr valid), if_pos (decide_eq_true valid)]
      rfl
    · rw [if_pos valid, if_neg (by simpa using valid)]

theorem findVersionsBeyondConstraint_eq {registry : Registry} {name : PackageName}
    {constraint : String} {range : VersionRange}
    (parsed : versionParseConstraint constraint = some range) :
    findVersionsBeyondConstraint registry name.author name.project constraint =
      greatestText ((registry.versionsOf name).filter fun v =>
        versionCompare v range.upper.v ≥ 0) := by
  rw [← foldl_keepLatest]
  unfold findVersionsBeyondConstraint Registry.versionsOf
  rw [parsed]
  cases registryFind registry name.author name.project with
  | none => rfl
  | some entry => simp only [Option.elim, decide_eq_true_eq]

theorem findVersionsBeyondConstraintV2_eq {registry : V2Registry} {name : PackageName}
    {constraint : String} {range : VersionRange}
    (parsed : versionParseConstraint constraint = some range) :
    findVersionsBeyondConstraintV2 registry name.author name.project constraint =
      greatestText ((registry.validVersions name).filter fun v =>
        versionCompare v range.upper.v ≥ 0) := by
  rw [← foldl_keepLatest]
  unfold findVersionsBeyondConstraintV2 V2Registry.validVersions
  rw [parsed]
  cases v2RegistryFind registry name.author name.project with
  | none => rfl
  | some entry =>
    dsimp only
    rw [List.foldl_map, List.foldl_filter]
    congr 1
    funext latest v
    by_cases valid : v.status = .valid
    · rw [if_neg (not_not.mpr valid), if_pos (decide_eq_true valid)]
      simp only [decide_eq_true_eq]
      rfl
    · rw [if_pos valid, if_neg (by simpa using valid)]

end ElmWrap
