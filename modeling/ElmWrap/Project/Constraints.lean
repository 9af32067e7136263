import ElmWrap.Project.Operations
import ElmWrap.Remove.Needed

/-!
# Constraints of a package project

A package project lists constraints. The writers of the commands make one of the
version they have chosen, except those of `upgrade_v2.c`, which write the version
itself.
-/

namespace ElmWrap

open Lib

/-! ## Constraints -/

/-- `version_parse_constraint` reads the text as a range, and not as a single version. -/
def isConstraint (text : String) : Bool :=
  match Scan.sscanf text " %d.%d.%d <= v < %d.%d.%d" with
  | [lowerMajor, lowerMinor, lowerPatch, upperMajor, upperMinor, upperPatch] =>
    0 ≤ lowerMajor && 0 ≤ lowerMinor && 0 ≤ lowerPatch && 0 ≤ upperMajor && 0 ≤ upperMinor &&
      0 ≤ upperPatch
  | _ => false

/-- The text is a constraint, and its range has the version. -/
def admits (text : String) (v : Version) : Bool :=
  match versionParseConstraint text with
  | some range => isConstraint text && versionInRange v range
  | none => false

theorem isConstraint_of_admits {text : String} {v : Version} (there : admits text v = true) :
    isConstraint text = true := by
  unfold admits at there
  split at there
  · exact (Bool.and_eq_true_iff.mp there).1
  · cases there

/-- A version is in the range up to the next major one, where that can be stored. -/
theorem versionInRange_untilNextMajor {v : Version} (below : v.major ≠ 65535) :
    versionInRange v (pgRangeUntilNextMajor v) = true := by
  have number : v.major.toNat ≠ 65535 := fun same => below (UInt16.toNat_inj.mp same)
  have bound := v.major.toNat_lt
  have next : (v.major + 1).toNat = v.major.toNat + 1 := by
    rw [UInt16.toNat_add]
    apply Nat.mod_eq_of_lt
    have one : (1 : UInt16).toNat = 1 := rfl
    omega
  have different : v.major ≠ v.major + 1 := by
    intro same
    have numbers := congrArg UInt16.toNat same
    omega
  have low : versionCompare v v = 0 := versionCompare_eq_zero.mpr rfl
  have high : versionCompare v ⟨v.major + 1, 0, 0⟩ < 0 := by
    unfold versionCompare
    rw [if_pos different, next]
    omega
  unfold versionInRange pgRangeUntilNextMajor
  simp [low]
  omega

theorem admits_of_scanned {written : String} {a b c : Nat}
    (scanned : Scan.sscanf written " %d.%d.%d <= v < %d.%d.%d" =
      [(a : Int), b, c, ((a + 1 : Nat) : Int), (0 : Nat), (0 : Nat)])
    (below : castUInt16 a ≠ 65535) :
    admits written ⟨castUInt16 a, castUInt16 b, castUInt16 c⟩ = true := by
  have upper : castUInt16 ((a + 1 : Nat) : Int) = castUInt16 a + 1 := UInt16.ofNat_add a 1
  have range : versionParseConstraint written = some (pgRangeUntilNextMajor
      ⟨castUInt16 a, castUInt16 b, castUInt16 c⟩) := by
    unfold versionParseConstraint
    rw [scanned]
    dsimp only
    rw [upper, if_neg (by simp; omega)]
    rfl
  have constraint : isConstraint written = true := by
    unfold isConstraint
    rw [scanned]
    simp
    omega
  unfold admits
  rw [range, constraint]
  exact versionInRange_untilNextMajor below

/-- The constraint made of a version admits it. -/
theorem versionToConstraint_admits {text : String} {v : Version}
    (read : versionParseSafe text = some v) (below : v.major ≠ 65535) :
    ∃ written, versionToConstraint text = some written ∧ admits written v = true := by
  unfold versionParseSafe at read
  split at read
  · rename_i major minor patch scanned
    split at read
    · cases read
    rename_i natural
    simp only [Bool.or_eq_true, decide_eq_true_eq, not_or, Int.not_lt] at natural
    obtain ⟨⟨major0, minor0⟩, patch0⟩ := natural
    have fits : ∀ value ∈ [major, minor, patch], value < 2 ^ 31 := by
      intro value member
      rw [← scanned] at member
      exact Scan.scan_lt member
    obtain ⟨a, rfl⟩ := Int.eq_ofNat_of_zero_le major0
    obtain ⟨b, rfl⟩ := Int.eq_ofNat_of_zero_le minor0
    obtain ⟨c, rfl⟩ := Int.eq_ofNat_of_zero_le patch0
    have aFits := fits _ List.mem_cons_self
    have bFits := fits _ (List.mem_cons_of_mem _ List.mem_cons_self)
    have cFits := fits _ (List.mem_cons_of_mem _ (List.mem_cons_of_mem _ List.mem_cons_self))
    cases read
    dsimp only at below
    -- the largest `int` is 65535 as a major version
    have next : a + 1 < 2 ^ 31 := by
      by_contra big
      apply below
      have top : a = 2147483647 := by omega
      rw [top]
      decide
    have zero : Scan.Number ['0'] 0 := @Scan.Number.toDigits 0 (by decide)
    have scannedAgain := sscanf_constraint (Scan.Number.toDigits (show a < 2 ^ 31 by omega))
      (Scan.Number.toDigits (show b < 2 ^ 31 by omega))
      (Scan.Number.toDigits (show c < 2 ^ 31 by omega)) (Scan.Number.toDigits next) zero zero
    refine ⟨String.ofList (Nat.toDigits 10 a ++ '.' :: (Nat.toDigits 10 b ++ '.' ::
      (Nat.toDigits 10 c ++ ' ' :: '<' :: '=' :: ' ' :: 'v' :: ' ' :: '<' :: ' ' ::
        (Nat.toDigits 10 (a + 1) ++ '.' :: (['0'] ++ '.' :: ['0']))))), ?_, ?_⟩
    · unfold versionToConstraint
      rw [scanned]
      apply congrArg some
      apply String.toList_inj.mp
      have printed : ∀ n : Nat, (toString (n : Int)).toList = Nat.toDigits 10 n := by
        intro n
        have same : toString (n : Int) = n.repr := rfl
        rw [same, Nat.toList_repr]
      have successor : (a : Int) + 1 = ((a + 1 : Nat) : Int) := rfl
      rw [successor]
      simp only [String.toList_append, printed, String.toList_ofList]
      simp
    · exact admits_of_scanned scannedAgain below
  · cases read

/-! ## The versions a command chooses -/

/-- The command writes this version for the package of a package project. -/
inductive ProjectOperation.Chooses (elmJson : ElmJson) :
    ProjectOperation → PackageName → String → Prop
  | install {run : CommandRun} {request : AddRequest} {plan : InstallPlan}
    {change : PackageChange} {version : String} :
    AcceptsInstall run elmJson request plan → change ∈ plan → change.name = request.name →
    findPackageMap elmJson change.name = none → change.newVersion = some version →
    Chooses elmJson (.install run request) change.name version
  | installMultiple {run : CommandRun} {specs : List PackageVersionSpec}
    {isTest upgradeAll : Bool} {plan : InstallPlan} {change : PackageChange} {version : String} :
    AcceptsSeveral run elmJson specs isTest upgradeAll plan → change ∈ plan →
    change.name ∈ specs.map PackageVersionSpec.name →
    findPackageMap elmJson change.name = none → change.newVersion = some version →
    Chooses elmJson (.installMultiple run specs isTest upgradeAll) change.name version
  | installFile {run : CommandRun} {name actual : PackageName} {isTest : Bool}
    {file : PackageFile} {version : String} : AcceptsFile run name file actual version →
    Chooses elmJson (.installFile run name isTest file) actual version
  | upgrade {run : CommandRun} {package : Option String} {majorUpgrade majorIgnoreTest : Bool}
    {text : String} {name : PackageName} {plan : InstallPlan} {change : PackageChange}
    {version : String} :
    upgradeTarget package = some text → parsePackageName text = some name →
    AcceptsUpgrade run elmJson name majorUpgrade majorIgnoreTest plan → change ∈ plan →
    -- the V1 protocol leaves the other packages of the plan out
    run.upgradesV2 = true ∨ change.name = name → change.newVersion = some version →
    Chooses elmJson (.upgrade run package majorUpgrade majorIgnoreTest) change.name version
  | upgradeAll {run : CommandRun} {package : Option String}
    {majorUpgrade majorIgnoreTest : Bool} {plan : InstallPlan} {change : PackageChange}
    {version : String} :
    upgradeTarget package = none → AcceptsUpgradeAll run elmJson majorUpgrade plan →
    change ∈ plan → (findPackageMap elmJson change.name).isSome = true →
    change.newVersion = some version →
    Chooses elmJson (.upgrade run package majorUpgrade majorIgnoreTest) change.name version

/-- The writer of the command makes constraints of versions. -/
def ProjectOperation.converts : ProjectOperation → Bool
  | .upgrade run _ _ _ => !run.upgradesV2
  | _ => true

/-- An entry of the package that the command leaves as it is: an install from a file writes the
first of two entries. -/
def ProjectOperation.LeavesAlone (elmJson : ElmJson) (p : Package) : ProjectOperation → Prop
  | .installFile _ _ _ _ => p ∈ (elmJson.maps .packageTestDependencies).packages ∧
    elmJson.ListsName .packageDependencies p.name
  | _ => False

/-- Every version that the command chooses is written as a constraint that admits it. -/
def ProjectOperation.Converts (elmJson : ElmJson) (operation : ProjectOperation) : Prop :=
  ∀ name version, operation.Chooses elmJson name version →
    operation.converts = true ∧ ∃ v, versionParseSafe version = some v ∧ v.major ≠ 65535 ∧
      ∀ p, p.name = name → operation.LeavesAlone elmJson p → admits p.version v = true

/-! ## Writing one package -/

/-- The entries of the package are the same. -/
structure ElmJson.SameFor (elmJson changed : ElmJson) (name : PackageName) : Prop where
  type : changed.type = elmJson.type
  entries : ∀ p : Package, p.name = name → ∀ field,
    p ∈ (changed.maps field).packages ↔ p ∈ (elmJson.maps field).packages

theorem ElmJson.SameFor.refl (elmJson : ElmJson) (name : PackageName) :
    elmJson.SameFor elmJson name :=
  ⟨rfl, fun _ _ _ => Iff.rfl⟩

theorem ElmJson.SameFor.trans {first second third : ElmJson} {name : PackageName}
    (left : first.SameFor second name) (right : second.SameFor third name) :
    first.SameFor third name :=
  ⟨right.type.trans left.type,
    fun p named field => (right.entries p named field).trans (left.entries p named field)⟩

theorem ElmJson.SameFor.lists {elmJson changed : ElmJson} {p : Package}
    (same : elmJson.SameFor changed p.name) : changed.Lists p ↔ elmJson.Lists p := by
  unfold Lists
  rw [same.type]
  constructor
  · intro listed
    obtain ⟨field, used, member⟩ := listed
    exact ⟨field, used, (same.entries p rfl field).mp member⟩
  · intro listed
    obtain ⟨field, used, member⟩ := listed
    exact ⟨field, used, (same.entries p rfl field).mpr member⟩

theorem ElmJson.SameFor.listsName {elmJson changed : ElmJson} {name : PackageName}
    (same : elmJson.SameFor changed name) (field : ElmJsonMap) :
    changed.ListsName field name ↔ elmJson.ListsName field name := by
  unfold ListsName
  rw [List.mem_map, List.mem_map]
  constructor
  · intro listed
    obtain ⟨p, member, named⟩ := listed
    exact ⟨p, (same.entries p named field).mp member, named⟩
  · intro listed
    obtain ⟨p, member, named⟩ := listed
    exact ⟨p, (same.entries p named field).mpr member, named⟩

theorem findPackageMap_isSome {elmJson : ElmJson} {name : PackageName} :
    (findPackageMap elmJson name).isSome = true ↔
      ∃ field ∈ elmJson.type.maps, elmJson.ListsName field name := by
  constructor
  · intro found
    obtain ⟨field, here⟩ := Option.isSome_iff_exists.mp found
    exact ⟨field, findPackageMap_some here⟩
  · intro listed
    obtain ⟨field, used, here⟩ := listed
    by_contra missing
    rw [Option.not_isSome_iff_eq_none] at missing
    exact findPackageMap_none missing used here

theorem ElmJson.SameFor.findPackageMap {elmJson changed : ElmJson} {name : PackageName}
    (same : elmJson.SameFor changed name) :
    (findPackageMap changed name).isSome = (findPackageMap elmJson name).isSome := by
  apply Bool.eq_iff_iff.mpr
  rw [findPackageMap_isSome, findPackageMap_isSome, same.type]
  constructor
  · intro listed
    obtain ⟨field, used, here⟩ := listed
    exact ⟨field, used, (same.listsName field).mp here⟩
  · intro listed
    obtain ⟨field, used, here⟩ := listed
    exact ⟨field, used, (same.listsName field).mpr here⟩

/-- What writing a version of a package as a constraint does. -/
structure ElmJson.WritesConstraint (elmJson changed : ElmJson) (name : PackageName)
    (v : Version) : Prop where
  others : ∀ other, other ≠ name → elmJson.SameFor changed other
  type : changed.type = elmJson.type
  written : ∀ p, changed.Lists p → p.name = name → admits p.version v = true

theorem ElmJson.sameFor_update (elmJson : ElmJson) (field : ElmJsonMap)
    {name other : PackageName} (apart : other ≠ name) (version : String) :
    elmJson.SameFor
      (elmJson.setMap field (packageMapUpdate (elmJson.maps field) name version)) other := by
  refine ⟨rfl, ?_⟩
  intro p named there
  rw [setMap_maps]
  split
  · rename_i here
    rw [here, packageMapUpdate_mem]
    constructor
    · intro written
      rcases written with ⟨_, old⟩ | ⟨new, _⟩
      · exact old
      · rw [new] at named
        exact absurd named.symm apart
    · intro old
      exact Or.inl ⟨named ▸ apart, old⟩
  · exact Iff.rfl

/-- An entry of the package after the entries of one map are written. -/
theorem ElmJson.mem_update {elmJson : ElmJson} {field other : ElmJsonMap} {name : PackageName}
    {version : String} {p : Package} (named : p.name = name)
    (member : p ∈ ((elmJson.setMap field
      (packageMapUpdate (elmJson.maps field) name version)).maps other).packages) :
    p.version = version ∨ (other ≠ field ∧ p ∈ (elmJson.maps other).packages) := by
  rw [setMap_maps] at member
  split at member
  · rcases packageMapUpdate_mem.mp member with ⟨apart, _⟩ | ⟨new, _⟩
    · exact absurd named apart
    · exact Or.inl (congrArg Package.version new)
  · rename_i apart
    exact Or.inr ⟨apart, member⟩

/-- Writing the entry of one map. -/
theorem ElmJson.WritesConstraint.update {elmJson : ElmJson} {field : ElmJsonMap}
    {name : PackageName} {version : String} {v : Version} (admitted : admits version v = true)
    (elsewhere : ∀ other ∈ elmJson.type.maps, other ≠ field →
      ∀ p ∈ (elmJson.maps other).packages, p.name = name → admits p.version v = true) :
    elmJson.WritesConstraint
      (elmJson.setMap field (packageMapUpdate (elmJson.maps field) name version)) name v where
  type := rfl
  others _ apart := elmJson.sameFor_update field apart version
  written p listed named := by
    obtain ⟨there, used, member⟩ := listed
    rcases ElmJson.mem_update named member with new | ⟨apart, old⟩
    · rw [new]
      exact admitted
    · exact elsewhere there used apart p old named

/-- Writing the entries of several maps, which are all that do not admit the version. -/
theorem ElmJson.WritesConstraint.updateAll {name : PackageName} {version : String} {v : Version}
    (admitted : admits version v = true) {fields : List ElmJsonMap} {elmJson : ElmJson}
    (elsewhere : ∀ other ∈ elmJson.type.maps, other ∉ fields →
      ∀ p ∈ (elmJson.maps other).packages, p.name = name → admits p.version v = true) :
    elmJson.WritesConstraint (fields.foldl (fun elmJson field =>
      elmJson.setMap field (packageMapUpdate (elmJson.maps field) name version)) elmJson)
        name v := by
  induction fields generalizing elmJson with
  | nil =>
    refine ⟨fun other _ => ElmJson.SameFor.refl elmJson other, rfl, ?_⟩
    intro p listed named
    obtain ⟨field, used, member⟩ := listed
    exact elsewhere field used List.not_mem_nil p member named
  | cons field fields ih =>
    rw [List.foldl_cons]
    have rest := @ih
      (elmJson.setMap field (packageMapUpdate (elmJson.maps field) name version)) (by
        intro other used outside p member named
        rcases ElmJson.mem_update named member with new | ⟨apart, old⟩
        · rw [new]
          exact admitted
        · apply elsewhere other used _ p old named
          intro inside
          rcases List.mem_cons.mp inside with here | later
          · exact apart here
          · exact outside later)
    refine ⟨?_, rest.type, rest.written⟩
    intro other apart
    exact (elmJson.sameFor_update field apart version).trans (rest.others other apart)

/-- Adding a package that no map lists. -/
theorem ElmJson.WritesConstraint.add {elmJson : ElmJson} {field : ElmJsonMap}
    {map : PackageMap} {name : PackageName} {version : String} {v : Version}
    (admitted : admits version v = true)
    (absent : ∀ other ∈ elmJson.type.maps, ¬ elmJson.ListsName other name)
    (added : packageMapAdd (elmJson.maps field) name version = some map) :
    elmJson.WritesConstraint (elmJson.setMap field map) name v where
  type := rfl
  others other apart := by
    refine ⟨rfl, ?_⟩
    intro p named there
    rw [setMap_maps]
    split
    · rename_i here
      rw [here, packageMapAdd_mem added]
      constructor
      · intro written
        rcases written with old | new
        · exact old
        · rw [new] at named
          exact absurd named.symm apart
      · exact Or.inl
    · exact Iff.rfl
  written p listed named := by
    obtain ⟨there, used, member⟩ := listed
    rw [setMap_maps] at member
    have unlisted : ∀ other ∈ elmJson.type.maps, p ∉ (elmJson.maps other).packages :=
      fun other used member => absent other used (named ▸ ElmJson.ListsName.of_mem member)
    split at member
    · rename_i here
      rcases (packageMapAdd_mem added).mp member with old | new
      · exact absurd old (here ▸ unlisted there used)
      · rw [new]
        exact admitted
    · exact absurd member (unlisted there used)

theorem addOrUpdatePackageInElmJson_constraint {elmJson : ElmJson}
    (package : elmJson.type = .package) {name : PackageName} {version : String} {v : Version}
    (read : versionParseSafe version = some v) (below : v.major ≠ 65535)
    (elsewhere : ∀ field, findPackageMap elmJson name = some field →
      ∀ other ∈ elmJson.type.maps, other ≠ field →
        ∀ p ∈ (elmJson.maps other).packages, p.name = name → admits p.version v = true)
    (isTest isDirect : Bool) :
    ∃ changed, addOrUpdatePackageInElmJson elmJson name version isTest isDirect = some changed ∧
      elmJson.WritesConstraint changed name v := by
  obtain ⟨text, converted, admitted⟩ := versionToConstraint_admits read below
  unfold addOrUpdatePackageInElmJson
  rw [package, converted]
  dsimp only [Option.getD_some]
  cases found : findPackageMap elmJson name with
  | some field => exact ⟨_, rfl, .update admitted (elsewhere field found)⟩
  | none =>
    have absent : ∀ field ∈ elmJson.type.maps, ¬ elmJson.ListsName field name :=
      fun field used => findPackageMap_none found used
    have used : targetMap .package isTest isDirect ∈ elmJson.type.maps := by
      rw [package]
      exact targetMap_mem _ _ _
    obtain ⟨map, added⟩ := packageMapAdd_some text (absent _ used)
    dsimp only
    rw [added]
    exact ⟨_, rfl, .add admitted absent added⟩

end ElmWrap
