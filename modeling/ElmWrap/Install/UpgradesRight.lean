import ElmWrap.Install.InstallCheck

/-!
# When the reported upgrades are right

The report for an application is always right. For the dependencies of a package
the scans take a version that is the upper bound for one beyond the constraint, so
that the report is right unless the constraint admits its upper bound and that is
the greatest version there is, or admits nothing.
-/

namespace ElmWrap

open Lib

/-! ## One package at a time -/

/-- What the V1 scans say of a package. -/
def latestOf (type : ElmProjectType) (registry : Registry) (pkg : Package) :
    Option String × Option String :=
  match type with
  | .application => findLatestVersions registry pkg.name.author pkg.name.project pkg.version
  | .package =>
    (none, findVersionsBeyondConstraint registry pkg.name.author pkg.name.project pkg.version)

/-- What the V2 scans say of a package. -/
def latestOfV2 (type : ElmProjectType) (registry : V2Registry) (pkg : Package) :
    Option String × Option String :=
  match type with
  | .application => findLatestVersionsV2 registry pkg.name.author pkg.name.project pkg.version
  | .package =>
    (none, findVersionsBeyondConstraintV2 registry pkg.name.author pkg.name.project pkg.version)

theorem checkAllUpgrades_eq (elmJson : ElmJson) (registry : Registry) :
    checkAllUpgrades (some elmJson) (some registry) =
      printUpgrades (elmJson.checked.filterMap fun p =>
        packageUpgrade p.1 p.2 (latestOf elmJson.type registry p.1)) := by
  obtain ⟨type, maps⟩ := elmJson
  cases type with
  | application =>
    simp [checkAllUpgrades, ElmJson.checked, ElmProjectType.maps,
      checkPackageMapUpgrades, checkPackageMap, latestOf, List.filterMap_map]
  | package =>
    simp [checkAllUpgrades, ElmJson.checked, ElmProjectType.maps,
      checkPackageConstraintUpgrades, checkPackageMap, latestOf, List.filterMap_map]

theorem checkAllUpgradesV2_eq (elmJson : ElmJson) (registry : V2Registry) :
    checkAllUpgradesV2 (some elmJson) (some registry) =
      printUpgrades (elmJson.checked.filterMap fun p =>
        packageUpgrade p.1 p.2 (latestOfV2 elmJson.type registry p.1)) := by
  obtain ⟨type, maps⟩ := elmJson
  cases type with
  | application =>
    simp [checkAllUpgradesV2, ElmJson.checked, ElmProjectType.maps,
      checkPackageMapUpgradesV2, checkPackageMap, latestOfV2, List.filterMap_map]
  | package =>
    simp [checkAllUpgradesV2, ElmJson.checked, ElmProjectType.maps,
      checkPackageConstraintUpgradesV2, checkPackageMap, latestOfV2, List.filterMap_map]

theorem printUpgrades_perm (upgrades : List PackageUpgrade) :
    (printUpgrades upgrades).upgrades.Perm upgrades := by
  unfold printUpgrades
  split
  · rename_i none
    rw [List.eq_nil_of_length_eq_zero none]
  · exact List.mergeSort_perm upgrades _

theorem lists_iff_checked {elmJson : ElmJson} {pkg : Package} :
    elmJson.Lists pkg ↔ ∃ isTest, (pkg, isTest) ∈ elmJson.checked := by
  unfold ElmJson.Lists ElmJson.checked
  simp only [List.mem_flatMap, List.mem_map, Prod.mk.injEq]
  constructor
  · rintro ⟨field, place, member⟩
    exact ⟨_, field, place, pkg, member, rfl, rfl⟩
  · rintro ⟨isTest, field, place, _, member, rfl, _⟩
    exact ⟨field, place, member⟩

/-- An upgrade is that of one package, and says what has been found for it. -/
theorem packageUpgrade_some {pkg : Package} {isTest : Bool}
    {latest : Option String × Option String} {upg : PackageUpgrade}
    (found : packageUpgrade pkg isTest latest = some upg) :
    pkg = ⟨upg.name, upg.currentVersion⟩ ∧ latest = (upg.latestMinor, upg.latestMajor) := by
  unfold packageUpgrade at found
  split at found
  · cases found
    exact ⟨rfl, rfl⟩
  · cases found

theorem packageUpgrade_none {pkg : Package} {isTest : Bool}
    {latest : Option String × Option String}
    (nothing : packageUpgrade pkg isTest latest = none) : latest = (none, none) := by
  obtain ⟨minor, major⟩ := latest
  unfold packageUpgrade at nothing
  cases minor with
  | some v => cases nothing
  | none =>
    cases major with
    | some v => cases nothing
    | none => rfl

/-- A report that is made package by package is exact when it is right about each of them. -/
theorem reportsExactly_iff {elmJson : ElmJson} {listing : VersionListing}
    {upgrades : List PackageUpgrade} {latest : Package → Option String × Option String}
    (collected : upgrades.Perm
      (elmJson.checked.filterMap fun p => packageUpgrade p.1 p.2 (latest p.1))) :
    ReportsExactly elmJson listing upgrades ↔ ∀ pkg, elmJson.Lists pkg →
      ReportsGreatest (MinorUpgrade elmJson.type listing pkg) (latest pkg).1 ∧
        ReportsGreatest (MajorUpgrade elmJson.type listing pkg) (latest pkg).2 := by
  refine ⟨?_, fun right => ⟨latest, right, collected⟩⟩
  rintro ⟨spec, right, exactly⟩ pkg listed
  have perm := collected.symm.trans exactly
  obtain ⟨isTest, member⟩ := lists_iff_checked.mp listed
  have same : latest pkg = spec pkg := by
    cases found : packageUpgrade pkg isTest (latest pkg) with
    | some upg =>
      have reported := perm.mem_iff.mp
        (List.mem_filterMap.mpr ⟨(pkg, isTest), member, found⟩)
      obtain ⟨⟨other, test⟩, _, here⟩ := List.mem_filterMap.mp reported
      obtain ⟨pkg_eq, latest_eq⟩ := packageUpgrade_some found
      obtain ⟨other_eq, spec_eq⟩ := packageUpgrade_some here
      rw [latest_eq, ← spec_eq, other_eq, ← pkg_eq]
    | none =>
      cases expected : packageUpgrade pkg isTest (spec pkg) with
      | none => rw [packageUpgrade_none found, packageUpgrade_none expected]
      | some upg =>
        have reported := perm.mem_iff.mpr
          (List.mem_filterMap.mpr ⟨(pkg, isTest), member, expected⟩)
        obtain ⟨⟨other, test⟩, _, here⟩ := List.mem_filterMap.mp reported
        obtain ⟨pkg_eq, spec_eq⟩ := packageUpgrade_some expected
        obtain ⟨other_eq, latest_eq⟩ := packageUpgrade_some here
        rw [spec_eq, ← latest_eq, other_eq, ← pkg_eq]
  rw [same]
  exact right pkg listed

/-! ## Applications -/

theorem isMinorUpgrade_iff {currentVersion : String} {v : Version} :
    isMinorUpgrade currentVersion (versionToString v) = true ↔
      ∃ current, versionParseSafe currentVersion = some current ∧
        v.major = current.major ∧ current < v := by
  unfold isMinorUpgrade
  rw [versionParseSafe_versionToString]
  cases versionParseSafe currentVersion with
  | none => simp
  | some current => simp [versionCompare_pos]

theorem isMajorUpgrade_iff {currentVersion : String} {v : Version} :
    isMajorUpgrade currentVersion (versionToString v) = true ↔
      ∃ current, versionParseSafe currentVersion = some current ∧ current.major < v.major := by
  unfold isMajorUpgrade
  rw [versionParseSafe_versionToString]
  cases versionParseSafe currentVersion with
  | none => simp
  | some current => simp

/-- The two scans of an application find the upgrades there are. -/
theorem latestUpgrades_right {listing : VersionListing} {pkg : Package} {versions : List Version}
    (members : ∀ w, w ∈ versions ↔ listing pkg.name w) :
    let latest := versions.foldl (fun latest v =>
      latestUpgrades pkg.version latest (versionToString v)) (none, none)
    ReportsGreatest (MinorUpgrade .application listing pkg) latest.1 ∧
      ReportsGreatest (MajorUpgrade .application listing pkg) latest.2 := by
  intro latest
  have scanned : latest = _ := foldl_latestUpgrades pkg.version versions
  rw [scanned]
  constructor
  · apply reportsGreatest_greatestText
    intro w
    rw [List.mem_filter, members, isMinorUpgrade_iff]
    exact ⟨fun upgrade => ⟨rfl, upgrade⟩, fun upgrade => upgrade.2⟩
  · apply reportsGreatest_greatestText
    intro w
    rw [List.mem_filter, members, isMajorUpgrade_iff]
    exact Iff.rfl

/-! ## Packages -/

/-- Two properties have the same report when they have the same greatest version. -/
theorem reportsGreatest_iff {candidate other : Version → Prop} {result : Option String}
    (reports : ReportsGreatest candidate result) :
    ReportsGreatest other result ↔
      ∀ v, IsGreatest {w | candidate w} v ↔ IsGreatest {w | other w} v := by
  constructor
  · have text {candidate : Version → Prop} (reports : ReportsGreatest candidate result)
        (v : Version) : result = some (versionToString v) ↔ IsGreatest {w | candidate w} v := by
      rw [reports]
      constructor
      · rintro ⟨w, greatest, same⟩
        rwa [versionToString_injective same]
      · exact fun greatest => ⟨v, greatest, rfl⟩
    exact fun right v => (text reports v).symm.trans (text right v)
  · intro same text
    rw [reports text]
    exact exists_congr fun v => and_congr_left fun _ => same v

/-- What the constraint of a dependency and its listed versions have to be like for the upper
bound to tell which versions are beyond the constraint: a single version is not the greatest
one listed, and a range that admits nothing has a listed version at or beyond its upper end,
if any version is listed. -/
def UpperBoundTells (listing : VersionListing) (pkg : Package) : Prop :=
  ∀ range, versionParseConstraint pkg.version = some range →
    if range.upper.inclusive then
      listing pkg.name range.upper.v → ∃ w, listing pkg.name w ∧ range.upper.v < w
    else range.lower.v < range.upper.v ∨
      ((∃ w, listing pkg.name w) → ∃ w, listing pkg.name w ∧ range.upper.v ≤ w)

section Beyond

/-- The versions above everything that is admitted. -/
def aboveAll (range : VersionRange) : Set Version :=
  {w | ∀ u, versionInRange u range = true → u < w}

theorem aboveAll_exact (v : Version) : aboveAll (versionRangeExact v) = Set.Ioi v := by
  ext w
  simp only [aboveAll, versionInRange_exact, Set.mem_ofPred_eq, forall_eq, Set.mem_Ioi]

theorem aboveAll_between {lower upper : Version} (admits : lower < upper) :
    aboveAll (rangeBetween lower upper) = Set.Ici upper := by
  have inside : ∀ u, versionInRange u (rangeBetween lower upper) = true ↔
      lower ≤ u ∧ u < upper := by
    intro u
    rw [versionInRange_between, versionCompare_neg]
    refine and_congr_left fun _ => ?_
    rw [← not_lt, ← not_lt]
    exact not_congr versionCompare_pos
  ext w
  constructor
  · intro above
    by_contra below
    have less : w < upper := not_le.mp below
    rcases le_or_gt lower w with le | lt
    · exact lt_irrefl w (above w ((inside w).mpr ⟨le, less⟩))
    · exact lt_asymm lt (above lower ((inside lower).mpr ⟨le_rfl, admits⟩))
  · exact fun le u member => ((inside u).mp member).2.trans_le le

theorem aboveAll_empty {lower upper : Version} (nothing : upper ≤ lower) :
    aboveAll (rangeBetween lower upper) = Set.univ := by
  ext w
  refine ⟨fun _ => trivial, fun _ u member => ?_⟩
  obtain ⟨low, high⟩ := versionInRange_between.mp member
  have above := versionCompare_above (a := lower) (b := u)
  have below : u < lower := lt_of_lt_of_le (versionCompare_neg.mp high) nothing
  have not_le : versionCompare lower u > 0 := above.mpr below
  omega

/-- What is found from the upper bound on is right when the upper bound tells. -/
theorem greatestText_beyond {listing : VersionListing} {pkg : Package} {versions : List Version}
    {range : VersionRange} (members : ∀ w, w ∈ versions ↔ listing pkg.name w)
    (parsed : versionParseConstraint pkg.version = some range) :
    ReportsGreatest (MajorUpgrade .package listing pkg)
        (greatestText (versions.filter fun v => versionCompare v range.upper.v ≥ 0)) ↔
      UpperBoundTells listing pkg := by
  have listed : {w | listing pkg.name w} = {w | w ∈ versions} :=
    Set.ext fun w => (members w).symm
  have finite : {w | listing pkg.name w}.Finite := listed ▸ versions.finite_toSet
  have found : ReportsGreatest (fun w => w ∈ {w | listing pkg.name w} ∩ Set.Ici range.upper.v)
      (greatestText (versions.filter fun v => versionCompare v range.upper.v ≥ 0)) := by
    apply reportsGreatest_greatestText
    intro w
    rw [List.mem_filter, members, decide_eq_true_eq]
    refine and_congr_right fun _ => ?_
    have below := versionCompare_neg (a := w) (b := range.upper.v)
    exact ⟨fun ge => not_lt.mp fun less => absurd (below.mpr less) (by omega),
      fun le => not_lt.mp fun less => (not_lt.mpr le) (below.mp less)⟩
  have right : {w | MajorUpgrade .package listing pkg w} =
      {w | listing pkg.name w} ∩ aboveAll range := by
    ext w
    refine and_congr_right fun _ => ?_
    rw [parsed]
    simp [aboveAll]
  have tells : UpperBoundTells listing pkg ↔ if range.upper.inclusive then
      listing pkg.name range.upper.v → ∃ w, listing pkg.name w ∧ range.upper.v < w
      else range.lower.v < range.upper.v ∨
        ((∃ w, listing pkg.name w) → ∃ w, listing pkg.name w ∧ range.upper.v ≤ w) := by
    unfold UpperBoundTells
    rw [parsed]
    simp
  rw [reportsGreatest_iff found, right, tells]
  rcases versionParseConstraint_forms parsed with ⟨lower, upper, rfl, _⟩ | ⟨v, rfl⟩
  · have halfOpen : (rangeBetween lower upper).upper.inclusive = false := rfl
    rw [halfOpen, if_neg Bool.false_ne_true]
    rcases lt_or_ge lower upper with admits | nothing
    · rw [aboveAll_between admits]
      exact ⟨fun _ => Or.inl admits, fun _ _ => Iff.rfl⟩
    · have sub : Set.Ici upper ⊆ aboveAll (rangeBetween lower upper) := by
        rw [aboveAll_empty nothing]
        exact Set.subset_univ _
      refine (Greatest.isGreatest_inter_iff finite (isUpperSet_Ici upper) sub).trans ?_
      rw [aboveAll_empty nothing, Set.inter_univ]
      exact ⟨Or.inr, fun either => either.resolve_left (not_lt.mpr nothing)⟩
  · have closed : (versionRangeExact v).upper.inclusive = true := rfl
    rw [closed, if_pos rfl, aboveAll_exact]
    have sub : Set.Ioi v ⊆ Set.Ici v := Set.Ioi_subset_Ici_self
    have upper := Greatest.isGreatest_inter_iff finite (isUpperSet_Ioi v) sub
    constructor
    · intro same listed_v
      exact upper.mp (fun a => (same a).symm) ⟨v, listed_v, Set.mem_Ici.mpr le_rfl⟩
    · intro above a
      refine (upper.mpr ?_ a).symm
      rintro ⟨w, listed_w, le⟩
      rcases eq_or_lt_of_le (Set.mem_Ici.mp le) with rfl | less
      · exact above listed_w
      · exact ⟨w, listed_w, less⟩

end Beyond

/-! ## The whole report -/

theorem reportsGreatest_none {candidate : Version → Prop} (nothing : ∀ w, ¬ candidate w) :
    ReportsGreatest candidate none := by
  intro text
  refine ⟨fun none => (nomatch none), ?_⟩
  rintro ⟨v, greatest, _⟩
  exact absurd greatest.1 (nothing v)

/-- What the scans say of a package whose versions are these. -/
def scanOf (type : ElmProjectType) (versions : List Version) (pkg : Package) :
    Option String × Option String :=
  match type with
  | .application => versions.foldl (fun latest v =>
    latestUpgrades pkg.version latest (versionToString v)) (none, none)
  | .package => (none, (versionParseConstraint pkg.version).bind fun range =>
    greatestText (versions.filter fun v => versionCompare v range.upper.v ≥ 0))

theorem latestOf_eq (type : ElmProjectType) (registry : Registry) (pkg : Package) :
    latestOf type registry pkg = scanOf type (registry.versionsOf pkg.name) pkg := by
  cases type with
  | application => exact findLatestVersions_eq registry pkg.name pkg.version
  | package =>
    refine Prod.ext rfl ?_
    dsimp only [latestOf, scanOf]
    cases parsed : versionParseConstraint pkg.version with
    | none =>
      unfold findVersionsBeyondConstraint
      rw [parsed]
      rfl
    | some range => exact findVersionsBeyondConstraint_eq parsed

theorem latestOfV2_eq (type : ElmProjectType) (registry : V2Registry) (pkg : Package) :
    latestOfV2 type registry pkg = scanOf type (registry.validVersions pkg.name) pkg := by
  cases type with
  | application => exact findLatestVersionsV2_eq registry pkg.name pkg.version
  | package =>
    refine Prod.ext rfl ?_
    dsimp only [latestOfV2, scanOf]
    cases parsed : versionParseConstraint pkg.version with
    | none =>
      unfold findVersionsBeyondConstraintV2
      rw [parsed]
      rfl
    | some range => exact findVersionsBeyondConstraintV2_eq parsed

/-- The scans are right about a package of an application, and about a dependency of a package
when the upper bound tells. -/
theorem scanOf_right {type : ElmProjectType} {listing : VersionListing} {pkg : Package}
    {versions : List Version} (members : ∀ w, w ∈ versions ↔ listing pkg.name w) :
    (ReportsGreatest (MinorUpgrade type listing pkg) (scanOf type versions pkg).1 ∧
        ReportsGreatest (MajorUpgrade type listing pkg) (scanOf type versions pkg).2) ↔
      (type = .package → UpperBoundTells listing pkg) := by
  cases type with
  | application => exact ⟨fun _ other => (nomatch other), fun _ => latestUpgrades_right members⟩
  | package =>
    have minor : ReportsGreatest (MinorUpgrade .package listing pkg) none :=
      reportsGreatest_none fun w upgrade => nomatch upgrade.1
    dsimp only [scanOf]
    cases parsed : versionParseConstraint pkg.version with
    | none =>
      have tells : UpperBoundTells listing pkg := by
        intro range same
        rw [parsed] at same
        cases same
      have major : ReportsGreatest (MajorUpgrade .package listing pkg) none := by
        apply reportsGreatest_none
        rintro w ⟨_, range, same, _⟩
        rw [parsed] at same
        cases same
      exact ⟨fun _ _ => tells, fun _ => ⟨minor, major⟩⟩
    | some range =>
      have beyond := greatestText_beyond members parsed
      exact ⟨fun right _ => beyond.mp right.2, fun tells => ⟨minor, beyond.mpr (tells rfl)⟩⟩

/-- The scans do not depend on the order in which the versions are listed. -/
theorem scanOf_congr (type : ElmProjectType) {versions versions' : List Version}
    (same : ∀ w, w ∈ versions ↔ w ∈ versions') (pkg : Package) :
    scanOf type versions pkg = scanOf type versions' pkg := by
  have greatest (test : Version → Bool) :
      greatestText (versions.filter test) = greatestText (versions'.filter test) := by
    refine (reportsGreatest_greatestText fun w => Iff.rfl).unique
      (reportsGreatest_greatestText fun w => ?_)
    rw [List.mem_filter, List.mem_filter, same]
  cases type with
  | application =>
    unfold scanOf
    rw [foldl_latestUpgrades, foldl_latestUpgrades, greatest, greatest]
  | package =>
    unfold scanOf
    simp only [greatest]

/-- Both reports are exact, and the same, if and only if the upper bound of every dependency
of a package tells which versions are beyond it. -/
theorem upgradesRight_iff (elmJson : ElmJson) (registry : Registry) (v2Registry : V2Registry) :
    UpgradesRight elmJson registry v2Registry ↔
      (elmJson.type = .package → ∀ pkg, elmJson.Lists pkg →
        UpperBoundTells registry.offered pkg ∧ UpperBoundTells v2Registry.offered pkg) := by
  have v1 : ReportsExactly elmJson registry.offered
      (checkAllUpgrades (some elmJson) (some registry)).upgrades ↔
      ∀ pkg, elmJson.Lists pkg → elmJson.type = .package →
        UpperBoundTells registry.offered pkg := by
    rw [checkAllUpgrades_eq, reportsExactly_iff (printUpgrades_perm _)]
    simp only [latestOf_eq, scanOf_right fun w => registry.mem_versionsOf]
  have v2 : ReportsExactly elmJson v2Registry.offered
      (checkAllUpgradesV2 (some elmJson) (some v2Registry)).upgrades ↔
      ∀ pkg, elmJson.Lists pkg → elmJson.type = .package →
        UpperBoundTells v2Registry.offered pkg := by
    rw [checkAllUpgradesV2_eq, reportsExactly_iff (printUpgrades_perm _)]
    simp only [latestOfV2_eq, scanOf_right fun w => v2Registry.mem_validVersions]
  have same : (∀ name w, registry.offered name w ↔ v2Registry.offered name w) →
      checkAllUpgrades (some elmJson) (some registry) =
        checkAllUpgradesV2 (some elmJson) (some v2Registry) := by
    intro agree
    have scans : ∀ pkg : Package, latestOf elmJson.type registry pkg =
        latestOfV2 elmJson.type v2Registry pkg := by
      intro pkg
      rw [latestOf_eq, latestOfV2_eq]
      exact scanOf_congr _ (fun w => registry.mem_versionsOf.trans (agree pkg.name w)) pkg
    rw [checkAllUpgrades_eq, checkAllUpgradesV2_eq]
    simp only [scans]
  constructor
  · intro right package pkg listed
    exact ⟨v1.mp right.v1 pkg listed package, v2.mp right.v2 pkg listed package⟩
  · intro tells
    exact ⟨v1.mpr fun pkg listed package => (tells package pkg listed).1,
      v2.mpr fun pkg listed package => (tells package pkg listed).2, same⟩

/-- The dependency of `pinnedElmJson`. -/
def elmCorePinned : Package where
  name := elmCorePackage
  version := "1.0.5"

/-- A package that depends on the greatest version of `elm/core` and no other. -/
def pinnedElmJson : ElmJson where
  type := .package
  maps
    | .packageDependencies => ⟨[elmCorePinned], List.nodup_singleton _⟩
    | _ => packageMapCreate

/-- Two versions of `elm/core`. -/
def coreVersions : Registry where
  entries := [⟨"elm", "core", [⟨1, 0, 5⟩, ⟨1, 0, 0⟩]⟩]
  sinceCount := 2

/-- The version that the constraint admits is reported as one beyond it. -/
theorem upgradesRight_fails :
    checkAllUpgrades (some pinnedElmJson) (some coreVersions) =
        ⟨0, [⟨elmCorePinned.name, "1.0.5", none, some "1.0.5", false⟩]⟩ ∧
      ¬ UpgradesRight pinnedElmJson coreVersions ⟨[]⟩ := by
  have scanned : latestOf .package coreVersions elmCorePinned = (none, some "1.0.5") := by decide
  have admitted : versionParseConstraint "1.0.5" = some (versionRangeExact ⟨1, 0, 5⟩) := by decide
  have collected : (pinnedElmJson.checked.filterMap fun p =>
        packageUpgrade p.1 p.2 (latestOf pinnedElmJson.type coreVersions p.1)) =
      [⟨elmCorePinned.name, "1.0.5", none, some "1.0.5", false⟩] := by decide
  refine ⟨by rw [checkAllUpgrades_eq, collected]; simp [printUpgrades], fun right => ?_⟩
  have exactly := right.v1
  rw [checkAllUpgrades_eq, reportsExactly_iff (printUpgrades_perm _)] at exactly
  have listed : pinnedElmJson.Lists elmCorePinned :=
    ⟨.packageDependencies, List.mem_cons_self, List.mem_cons_self⟩
  have major := (exactly elmCorePinned listed).2
  change ReportsGreatest _ (latestOf .package coreVersions elmCorePinned).2 at major
  rw [scanned] at major
  obtain ⟨v, ⟨⟨_, range, parsed, above⟩, _⟩, text⟩ := (major "1.0.5").mp rfl
  cases admitted.symm.trans parsed
  have same : v = ⟨1, 0, 5⟩ := versionToString_injective text.symm
  exact lt_irrefl v (above v (versionInRange_exact.mpr same))

end ElmWrap
