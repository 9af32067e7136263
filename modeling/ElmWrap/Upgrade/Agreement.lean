import ElmWrap.Upgrade.UpgradeCmd

/-!
# The two ways to apply a plan

`upgrade_v1.c` and `upgrade_v2.c` apply the plan of the solver with code of their
own. For an application they differ where a package is listed in several maps,
for a package project wherever there is something to change.
-/

namespace ElmWrap

open Lib

/-! ## One change -/

/-- What `apply_change_preserving_location` writes. -/
def writtenV1 (type : ElmProjectType) (isTest isDirect : Bool) (text : String)
    (listing : ElmJsonMap → Option String) : ElmJsonMap → Option String :=
  match firstMap type listing with
  | none => Function.update listing (targetMap type isTest isDirect) (some text)
  | some _ => fun field =>
    if field ∈ type.maps then (listing field).map fun _ => text else listing field

theorem setPkgVersionInMap_relists (elmJson : ElmJson) (field : ElmJsonMap) (name : PackageName)
    (version : String) :
    elmJson.Relists (setPkgVersionInMap elmJson field name version) name
      (Function.update (elmJson.listing name) field
        ((elmJson.listing name field).map fun _ => projectText elmJson.type version)) :=
  elmJson.relists_update field name (projectText elmJson.type version)

/-- The loop over the maps that list the package. -/
theorem foldl_setPkgVersionInMap (fields : List ElmJsonMap) (elmJson : ElmJson)
    (name : PackageName) (version : String) :
    elmJson.Relists
      (fields.foldl (fun elmJson field => setPkgVersionInMap elmJson field name version) elmJson)
      name fun field =>
        if field ∈ fields then
          (elmJson.listing name field).map fun _ => projectText elmJson.type version
        else elmJson.listing name field := by
  induction fields generalizing elmJson with
  | nil =>
    refine ⟨rfl, ?_, fun _ _ => rfl⟩
    funext field
    rw [if_neg List.not_mem_nil]
    rfl
  | cons field fields ih =>
    have first := setPkgVersionInMap_relists elmJson field name version
    have rest := ih (setPkgVersionInMap elmJson field name version)
    rw [List.foldl_cons]
    refine ⟨rest.type.trans first.type, ?_, ?_⟩
    · rw [rest.own, first.own, first.type]
      funext other
      rw [Function.update_apply]
      by_cases here : other = field
      · subst here
        rw [if_pos rfl, if_pos List.mem_cons_self, Option.map_map]
        split
        · rfl
        · rfl
      · rw [if_neg here]
        simp only [List.mem_cons, here, false_or]
    · intro other apart
      rw [rest.others other apart, first.others other apart]

theorem applyChangePreservingLocation_relists (elmJson : ElmJson) (change : PackageChange)
    {version : String} (new : change.newVersion = some version) (isTest isDirect : Bool) :
    ∃ next, applyChangePreservingLocation elmJson change isTest isDirect = some next ∧
      elmJson.Relists next change.name (writtenV1 elmJson.type isTest isDirect
        (projectText elmJson.type version) (elmJson.listing change.name)) := by
  have present : ∀ field, field ∈ detectPackagePresence elmJson change.name ↔
      field ∈ elmJson.type.maps ∧ (elmJson.listing change.name field).isSome = true := by
    intro field
    unfold detectPackagePresence ElmJson.listing
    rw [List.mem_filter, Option.isSome_map]
    rfl
  unfold applyChangePreservingLocation
  rw [new]
  dsimp only
  split
  · rename_i several
    refine ⟨_, rfl, ?_⟩
    have relists := foldl_setPkgVersionInMap (detectPackagePresence elmJson change.name) elmJson
      change.name version
    refine ⟨relists.type, relists.own.trans ?_, relists.others⟩
    unfold writtenV1
    cases found : firstMap elmJson.type (elmJson.listing change.name) with
    | none =>
      exfalso
      cases presence : detectPackagePresence elmJson change.name with
      | nil =>
        rw [presence] at several
        exact absurd several (by decide)
      | cons field rest =>
        obtain ⟨used, here⟩ := (present field).mp (by rw [presence]; exact List.mem_cons_self)
        rw [firstMap_none found used] at here
        cases here
    | some first =>
      funext field
      dsimp only
      by_cases here : field ∈ elmJson.type.maps
      · rw [if_pos here]
        split
        · rfl
        · rename_i outside
          rw [present, not_and] at outside
          rw [Option.not_isSome_iff_eq_none.mp (outside here)]
          rfl
      · rw [if_neg here, if_neg fun inside => here ((present field).mp inside).1]
  · rename_i single
    obtain ⟨next, written, relists⟩ := addOrUpdatePackageInElmJson_relists elmJson change.name
      version isTest isDirect
    refine ⟨next, written, relists.type, relists.own.trans ?_, relists.others⟩
    unfold writtenV1
    cases found : firstMap elmJson.type (elmJson.listing change.name) with
    | none => rfl
    | some first =>
      -- the first map is the only one
      obtain ⟨used, listed⟩ := firstMap_some found
      have only : ∀ field ∈ elmJson.type.maps, field ≠ first →
          elmJson.listing change.name field = none := by
        intro field there apart
        rw [← Option.not_isSome_iff_eq_none]
        intro here
        have one := (present first).mpr ⟨used, listed⟩
        have two := (present field).mpr ⟨there, here⟩
        generalize detectPackagePresence elmJson change.name = presence at single one two
        cases presence with
        | nil => cases one
        | cons x more =>
          cases more with
          | nil =>
            apply apart
            rw [List.mem_singleton.mp one, List.mem_singleton.mp two]
          | cons y more => exact absurd (by simp) single
      funext field
      dsimp only
      rw [Function.update_apply]
      by_cases here : field = first
      · obtain ⟨old, value⟩ := Option.isSome_iff_exists.mp listed
        rw [if_pos here, here, if_pos used, value]
        rfl
      · rw [if_neg here]
        split
        · rename_i there
          rw [only field there here]
          rfl
        · rfl

/-- What the assignment of `upgrade_v2.c` writes. -/
def writtenFirst (type : ElmProjectType) (text : String)
    (listing : ElmJsonMap → Option String) : ElmJsonMap → Option String :=
  match firstMap type listing with
  | none => listing
  | some field => Function.update listing field (some text)

theorem setPkgVersion_relists (elmJson : ElmJson) (name : PackageName) (version : String) :
    elmJson.Relists (setPkgVersion elmJson name version) name
      (writtenFirst elmJson.type version (elmJson.listing name)) := by
  unfold setPkgVersion writtenFirst
  rw [findPackageMap_eq]
  cases found : firstMap elmJson.type (elmJson.listing name) with
  | none => exact elmJson.relists_refl name
  | some field =>
    obtain ⟨old, here⟩ := Option.isSome_iff_exists.mp (firstMap_some found).2
    have relists := elmJson.relists_update field name version
    rw [here, Option.map_some] at relists
    exact relists

/-! ## Two loops over one plan -/

/-- Two loops end alike exactly if they write every package of the plan alike. -/
theorem foldlM_agree {f g : ElmJson → PackageChange → Option ElmJson}
    {F G : PackageChange → (ElmJsonMap → Option String) → ElmJsonMap → Option String}
    {plan : InstallPlan} (nodup : (plan.map PackageChange.name).Nodup) {elmJson : ElmJson}
    (left : ∀ change ∈ plan, ∀ current, current.type = elmJson.type →
      current.listing change.name = elmJson.listing change.name →
      ∃ next, f current change = some next ∧
        current.Relists next change.name (F change (current.listing change.name)))
    (right : ∀ change ∈ plan, ∀ current, current.type = elmJson.type →
      current.listing change.name = elmJson.listing change.name →
      ∃ next, g current change = some next ∧
        current.Relists next change.name (G change (current.listing change.name))) :
    ∃ first second, plan.foldlM f elmJson = some first ∧ plan.foldlM g elmJson = some second ∧
      (first.SameMaps second ↔ ∀ change ∈ plan,
        F change (elmJson.listing change.name) = G change (elmJson.listing change.name)) := by
  obtain ⟨first, ran, type, own, others⟩ := foldlM_relists nodup left
  obtain ⟨second, also, type_, own_, others_⟩ := foldlM_relists nodup right
  refine ⟨first, second, ran, also, ?_⟩
  rw [ElmJson.sameMaps_iff]
  constructor
  · intro same change member
    rw [← own change member, ← own_ change member]
    exact same.2 change.name
  · intro alike
    refine ⟨type.trans type_.symm, ?_⟩
    intro name
    by_cases inside : name ∈ plan.map PackageChange.name
    · obtain ⟨change, member, rfl⟩ := List.mem_map.mp inside
      rw [own change member, own_ change member]
      exact alike change member
    · rw [others name inside, others_ name inside]

/-! ## The two protocols -/

/-- The listing after the change of one package, V1. -/
def singleWrittenV1 (type : ElmProjectType) (name : PackageName) (isTest : Bool)
    (change : PackageChange) (listing : ElmJsonMap → Option String) :
    ElmJsonMap → Option String :=
  if type = .package && change.name ≠ name then listing
  else writtenV1 type isTest (change.name = name)
    (projectText type (change.newVersion.getD "")) listing

/-- The listing after the change of one package, V2. -/
def singleWrittenV2 (type : ElmProjectType) (name : PackageName) (isTest : Bool)
    (change : PackageChange) (listing : ElmJsonMap → Option String) :
    ElmJsonMap → Option String :=
  match change.oldVersion with
  | some _ => writtenFirst type (change.newVersion.getD "") listing
  | none =>
    let field := targetMap type isTest (change.name = name)
    Function.update listing field (some ((listing field).getD (change.newVersion.getD "")))

theorem applySingleChangeV1_relists (elmJson : ElmJson) (name : PackageName) (isTest : Bool)
    {change : PackageChange} {version : String} (new : change.newVersion = some version) :
    ∃ next, applySingleChangeV1 name isTest elmJson change = some next ∧
      elmJson.Relists next change.name
        (singleWrittenV1 elmJson.type name isTest change (elmJson.listing change.name)) := by
  unfold applySingleChangeV1 singleWrittenV1
  split
  · exact ⟨elmJson, rfl, elmJson.relists_refl change.name⟩
  · rw [new]
    exact applyChangePreservingLocation_relists elmJson change new isTest _

theorem applySingleChangeV2_relists (elmJson : ElmJson) (name : PackageName) (isTest : Bool)
    {change : PackageChange} {version : String} (new : change.newVersion = some version) :
    elmJson.Relists (applySingleChangeV2 name isTest elmJson change) change.name
      (singleWrittenV2 elmJson.type name isTest change (elmJson.listing change.name)) := by
  unfold applySingleChangeV2 singleWrittenV2
  rw [new]
  cases change.oldVersion with
  | some old => exact setPkgVersion_relists elmJson change.name version
  | none => exact elmJson.relists_add _ change.name version

/-- A package that is listed in several maps has the new version in all but the first. -/
def PackageChange.AppliesAlike (elmJson : ElmJson) (change : PackageChange) : Prop :=
  elmJson.type = .application ∧ ∀ first, findPackageMap elmJson change.name = some first →
    ∀ field ∈ elmJson.type.maps, field ≠ first → ∀ version,
      elmJson.listing change.name field = some version → change.newVersion = some version

/-- Writing all maps of an application is writing the first, if the others have the version. -/
theorem writtenV1_eq_iff {type : ElmProjectType} {listing : ElmJsonMap → Option String}
    {first : ElmJsonMap} (found : firstMap type listing = some first) (isTest isDirect : Bool)
    (text : String) :
    writtenV1 type isTest isDirect text listing = Function.update listing first (some text) ↔
      ∀ field ∈ type.maps, field ≠ first → ∀ version, listing field = some version →
        version = text := by
  obtain ⟨used, listed⟩ := firstMap_some found
  unfold writtenV1
  rw [found]
  dsimp only
  constructor
  · intro same field there apart version here
    have value := congrFun same field
    rw [if_pos there, Function.update_apply, if_neg apart, here] at value
    exact (Option.some.inj value).symm
  · intro others
    funext field
    rw [Function.update_apply]
    by_cases here : field = first
    · obtain ⟨old, value⟩ := Option.isSome_iff_exists.mp listed
      rw [if_pos here, here, if_pos used, value]
      rfl
    · rw [if_neg here]
      split
      · rename_i there
        cases value : listing field with
        | none => rfl
        | some version => rw [others field there here version value]; rfl
      · rfl

/-- A constraint is not the text of a version. -/
theorem projectText_package_ne (v : Version) :
    projectText .package (versionText v) ≠ versionText v := by
  unfold projectText versionToConstraint
  dsimp only
  have scanned : Scan.sscanf (versionText v) "%d.%d.%d" =
      [(v.major.toNat : Int), v.minor.toNat, v.patch.toNat] := sscanf_versionToString v
  rw [scanned]
  intro same
  have member : '<' ∈ (versionText v).toList := by
    rw [← same]
    simp
  rcases versionToString_chars member with digit | dot
  · exact absurd digit (by decide)
  · exact absurd dot (by decide)

/-- For an application one change is applied alike where the maps behind the first have the new
version. -/
theorem singleWritten_application {elmJson : ElmJson} (application : elmJson.type = .application)
    {change : PackageChange} (planned : change.PlannedFor elmJson) (name : PackageName)
    (isTest : Bool) :
    singleWrittenV1 elmJson.type name isTest change (elmJson.listing change.name) =
        singleWrittenV2 elmJson.type name isTest change (elmJson.listing change.name) ↔
      change.AppliesAlike elmJson := by
  obtain ⟨v, new⟩ := planned.version
  have text : projectText elmJson.type (versionText v) = versionText v := by
    rw [application]
    rfl
  have old := planned.first
  unfold singleWrittenV1 singleWrittenV2 PackageChange.AppliesAlike
  rw [if_neg (by simp [application]), new, Option.getD_some, text, old, findPackageMap_eq]
  cases found : firstMap elmJson.type (elmJson.listing change.name) with
  | none =>
    have absent := firstMap_none found (targetMap_mem elmJson.type isTest (change.name = name))
    unfold writtenV1
    rw [found]
    dsimp only [Option.bind_none]
    rw [absent, Option.getD_none]
    constructor
    · intro _
      refine ⟨application, ?_⟩
      intro first some_
      cases some_
    · intro _
      rfl
  | some first =>
    obtain ⟨version, here⟩ := Option.isSome_iff_exists.mp (firstMap_some found).2
    rw [Option.bind_some, here]
    dsimp only
    have second : writtenFirst elmJson.type (versionText v) (elmJson.listing change.name) =
        Function.update (elmJson.listing change.name) first (some (versionText v)) := by
      unfold writtenFirst
      rw [found]
    rw [second, writtenV1_eq_iff found]
    constructor
    · intro others
      refine ⟨application, ?_⟩
      intro first_ same field used apart version_ value
      cases same
      rw [others field used apart version_ value]
    · intro alike field used apart version_ value
      exact (Option.some.inj (alike.2 first rfl field used apart version_ value)).symm

/-- For a package project no change is applied alike. -/
theorem singleWritten_package {elmJson : ElmJson} (package : elmJson.type = .package)
    {change : PackageChange} (planned : change.PlannedFor elmJson) (name : PackageName)
    (isTest : Bool) :
    singleWrittenV1 elmJson.type name isTest change (elmJson.listing change.name) ≠
      singleWrittenV2 elmJson.type name isTest change (elmJson.listing change.name) := by
  obtain ⟨v, new⟩ := planned.version
  have differs := planned.differs
  have constraint := projectText_package_ne v
  have old := planned.first
  intro same
  unfold singleWrittenV1 singleWrittenV2 at same
  rw [new, Option.getD_some, old] at same
  rw [old, new] at differs
  rw [package] at same differs
  cases found : firstMap .package (elmJson.listing change.name) with
  | none =>
    have target : ∀ isDirect, targetMap .package isTest isDirect ∈ ElmProjectType.package.maps :=
      fun isDirect => targetMap_mem _ _ _
    have absent := firstMap_none found (target (change.name = name))
    have value := congrFun same (targetMap .package isTest (change.name = name))
    rw [found] at value
    dsimp only [Option.bind_none] at value
    rw [Function.update_self, absent, Option.getD_none] at value
    split at value
    · rw [absent] at value
      cases value
    · unfold writtenV1 at value
      rw [found] at value
      dsimp only at value
      rw [Function.update_self] at value
      exact constraint (Option.some.inj value)
  | some first =>
    obtain ⟨used, listed⟩ := firstMap_some found
    obtain ⟨version, here⟩ := Option.isSome_iff_exists.mp listed
    rw [found, Option.bind_some, here] at differs
    have value := congrFun same first
    rw [found, Option.bind_some, here] at value
    dsimp only at value
    unfold writtenFirst at value
    rw [found] at value
    dsimp only at value
    rw [Function.update_self] at value
    split at value
    · exact differs (here.symm.trans value)
    · unfold writtenV1 at value
      rw [found] at value
      dsimp only at value
      rw [if_pos used, here] at value
      exact constraint (Option.some.inj value)

theorem singleWritten_iff {elmJson : ElmJson} {change : PackageChange}
    (planned : change.PlannedFor elmJson) (name : PackageName) (isTest : Bool) :
    singleWrittenV1 elmJson.type name isTest change (elmJson.listing change.name) =
        singleWrittenV2 elmJson.type name isTest change (elmJson.listing change.name) ↔
      change.AppliesAlike elmJson := by
  cases type : elmJson.type with
  | application =>
    rw [← type]
    exact singleWritten_application type planned name isTest
  | package =>
    have different := singleWritten_package type planned name isTest
    rw [type] at different
    constructor
    · intro same
      exact absurd same different
    · intro alike
      have application := alike.1
      rw [type] at application
      cases application

/-- In a plan for all packages, a package that is listed is written as the one asked for. -/
theorem applyAllChangeV1_relists {elmJson : ElmJson} {change : PackageChange} {version : String}
    (new : change.newVersion = some version)
    (listed : firstMap elmJson.type (elmJson.listing change.name) ≠ none) :
    ∃ next, applyAllChangeV1 elmJson change = some next ∧
      elmJson.Relists next change.name
        (singleWrittenV1 elmJson.type change.name false change (elmJson.listing change.name)) := by
  unfold applyAllChangeV1 singleWrittenV1
  rw [findPackageMap_eq, if_neg (by simp [listed]), if_neg (by simp), new, Option.getD_some]
  have relists := applyChangePreservingLocation_relists elmJson change new false true
  simpa using relists

theorem applyAllChangeV2_relists (elmJson : ElmJson) {change : PackageChange}
    {version : String} (new : change.newVersion = some version)
    (old : change.oldVersion ≠ none) :
    elmJson.Relists (applyAllChangeV2 elmJson change) change.name
      (singleWrittenV2 elmJson.type change.name false change (elmJson.listing change.name)) := by
  obtain ⟨before, there⟩ := Option.ne_none_iff_exists'.mp old
  unfold applyAllChangeV2 singleWrittenV2
  rw [new, there]
  exact setPkgVersion_relists elmJson change.name version

/-- The plan for one package is applied alike by both protocols exactly if the project is an
application and lists no changed package in a second map at another version, or if there is
nothing to change; so is a plan for all packages, which are listed. -/
theorem upgradeProtocol_alike {elmJson : ElmJson} {plan : InstallPlan}
    (planned : plan.PlannedFor elmJson) (state : SolverState) (name : PackageName)
    (isTest : Bool) :
    ((∃ first second, (upgradeProtocolV1 state).applySingle name isTest elmJson plan = some first ∧
        (upgradeProtocolV2 state).applySingle name isTest elmJson plan = some second ∧
        first.SameMaps second) ↔ ∀ change ∈ plan, change.AppliesAlike elmJson) ∧
      ((∀ change ∈ plan, change.oldVersion ≠ none) →
        ((∃ first second, (upgradeProtocolV1 state).applyAll elmJson plan = some first ∧
          (upgradeProtocolV2 state).applyAll elmJson plan = some second ∧
          first.SameMaps second) ↔ ∀ change ∈ plan, change.AppliesAlike elmJson)) := by
  have alike : ∀ {f : ElmJson → PackageChange → Option ElmJson}
      {g : ElmJson → PackageChange → ElmJson} {named : PackageChange → PackageName} {test : Bool},
      (∃ left right, plan.foldlM f elmJson = some left ∧
        plan.foldlM (fun m change => some (g m change)) elmJson = some right ∧
        (left.SameMaps right ↔ ∀ change ∈ plan,
          singleWrittenV1 elmJson.type (named change) test change (elmJson.listing change.name) =
            singleWrittenV2 elmJson.type (named change) test change
              (elmJson.listing change.name))) →
      ((∃ first second, plan.foldlM f elmJson = some first ∧
        some (plan.foldl g elmJson) = some second ∧ first.SameMaps second) ↔
          ∀ change ∈ plan, change.AppliesAlike elmJson) := by
    intro f g named test agree
    obtain ⟨left, right, ran, also, same⟩ := agree
    have ran_ : plan.foldlM (fun m change => some (g m change)) elmJson =
        some (plan.foldl g elmJson) := List.foldlM_pure
    rw [ran_] at also
    constructor
    · intro ends
      obtain ⟨first, second, here, there, equal⟩ := ends
      cases here.symm.trans ran
      cases there.symm.trans also
      intro change member
      exact (singleWritten_iff (planned.changes change member) _ _).mp
        (same.mp equal change member)
    · intro all
      refine ⟨left, right, ran, also, same.mpr ?_⟩
      intro change member
      exact (singleWritten_iff (planned.changes change member) _ _).mpr (all change member)
  constructor
  · apply @alike _ _ (fun _ => name) isTest
    apply foldlM_agree planned.nodup
    · intro change member current type _
      obtain ⟨v, new⟩ := (planned.changes change member).version
      rw [← type]
      exact applySingleChangeV1_relists current name isTest new
    · intro change member current type _
      obtain ⟨v, new⟩ := (planned.changes change member).version
      rw [← type]
      exact ⟨_, rfl, applySingleChangeV2_relists current name isTest new⟩
  · intro listed
    apply @alike _ _ PackageChange.name false
    apply foldlM_agree planned.nodup
    · intro change member current type same
      obtain ⟨v, new⟩ := (planned.changes change member).version
      have old := (planned.changes change member).first
      rw [← type]
      apply applyAllChangeV1_relists new
      rw [type, same]
      intro missing
      rw [missing] at old
      exact listed change member old
    · intro change member current type _
      obtain ⟨v, new⟩ := (planned.changes change member).version
      rw [← type]
      exact ⟨_, rfl, applyAllChangeV2_relists current new (listed change member)⟩

/-- A package project that depends on `elm/http`. -/
def httpProject : ElmJson where
  type := .package
  maps
    | .packageDependencies =>
      ⟨[⟨elmHttpPackage, "2.0.0 <= v < 3.0.0"⟩], List.nodup_singleton _⟩
    | _ => packageMapCreate

/-- The upgrade of its dependency. -/
def httpChange : PackageChange := ⟨elmHttpPackage, some "2.0.0 <= v < 3.0.0", some "2.0.1"⟩

theorem httpProject_planned : InstallPlan.PlannedFor httpProject [httpChange] where
  nodup := List.nodup_singleton _
  changes change member := by
    rw [List.mem_singleton.mp member]
    exact ⟨⟨⟨2, 0, 1⟩, by decide⟩, by decide, by decide⟩

theorem upgradeProtocol_alike_http :
    ((∃ first second, (upgradeProtocolV1 sampleState).applySingle elmHttpPackage false
          httpProject [httpChange] = some first ∧
        (upgradeProtocolV2 sampleState).applySingle elmHttpPackage false httpProject
          [httpChange] = some second ∧
        first.SameMaps second) ↔ ∀ change ∈ [httpChange], change.AppliesAlike httpProject) ∧
      ((∀ change ∈ [httpChange], change.oldVersion ≠ none) →
        ((∃ first second, (upgradeProtocolV1 sampleState).applyAll httpProject [httpChange] =
            some first ∧
          (upgradeProtocolV2 sampleState).applyAll httpProject [httpChange] = some second ∧
          first.SameMaps second) ↔ ∀ change ∈ [httpChange], change.AppliesAlike httpProject)) :=
  upgradeProtocol_alike httpProject_planned sampleState elmHttpPackage false

/-- A package project is left with a constraint or with a version. -/
theorem upgradeProtocol_alike_fails :
    ¬ ∀ (elmJson : ElmJson) (plan : InstallPlan), plan.PlannedFor elmJson →
      ∀ state name isTest, ∃ first second,
        (upgradeProtocolV1 state).applySingle name isTest elmJson plan = some first ∧
          (upgradeProtocolV2 state).applySingle name isTest elmJson plan = some second ∧
          first.SameMaps second := by
  intro claim
  obtain ⟨first, second, one, two, same⟩ :=
    claim httpProject [httpChange] httpProject_planned sampleState elmHttpPackage false
  have value := congrFun ((ElmJson.sameMaps_iff.mp same).2 elmHttpPackage) .packageDependencies
  have left : (((upgradeProtocolV1 sampleState).applySingle elmHttpPackage false httpProject
      [httpChange]).bind fun m => m.listing elmHttpPackage .packageDependencies) =
        some "2.0.1 <= v < 3.0.0" := by decide
  have right : (((upgradeProtocolV2 sampleState).applySingle elmHttpPackage false httpProject
      [httpChange]).bind fun m => m.listing elmHttpPackage .packageDependencies) =
        some "2.0.1" := by decide
  rw [one, Option.bind_some, value] at left
  rw [two, Option.bind_some, left] at right
  exact absurd right (by decide)

end ElmWrap
