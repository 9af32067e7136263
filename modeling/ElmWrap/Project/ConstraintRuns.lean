import ElmWrap.Project.Constraints
import ElmWrap.Upgrade.Agreement

/-!
# Runs on a package project

A plan is applied change by change, and changes of different packages do not
meet. So every version that a command chooses is listed as a constraint that
admits it, and what it does not choose stays as it was.
-/

namespace ElmWrap

open Lib

/-! ## One change -/

theorem versionParseSafe_versionText (v : Version) :
    versionParseSafe (versionText v) = some v := versionParseSafe_versionToString v

theorem versionText_injective {v w : Version} (same : versionText v = versionText w) : v = w :=
  versionToString_injective same

theorem findExistingPackage_isSome (elmJson : ElmJson) (name : PackageName) :
    (findExistingPackage elmJson name).isSome = (findPackageMap elmJson name).isSome := by
  rw [findExistingPackage_eq]
  cases found : findPackageMap elmJson name with
  | none => rfl
  | some field =>
    obtain ⟨p, member, same⟩ := List.mem_map.mp (findPackageMap_some found).2
    have here := packageMapFind_mem member
    rw [same] at here
    rw [Option.bind_some, here]
    rfl

variable {elmJson changed : ElmJson} {plan : InstallPlan} {run : CommandRun}

/-- A change of a package in the place it has. -/
theorem applyChangePreservingLocation_constraint (package : elmJson.type = .package)
    {change : PackageChange} {v : Version} (new : change.newVersion = some (versionText v))
    (below : v.major ≠ 65535) (isTest isDirect : Bool) :
    ∃ changed, applyChangePreservingLocation elmJson change isTest isDirect = some changed ∧
      elmJson.WritesConstraint changed change.name v := by
  have read := versionParseSafe_versionText v
  obtain ⟨text, converted, admitted⟩ := versionToConstraint_admits read below
  have present : ∀ field, field ∈ detectPackagePresence elmJson change.name ↔
      field ∈ elmJson.type.maps ∧ elmJson.ListsName field change.name := by
    intro field
    unfold detectPackagePresence
    rw [List.mem_filter, PackageMap.has_iff]
    rfl
  unfold applyChangePreservingLocation
  rw [new]
  dsimp only
  split
  · have writes := @ElmJson.WritesConstraint.updateAll change.name text v admitted
      (detectPackagePresence elmJson change.name) elmJson (by
        intro other used outside p member named
        apply absurd _ outside
        exact (present other).mpr ⟨used, named ▸ ElmJson.ListsName.of_mem member⟩)
    refine ⟨_, rfl, ?_⟩
    have same : ∀ (fields : List ElmJsonMap) (m : ElmJson), m.type = .package →
        fields.foldl (fun elmJson field =>
          setPkgVersionInMap elmJson field change.name (versionText v)) m =
        fields.foldl (fun elmJson field => elmJson.setMap field
          (packageMapUpdate (elmJson.maps field) change.name text)) m := by
      intro fields
      induction fields with
      | nil => intro m _; rfl
      | cons field fields ih =>
        intro m type
        have first : setPkgVersionInMap m field change.name (versionText v) =
            m.setMap field (packageMapUpdate (m.maps field) change.name text) := by
          unfold setPkgVersionInMap
          rw [type, converted]
          rfl
        rw [List.foldl_cons, List.foldl_cons, first]
        exact ih _ type
    rw [same _ _ package]
    exact writes
  · rename_i single
    apply addOrUpdatePackageInElmJson_constraint package read below
    intro field found other used apart p member named
    -- two maps would list the package
    exfalso
    apply apart
    have first := (present field).mpr (findPackageMap_some found)
    have second := (present other).mpr ⟨used, named ▸ ElmJson.ListsName.of_mem member⟩
    generalize detectPackagePresence elmJson change.name = presence at single first second
    cases presence with
    | nil => cases first
    | cons one more =>
      cases more with
      | nil => rw [List.mem_singleton.mp first, List.mem_singleton.mp second]
      | cons two more => exact absurd (by simp) single

/-! ## A plan -/

/-- The chosen changes of a plan are written, and nothing else changes. -/
structure AppliesChanges (chosen : PackageChange → Prop) (elmJson changed : ElmJson)
    (plan : InstallPlan) : Prop where
  type : changed.type = elmJson.type
  others : ∀ name, (∀ change ∈ plan, chosen change → change.name ≠ name) →
    elmJson.SameFor changed name
  written : ∀ change ∈ plan, chosen change → ∀ v, change.newVersion = some (versionText v) →
    ∀ p, changed.Lists p → p.name = change.name → admits p.version v = true

/-- The loop over a plan. Whether a change is chosen depends on its own package only. -/
theorem foldlM_applies {f : ElmJson → PackageChange → Option ElmJson}
    {Chosen : ElmJson → PackageChange → Prop}
    (stable : ∀ elmJson changed change, ElmJson.SameFor elmJson changed change.name →
      (Chosen changed change ↔ Chosen elmJson change))
    (skip : ∀ elmJson change, elmJson.type = .package → ¬ Chosen elmJson change →
      f elmJson change = some elmJson)
    (write : ∀ elmJson change v, elmJson.type = .package → Chosen elmJson change →
      change.newVersion = some (versionText v) → v.major ≠ 65535 →
      ∃ changed, f elmJson change = some changed ∧
        elmJson.WritesConstraint changed change.name v)
    {plan : InstallPlan} (nodup : (plan.map PackageChange.name).Nodup) {elmJson : ElmJson}
    (package : elmJson.type = .package)
    (versions : ∀ change ∈ plan, Chosen elmJson change →
      ∃ v, change.newVersion = some (versionText v) ∧ v.major ≠ 65535) :
    ∃ changed, plan.foldlM f elmJson = some changed ∧
      AppliesChanges (Chosen elmJson) elmJson changed plan := by
  induction plan generalizing elmJson with
  | nil =>
    refine ⟨elmJson, rfl, rfl, fun name _ => ElmJson.SameFor.refl elmJson name, ?_⟩
    intro change member
    cases member
  | cons change plan ih =>
    rw [List.map_cons, List.nodup_cons] at nodup
    obtain ⟨fresh, nodup⟩ := nodup
    have later : ∀ other ∈ plan, other.name ≠ change.name := by
      intro other member same
      exact fresh (same ▸ List.mem_map_of_mem member)
    rw [List.foldlM_cons]
    by_cases chosen : Chosen elmJson change
    · obtain ⟨v, new, below⟩ := versions change List.mem_cons_self chosen
      obtain ⟨middle, step, writes⟩ := write elmJson change v package chosen new below
      have same : ∀ other ∈ plan, (Chosen middle other ↔ Chosen elmJson other) :=
        fun other member => stable _ _ _ (writes.others _ (later other member))
      obtain ⟨changed, run, applies⟩ := ih nodup (writes.type.trans package) (by
        intro other member still
        exact versions other (List.mem_cons_of_mem _ member) ((same other member).mp still))
      rw [step]
      refine ⟨changed, run, applies.type.trans writes.type, ?_, ?_⟩
      · intro name apart
        apply (writes.others name (apart change List.mem_cons_self chosen).symm).trans
        apply applies.others
        intro other member still
        exact apart other (List.mem_cons_of_mem _ member) ((same other member).mp still)
      · intro other member also w wrote p listed named
        rcases List.mem_cons.mp member with rfl | rest
        · rw [new] at wrote
          rw [← versionText_injective (Option.some.inj wrote)]
          apply writes.written p _ named
          have kept := applies.others other.name fun d on _ => later d on
          rw [← named] at kept
          exact kept.lists.mp listed
        · exact applies.written other rest ((same other rest).mpr also) w wrote p listed named
    · obtain ⟨changed, run, applies⟩ := ih nodup package fun other member still =>
        versions other (List.mem_cons_of_mem _ member) still
      rw [skip elmJson change package chosen]
      refine ⟨changed, run, applies.type, ?_, ?_⟩
      · intro name apart
        apply applies.others
        intro other member still
        exact apart other (List.mem_cons_of_mem _ member) still
      · intro other member also
        rcases List.mem_cons.mp member with rfl | rest
        · exact absurd also chosen
        · exact applies.written other rest also

/-- The changes of an install: packages that are asked for and not listed yet. -/
theorem applyPlan_applies (requested : List PackageName) (isTest : Bool)
    (nodup : (plan.map PackageChange.name).Nodup) (package : elmJson.type = .package)
    (versions : ∀ change ∈ plan, change.name ∈ requested →
      findPackageMap elmJson change.name = none →
      ∃ v, change.newVersion = some (versionText v) ∧ v.major ≠ 65535) :
    ∃ changed, applyPlan requested isTest elmJson plan = some changed ∧
      AppliesChanges (fun change => change.name ∈ requested ∧
        findPackageMap elmJson change.name = none) elmJson changed plan := by
  apply @foldlM_applies (applyChange requested isTest)
    (fun elmJson change => change.name ∈ requested ∧ findPackageMap elmJson change.name = none)
    _ _ _ plan nodup elmJson package
  · intro change member chosen
    exact versions change member chosen.1 chosen.2
  · intro elmJson changed change same
    rw [← Option.isNone_iff_eq_none, ← Option.isNone_iff_eq_none, ← Option.not_isSome,
      ← Option.not_isSome, same.findPackageMap]
  · intro elmJson change package skipped
    unfold applyChange
    dsimp only
    rw [findExistingPackage_isSome, if_pos]
    rw [package]
    by_cases asked : change.name ∈ requested
    · have listed : findPackageMap elmJson change.name ≠ none :=
        fun missing => skipped ⟨asked, missing⟩
      simp [asked, Option.isSome_iff_ne_none.mpr listed]
    · simp [asked]
  · intro elmJson change v package chosen new below
    unfold applyChange
    dsimp only
    rw [findExistingPackage_isSome, package, chosen.2, new, if_neg (by simp [chosen.1])]
    apply addOrUpdatePackageInElmJson_constraint package (versionParseSafe_versionText v) below
    intro field found
    rw [chosen.2] at found
    cases found

/-- The changes of the upgrade of one package. -/
theorem applySingleV1_applies (name : PackageName) (isTest : Bool)
    (nodup : (plan.map PackageChange.name).Nodup) (package : elmJson.type = .package)
    (versions : ∀ change ∈ plan, change.name = name →
      ∃ v, change.newVersion = some (versionText v) ∧ v.major ≠ 65535) :
    ∃ changed, plan.foldlM (applySingleChangeV1 name isTest) elmJson = some changed ∧
      AppliesChanges (fun change => change.name = name) elmJson changed plan := by
  apply @foldlM_applies (applySingleChangeV1 name isTest) (fun _ change => change.name = name)
    _ _ _ plan nodup elmJson package versions
  · intro elmJson changed change _
    exact Iff.rfl
  · intro elmJson change package other
    unfold applySingleChangeV1
    rw [package, if_pos (by simpa using other)]
  · intro elmJson change v package same new below
    unfold applySingleChangeV1
    rw [if_neg (by simp [same])]
    exact applyChangePreservingLocation_constraint package new below _ _

/-- The changes of the upgrade of all packages. -/
theorem applyAllV1_applies (nodup : (plan.map PackageChange.name).Nodup)
    (package : elmJson.type = .package)
    (versions : ∀ change ∈ plan, (findPackageMap elmJson change.name).isSome = true →
      ∃ v, change.newVersion = some (versionText v) ∧ v.major ≠ 65535) :
    ∃ changed, plan.foldlM applyAllChangeV1 elmJson = some changed ∧
      AppliesChanges (fun change => (findPackageMap elmJson change.name).isSome = true) elmJson
        changed plan := by
  apply @foldlM_applies applyAllChangeV1
    (fun elmJson change => (findPackageMap elmJson change.name).isSome = true)
    _ _ _ plan nodup elmJson package versions
  · intro elmJson changed change same
    rw [same.findPackageMap]
  · intro elmJson change package unlisted
    unfold applyAllChangeV1
    rw [package, if_pos (by simpa using unlisted)]
  · intro elmJson change v package listed new below
    unfold applyAllChangeV1
    rw [if_neg]
    · exact applyChangePreservingLocation_constraint package new below _ _
    · rw [Option.isSome_iff_ne_none] at listed
      simp [listed]

/-! ## The commands that apply a plan -/

theorem findExistingPackage_none {name : PackageName}
    (missing : findPackageMap elmJson name = none) : findExistingPackage elmJson name = none := by
  rw [← Option.not_isSome_iff_eq_none, findExistingPackage_isSome, missing]
  simp

theorem AcceptsInstall.installs {request : AddRequest}
    (accepts : AcceptsInstall run elmJson request plan)
    (missing : findPackageMap elmJson request.name = none) {changed : ElmJson}
    (applied : applyPlan [request.name] request.isTestDependency elmJson plan = some changed) :
    installPackage run elmJson request = some ⟨0, changed.sortMaps⟩ := by
  have other := accepts.other
  unfold CommandRun.isOwn at other
  unfold installPackage
  rw [if_neg (by rw [other]; exact Bool.false_ne_true), findExistingPackage_none missing]
  exact accepts.solves applied

/-- No package of a package project is promoted on the way. -/
theorem promotions_package (package : elmJson.type = .package) (specs : List PackageVersionSpec) :
    promotions elmJson specs = [] := by
  unfold promotions
  rw [List.map_eq_nil_iff, List.filter_eq_nil_iff]
  intro spec _
  unfold elmJsonFindPackage
  rw [package]
  dsimp only
  split
  · simp
  split
  · simp
  · simp

theorem AcceptsSeveral.installs {specs : List PackageVersionSpec} {isTest upgradeAll : Bool}
    (accepts : AcceptsSeveral run elmJson specs isTest upgradeAll plan)
    (package : elmJson.type = .package) {change : PackageChange} (member : change ∈ plan)
    (requested : change.name ∈ specs.map PackageVersionSpec.name)
    (missing : findPackageMap elmJson change.name = none) {changed : ElmJson}
    (applied : applyPlan (specs.map PackageVersionSpec.name) isTest elmJson plan = some changed) :
    installMultiplePackages run elmJson specs isTest upgradeAll =
      some ⟨0, changed.sortMaps⟩ := by
  have shown : plan.any (displayedChange elmJson (specs.map PackageVersionSpec.name)) = true := by
    have fresh := (accepts.planned.changes change member).new_iff.mpr
      fun field used => findPackageMap_none missing used
    apply List.any_eq_true.mpr
    refine ⟨change, member, ?_⟩
    unfold displayedChange
    rw [package]
    dsimp only
    rw [missing, fresh, List.contains_iff_mem.mpr requested]
    rfl
  have others : (elmJson.type = .package && specs.any fun spec =>
      run.packageName = some spec.name) = false := by
    have apart := accepts.others
    unfold CommandRun.isOwn at apart
    simpa [package] using apart
  have some_ : (toSolve run elmJson specs).isEmpty = false := by
    by_contra empty
    have solved := accepts.solved
    unfold solverAddPackages at solved
    rw [if_pos (by simpa using empty)] at solved
    cases solved
  unfold installMultiplePackages installPlanned
  simp [others, accepts.versions, accepts.linked, some_, accepts.proceeds.starts, accepts.solved,
    shown, accepts.proceeds.confirmed, promotions_package package, applied,
    accepts.proceeds.save]

theorem AcceptsFile.installs {name actual : PackageName} {isTest : Bool} {file : PackageFile}
    {version : String} (accepts : AcceptsFile run name file actual version)
    (recorded : addOrUpdatePackageInElmJson elmJson actual version isTest true = some changed) :
    installFromFile run elmJson name isTest file = ⟨0, changed.sortMaps⟩ := by
  unfold installFromFile
  rw [accepts.info]
  dsimp only
  rw [accepts.continues, accepts.accepted, accepts.installed, recorded]
  unfold CommandRun.save
  rw [accepts.saves]
  rfl

theorem SolvedWith.upgrades {run : CommandRun} {elmJson changed : ElmJson}
    {solve : ElmJson → Option SolverOutcome} {idle : InstallPlan → Bool}
    {apply : ElmJson → InstallPlan → Option ElmJson} {plan : InstallPlan}
    (solved : SolvedWith (solve elmJson) plan) (proceeds : run.Proceeds)
    (busy : idle plan = false) (applied : apply elmJson plan = some changed) :
    solveAndUpgrade run elmJson solve idle apply = some ⟨0, changed.sortMaps⟩ := by
  obtain ⟨outcome, found, ok, rfl⟩ := solved
  unfold solveAndUpgrade
  simp [proceeds.starts, found, ok, busy, proceeds.confirmed, applied, proceeds.save]

theorem AcceptsUpgrade.upgrades {run : CommandRun} {elmJson changed : ElmJson}
    {package : Option String} {majorUpgrade majorIgnoreTest : Bool} {text : String}
    {name : PackageName} {plan : InstallPlan}
    (accepts : AcceptsUpgrade run elmJson name majorUpgrade majorIgnoreTest plan)
    (target : upgradeTarget package = some text) (parsed : parsePackageName text = some name)
    (applied : run.upgradeProtocol.applySingle name (isTestDependency elmJson name) elmJson plan =
      some changed) :
    cmdUpgrade run elmJson package majorUpgrade majorIgnoreTest =
      some ⟨0, changed.sortMaps⟩ := by
  obtain ⟨existing, versions, latest, found, known, newest, newer, free⟩ := accepts.available
  unfold upgradeTarget at target
  obtain ⟨rfl, different⟩ := Option.filter_eq_some_iff.mp target
  have single : text ≠ "all" := by simpa using different
  unfold cmdUpgrade
  dsimp only
  rw [if_neg single]
  unfold upgradeSinglePackage
  rw [parsed]
  dsimp only
  rw [found, known]
  dsimp only
  rw [newest]
  dsimp only
  rw [if_neg newer, if_neg (by rw [free]; exact Bool.false_ne_true)]
  exact SolvedWith.upgrades accepts.solved accepts.proceeds rfl applied

theorem AcceptsUpgradeAll.upgrades {run : CommandRun} {elmJson changed : ElmJson}
    {package : Option String} {majorUpgrade : Bool} {plan : InstallPlan}
    (accepts : AcceptsUpgradeAll run elmJson majorUpgrade plan) (majorIgnoreTest : Bool)
    (target : upgradeTarget package = none)
    (applied : run.upgradeProtocol.applyAll elmJson (Keyed.sortBy PackageChange.key plan) =
      some changed) :
    cmdUpgrade run elmJson package majorUpgrade majorIgnoreTest =
      some ⟨0, changed.sortMaps⟩ := by
  have all : upgradeAllPackages run.upgradeProtocol run elmJson majorUpgrade =
      some ⟨0, changed.sortMaps⟩ := by
    apply @SolvedWith.upgrades run elmJson changed
      (fun elmJson => solverUpgradeAll run.fuel run.solver elmJson majorUpgrade)
      (fun plan => !plan.any (run.upgradeProtocol.displayed elmJson))
      (fun elmJson plan =>
        run.upgradeProtocol.applyAll elmJson (Keyed.sortBy PackageChange.key plan))
      plan accepts.solved accepts.proceeds _ applied
    rw [accepts.shown]
    rfl
  unfold cmdUpgrade
  cases package with
  | none => exact all
  | some text =>
    have same : text = "all" := by
      unfold upgradeTarget at target
      simpa using target
    dsimp only
    rw [if_pos same]
    exact all

/-! ## One command -/

/-- The version a command chooses for a package is admitted by what is listed for it; the other
packages stay as they were. -/
structure ProjectOperation.KeepsChoices (elmJson : ElmJson) (operation : ProjectOperation)
    (next : ElmJson) : Prop where
  type : next.type = elmJson.type
  chosen : ∀ p, next.Lists p → ∀ version, operation.Chooses elmJson p.name version →
    ∃ v, versionParseSafe version = some v ∧ admits p.version v = true
  others : ∀ p, next.Lists p → (∀ version, ¬ operation.Chooses elmJson p.name version) →
    elmJson.Lists p

theorem ProjectOperation.KeepsChoices.sortMaps {elmJson next : ElmJson}
    {operation : ProjectOperation} (keeps : operation.KeepsChoices elmJson next) :
    operation.KeepsChoices elmJson next.sortMaps where
  type := keeps.type
  chosen p listed := keeps.chosen p ((next.lists_sortMaps p).mp listed)
  others p listed := keeps.others p ((next.lists_sortMaps p).mp listed)

/-- A command that chooses nothing, and lists what was listed. -/
theorem ProjectOperation.KeepsChoices.of_lists {elmJson next : ElmJson}
    {operation : ProjectOperation} (type : next.type = elmJson.type)
    (idle : ∀ name version, ¬ operation.Chooses elmJson name version)
    (lists : ∀ p, next.Lists p → elmJson.Lists p) : operation.KeepsChoices elmJson next where
  type := type
  chosen p _ version chooses := absurd chooses (idle p.name version)
  others p listed _ := lists p listed

/-- The changes of a plan that are chosen are those of the command. -/
theorem AppliesChanges.keepsChoices {chosen : PackageChange → Prop}
    (applies : AppliesChanges chosen elmJson changed plan) {operation : ProjectOperation}
    (chooses : ∀ name version, operation.Chooses elmJson name version ↔
      ∃ change ∈ plan, chosen change ∧ change.name = name ∧ change.newVersion = some version)
    (planned : plan.PlannedFor elmJson) : operation.KeepsChoices elmJson changed where
  type := applies.type
  chosen p listed version chosen_ := by
    obtain ⟨change, member, here, named, new⟩ := (chooses p.name version).mp chosen_
    obtain ⟨v, text⟩ := (planned.changes change member).version
    rw [new] at text
    rw [Option.some.inj text]
    refine ⟨v, versionParseSafe_versionText v, ?_⟩
    exact applies.written change member here v (new.trans text) p listed named.symm
  others p listed free := by
    have same := applies.others p.name fun change member here named => by
      obtain ⟨v, new⟩ := (planned.changes change member).version
      exact free _ ((chooses p.name _).mpr ⟨change, member, here, named, new⟩)
    exact same.lists.mp listed

/-- A chosen version can be written as a constraint. -/
theorem ProjectOperation.Converts.version {elmJson : ElmJson} {operation : ProjectOperation}
    (converts : operation.Converts elmJson) {plan : InstallPlan}
    (planned : plan.PlannedFor elmJson) {change : PackageChange} (member : change ∈ plan)
    (chooses : ∀ version, change.newVersion = some version →
      operation.Chooses elmJson change.name version) :
    ∃ v, change.newVersion = some (versionText v) ∧ v.major ≠ 65535 := by
  obtain ⟨v, new⟩ := (planned.changes change member).version
  obtain ⟨_, w, read, below, _⟩ := converts change.name _ (chooses _ new)
  rw [versionParseSafe_versionText] at read
  cases read
  exact ⟨v, new, below⟩

theorem AppliesChanges.lists {chosen : PackageChange → Prop}
    (applies : AppliesChanges chosen elmJson changed plan) (idle : ∀ change ∈ plan, ¬ chosen change)
    (p : Package) (listed : changed.Lists p) :
    elmJson.Lists p :=
  (applies.others p.name fun change member here => absurd here (idle change member)).lists.mp listed

theorem installsListed_lists {elmJson changed : ElmJson} (package : elmJson.type = .package)
    {request : AddRequest} (installs : InstallsListed elmJson request changed) :
    changed.type = elmJson.type ∧ ∀ p, changed.Lists p → elmJson.Lists p := by
  have moves : ∀ {name version source target}, source ∈ elmJson.type.maps → source ≠ target →
      ⟨name, version⟩ ∈ (elmJson.maps source).packages →
      ∀ p, (elmJson.move name version source target).Lists p → elmJson.Lists p := by
    intro name version source target used apart entry p listed
    obtain ⟨field, there, member⟩ := listed
    rw [ElmJson.mem_move apart] at member
    split at member
    · exact ⟨field, there, member.1⟩
    split at member
    · rcases member with old | ⟨_, new⟩
      · exact ⟨field, there, old⟩
      · rw [new]
        exact ⟨source, used, entry⟩
    · exact ⟨field, there, member⟩
  cases installs with
  | promoted promotes =>
    obtain ⟨source, target, version, used, _, apart, entry, rfl⟩ :=
      elmJsonPromotePackage_some promotes
    exact ⟨rfl, moves used apart entry⟩
  | testIndirect entry =>
    -- a package project does not use the maps
    refine ⟨rfl, ?_⟩
    intro p listed
    obtain ⟨field, there, member⟩ := listed
    rw [ElmJson.mem_move (by decide)] at member
    rw [ElmJson.move_type, package] at there
    refine ⟨field, package ▸ there, ?_⟩
    cases field with
    | packageDependencies => simpa using member
    | packageTestDependencies => simpa using member
    | _ => exact absurd there (by decide)
  | production _ application =>
    rw [package] at application
    cases application
  | @testDependency existing found _ =>
    obtain ⟨listed_, same⟩ := findExistingPackage_some found
    refine ⟨rfl, ?_⟩
    intro p listed
    obtain ⟨field, there, member⟩ := listed
    rw [ElmJson.setMap_maps] at member
    split at member
    · rename_i here
      rcases PackageMap.mem_add.mp member with old | ⟨_, new⟩
      · exact ⟨field, there, here ▸ old⟩
      · rw [new, ← same]
        exact listed_
    · exact ⟨field, there, member⟩

theorem install_keepsChoices (package : elmJson.type = .package) {request : AddRequest}
    (converts : (ProjectOperation.install run request).Converts elmJson) :
    (ProjectOperation.install run request).KeepsChoices elmJson
      ((ProjectOperation.install run request).next elmJson) := by
  have applies : ∀ {plan}, AcceptsInstall run elmJson request plan →
      ∃ changed, applyPlan [request.name] request.isTestDependency elmJson plan = some changed ∧
        AppliesChanges (fun change => change.name ∈ [request.name] ∧
          findPackageMap elmJson change.name = none) elmJson changed plan := by
    intro plan accepts
    apply applyPlan_applies _ _ accepts.planned.nodup package
    intro change member asked missing
    apply converts.version accepts.planned member
    intro version new
    exact .install accepts member (List.mem_singleton.mp asked) missing new
  by_cases busy :
      ∃ name version, (ProjectOperation.install run request).Chooses elmJson name version
  · obtain ⟨_, _, chooses⟩ := busy
    cases chooses with
    | @install _ _ plan change version accepts member same missing new =>
      obtain ⟨changed, applied, writes⟩ := applies accepts
      have result : (ProjectOperation.install run request).next elmJson = changed.sortMaps := by
        unfold ProjectOperation.next
        dsimp only
        rw [accepts.installs (same ▸ missing) applied]
        rfl
      rw [result]
      apply ProjectOperation.KeepsChoices.sortMaps
      apply writes.keepsChoices _ accepts.planned
      intro name text
      constructor
      · intro chooses
        cases chooses with
        | install also on named absent writes_ =>
          rw [accepts.solved.unique also.solved]
          exact ⟨_, on, ⟨List.mem_singleton.mpr named, absent⟩, rfl, writes_⟩
      · intro chosen
        obtain ⟨other, on, ⟨asked, absent⟩, rfl, writes_⟩ := chosen
        exact .install accepts on (List.mem_singleton.mp asked) absent writes_
  · have idle : ∀ name version,
        ¬ (ProjectOperation.install run request).Chooses elmJson name version :=
      fun name version chooses => busy ⟨name, version, chooses⟩
    unfold ProjectOperation.next
    dsimp only
    cases installed : installPackage run elmJson request with
    | none => exact .of_lists rfl idle fun _ listed => listed
    | some result =>
      cases installPackage_leaves installed with
      | unchanged code => exact .of_lists rfl idle fun _ listed => listed
      | @saved changed installs =>
        apply ProjectOperation.KeepsChoices.sortMaps
        rcases installs with ⟨plan, accepts, applied⟩ | listed
        · obtain ⟨other, same, writes⟩ := applies accepts
          rw [applied] at same
          cases same
          apply ProjectOperation.KeepsChoices.of_lists writes.type idle
          apply writes.lists
          intro change member chosen
          obtain ⟨v, new⟩ := (accepts.planned.changes change member).version
          exact idle _ _ (.install accepts member (List.mem_singleton.mp chosen.1) chosen.2 new)
        · obtain ⟨type, lists⟩ := installsListed_lists package listed
          exact .of_lists type idle lists

theorem installMultiple_keepsChoices (package : elmJson.type = .package)
    {specs : List PackageVersionSpec} {isTest upgradeAll : Bool}
    (converts : (ProjectOperation.installMultiple run specs isTest upgradeAll).Converts elmJson) :
    (ProjectOperation.installMultiple run specs isTest upgradeAll).KeepsChoices elmJson
      ((ProjectOperation.installMultiple run specs isTest upgradeAll).next elmJson) := by
  have applies : ∀ {plan}, AcceptsSeveral run elmJson specs isTest upgradeAll plan →
      ∃ changed, applyPlan (specs.map PackageVersionSpec.name) isTest elmJson plan = some changed ∧
        AppliesChanges (fun change => change.name ∈ specs.map PackageVersionSpec.name ∧
          findPackageMap elmJson change.name = none) elmJson changed plan := by
    intro plan accepts
    apply applyPlan_applies _ _ accepts.planned.nodup package
    intro change member asked missing
    apply converts.version accepts.planned member
    intro version new
    exact .installMultiple accepts member asked missing new
  by_cases busy : ∃ name version,
      (ProjectOperation.installMultiple run specs isTest upgradeAll).Chooses elmJson name version
  · obtain ⟨_, _, chooses⟩ := busy
    cases chooses with
    | @installMultiple _ _ _ _ plan change version accepts member asked missing new =>
      obtain ⟨changed, applied, writes⟩ := applies accepts
      have result : (ProjectOperation.installMultiple run specs isTest upgradeAll).next elmJson =
          changed.sortMaps := by
        unfold ProjectOperation.next
        dsimp only
        rw [accepts.installs package member asked missing applied]
        rfl
      rw [result]
      apply ProjectOperation.KeepsChoices.sortMaps
      apply writes.keepsChoices _ accepts.planned
      intro name text
      constructor
      · intro chooses
        cases chooses with
        | installMultiple also on named absent writes_ =>
          have same := also.solved
          rw [accepts.solved] at same
          cases same
          exact ⟨_, on, ⟨named, absent⟩, rfl, writes_⟩
      · intro chosen
        obtain ⟨other, on, ⟨named, absent⟩, rfl, writes_⟩ := chosen
        exact .installMultiple accepts on named absent writes_
  · have idle : ∀ name version,
        ¬ (ProjectOperation.installMultiple run specs isTest upgradeAll).Chooses elmJson name
          version :=
      fun name version chooses => busy ⟨name, version, chooses⟩
    unfold ProjectOperation.next
    dsimp only
    cases installed : installMultiplePackages run elmJson specs isTest upgradeAll with
    | none => exact .of_lists rfl idle fun _ listed => listed
    | some result =>
      cases installMultiplePackages_leaves installed with
      | unchanged code => exact .of_lists rfl idle fun _ listed => listed
      | @saved changed installs =>
        apply ProjectOperation.KeepsChoices.sortMaps
        obtain ⟨plan, none | accepts, direct, promoted, applied⟩ := installs
        · rw [promotions_package package] at promoted
          cases promoted
          rw [none] at applied
          cases applied
          exact .of_lists rfl idle fun _ listed => listed
        · rw [promotions_package package] at promoted
          cases promoted
          obtain ⟨other, same, writes⟩ := applies accepts
          rw [applied] at same
          cases same
          apply ProjectOperation.KeepsChoices.of_lists writes.type idle
          apply writes.lists
          intro change member chosen
          obtain ⟨v, new⟩ := (accepts.planned.changes change member).version
          exact idle _ _ (.installMultiple accepts member chosen.1 chosen.2 new)

theorem installFile_keepsChoices (package : elmJson.type = .package) {name : PackageName}
    {isTest : Bool} {file : PackageFile}
    (converts : (ProjectOperation.installFile run name isTest file).Converts elmJson) :
    (ProjectOperation.installFile run name isTest file).KeepsChoices elmJson
      ((ProjectOperation.installFile run name isTest file).next elmJson) := by
  unfold ProjectOperation.next
  dsimp only
  by_cases busy : ∃ actual version, AcceptsFile run name file actual version
  · obtain ⟨actual, version, accepts⟩ := busy
    obtain ⟨_, v, read, below, alone⟩ := converts actual version (.installFile accepts)
    have elsewhere : ∀ field, findPackageMap elmJson actual = some field →
        ∀ other ∈ elmJson.type.maps, other ≠ field →
          ∀ p ∈ (elmJson.maps other).packages, p.name = actual → admits p.version v = true := by
      intro field found other used apart p member named
      unfold findPackageMap at found
      rw [package] at found used
      have second : other = .packageTestDependencies ∧
          elmJson.ListsName .packageDependencies actual := by
        unfold ElmProjectType.maps at found used
        dsimp only at found used
        rw [List.find?_cons] at found
        split at found
        · rename_i first
          cases found
          refine ⟨?_, PackageMap.find_isSome.mp (by simpa using first)⟩
          simpa [apart] using used
        · rename_i absent
          have last : field = .packageTestDependencies := by
            have member := List.mem_of_find?_eq_some found
            exact List.mem_singleton.mp member
          have here : other = .packageDependencies := by
            rw [last] at apart
            simpa [apart] using used
          rw [here] at member
          have listed : (packageMapFind (elmJson.maps .packageDependencies) actual).isSome =
              true := by
            rw [← named, packageMapFind_mem member]
            rfl
          rw [listed] at absent
          cases absent
      obtain ⟨rfl, listed⟩ := second
      exact alone p named ⟨member, named ▸ listed⟩
    obtain ⟨changed, recorded, writes⟩ :=
      addOrUpdatePackageInElmJson_constraint package read below elsewhere isTest true
    rw [accepts.installs recorded]
    apply ProjectOperation.KeepsChoices.sortMaps
    refine ⟨writes.type, ?_, ?_⟩
    · intro p listed text chooses
      generalize same : p.name = other at chooses
      cases chooses with
      | installFile also =>
        have info := also.info
        rw [accepts.info] at info
        cases info
        exact ⟨v, read, writes.written p listed same⟩
    · intro p listed free
      have apart : p.name ≠ actual := by
        intro same
        apply free version
        rw [same]
        exact .installFile accepts
      exact (writes.others p.name apart).lists.mp listed
  · have idle : ∀ other version,
        ¬ (ProjectOperation.installFile run name isTest file).Chooses elmJson other version := by
      intro other version chooses
      cases chooses with
      | installFile accepts => exact busy ⟨_, _, accepts⟩
    have leaves := installFromFile_leaves run elmJson name isTest file
    generalize installFromFile run elmJson name isTest file = result at leaves ⊢
    cases leaves with
    | unchanged code => exact .of_lists rfl idle fun _ listed => listed
    | saved installs =>
      obtain ⟨actual, version, accepts, _⟩ := installs
      exact absurd ⟨actual, version, accepts⟩ busy

/-- A V2 upgrade that chooses nothing has nothing to write. -/
theorem upgradesSome_idle {package : Option String} {majorUpgrade majorIgnoreTest : Bool}
    (v2 : run.upgradesV2 = true)
    (idle : ∀ name version, ¬ (ProjectOperation.upgrade run package majorUpgrade
      majorIgnoreTest).Chooses elmJson name version)
    (upgrades : UpgradesSome run elmJson package majorUpgrade majorIgnoreTest changed) :
    changed = elmJson := by
  have protocol : run.upgradeProtocol = upgradeProtocolV2 run.solver := by
    unfold CommandRun.upgradeProtocol
    rw [if_pos v2]
  cases upgrades with
  | @single text name plan target parsed accepts applied =>
    have empty : plan = [] := by
      cases plan with
      | nil => rfl
      | cons change plan =>
        obtain ⟨v, new⟩ := (accepts.planned.changes change List.mem_cons_self).version
        exact absurd (.upgrade target parsed accepts List.mem_cons_self (Or.inl v2) new)
          (idle _ _)
    rw [protocol, empty] at applied
    cases applied
    rfl
  | @all plan target accepts applied =>
    rw [protocol] at applied
    cases applied
    apply List.foldlRecOn (motive := fun changed : ElmJson => changed = elmJson)
    · rfl
    · intro middle same change member
      rw [same]
      have on : change ∈ plan := Keyed.mem_sortBy.mp member
      obtain ⟨v, new⟩ := (accepts.planned.changes change on).version
      have unlisted : findPackageMap elmJson change.name = none := by
        rw [← Option.not_isSome_iff_eq_none]
        intro listed
        exact idle _ _ (.upgradeAll target accepts on listed new)
      unfold applyAllChangeV2
      rw [new]
      dsimp only
      unfold setPkgVersion
      rw [unlisted]

theorem AcceptsUpgradeAll.sorted {majorUpgrade : Bool}
    (accepts : AcceptsUpgradeAll run elmJson majorUpgrade plan) :
    InstallPlan.PlannedFor elmJson (Keyed.sortBy PackageChange.key plan) :=
  accepts.planned.perm (Keyed.perm_sortBy plan)

theorem upgrade_keepsChoices (package : elmJson.type = .package) {target : Option String}
    {majorUpgrade majorIgnoreTest : Bool}
    (converts : (ProjectOperation.upgrade run target majorUpgrade majorIgnoreTest).Converts
      elmJson) :
    (ProjectOperation.upgrade run target majorUpgrade majorIgnoreTest).KeepsChoices elmJson
      ((ProjectOperation.upgrade run target majorUpgrade majorIgnoreTest).next elmJson) := by
  by_cases busy : ∃ name version, (ProjectOperation.upgrade run target majorUpgrade
      majorIgnoreTest).Chooses elmJson name version
  · obtain ⟨_, _, chooses⟩ := busy
    have v1 : run.upgradesV2 = false := by
      have converting := (converts _ _ chooses).1
      unfold ProjectOperation.converts at converting
      simpa using converting
    have protocol : run.upgradeProtocol = upgradeProtocolV1 run.solver := by
      unfold CommandRun.upgradeProtocol
      rw [if_neg (by rw [v1]; exact Bool.false_ne_true)]
    cases chooses with
    | @upgrade _ _ _ _ text name plan change version one parsed accepts member asked new =>
      obtain ⟨changed, applied, writes⟩ := applySingleV1_applies name
        (isTestDependency elmJson name) accepts.planned.nodup package (by
          intro change member same
          apply converts.version accepts.planned member
          intro version new
          exact .upgrade one parsed accepts member (Or.inr same) new)
      have result : (ProjectOperation.upgrade run target majorUpgrade majorIgnoreTest).next
          elmJson = changed.sortMaps := by
        unfold ProjectOperation.next
        dsimp only
        rw [accepts.upgrades one parsed (by rw [protocol]; exact applied)]
        rfl
      rw [result]
      apply ProjectOperation.KeepsChoices.sortMaps
      apply writes.keepsChoices _ accepts.planned
      intro other text
      constructor
      · intro chooses
        cases chooses with
        | upgrade also reads accepts_ on asked_ writes_ =>
          rw [one] at also
          cases also
          rw [parsed] at reads
          cases reads
          rw [accepts.solved.unique accepts_.solved]
          exact ⟨_, on, asked_.resolve_left (by simp [v1]), rfl, writes_⟩
        | upgradeAll also =>
          rw [one] at also
          cases also
      · intro chosen
        obtain ⟨other, on, same, rfl, writes_⟩ := chosen
        exact .upgrade one parsed accepts on (Or.inr same) writes_
    | @upgradeAll _ _ _ _ plan change version all accepts member listed new =>
      have sorted := accepts.sorted
      obtain ⟨changed, applied, writes⟩ := applyAllV1_applies sorted.nodup package (by
          intro change member listed
          apply converts.version sorted member
          intro version new
          exact .upgradeAll all accepts (Keyed.mem_sortBy.mp member) listed new)
      have result : (ProjectOperation.upgrade run target majorUpgrade majorIgnoreTest).next
          elmJson = changed.sortMaps := by
        unfold ProjectOperation.next
        dsimp only
        rw [accepts.upgrades majorIgnoreTest all (by rw [protocol]; exact applied)]
        rfl
      rw [result]
      apply ProjectOperation.KeepsChoices.sortMaps
      apply writes.keepsChoices _ sorted
      intro other text
      constructor
      · intro chooses
        cases chooses with
        | upgrade also =>
          rw [all] at also
          cases also
        | upgradeAll _ accepts_ on listed_ writes_ =>
          rw [accepts.solved.unique accepts_.solved]
          refine ⟨_, ?_, listed_, rfl, writes_⟩
          exact Keyed.mem_sortBy.mpr on
      · intro chosen
        obtain ⟨other, on, listed_, rfl, writes_⟩ := chosen
        exact .upgradeAll all accepts (Keyed.mem_sortBy.mp on) listed_ writes_
  · have idle : ∀ name version, ¬ (ProjectOperation.upgrade run target majorUpgrade
        majorIgnoreTest).Chooses elmJson name version :=
      fun name version chooses => busy ⟨name, version, chooses⟩
    unfold ProjectOperation.next
    dsimp only
    cases upgraded : cmdUpgrade run elmJson target majorUpgrade majorIgnoreTest with
    | none => exact .of_lists rfl idle fun _ listed => listed
    | some result =>
      cases cmdUpgrade_leaves upgraded with
      | unchanged code => exact .of_lists rfl idle fun _ listed => listed
      | @saved changed upgrades =>
        apply ProjectOperation.KeepsChoices.sortMaps
        by_cases v2 : run.upgradesV2 = true
        · rw [upgradesSome_idle v2 idle upgrades]
          exact .of_lists rfl idle fun _ listed => listed
        have protocol : run.upgradeProtocol = upgradeProtocolV1 run.solver := by
          unfold CommandRun.upgradeProtocol
          rw [if_neg v2]
        cases upgrades with
        | @single text name plan one parsed accepts applied =>
          have free : ∀ change ∈ plan, ¬ change.name = name := by
            intro change member same
            obtain ⟨v, new⟩ := (accepts.planned.changes change member).version
            exact idle _ _ (.upgrade one parsed accepts member (Or.inr same) new)
          obtain ⟨other, same, writes⟩ := applySingleV1_applies name
            (isTestDependency elmJson name) accepts.planned.nodup package
            fun change member here => absurd here (free change member)
          rw [protocol] at applied
          cases applied.symm.trans same
          exact .of_lists writes.type idle (writes.lists free)
        | @all plan all accepts applied =>
          have sorted := accepts.sorted
          have free : ∀ change ∈ Keyed.sortBy PackageChange.key plan,
              ¬ (findPackageMap elmJson change.name).isSome = true := by
            intro change member listed
            obtain ⟨v, new⟩ := (sorted.changes change member).version
            exact idle _ _ (.upgradeAll all accepts (Keyed.mem_sortBy.mp member) listed new)
          obtain ⟨other, same, writes⟩ := applyAllV1_applies sorted.nodup package
            fun change member here => absurd here (free change member)
          rw [protocol] at applied
          cases applied.symm.trans same
          exact .of_lists writes.type idle (writes.lists free)

theorem remove_keepsChoices (package : elmJson.type = .package) (run : RemoveRun)
    (package_names : List String) :
    (ProjectOperation.remove run package_names).KeepsChoices elmJson
      ((ProjectOperation.remove run package_names).next elmJson) := by
  have idle : ∀ name version,
      ¬ (ProjectOperation.remove run package_names).Chooses elmJson name version := by
    intro name version chooses
    cases chooses
  have same : (ProjectOperation.remove run package_names).KeepsChoices elmJson elmJson :=
    .of_lists rfl idle fun _ listed => listed
  unfold ProjectOperation.next cmdRemove
  dsimp only
  split
  · exact same
  split
  · exact same
  rename_i names parsed
  split
  · exact same
  split
  · exact same
  split
  · rename_i application
    rw [package] at application
    cases application
  unfold removeFromPackage
  dsimp only
  split
  · exact same
  · exact same
  unfold saveAndFinish
  dsimp only
  split
  · apply ProjectOperation.KeepsChoices.sortMaps
    have leaves := foldl_removeFromPackageMaps
      (Keyed.sortBy PackageChange.key (names.foldl (addPackageRemoval elmJson) [])) elmJson
    apply ProjectOperation.KeepsChoices.of_lists leaves.type idle
    intro p listed
    obtain ⟨field, used, member⟩ := listed
    rw [leaves.type] at used
    exact ⟨field, used, ((leaves.entries field (package ▸ used) p).mp member).1⟩
  · exact same

theorem promote_keepsChoices (package : elmJson.type = .package) (name : PackageName) :
    (ProjectOperation.promote name).KeepsChoices elmJson
      ((ProjectOperation.promote name).next elmJson) := by
  have idle : ∀ other version,
      ¬ (ProjectOperation.promote name).Chooses elmJson other version := by
    intro other version chooses
    cases chooses
  unfold ProjectOperation.next
  dsimp only
  cases promotes : elmJsonPromotePackage elmJson name with
  | none => exact .of_lists rfl idle fun _ listed => listed
  | some promoted =>
    -- as in an install that promotes the package
    obtain ⟨type, lists⟩ := @installsListed_lists _ promoted package
      ⟨name, none, false, false, false⟩ (.promoted promotes)
    exact .of_lists type idle lists

theorem ProjectOperation.keepsChoices (package : elmJson.type = .package)
    {operation : ProjectOperation} (converts : operation.Converts elmJson) :
    operation.KeepsChoices elmJson (operation.next elmJson) := by
  cases operation with
  | install run request => exact install_keepsChoices package converts
  | installMultiple run specs isTest upgradeAll =>
    exact installMultiple_keepsChoices package converts
  | installFile run name isTest file => exact installFile_keepsChoices package converts
  | promote name => exact promote_keepsChoices package name
  | upgrade run target majorUpgrade majorIgnoreTest =>
    exact upgrade_keepsChoices package converts
  | remove run package_names => exact remove_keepsChoices package run package_names

/-! ## Sequences of commands -/

/-- Every value is a constraint. -/
def ElmJson.ListsConstraints (elmJson : ElmJson) : Prop :=
  ∀ p, elmJson.Lists p → isConstraint p.version = true

/-- The command is an upgrade. -/
def ProjectOperation.isUpgrade : ProjectOperation → Bool
  | .upgrade _ _ _ _ => true
  | _ => false

/-- What a command leaves of a package project: values that are constraints, that admit the
versions it has chosen, and that are otherwise as before; an upgrade adds no package. -/
structure ProjectOperation.KeepsConstraints (elmJson : ElmJson) (operation : ProjectOperation)
    (next : ElmJson) : Prop where
  constraints : next.ListsConstraints
  keeps : operation.KeepsChoices elmJson next
  upgrades : operation.isUpgrade = true → ∀ p, next.Lists p →
    ∃ q, elmJson.Lists q ∧ q.name = p.name

theorem ProjectOperation.KeepsChoices.constraints {elmJson next : ElmJson}
    {operation : ProjectOperation} (keeps : operation.KeepsChoices elmJson next)
    (converts : operation.Converts elmJson) (before : elmJson.ListsConstraints) :
    operation.KeepsConstraints elmJson next := by
  have either : ∀ p : Package, (∃ version, operation.Chooses elmJson p.name version) ∨
      ∀ version, ¬ operation.Chooses elmJson p.name version := by
    intro p
    by_cases some_ : ∃ version, operation.Chooses elmJson p.name version
    · exact Or.inl some_
    · exact Or.inr fun version chooses => some_ ⟨version, chooses⟩
  refine ⟨?_, keeps, ?_⟩
  · intro p listed
    rcases either p with ⟨version, chooses⟩ | free
    · obtain ⟨v, _, admitted⟩ := keeps.chosen p listed version chooses
      exact isConstraint_of_admits admitted
    · exact before p (keeps.others p listed free)
  · intro upgrade p listed
    rcases either p with ⟨version, chooses⟩ | free
    · have converting := (converts _ _ chooses).1
      generalize same : p.name = name at chooses
      have there : (findPackageMap elmJson name).isSome = true := by
        cases chooses with
        | upgrade _ _ accepts _ asked _ =>
          unfold ProjectOperation.converts at converting
          obtain ⟨existing, _, _, found, _⟩ := accepts.available
          rw [asked.resolve_left (by simpa using converting), ← findExistingPackage_isSome, found]
          rfl
        | upgradeAll _ _ _ listed_ _ => exact listed_
        | _ => cases upgrade
      obtain ⟨field, used, here⟩ := findPackageMap_isSome.mp there
      obtain ⟨q, member, named⟩ := List.mem_map.mp here
      exact ⟨q, ⟨field, used, member⟩, named⟩
    · exact ⟨p, keeps.others p listed free, rfl⟩

/-- In every sequence of commands on a package project that lists constraints, every command
leaves constraints that admit the versions it has chosen, for as long as the commands convert
these versions to constraints. -/
theorem runProject_constraints {elmJson : ElmJson} (package : elmJson.type = .package)
    (constraints : elmJson.ListsConstraints) (operations : List ProjectOperation)
    (converts : ∀ done operation rest, operations = done ++ operation :: rest →
      operation.Converts (runProject elmJson done)) :
    (∀ done rest, operations = done ++ rest → (runProject elmJson done).ListsConstraints) ∧
      ∀ done operation rest, operations = done ++ operation :: rest →
        operation.KeepsConstraints (runProject elmJson done)
          (operation.next (runProject elmJson done)) := by
  have reached : ∀ done rest, operations = done ++ rest →
      (runProject elmJson done).type = .package ∧ (runProject elmJson done).ListsConstraints := by
    intro done rest split
    apply @runProject_induction
      (fun elmJson : ElmJson => elmJson.type = .package ∧ elmJson.ListsConstraints)
      (fun elmJson operation => operation.Converts elmJson)
    · intro elmJson operation holds converts
      have keeps := operation.keepsChoices holds.1 converts
      exact ⟨keeps.type.trans holds.1, (keeps.constraints converts holds.2).constraints⟩
    · exact ⟨package, constraints⟩
    · intro before operation after here
      apply converts before operation (after ++ rest)
      rw [split, here, List.append_assoc]
      rfl
  constructor
  · intro done rest split
    exact (reached done rest split).2
  · intro done operation rest split
    obtain ⟨type, before⟩ := reached done (operation :: rest) split
    have here := converts done operation rest split
    exact (operation.keepsChoices type here).constraints here before

theorem httpProject_constraints : httpProject.ListsConstraints := by
  intro p listed
  obtain ⟨field, used, member⟩ := listed
  cases field with
  | packageDependencies =>
    rw [List.mem_singleton.mp member]
    decide
  | packageTestDependencies => cases member
  | _ => exact absurd used (by decide)

/-- `install --from-file` of `elm/json`. -/
def installJsonFile (version : String) : ProjectOperation :=
  .installFile (acceptedRun sampleState) elmJsonPackage false
    ⟨some (elmJsonPackage, version), true, true, true⟩

theorem installJsonFile_converts {elmJson : ElmJson} {text : String} {v : Version}
    (untested : (elmJson.maps .packageTestDependencies).packages = [])
    (parsed : versionParseSafe text = some v) (small : v.major ≠ 65535) :
    (installJsonFile text).Converts elmJson := by
  intro name version chooses
  cases chooses with
  | installFile accepts =>
    cases accepts.info
    refine ⟨rfl, v, parsed, small, ?_⟩
    intro p _ alone
    have listed : p ∈ (elmJson.maps .packageTestDependencies).packages := alone.1
    rw [untested] at listed
    cases listed

/-- The file is installed, and then a newer one. -/
theorem runProject_constraints_file :
    (∀ done rest, [installJsonFile "1.1.3", installJsonFile "1.2.0"] = done ++ rest →
        (runProject httpProject done).ListsConstraints) ∧
      ∀ done operation rest,
        [installJsonFile "1.1.3", installJsonFile "1.2.0"] = done ++ operation :: rest →
        operation.KeepsConstraints (runProject httpProject done)
          (operation.next (runProject httpProject done)) := by
  apply runProject_constraints rfl httpProject_constraints
  intro done operation rest split
  match done with
  | [] =>
    cases split
    exact @installJsonFile_converts _ _ ⟨1, 1, 3⟩ rfl (by decide) (by decide)
  | [_] =>
    cases split
    exact @installJsonFile_converts _ _ ⟨1, 2, 0⟩ (by decide) (by decide) (by decide)
  | _ :: _ :: done =>
    have lengths := congrArg List.length split
    simp at lengths

/-- A V2 index with a new version of `elm/http`. -/
def upgradeState : SolverState :=
  { sampleState with
    protocolMode := .v2
    v2Registry := some {
      entries := [
        ⟨"elm", "json", [⟨1, 1, 0, .valid, []⟩]⟩,
        ⟨"elm", "http", [⟨2, 0, 1, .valid, [⟨"elm/json", "1.1.0 <= v < 2.0.0"⟩]⟩,
          ⟨2, 0, 0, .valid, [⟨"elm/json", "1.1.0 <= v < 2.0.0"⟩]⟩]⟩] } }

/-- `upgrade elm/http` writes two versions, one of them for a package that was not listed. -/
theorem runProject_lists_versions :
    ¬ ∀ elmJson : ElmJson, elmJson.type = .package → elmJson.ListsConstraints →
      ∀ operations, (runProject elmJson operations).ListsConstraints := by
  intro claim
  have constraints := claim httpProject rfl httpProject_constraints
    [.upgrade (acceptedRun upgradeState) (some "elm/http") false false]
  have version := constraints ⟨elmHttpPackage, "2.0.1"⟩ ⟨.packageDependencies, by decide +kernel,
    by decide +kernel⟩
  have bare : isConstraint "2.0.1" = false := by decide
  rw [bare] at version
  cases version

end ElmWrap
