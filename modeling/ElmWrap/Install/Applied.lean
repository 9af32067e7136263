import ElmWrap.Project.Operations

/-!
# What an install leaves of an application

Package by package: a plan writes the first map that lists a package, and adds a
package that is not listed. An install that is not accepted leaves the file as it
was.
-/

namespace ElmWrap

open Lib

/-! ## Plans -/

/-- The listing of a package of an application after its change is applied. -/
def installWritten (requested : List PackageName) (isTest : Bool) (change : PackageChange)
    (listing : ElmJsonMap → Option String) : ElmJsonMap → Option String :=
  match firstMap .application listing with
  | none => Function.update listing
      (targetMap .application isTest (requested.contains change.name))
      (some (change.newVersion.getD ""))
  | some field => Function.update listing field (some (change.newVersion.getD ""))

variable {elmJson : ElmJson} {run : CommandRun}

theorem applyChange_relists (application : elmJson.type = .application)
    (requested : List PackageName) (isTest : Bool) {change : PackageChange} {version : String}
    (new : change.newVersion = some version) :
    ∃ next, applyChange requested isTest elmJson change = some next ∧
      elmJson.Relists next change.name
        (installWritten requested isTest change (elmJson.listing change.name)) := by
  have text : projectText elmJson.type version = version := by
    rw [application]
    rfl
  unfold applyChange installWritten
  dsimp only
  rw [application, new, findPackageMap_eq, application]
  rw [if_neg (by simp)]
  cases found : firstMap .application (elmJson.listing change.name) with
  | none =>
    obtain ⟨next, written, relists⟩ := addOrUpdatePackageInElmJson_relists elmJson change.name
      version isTest (requested.contains change.name)
    rw [text, application, found] at relists
    exact ⟨next, written, relists⟩
  | some field =>
    obtain ⟨next, written, relists⟩ := addOrUpdatePackageInElmJson_relists elmJson change.name
      version isTest (field = .dependenciesDirect || field = .dependenciesTestDirect)
    rw [text, application, found] at relists
    exact ⟨next, written, relists⟩

/-- What a plan leaves of an application. -/
structure AppliesListings (requested : List PackageName) (isTest : Bool) (plan : InstallPlan)
    (elmJson changed : ElmJson) : Prop where
  type : changed.type = elmJson.type
  own : ∀ change ∈ plan, changed.listing change.name =
    installWritten requested isTest change (elmJson.listing change.name)
  others : ∀ name, name ∉ plan.map PackageChange.name →
    changed.listing name = elmJson.listing name

theorem applyPlan_listings (application : elmJson.type = .application) {plan : InstallPlan}
    (planned : plan.PlannedFor elmJson) (requested : List PackageName) (isTest : Bool) :
    ∃ changed, applyPlan requested isTest elmJson plan = some changed ∧
      AppliesListings requested isTest plan elmJson changed := by
  obtain ⟨changed, applied, type, own, others⟩ :=
    @foldlM_relists (applyChange requested isTest) (installWritten requested isTest) plan
      planned.nodup elmJson (by
        intro change member current same _
        obtain ⟨v, new⟩ := (planned.changes change member).version
        exact applyChange_relists (same.trans application) requested isTest new)
  exact ⟨changed, applied, type, own, others⟩

/-- A package that is listed stays where it is. -/
theorem AppliesListings.places {elmJson changed : ElmJson} {plan : InstallPlan}
    {requested : List PackageName} {isTest : Bool}
    (applies : AppliesListings requested isTest plan elmJson changed) {name : PackageName}
    (listed : firstMap .application (elmJson.listing name) ≠ none) (field : ElmJsonMap) :
    (changed.listing name field).isSome = (elmJson.listing name field).isSome := by
  by_cases inside : name ∈ plan.map PackageChange.name
  · obtain ⟨change, member, rfl⟩ := List.mem_map.mp inside
    obtain ⟨first, found⟩ := Option.ne_none_iff_exists'.mp listed
    rw [applies.own change member]
    unfold installWritten
    rw [found]
    dsimp only
    rw [Function.update_apply]
    split
    · rename_i here
      rw [here, (firstMap_some found).2]
      rfl
    · rfl
  · rw [applies.others name inside]

/-- Every change of the solver changes the listing of its package. -/
theorem AppliesListings.changes {elmJson changed : ElmJson}
    (application : elmJson.type = .application) {plan : InstallPlan}
    (planned : plan.PlannedFor elmJson) {requested : List PackageName} {isTest : Bool}
    (applies : AppliesListings requested isTest plan elmJson changed) {change : PackageChange}
    (member : change ∈ plan) :
    changed.listing change.name ≠ elmJson.listing change.name := by
  obtain ⟨v, new⟩ := (planned.changes change member).version
  have old := (planned.changes change member).first
  have differs := (planned.changes change member).differs
  intro same
  rw [applies.own change member] at same
  unfold installWritten at same
  rw [application] at old
  rw [old, new] at differs
  rw [new, Option.getD_some] at same
  cases found : firstMap .application (elmJson.listing change.name) with
  | none =>
    rw [found] at same
    have value := congrFun same
      (targetMap .application isTest (requested.contains change.name))
    dsimp only at value
    rw [Function.update_self, firstMap_none found (targetMap_mem _ _ _)] at value
    cases value
  | some first =>
    rw [found] at same differs
    have value := congrFun same first
    dsimp only at value
    rw [Function.update_self] at value
    exact differs value.symm

/-! ## Where an application lists a package -/

/-- The first map that lists a package, with the answer of `elm_json_find_package`. -/
inductive ListedAt (listing : ElmJsonMap → Option String) : PromotionType → Prop
  | direct : (listing .dependenciesDirect).isSome = true → ListedAt listing .none
  | indirect : listing .dependenciesDirect = none →
    (listing .dependenciesIndirect).isSome = true → ListedAt listing .indirectToDirect
  | testDirect : listing .dependenciesDirect = none → listing .dependenciesIndirect = none →
    (listing .dependenciesTestDirect).isSome = true → ListedAt listing .testToDirect
  | testIndirect : listing .dependenciesDirect = none → listing .dependenciesIndirect = none →
    listing .dependenciesTestDirect = none → (listing .dependenciesTestIndirect).isSome = true →
    ListedAt listing .testIndirectToTestDirect
  | absent : firstMap .application listing = none → ListedAt listing .none

theorem PackageMap.has_listing (elmJson : ElmJson) (field : ElmJsonMap) (name : PackageName) :
    (elmJson.maps field).has name = (elmJson.listing name field).isSome := by
  unfold has ElmJson.listing
  rw [Option.isSome_map]

theorem firstMap_application (listing : ElmJsonMap → Option String) :
    firstMap .application listing =
      if (listing .dependenciesDirect).isSome then some .dependenciesDirect
      else if (listing .dependenciesIndirect).isSome then some .dependenciesIndirect
      else if (listing .dependenciesTestDirect).isSome then some .dependenciesTestDirect
      else if (listing .dependenciesTestIndirect).isSome then some .dependenciesTestIndirect
      else none := by
  unfold firstMap ElmProjectType.maps
  simp only [List.find?_cons, List.find?_nil]
  cases (listing .dependenciesDirect).isSome <;> cases (listing .dependenciesIndirect).isSome <;>
    cases (listing .dependenciesTestDirect).isSome <;>
    cases (listing .dependenciesTestIndirect).isSome <;> rfl

theorem elmJsonFindPackage_listedAt (application : elmJson.type = .application)
    (name : PackageName) :
    ListedAt (elmJson.listing name) (elmJsonFindPackage elmJson name) := by
  have first := firstMap_application (elmJson.listing name)
  unfold elmJsonFindPackage
  rw [application]
  simp only [PackageMap.has_listing]
  split
  · rename_i direct
    exact .direct direct
  rename_i direct
  rw [if_neg direct] at first
  rw [Option.not_isSome_iff_eq_none] at direct
  split
  · rename_i indirect
    exact .indirect direct indirect
  rename_i indirect
  rw [if_neg indirect] at first
  rw [Option.not_isSome_iff_eq_none] at indirect
  split
  · rename_i testDirect
    exact .testDirect direct indirect testDirect
  rename_i testDirect
  rw [if_neg testDirect] at first
  rw [Option.not_isSome_iff_eq_none] at testDirect
  split
  · rename_i testIndirect
    exact .testIndirect direct indirect testDirect testIndirect
  · rename_i testIndirect
    rw [if_neg testIndirect] at first
    exact .absent first

theorem elmJsonFindPackage_absent (application : elmJson.type = .application) {name : PackageName}
    (absent : firstMap .application (elmJson.listing name) = none) :
    elmJsonFindPackage elmJson name = .none := by
  have missing : ∀ field ∈ ElmProjectType.application.maps,
      (elmJson.maps field).has name = false := by
    intro field used
    rw [PackageMap.has_listing, firstMap_none absent used]
    rfl
  unfold elmJsonFindPackage
  rw [application]
  dsimp only
  rw [missing _ (by decide), missing _ (by decide), missing _ (by decide), missing _ (by decide)]
  rfl

theorem findExistingPackage_none_iff (application : elmJson.type = .application)
    (name : PackageName) :
    findExistingPackage elmJson name = none ↔
      firstMap .application (elmJson.listing name) = none := by
  rw [findExistingPackage_eq, findPackageMap_eq, application]
  cases found : firstMap .application (elmJson.listing name) with
  | none => simp
  | some field =>
    have listed := (firstMap_some found).2
    unfold ElmJson.listing at listed
    rw [Option.isSome_map, Option.isSome_iff_ne_none] at listed
    simpa using listed

/-- A promotion moves the entry of the package. -/
theorem elmJsonPromotePackage_application (application : elmJson.type = .application)
    {name : PackageName} {source target : ElmJsonMap}
    (moves : (elmJsonFindPackage elmJson name).maps .application = some (source, target))
    (listed : (elmJson.listing name source).isSome = true) :
    ∃ promoted, elmJsonPromotePackage elmJson name = some promoted ∧
      elmJson.Relists promoted name (Function.update (Function.update (elmJson.listing name) target
        (some ((elmJson.listing name target).getD
          ((elmJson.listing name source).getD "")))) source none) := by
  unfold elmJsonPromotePackage
  rw [application, moves]
  unfold ElmJson.listing at listed
  rw [Option.isSome_map] at listed
  obtain ⟨p, found⟩ := Option.isSome_iff_exists.mp listed
  have here : elmJson.listing name source = some p.version := by
    unfold ElmJson.listing
    rw [found]
    rfl
  rw [here]
  dsimp only
  rw [found]
  exact ⟨_, rfl, elmJson.relists_move name p.version (PromotionType.maps_used moves).2.2⟩

/-! ## Files that list the same -/

theorem ElmJson.SameMaps.listing {elmJson other : ElmJson} (same : elmJson.SameMaps other)
    (name : PackageName) (field : ElmJsonMap) :
    elmJson.listing name field = other.listing name field :=
  congrFun ((ElmJson.sameMaps_iff.mp same).2 name) field

@[simp] theorem ElmJson.listing_sortMaps (elmJson : ElmJson) (name : PackageName) :
    elmJson.sortMaps.listing name = elmJson.listing name :=
  (ElmJson.sameMaps_iff.mp elmJson.sameMaps_sortMaps).2 name

/-! ## The file after the solver -/

/-- The file after `install_package` has gone on to the solver. -/
def solvedFile (run : CommandRun) (elmJson : ElmJson) (request : AddRequest) : ElmJson :=
  ((solveAndInstall run elmJson request).map CommandResult.elmJson).getD elmJson

/-- The solver has nothing to change, or its plan is not accepted. -/
def InstallIdle (run : CommandRun) (elmJson : ElmJson) (request : AddRequest) : Prop :=
  ∀ plan, AcceptsInstall run elmJson request plan → plan = []

theorem CommandRun.isOwn_application (application : elmJson.type = .application) (run : CommandRun)
    (name : PackageName) :
    run.isOwn elmJson name = false := by
  unfold isOwn
  simp [application]

/-- Either the accepted plan is applied, or the file stays as it was. -/
theorem solvedFile_cases (application : elmJson.type = .application) (run : CommandRun)
    (request : AddRequest) :
    (∃ plan changed, AcceptsInstall run elmJson request plan ∧
        AppliesListings [request.name] request.isTestDependency plan elmJson changed ∧
        solvedFile run elmJson request = changed.sortMaps) ∨
      ((∀ plan, ¬ AcceptsInstall run elmJson request plan) ∧
        solvedFile run elmJson request = elmJson) := by
  by_cases accepted : ∃ plan, AcceptsInstall run elmJson request plan
  · obtain ⟨plan, accepts⟩ := accepted
    obtain ⟨changed, applied, listings⟩ := applyPlan_listings application accepts.planned
      [request.name] request.isTestDependency
    refine Or.inl ⟨plan, changed, accepts, listings, ?_⟩
    unfold solvedFile
    rw [accepts.solves applied]
    rfl
  · refine Or.inr ⟨fun plan accepts => accepted ⟨plan, accepts⟩, ?_⟩
    unfold solvedFile
    cases solved : solveAndInstall run elmJson request with
    | none => rfl
    | some result =>
      cases solveAndInstall_leaves (run.isOwn_application application request.name) solved with
      | unchanged code => rfl
      | saved applies =>
        obtain ⟨plan, accepts, _⟩ := applies
        exact absurd ⟨plan, accepts⟩ accepted

theorem solvedFile_same_iff (application : elmJson.type = .application) (run : CommandRun)
    (request : AddRequest) :
    (solvedFile run elmJson request).SameMaps elmJson ↔ InstallIdle run elmJson request := by
  rcases solvedFile_cases application run request with
    ⟨plan, changed, accepts, listings, same⟩ | ⟨refused, same⟩
  · rw [same]
    constructor
    · intro unchanged other also
      rw [also.solved.unique accepts.solved]
      cases plan with
      | nil => rfl
      | cons change plan =>
        have listed := (ElmJson.sameMaps_iff.mp unchanged).2 change.name
        rw [ElmJson.listing_sortMaps] at listed
        exact absurd listed (listings.changes application accepts.planned List.mem_cons_self)
    · intro idle
      apply changed.sameMaps_sortMaps.trans
      apply ElmJson.sameMaps_iff.mpr
      refine ⟨listings.type, ?_⟩
      intro name
      apply listings.others
      rw [idle plan accepts]
      exact List.not_mem_nil
  · rw [same]
    constructor
    · intro _ plan accepts
      exact absurd accepts (refused plan)
    · intro _
      exact ⟨rfl, fun _ _ => Iff.rfl⟩

/-- Where a listed package stands after the solver. -/
theorem solvedFile_places (application : elmJson.type = .application) (run : CommandRun)
    (request : AddRequest) {name : PackageName}
    (listed : firstMap .application (elmJson.listing name) ≠ none) (field : ElmJsonMap) :
    ((solvedFile run elmJson request).listing name field).isSome =
      (elmJson.listing name field).isSome := by
  rcases solvedFile_cases application run request with
    ⟨plan, changed, accepts, listings, same⟩ | ⟨refused, same⟩
  · rw [same, ElmJson.listing_sortMaps]
    exact listings.places listed field
  · rw [same]

/-! ## The path for one package -/

/-- The version asked for is listed, and nothing is missing. -/
def CommandRun.already (run : CommandRun) (elmJson : ElmJson) (name : PackageName)
    (target : Version) : Bool :=
  ((findExistingPackage elmJson name).any fun p => versionParseSafe p.version = some target) &&
    !run.incomplete elmJson

theorem installPackage_absent (application : elmJson.type = .application) (run : CommandRun)
    {request : AddRequest} (absent : findExistingPackage elmJson request.name = none) :
    installPackage run elmJson request = solveAndInstall run elmJson request := by
  unfold installPackage
  rw [application, absent]
  rfl

theorem installPackage_unlinked (application : elmJson.type = .application) {request : AddRequest}
    (unlinked : run.linked elmJson request.name = false) :
    installPackage run elmJson request = some ⟨1, elmJson⟩ := by
  unfold installPackage
  rw [application]
  cases found : findExistingPackage elmJson request.name with
  | none =>
    unfold CommandRun.linked at unlinked
    rw [found] at unlinked
    cases unlinked
  | some existing =>
    rw [unlinked]
    rfl

/-- `install_package` for a package that is listed. -/
theorem installPackage_listed (application : elmJson.type = .application) (request : AddRequest)
    (linked : run.linked elmJson request.name = true) {existing : Package}
    (found : findExistingPackage elmJson request.name = some existing) :
    installPackage run elmJson request =
      match request.targetVersion with
      | some target =>
        if run.already elmJson request.name target then some ⟨0, elmJson⟩
        else solveAndInstall run elmJson request
      | none =>
        if request.majorUpgrade then solveAndInstall run elmJson request
        else installListed run elmJson existing request := by
  unfold installPackage CommandRun.already
  rw [application, found, linked]
  cases request.targetVersion with
  | some target =>
    dsimp only
    rw [Option.any_some, if_neg (by simp), if_neg (by simp)]
  | none =>
    dsimp only
    rw [if_neg (by simp), if_neg (by simp)]

/-- The file after `install_package`. -/
def singleFile (run : CommandRun) (elmJson : ElmJson) (request : AddRequest) : ElmJson :=
  (ProjectOperation.install run request).next elmJson

theorem singleFile_eq (run : CommandRun) (elmJson : ElmJson) (request : AddRequest) :
    singleFile run elmJson request =
      ((installPackage run elmJson request).map CommandResult.elmJson).getD elmJson := rfl

theorem singleFile_absent (application : elmJson.type = .application) (run : CommandRun)
    {request : AddRequest} (absent : findExistingPackage elmJson request.name = none) :
    singleFile run elmJson request = solvedFile run elmJson request := by
  rw [singleFile_eq, installPackage_absent application run absent]
  rfl

theorem singleFile_unlinked (application : elmJson.type = .application) {request : AddRequest}
    (unlinked : run.linked elmJson request.name = false) :
    singleFile run elmJson request = elmJson := by
  rw [singleFile_eq, installPackage_unlinked application unlinked]
  rfl

/-- The path for one package, for a package that is listed. -/
theorem singleFile_listed (application : elmJson.type = .application) (request : AddRequest)
    (linked : run.linked elmJson request.name = true) {existing : Package}
    (found : findExistingPackage elmJson request.name = some existing) :
    singleFile run elmJson request =
      match request.targetVersion with
      | some target =>
        if run.already elmJson request.name target then elmJson
        else solvedFile run elmJson request
      | none =>
        if request.majorUpgrade then solvedFile run elmJson request
        else ((installListed run elmJson existing request).map CommandResult.elmJson).getD
          elmJson := by
  rw [singleFile_eq, installPackage_listed application request linked found]
  cases request.targetVersion with
  | some target =>
    dsimp only
    split
    · rfl
    · rfl
  | none =>
    dsimp only
    split
    · rfl
    · rfl

theorem CommandRun.save_elmJson (run : CommandRun) (elmJson changed : ElmJson) :
    (run.save elmJson changed).elmJson = if run.saves then changed.sortMaps else elmJson := by
  unfold CommandRun.save
  split
  · rfl
  · rfl

/-- `--test` adds a package to the direct test dependencies. -/
theorem addToTestDirect_adds (saves : run.saves = true) {existing : Package}
    (missing : (elmJson.maps .dependenciesTestDirect).has existing.name = false) :
    ((addToTestDirect run elmJson existing).elmJson.listing existing.name
      .dependenciesTestDirect).isSome = true := by
  unfold addToTestDirect
  rw [if_neg (by simp [missing])]
  split
  · rename_i testIndirect found
    have moved := (elmJson.relists_move existing.name testIndirect.version
      (show ElmJsonMap.dependenciesTestIndirect ≠ .dependenciesTestDirect by decide)).own
    rw [CommandRun.save_elmJson, if_pos saves, ElmJson.listing_sortMaps, moved,
      Function.update_of_ne (by decide), Function.update_self]
    rfl
  · have added := (elmJson.relists_add .dependenciesTestDirect existing.name existing.version).own
    rw [CommandRun.save_elmJson, if_pos saves, ElmJson.listing_sortMaps, added,
      Function.update_self]
    rfl

/-- A listed package is asked for as a test dependency, without a version. -/
theorem singleFile_test (application : elmJson.type = .application) (request : AddRequest)
    (linked : run.linked elmJson request.name = true) {existing : Package}
    (found : findExistingPackage elmJson request.name = some existing)
    (version : request.targetVersion = none) (minor : request.majorUpgrade = false)
    (test : request.isTestDependency = true) :
    singleFile run elmJson request = (addToTestDirect run elmJson existing).elmJson := by
  rw [singleFile_listed application request linked found, version]
  dsimp only
  rw [if_neg (by simp [minor])]
  unfold installListed
  rw [if_pos test, application]
  rfl

/-- A listed package that is not a direct dependency is promoted. -/
theorem singleFile_promoted (application : elmJson.type = .application) (request : AddRequest)
    (linked : run.linked elmJson request.name = true) {existing : Package}
    (found : findExistingPackage elmJson request.name = some existing)
    (version : request.targetVersion = none) (minor : request.majorUpgrade = false)
    (production : request.isTestDependency = false) (saves : run.saves = true)
    (other : elmJsonFindPackage elmJson request.name ≠ .none) {promoted : ElmJson}
    (promotes : elmJsonPromotePackage elmJson request.name = some promoted) :
    singleFile run elmJson request = promoted.sortMaps := by
  rw [singleFile_listed application request linked found, version]
  dsimp only
  rw [if_neg (by simp [minor])]
  unfold installListed
  rw [if_neg (by simp [production]), if_pos other, promotes]
  dsimp only
  rw [Option.map_some, Option.getD_some, CommandRun.save_elmJson, if_pos saves]

end ElmWrap
