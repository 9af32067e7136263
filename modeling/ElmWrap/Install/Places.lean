import ElmWrap.Install.Applied

/-!
# Where an installed package ends

`install_package` of an application: which of the four maps list the package when
it returns 0, whether it was promoted or went through a plan.
-/

namespace ElmWrap

open Lib

/-! ## One map -/

/-- The maps list the package in this field and in no other. -/
def OnlyIn (listing : ElmJsonMap → Option String) (field : ElmJsonMap) : Prop :=
  (listing field).isSome = true ∧
    ∀ other ∈ ElmProjectType.application.maps, other ≠ field → listing other = none

theorem onlyIn_iff {listing : ElmJsonMap → Option String} {field : ElmJsonMap} :
    OnlyIn listing field ↔ (listing field).isSome = true ∧
      ∀ other ∈ ElmProjectType.application.maps, other ≠ field →
        (listing other).isSome = false := by
  unfold OnlyIn
  simp only [Option.isSome_eq_false_iff, Option.isNone_iff_eq_none]

theorem OnlyIn.congr {listing changed : ElmJsonMap → Option String}
    (same : ∀ field, (changed field).isSome = (listing field).isSome) (field : ElmJsonMap) :
    OnlyIn changed field ↔ OnlyIn listing field := by
  rw [onlyIn_iff, onlyIn_iff]
  simp only [same]

theorem OnlyIn.absent {listing : ElmJsonMap → Option String}
    (absent : firstMap .application listing = none) {field : ElmJsonMap}
    (used : field ∈ ElmProjectType.application.maps) : ¬ OnlyIn listing field := by
  intro only
  have listed := only.1
  rw [firstMap_none absent used] at listed
  cases listed

/-- A package that was in no map and is written to one. -/
theorem OnlyIn.update {listing : ElmJsonMap → Option String}
    (absent : firstMap .application listing = none) (field : ElmJsonMap) (version : String) :
    OnlyIn (Function.update listing field (some version)) field := by
  refine ⟨by rw [Function.update_self]; rfl, ?_⟩
  intro other used apart
  rw [Function.update_of_ne apart]
  exact firstMap_none absent used

/-- A package that is moved to a map that did not list it. -/
theorem OnlyIn.move {listing : ElmJsonMap → Option String} {source target : ElmJsonMap}
    (apart : source ≠ target)
    (listed : (listing source).isSome = true) (free : listing target = none) (version : String) :
    OnlyIn (Function.update (Function.update listing target (some version)) source none) target ↔
      OnlyIn listing source := by
  constructor
  · intro only
    refine ⟨listed, ?_⟩
    intro other member different
    by_cases here : other = target
    · rw [here]
      exact free
    · have kept := only.2 other member here
      rw [Function.update_of_ne different, Function.update_of_ne here] at kept
      exact kept
  · intro only
    constructor
    · rw [Function.update_of_ne apart.symm, Function.update_self]
      rfl
    · intro other member different
      by_cases here : other = source
      · rw [here, Function.update_self]
      · rw [Function.update_of_ne here, Function.update_of_ne different]
        exact only.2 other member here

theorem OnlyIn.unique {listing : ElmJsonMap → Option String} {field other : ElmJsonMap}
    (used : field ∈ ElmProjectType.application.maps) (listed : (listing field).isSome = true)
    (only : OnlyIn listing other) : field = other := by
  by_contra apart
  rw [only.2 field used apart] at listed
  cases listed

/-! ## Through the solver -/

/-- The solver is gone through with exit code 0: the plan is declined, or it is applied. -/
theorem solveAndInstall_succeeds {run : CommandRun} {elmJson final : ElmJson}
    {request : AddRequest} (other : run.isOwn elmJson request.name = false)
    (installed : solveAndInstall run elmJson request = some ⟨0, final⟩) :
    (run.confirmed = some false ∧ final = elmJson) ∨
      (run.confirmed = some true ∧ ∃ plan, AcceptsInstall run elmJson request plan) := by
  unfold solveAndInstall at installed
  split at installed
  · cases installed
  rename_i known
  split at installed
  · cases installed
  rename_i target
  split at installed
  · cases installed
  rename_i starts
  split at installed
  · cases installed
  · rename_i outcome solved
    split at installed
    · cases installed
    rename_i ok
    split at installed
    · cases installed
    · rename_i declined
      cases installed
      exact Or.inl ⟨declined, rfl⟩
    · rename_i confirmed
      split at installed
      · cases installed
      · rename_i changed applied
        refine Or.inr ⟨confirmed, outcome.plan, other, by simpa using known, by simpa using target,
          ⟨by simpa using starts, confirmed, ?_⟩, outcome, solved, not_not.mp ok, rfl⟩
        unfold CommandRun.save at installed
        split at installed
        · rename_i saves
          exact saves
        · cases installed

theorem installed_single {run : CommandRun} {elmJson final : ElmJson} {request : AddRequest}
    {code : Nat} (installed : installPackage run elmJson request = some ⟨code, final⟩) :
    singleFile run elmJson request = final := by
  rw [singleFile_eq, installed]
  rfl

/-- A package that was not listed: the map it is written to is the only one. -/
theorem installPackage_absent_places {run : CommandRun} {elmJson final : ElmJson}
    (application : elmJson.type = .application) {request : AddRequest}
    (absent : firstMap .application (elmJson.listing request.name) = none)
    (installed : installPackage run elmJson request = some ⟨0, final⟩) :
    OnlyIn (final.listing request.name)
        (targetMap .application request.isTestDependency true) ↔
      run.confirmed ≠ some false := by
  have missing := (findExistingPackage_none_iff application request.name).mpr absent
  have single := installed_single installed
  rw [installPackage_absent application run missing] at installed
  rw [singleFile_absent application run missing] at single
  rcases solveAndInstall_succeeds (run.isOwn_application application request.name) installed with
    ⟨declined, rfl⟩ | ⟨confirmed, plan, accepts⟩
  · constructor
    · intro only
      exact absurd only (OnlyIn.absent absent (targetMap_mem _ _ _))
    · intro accepted
      exact absurd declined accepted
  · constructor
    · intro _
      rw [confirmed]
      simp
    · intro _
      rcases solvedFile_cases application run request with
        ⟨other, changed, also, listings, same⟩ | ⟨refused, _⟩
      · obtain ⟨outcome, solved, ok, rfl⟩ := also.solved
        obtain ⟨change, member, named⟩ := solverAddPackage_requested solved ok
          (by rw [find_collectCurrentPackages]; exact missing)
        have own := listings.own change member
        unfold installWritten at own
        rw [named, absent] at own
        dsimp only at own
        rw [← single, same, ElmJson.listing_sortMaps, own]
        have asked : [request.name].contains request.name = true := by simp
        rw [asked]
        exact OnlyIn.update absent _ _
      · exact absurd accepts (refused plan)

/-- The package keeps its maps. -/
def KeepsPlaces (elmJson final : ElmJson) (name : PackageName) : Prop :=
  ∀ field, (final.listing name field).isSome = (elmJson.listing name field).isSome

theorem solvedFile_keepsPlaces {elmJson : ElmJson} (application : elmJson.type = .application)
    (run : CommandRun) (request : AddRequest) {existing : Package}
    (found : findExistingPackage elmJson request.name = some existing) :
    KeepsPlaces elmJson (solvedFile run elmJson request) request.name := by
  apply solvedFile_places application
  rw [Ne, ← findExistingPackage_none_iff application, found]
  exact Option.some_ne_none existing

/-- With a version or with `--major`, a listed package keeps its maps. -/
theorem singleFile_keepsPlaces {elmJson : ElmJson} (application : elmJson.type = .application)
    (run : CommandRun) (request : AddRequest) {existing : Package}
    (found : findExistingPackage elmJson request.name = some existing)
    (asks : ¬ (request.targetVersion = none ∧ request.majorUpgrade = false)) :
    KeepsPlaces elmJson (singleFile run elmJson request) request.name := by
  have solved := solvedFile_keepsPlaces application run request found
  by_cases linked : run.linked elmJson request.name = true
  case neg =>
    rw [singleFile_unlinked application (by simpa using linked)]
    exact fun _ => rfl
  case pos =>
  rw [singleFile_listed application request linked found]
  cases version : request.targetVersion with
  | some target =>
    dsimp only
    split
    · exact fun _ => rfl
    · exact solved
  | none =>
    dsimp only
    rw [if_pos]
    · exact solved
    · rw [version, eq_self_iff_true, true_and, Bool.not_eq_false] at asks
      exact asks

/-! ## A listed package without a version -/

theorem CommandRun.save_succeeds {run : CommandRun} {elmJson changed final : ElmJson}
    (saved : run.save elmJson changed = ⟨0, final⟩) : final = changed.sortMaps := by
  unfold CommandRun.save at saved
  split at saved
  · cases saved
    rfl
  · cases saved

section Listed

variable {run : CommandRun} {elmJson final : ElmJson}
  (application : elmJson.type = .application) {request : AddRequest}
  (version : request.targetVersion = none) (minor : request.majorUpgrade = false)
  {existing : Package} (found : findExistingPackage elmJson request.name = some existing)
  (installed : installPackage run elmJson request = some ⟨0, final⟩)

include application version minor found installed

theorem installPackage_listed_installs :
    installListed run elmJson existing request = some ⟨0, final⟩ := by
  by_cases linked : run.linked elmJson request.name = true
  case neg =>
    rw [installPackage_unlinked application (by simpa using linked)] at installed
    cases installed
  case pos =>
  rw [installPackage_listed application request linked found, version] at installed
  dsimp only at installed
  rw [if_neg (by simp [minor])] at installed
  exact installed

/-- Without `--test`, a package that is not a direct dependency is promoted. -/
theorem installPackage_promotes (production : request.isTestDependency = false)
    {source target : ElmJsonMap}
    (moves : (elmJsonFindPackage elmJson request.name).maps .application = some (source, target))
    (listed : (elmJson.listing request.name source).isSome = true) :
    ∃ text, final.listing request.name = Function.update
      (Function.update (elmJson.listing request.name) target (some text)) source none := by
  have installs := installPackage_listed_installs application version minor found installed
  obtain ⟨promoted, promotes, relists⟩ := elmJsonPromotePackage_application application moves listed
  have other : elmJsonFindPackage elmJson request.name ≠ .none := by
    intro none_
    rw [none_] at moves
    cases moves
  unfold installListed at installs
  rw [if_neg (by simp [production]), if_pos other, promotes] at installs
  rw [CommandRun.save_succeeds (Option.some.inj installs), ElmJson.listing_sortMaps, relists.own]
  exact ⟨_, rfl⟩

/-- Without `--test`, a direct dependency keeps its maps. -/
theorem installPackage_direct_keeps (production : request.isTestDependency = false)
    (direct : elmJsonFindPackage elmJson request.name = .none) :
    KeepsPlaces elmJson final request.name := by
  have installs := installPackage_listed_installs application version minor found installed
  unfold installListed at installs
  rw [if_neg (by simp [production]), if_neg (by simp [direct])] at installs
  split at installs
  · have solved : solvedFile run elmJson request = final := by
      unfold solvedFile
      rw [installs]
      rfl
    rw [← solved]
    exact solvedFile_keepsPlaces application run request found
  · cases installs
    exact fun _ => rfl

/-- With `--test`, a direct test dependency stays as it is, and an indirect one becomes direct. -/
theorem installPackage_tests (test : request.isTestDependency = true)
    (direct : elmJson.listing request.name .dependenciesDirect = none)
    (indirect : elmJson.listing request.name .dependenciesIndirect = none) :
    ((elmJson.listing request.name .dependenciesTestDirect).isSome = true ∧ final = elmJson) ∨
      (elmJson.listing request.name .dependenciesTestDirect = none ∧
        (elmJson.listing request.name .dependenciesTestIndirect).isSome = true ∧
        ∃ text, final.listing request.name = Function.update (Function.update
          (elmJson.listing request.name) .dependenciesTestDirect (some text))
          .dependenciesTestIndirect none) := by
  have same := (findExistingPackage_some found).2
  have installs := installPackage_listed_installs application version minor found installed
  unfold installListed at installs
  rw [if_pos test, application] at installs
  have saved := Option.some.inj installs
  unfold addToTestDirect at saved
  rw [same, PackageMap.has_listing] at saved
  split at saved
  · rename_i listed
    cases saved
    exact Or.inl ⟨listed, rfl⟩
  · rename_i missing
    rw [Option.not_isSome_iff_eq_none] at missing
    cases testIndirect : packageMapFind (elmJson.maps .dependenciesTestIndirect) request.name with
    | some p =>
      rw [testIndirect] at saved
      have relists := elmJson.relists_move request.name p.version
        (show ElmJsonMap.dependenciesTestIndirect ≠ .dependenciesTestDirect by decide)
      refine Or.inr ⟨missing, ?_, ?_⟩
      · unfold ElmJson.listing
        rw [testIndirect]
        rfl
      · rw [CommandRun.save_succeeds saved, ElmJson.listing_sortMaps, relists.own]
        exact ⟨_, rfl⟩
    | none =>
      have absent : elmJson.listing request.name .dependenciesTestIndirect = none := by
        unfold ElmJson.listing
        rw [testIndirect]
        rfl
      have first := firstMap_application (elmJson.listing request.name)
      rw [direct, indirect, missing, absent] at first
      rw [(findExistingPackage_none_iff application request.name).mpr first] at found
      cases found

/-- Without `--test`, the package ends as a direct dependency unless it was an indirect test
dependency or in several maps. -/
theorem installPackage_plain_production (production : request.isTestDependency = false) :
    OnlyIn (final.listing request.name) .dependenciesDirect ↔
      OnlyIn (elmJson.listing request.name) .dependenciesDirect ∨
        OnlyIn (elmJson.listing request.name) .dependenciesIndirect ∨
        OnlyIn (elmJson.listing request.name) .dependenciesTestDirect := by
  have promotes := @installPackage_promotes _ _ _ application _ version minor _ found installed
    production
  have place := elmJsonFindPackage_listedAt application request.name
  cases promotion : elmJsonFindPackage elmJson request.name with
  | none =>
    have keeps := installPackage_direct_keeps application version minor found installed production
      promotion
    rw [OnlyIn.congr keeps]
    rw [promotion] at place
    cases place with
    | absent absent =>
      rw [(findExistingPackage_none_iff application request.name).mpr absent] at found
      cases found
    | direct direct =>
      constructor
      · exact Or.inl
      · intro only
        rcases only with only | only | only
        · exact only
        · cases OnlyIn.unique (by decide) direct only
        · cases OnlyIn.unique (by decide) direct only
  | indirectToDirect =>
    rw [promotion] at place
    cases place with
    | indirect direct indirect =>
      obtain ⟨text, own⟩ := promotes (by rw [promotion]; rfl) indirect
      rw [own, OnlyIn.move (by decide) indirect direct]
      constructor
      · intro only
        exact Or.inr (Or.inl only)
      · intro only
        rcases only with only | only | only
        · cases OnlyIn.unique (by decide) indirect only
        · exact only
        · cases OnlyIn.unique (by decide) indirect only
  | testToDirect =>
    rw [promotion] at place
    cases place with
    | testDirect direct indirect testDirect =>
      obtain ⟨text, own⟩ := promotes (by rw [promotion]; rfl) testDirect
      rw [own, OnlyIn.move (by decide) testDirect direct]
      constructor
      · intro only
        exact Or.inr (Or.inr only)
      · intro only
        rcases only with only | only | only
        · cases OnlyIn.unique (by decide) testDirect only
        · cases OnlyIn.unique (by decide) testDirect only
        · exact only
  | testIndirectToTestDirect =>
    rw [promotion] at place
    cases place with
    | testIndirect direct indirect testDirect testIndirect =>
      obtain ⟨text, own⟩ := promotes (by rw [promotion]; rfl) testIndirect
      rw [own]
      constructor
      · intro only
        have listed := only.1
        rw [Function.update_of_ne (by decide), Function.update_of_ne (by decide), direct] at listed
        cases listed
      · intro only
        rcases only with only | only | only
        · cases OnlyIn.unique (by decide) testIndirect only
        · cases OnlyIn.unique (by decide) testIndirect only
        · cases OnlyIn.unique (by decide) testIndirect only

/-- With `--test`, the package ends as a direct test dependency. -/
theorem installPackage_plain_test (test : request.isTestDependency = true)
    (direct : elmJson.listing request.name .dependenciesDirect = none)
    (indirect : elmJson.listing request.name .dependenciesIndirect = none) :
    OnlyIn (final.listing request.name) .dependenciesTestDirect ↔
      OnlyIn (elmJson.listing request.name) .dependenciesTestDirect ∨
        OnlyIn (elmJson.listing request.name) .dependenciesTestIndirect := by
  rcases installPackage_tests application version minor found installed test direct indirect with
    ⟨listed, rfl⟩ | ⟨missing, listed, text, own⟩
  · constructor
    · exact Or.inl
    · intro only
      rcases only with only | only
      · exact only
      · cases OnlyIn.unique (by decide) listed only
  · rw [own, OnlyIn.move (by decide) listed missing]
    constructor
    · exact Or.inr
    · intro only
      rcases only with only | only
      · cases OnlyIn.unique (by decide) listed only
      · exact only

end Listed

/-! ## The result -/

/-- Without `--test`, the package ends as a direct dependency: it was in no map, it was one, or it
was an indirect or a direct test dependency and no version is asked for. -/
def BecomesDirect (run : CommandRun) (elmJson : ElmJson) (request : AddRequest) : Prop :=
  (firstMap .application (elmJson.listing request.name) = none ∧ run.confirmed ≠ some false) ∨
    OnlyIn (elmJson.listing request.name) .dependenciesDirect ∨
    (request.targetVersion = none ∧ request.majorUpgrade = false ∧
      (OnlyIn (elmJson.listing request.name) .dependenciesIndirect ∨
        OnlyIn (elmJson.listing request.name) .dependenciesTestDirect))

/-- With `--test`, the package ends as a direct test dependency. -/
def BecomesTestDirect (run : CommandRun) (elmJson : ElmJson) (request : AddRequest) : Prop :=
  (firstMap .application (elmJson.listing request.name) = none ∧ run.confirmed ≠ some false) ∨
    OnlyIn (elmJson.listing request.name) .dependenciesTestDirect ∨
    (request.targetVersion = none ∧ request.majorUpgrade = false ∧
      OnlyIn (elmJson.listing request.name) .dependenciesTestIndirect)

/-- The three ways to end in one map, for a map the solver adds the package to. -/
theorem installPackage_ends {run : CommandRun} {elmJson final : ElmJson}
    (application : elmJson.type = .application) {request : AddRequest}
    (installed : installPackage run elmJson request = some ⟨0, final⟩) {others : Prop}
    (elsewhere : others → firstMap .application (elmJson.listing request.name) ≠ none)
    (plain : ∀ existing, findExistingPackage elmJson request.name = some existing →
      request.targetVersion = none → request.majorUpgrade = false →
      (OnlyIn (final.listing request.name)
          (targetMap .application request.isTestDependency true) ↔
        OnlyIn (elmJson.listing request.name)
          (targetMap .application request.isTestDependency true) ∨ others)) :
    OnlyIn (final.listing request.name)
        (targetMap .application request.isTestDependency true) ↔
      (firstMap .application (elmJson.listing request.name) = none ∧
          run.confirmed ≠ some false) ∨
        OnlyIn (elmJson.listing request.name)
          (targetMap .application request.isTestDependency true) ∨
        (request.targetVersion = none ∧ request.majorUpgrade = false ∧ others) := by
  cases found : findExistingPackage elmJson request.name with
  | none =>
    have absent := (findExistingPackage_none_iff application request.name).mp found
    rw [installPackage_absent_places application absent installed]
    constructor
    · intro accepted
      exact Or.inl ⟨absent, accepted⟩
    · intro after
      rcases after with ⟨_, accepted⟩ | only | ⟨_, _, other⟩
      · exact accepted
      · exact absurd only (OnlyIn.absent absent (targetMap_mem _ _ _))
      · exact absurd absent (elsewhere other)
  | some existing =>
    have listed : ¬ firstMap .application (elmJson.listing request.name) = none := by
      rw [← findExistingPackage_none_iff application, found]
      exact Option.some_ne_none existing
    by_cases asks : request.targetVersion = none ∧ request.majorUpgrade = false
    · rw [plain existing found asks.1 asks.2]
      constructor
      · intro after
        rcases after with only | other
        · exact Or.inr (Or.inl only)
        · exact Or.inr (Or.inr ⟨asks.1, asks.2, other⟩)
      · intro after
        rcases after with ⟨absent, _⟩ | only | ⟨_, _, other⟩
        · exact absurd absent listed
        · exact Or.inl only
        · exact Or.inr other
    · have keeps := singleFile_keepsPlaces application run request found asks
      rw [installed_single installed] at keeps
      rw [OnlyIn.congr keeps]
      constructor
      · intro only
        exact Or.inr (Or.inl only)
      · intro after
        rcases after with ⟨absent, _⟩ | only | ⟨version, minor, _⟩
        · exact absurd absent listed
        · exact only
        · exact absurd ⟨version, minor⟩ asks

/-- Where a package stands after `install_package` has returned 0 for an application. -/
theorem installPackage_places {run : CommandRun} {elmJson final : ElmJson}
    (application : elmJson.type = .application) {request : AddRequest}
    (installed : installPackage run elmJson request = some ⟨0, final⟩) :
    (request.isTestDependency = false →
      (OnlyIn (final.listing request.name) .dependenciesDirect ↔
        BecomesDirect run elmJson request)) ∧
    (request.isTestDependency = true →
      elmJson.listing request.name .dependenciesDirect = none →
      elmJson.listing request.name .dependenciesIndirect = none →
      (OnlyIn (final.listing request.name) .dependenciesTestDirect ↔
        BecomesTestDirect run elmJson request)) := by
  constructor
  · intro production
    have ends := @installPackage_ends _ _ _ application _ installed
      (OnlyIn (elmJson.listing request.name) .dependenciesIndirect ∨
        OnlyIn (elmJson.listing request.name) .dependenciesTestDirect)
    rw [production] at ends
    apply ends
    · intro only absent
      rcases only with only | only
      · exact OnlyIn.absent absent (by decide) only
      · exact OnlyIn.absent absent (by decide) only
    · intro existing found version minor
      exact installPackage_plain_production application version minor found installed production
  · intro test direct indirect
    have ends := @installPackage_ends _ _ _ application _ installed
      (OnlyIn (elmJson.listing request.name) .dependenciesTestIndirect)
    rw [test] at ends
    apply ends
    · intro only absent
      exact OnlyIn.absent absent (by decide) only
    · intro existing found version minor
      exact installPackage_plain_test application version minor found installed test direct indirect

/-- `install elm/json`. -/
def installElmJson : AddRequest := ⟨elmJsonPackage, none, false, false, false⟩

theorem installPackage_places_json : ∃ final,
    installPackage (acceptedRun sampleState) (sampleApp none none) installElmJson =
        some ⟨0, final⟩ ∧
      OnlyIn (final.listing elmJsonPackage) .dependenciesDirect := by
  have succeeds : (installPackage (acceptedRun sampleState) (sampleApp none none)
      installElmJson).map CommandResult.code = some 0 := by decide +kernel
  obtain ⟨⟨code, final⟩, installed, same⟩ := Option.map_eq_some_iff.mp succeeds
  cases same
  refine ⟨final, installed, ?_⟩
  apply ((installPackage_places rfl installed).1 rfl).mpr
  exact Or.inl ⟨by decide, by decide⟩

/-- An application with one indirect test dependency. -/
def testIndirectApp : ElmJson where
  type := .application
  maps
    | .dependenciesTestIndirect => ⟨[⟨elmJsonPackage, "1.1.0"⟩], List.nodup_singleton _⟩
    | _ => packageMapCreate

/-- An indirect test dependency becomes a direct test dependency. -/
theorem installPackage_places_fails :
    ¬ ∀ (run : CommandRun) (elmJson final : ElmJson) (request : AddRequest),
      elmJson.type = .application → request.isTestDependency = false →
      installPackage run elmJson request = some ⟨0, final⟩ →
      OnlyIn (final.listing request.name) .dependenciesDirect := by
  intro claim
  have placed : (installPackage (acceptedRun sampleState) testIndirectApp installElmJson).map
      (fun result => (result.code, (result.elmJson.listing elmJsonPackage
        .dependenciesDirect).isSome)) = some (0, false) := by decide
  obtain ⟨⟨code, final⟩, installed, same⟩ := Option.map_eq_some_iff.mp placed
  obtain ⟨rfl, missing⟩ := Prod.mk.inj same
  have only := claim (acceptedRun sampleState) testIndirectApp final installElmJson rfl rfl
    installed
  exact Bool.false_ne_true (missing.symm.trans only.1)

end ElmWrap
