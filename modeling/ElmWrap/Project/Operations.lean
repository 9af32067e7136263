import ElmWrap.Remove.Result
import ElmWrap.Upgrade.UpgradeCmd

/-!
# Sequences of commands

A project is what its `elm.json` lists. Every command reads the file, changes
the maps and writes them, or leaves the file as it is.
-/

namespace ElmWrap

open Lib

/-- A command that changes an `elm.json`. -/
inductive ProjectOperation
  /-- `install` of one package, with the request for `solver_add_package`. -/
  | install (run : CommandRun) (request : AddRequest)
  | installMultiple (run : CommandRun) (specs : List PackageVersionSpec)
    (isTest upgradeAll : Bool)
  | installFile (run : CommandRun) (name : PackageName) (isTest : Bool) (file : PackageFile)
  | promote (name : PackageName)
  | upgrade (run : CommandRun) (package : Option String) (majorUpgrade majorIgnoreTest : Bool)
  | remove (run : RemoveRun) (package_names : List String)

/-- The file after the command. A solver that does not end leaves it alone. -/
def ProjectOperation.next (elmJson : ElmJson) : ProjectOperation → ElmJson
  | .install run request =>
    ((installPackage run elmJson request).map CommandResult.elmJson).getD elmJson
  | .installMultiple run specs isTest upgradeAll =>
    ((installMultiplePackages run elmJson specs isTest upgradeAll).map
      CommandResult.elmJson).getD elmJson
  | .installFile run name isTest file => (installFromFile run elmJson name isTest file).elmJson
  | .promote name => (elmJsonPromotePackage elmJson name).getD elmJson
  | .upgrade run package majorUpgrade majorIgnoreTest =>
    ((cmdUpgrade run elmJson package majorUpgrade majorIgnoreTest).map
      CommandResult.elmJson).getD elmJson
  | .remove run package_names => (cmdRemove run (some elmJson) package_names).disk.getD elmJson

/-- The file after a sequence of commands. -/
def runProject (elmJson : ElmJson) (operations : List ProjectOperation) : ElmJson :=
  operations.foldl ProjectOperation.next elmJson

/-- A property that every command keeps, as long as a condition on the command and the file
holds, holds after every sequence. -/
theorem runProject_induction {I : ElmJson → Prop} {Good : ElmJson → ProjectOperation → Prop}
    (step : ∀ elmJson operation, I elmJson → Good elmJson operation →
      I (operation.next elmJson))
    {elmJson : ElmJson} (start : I elmJson) {operations : List ProjectOperation}
    (good : ∀ done operation rest, operations = done ++ operation :: rest →
      Good (runProject elmJson done) operation) : I (runProject elmJson operations) := by
  induction operations generalizing elmJson with
  | nil => exact start
  | cons operation operations ih =>
    apply ih (step elmJson operation start (good [] operation operations rfl))
    intro done other rest split
    exact good (operation :: done) other rest (congrArg (List.cons operation) split)

/-! ## How a command ends -/

theorem ElmJson.lists_sortMaps (elmJson : ElmJson) (p : Package) :
    elmJson.sortMaps.Lists p ↔ elmJson.Lists p := by
  unfold Lists
  simp

/-- What an install or upgrade can leave: the file as it was, or the sorted maps of which `P`
holds. -/
inductive CommandResult.Leaves (elmJson : ElmJson) (P : ElmJson → Prop) : CommandResult → Prop
  | unchanged (code : Nat) : Leaves elmJson P ⟨code, elmJson⟩
  | saved {changed : ElmJson} : P changed → Leaves elmJson P ⟨0, changed.sortMaps⟩

theorem CommandRun.save_leaves (run : CommandRun) (elmJson : ElmJson) {P : ElmJson → Prop}
    {changed : ElmJson} (holds : run.saves = true → P changed) :
    (run.save elmJson changed).Leaves elmJson P := by
  unfold CommandRun.save
  split
  · rename_i saves
    exact .saved (holds saves)
  · exact .unchanged 1

variable {elmJson : ElmJson} {run : CommandRun} {result : CommandResult} {plan : InstallPlan}
  {request : AddRequest}

theorem CommandResult.Leaves.mono {P Q : ElmJson → Prop} (leaves : result.Leaves elmJson P)
    (more : ∀ m, P m → Q m) :
    result.Leaves elmJson Q := by
  cases leaves with
  | unchanged code => exact .unchanged code
  | saved holds => exact .saved (more _ holds)

/-- The solver can be started, and the changes are confirmed and can be written. -/
structure CommandRun.Proceeds (run : CommandRun) : Prop where
  starts : run.solverStarts = true
  confirmed : run.confirmed = some true
  saves : run.saves = true

/-- The solver has found this plan. -/
def SolvedWith (solved : Option SolverOutcome) (plan : InstallPlan) : Prop :=
  ∃ outcome, solved = some outcome ∧ outcome.result = .ok ∧ outcome.plan = plan

/-- The project is the package itself. -/
def CommandRun.isOwn (run : CommandRun) (elmJson : ElmJson) (name : PackageName) : Bool :=
  elmJson.type = .package && run.packageName = some name

/-- The plan is applied by an install of one package. -/
structure AcceptsInstall (run : CommandRun) (elmJson : ElmJson) (request : AddRequest)
    (plan : InstallPlan) : Prop where
  other : run.isOwn elmJson request.name = false
  known : packageExistsInRegistry run.solver request.name = true
  target : (request.targetVersion.any fun v =>
    !versionExistsInRegistry run.solver request.name v) = false
  proceeds : run.Proceeds
  solved : SolvedWith (solverAddPackage run.fuel run.solver elmJson request) plan

theorem AcceptsInstall.planned (accepts : AcceptsInstall run elmJson request plan) :
    plan.PlannedFor elmJson := by
  obtain ⟨outcome, solved, ok, rfl⟩ := accepts.solved
  exact solverAddPackage_planned solved ok

theorem CommandRun.Proceeds.save (proceeds : run.Proceeds) (elmJson changed : ElmJson) :
    run.save elmJson changed = ⟨0, changed.sortMaps⟩ := by
  unfold CommandRun.save
  rw [if_pos proceeds.saves]

theorem AcceptsInstall.solves (accepts : AcceptsInstall run elmJson request plan)
    {changed : ElmJson}
    (applied : applyPlan [request.name] request.isTestDependency elmJson plan = some changed) :
    solveAndInstall run elmJson request = some ⟨0, changed.sortMaps⟩ := by
  obtain ⟨outcome, solved, ok, rfl⟩ := accepts.solved
  unfold solveAndInstall
  simp [accepts.known, accepts.target, accepts.proceeds.starts, solved, ok,
    accepts.proceeds.confirmed, applied, accepts.proceeds.save]

theorem SolvedWith.unique {solved : Option SolverOutcome} {plan other : InstallPlan}
    (first : SolvedWith solved plan) (second : SolvedWith solved other) : plan = other := by
  obtain ⟨outcome, here, _, rfl⟩ := first
  obtain ⟨also, there, _, rfl⟩ := second
  rw [here] at there
  rw [Option.some.inj there]

/-- What applying the plan for a requested package leaves. -/
def AppliesPlan (run : CommandRun) (elmJson : ElmJson) (request : AddRequest)
    (changed : ElmJson) : Prop :=
  ∃ plan, AcceptsInstall run elmJson request plan ∧
    applyPlan [request.name] request.isTestDependency elmJson plan = some changed

theorem solveAndInstall_leaves (other : run.isOwn elmJson request.name = false)
    (installed : solveAndInstall run elmJson request = some result) :
    result.Leaves elmJson (AppliesPlan run elmJson request) := by
  unfold solveAndInstall at installed
  split at installed
  · cases installed
    exact .unchanged 1
  rename_i known
  split at installed
  · cases installed
    exact .unchanged 1
  rename_i target
  split at installed
  · cases installed
    exact .unchanged 1
  rename_i starts
  split at installed
  · cases installed
  · rename_i outcome solved
    split at installed
    · cases installed
      exact .unchanged 1
    rename_i ok
    split at installed
    · cases installed
      exact .unchanged 1
    · cases installed
      exact .unchanged 0
    · rename_i confirmed
      split at installed
      · cases installed
        exact .unchanged 1
      · rename_i changed applied
        cases installed
        apply run.save_leaves
        intro saves
        exact ⟨outcome.plan, ⟨other, by simpa using known, by simpa using target,
          ⟨by simpa using starts, confirmed, saves⟩, outcome, solved, not_not.mp ok, rfl⟩, applied⟩

/-- The ways to change the maps without the solver. -/
inductive InstallsListed (elmJson : ElmJson) (request : AddRequest) : ElmJson → Prop
  | promoted {changed : ElmJson} :
    elmJsonPromotePackage elmJson request.name = some changed →
    InstallsListed elmJson request changed
  | testIndirect {version : String} :
    ⟨request.name, version⟩ ∈ (elmJson.maps .dependenciesTestIndirect).packages →
    InstallsListed elmJson request (elmJson.move request.name version .dependenciesTestIndirect
      .dependenciesTestDirect)
  | production {existing : Package} :
    findExistingPackage elmJson request.name = some existing →
    elmJson.type = .application → request.isTestDependency = true →
    request.targetVersion = none → request.majorUpgrade = false →
    (∀ field ∈ [ElmJsonMap.dependenciesTestDirect, .dependenciesTestIndirect],
      ¬ elmJson.ListsName field request.name) →
    InstallsListed elmJson request (elmJson.setMap .dependenciesTestDirect
      ((elmJson.maps .dependenciesTestDirect).add request.name existing.version))
  | testDependency {existing : Package} :
    findExistingPackage elmJson request.name = some existing → elmJson.type = .package →
    InstallsListed elmJson request (elmJson.setMap .packageTestDependencies
      ((elmJson.maps .packageTestDependencies).add request.name existing.version))

theorem findExistingPackage_some {name : PackageName} {p : Package}
    (found : findExistingPackage elmJson name = some p) :
    elmJson.Lists p ∧ p.name = name := by
  unfold findExistingPackage at found
  obtain ⟨field, used, here⟩ := List.exists_of_findSome?_eq_some found
  obtain ⟨member, same⟩ := packageMapFind_some here
  exact ⟨⟨field, used, member⟩, same⟩

/-- What an install of one package leaves. -/
def InstallsOne (run : CommandRun) (elmJson : ElmJson) (request : AddRequest)
    (changed : ElmJson) : Prop :=
  AppliesPlan run elmJson request changed ∨ InstallsListed elmJson request changed

theorem installListed_leaves {existing : Package} (other : run.isOwn elmJson request.name = false)
    (found : findExistingPackage elmJson request.name = some existing)
    (target : request.targetVersion = none) (minor : request.majorUpgrade = false)
    (installed : installListed run elmJson existing request = some result) :
    result.Leaves elmJson (InstallsOne run elmJson request) := by
  have same := (findExistingPackage_some found).2
  unfold installListed at installed
  split at installed
  · rename_i test
    split at installed
    · rename_i application
      cases installed
      unfold addToTestDirect
      rw [same]
      split
      · exact .unchanged 0
      · rename_i missing
        cases indirect : packageMapFind (elmJson.maps .dependenciesTestIndirect) request.name with
        | some p =>
          obtain ⟨member, named⟩ := packageMapFind_some indirect
          apply run.save_leaves
          intro _
          apply Or.inr
          apply InstallsListed.testIndirect
          rw [← named]
          exact member
        | none =>
          apply run.save_leaves
          intro _
          apply Or.inr
          apply InstallsListed.production found application test target minor
          intro field test_
          rcases List.mem_cons.mp test_ with rfl | rest
          · exact fun listed => missing (PackageMap.has_iff.mpr listed)
          · rw [List.mem_singleton.mp rest]
            exact packageMapFind_none indirect
    · rename_i package
      cases installed
      unfold addToTestDependencies
      rw [same]
      split
      · exact .unchanged 0
      · apply run.save_leaves
        intro _
        exact Or.inr (InstallsListed.testDependency found package)
  split at installed
  · split at installed
    · rename_i promoted promotes
      cases installed
      apply run.save_leaves
      intro _
      exact Or.inr (InstallsListed.promoted promotes)
    · cases installed
      exact .unchanged 0
  split at installed
  · exact (solveAndInstall_leaves other installed).mono fun _ => Or.inl
  · cases installed
    exact .unchanged 0

theorem installPackage_leaves (installed : installPackage run elmJson request = some result) :
    result.Leaves elmJson (InstallsOne run elmJson request) := by
  unfold installPackage at installed
  split at installed
  · cases installed
    exact .unchanged 1
  rename_i own
  have other : run.isOwn elmJson request.name = false := by
    rw [Bool.not_eq_true] at own
    exact own
  have solved : ∀ {result}, solveAndInstall run elmJson request = some result →
      result.Leaves elmJson (InstallsOne run elmJson request) :=
    fun some_ => (solveAndInstall_leaves other some_).mono fun _ => Or.inl
  split at installed
  · exact solved installed
  · rename_i existing found
    split at installed
    · cases installed
      exact .unchanged 1
    split at installed
    · split at installed
      · cases installed
        exact .unchanged 0
      · exact solved installed
    · rename_i target
      split at installed
      · exact solved installed
      · rename_i minor
        exact installListed_leaves other found target (by simpa using minor) installed

/-- The plan is applied by an install of several packages. -/
structure AcceptsSeveral (run : CommandRun) (elmJson : ElmJson) (specs : List PackageVersionSpec)
    (isTest upgradeAll : Bool) (plan : InstallPlan) : Prop where
  others : (specs.any fun spec => run.isOwn elmJson spec.name) = false
  versions : (specs.any fun spec =>
    spec.version.any fun v => !versionExistsInRegistry run.solver spec.name v) = false
  linked : (specs.any fun spec => !run.linked elmJson spec.name) = false
  proceeds : run.Proceeds
  solved : solverAddPackages run.fuel run.solver elmJson (toSolve run elmJson specs) isTest
    upgradeAll = some (.ok, plan)

theorem AcceptsSeveral.planned {specs : List PackageVersionSpec} {isTest upgradeAll : Bool}
    (accepts : AcceptsSeveral run elmJson specs isTest upgradeAll plan) :
    plan.PlannedFor elmJson := solverAddPackages_planned accepts.solved

/-- What an install of several packages leaves: some are promoted, then the plan is applied.
There is none where all of them are promoted. -/
def InstallsSeveral (run : CommandRun) (elmJson : ElmJson) (specs : List PackageVersionSpec)
    (isTest upgradeAll : Bool) (changed : ElmJson) : Prop :=
  ∃ plan, (plan = [] ∨ AcceptsSeveral run elmJson specs isTest upgradeAll plan) ∧
    ∃ direct, (promotions elmJson specs).foldlM elmJsonPromotePackage elmJson = some direct ∧
      applyPlan (specs.map PackageVersionSpec.name) isTest direct plan = some changed

theorem installPlanned_leaves (run : CommandRun) (elmJson : ElmJson)
    (specs : List PackageVersionSpec) (isTest upgradeAll : Bool)
    (accepts : run.confirmed = some true → run.saves = true →
      plan = [] ∨ AcceptsSeveral run elmJson specs isTest upgradeAll plan) :
    (installPlanned run elmJson specs isTest plan).Leaves elmJson
      (InstallsSeveral run elmJson specs isTest upgradeAll) := by
  unfold installPlanned
  dsimp only
  split
  · exact .unchanged 0
  split
  · exact .unchanged 1
  · exact .unchanged 0
  · rename_i confirmed
    split
    · exact .unchanged 1
    · rename_i direct promoted
      split
      · exact .unchanged 1
      · rename_i changed applied
        apply run.save_leaves
        intro saves
        exact ⟨plan, accepts confirmed saves, direct, promoted, applied⟩

theorem installMultiplePackages_leaves {specs : List PackageVersionSpec} {isTest upgradeAll : Bool}
    (installed : installMultiplePackages run elmJson specs isTest upgradeAll = some result) :
    result.Leaves elmJson (InstallsSeveral run elmJson specs isTest upgradeAll) := by
  unfold installMultiplePackages at installed
  split at installed
  · cases installed
    exact .unchanged 1
  rename_i own
  split at installed
  · cases installed
    exact .unchanged 1
  rename_i versions
  split at installed
  · cases installed
    exact .unchanged 1
  rename_i linked
  split at installed
  · cases installed
    apply installPlanned_leaves
    intro _ _
    exact Or.inl rfl
  split at installed
  · cases installed
    exact .unchanged 1
  rename_i starts
  split at installed
  · cases installed
  · rename_i result plan solved
    split at installed
    · cases installed
      exact .unchanged 1
    · rename_i ok
      cases installed
      apply installPlanned_leaves
      intro confirmed saves
      rw [not_not.mp ok] at solved
      have others : (specs.any fun spec => run.isOwn elmJson spec.name) = false := by
        unfold CommandRun.isOwn
        by_cases package : elmJson.type = .package
        · simpa [package] using own
        · simp [package]
      exact Or.inr ⟨others, by simpa using versions, by simpa using linked,
        ⟨by simpa using starts, confirmed, saves⟩, solved⟩

/-- The file is recorded with this package and version text. -/
structure AcceptsFile (run : CommandRun) (name : PackageName) (file : PackageFile)
    (actual : PackageName) (version : String) : Prop where
  info : file.info = some (actual, version)
  continues : (name ≠ actual && !run.autoYes && !file.continues) = false
  accepted : (!run.autoYes && !file.accepted) = false
  installed : file.installed = true
  saves : run.saves = true

theorem installFromFile_leaves (run : CommandRun) (elmJson : ElmJson) (name : PackageName)
    (isTest : Bool) (file : PackageFile) :
    (installFromFile run elmJson name isTest file).Leaves elmJson fun changed =>
      ∃ actual version, AcceptsFile run name file actual version ∧
        addOrUpdatePackageInElmJson elmJson actual version isTest true = some changed := by
  unfold installFromFile
  split
  · exact .unchanged 1
  · rename_i actual version read
    split
    · exact .unchanged 0
    rename_i continues
    split
    · exact .unchanged 0
    rename_i accepted
    split
    · exact .unchanged 1
    rename_i installed
    split
    · exact .unchanged 1
    · rename_i changed recorded
      apply run.save_leaves
      intro saves
      exact ⟨actual, version, ⟨read, Bool.not_eq_true _ ▸ continues, Bool.not_eq_true _ ▸ accepted,
        by simpa using installed, saves⟩, recorded⟩

/-- An upgrade of the package gets as far as the solver. -/
def UpgradeAvailable (protocol : UpgradeProtocol) (elmJson : ElmJson) (name : PackageName)
    (majorUpgrade majorIgnoreTest : Bool) : Prop :=
  ∃ existing versions latest, findExistingPackage elmJson name = some existing ∧
    protocol.versions name = some versions ∧
    latestVersion versions existing majorUpgrade = some (some latest) ∧
    versionParseSafe existing.version ≠ some latest ∧
    (majorUpgrade && majorUpgradeEnds protocol elmJson existing latest majorIgnoreTest) = false

/-- The plan is applied by an upgrade of one package. -/
structure AcceptsUpgrade (run : CommandRun) (elmJson : ElmJson) (name : PackageName)
    (majorUpgrade majorIgnoreTest : Bool) (plan : InstallPlan) : Prop where
  available : UpgradeAvailable run.upgradeProtocol elmJson name majorUpgrade majorIgnoreTest
  proceeds : run.Proceeds
  solved : SolvedWith (solverAddPackage run.fuel run.solver elmJson
    ⟨name, none, isTestDependency elmJson name, majorUpgrade, false⟩) plan

theorem AcceptsUpgrade.planned {name : PackageName} {majorUpgrade majorIgnoreTest : Bool}
    (accepts : AcceptsUpgrade run elmJson name majorUpgrade majorIgnoreTest plan) :
    plan.PlannedFor elmJson := by
  obtain ⟨outcome, solved, ok, rfl⟩ := accepts.solved
  exact solverAddPackage_planned solved ok

/-- The plan is applied by an upgrade of all packages. -/
structure AcceptsUpgradeAll (run : CommandRun) (elmJson : ElmJson) (majorUpgrade : Bool)
    (plan : InstallPlan) : Prop where
  proceeds : run.Proceeds
  solved : SolvedWith (solverUpgradeAll run.fuel run.solver elmJson majorUpgrade) plan
  shown : plan.any (run.upgradeProtocol.displayed elmJson) = true

theorem AcceptsUpgradeAll.planned {majorUpgrade : Bool}
    (accepts : AcceptsUpgradeAll run elmJson majorUpgrade plan) :
    plan.PlannedFor elmJson := by
  obtain ⟨outcome, solved, ok, rfl⟩ := accepts.solved
  exact solverUpgradeAll_planned solved ok

/-- The name of the one package that is upgraded. -/
def upgradeTarget (package : Option String) : Option String :=
  package.filter fun text => text ≠ "all"

/-- What an upgrade leaves. -/
inductive UpgradesSome (run : CommandRun) (elmJson : ElmJson) (package : Option String)
    (majorUpgrade majorIgnoreTest : Bool) (changed : ElmJson) : Prop
  | single {text : String} {name : PackageName} {plan : InstallPlan} :
    upgradeTarget package = some text → parsePackageName text = some name →
    AcceptsUpgrade run elmJson name majorUpgrade majorIgnoreTest plan →
    run.upgradeProtocol.applySingle name (isTestDependency elmJson name) elmJson plan =
      some changed →
    UpgradesSome run elmJson package majorUpgrade majorIgnoreTest changed
  | all {plan : InstallPlan} : upgradeTarget package = none →
    AcceptsUpgradeAll run elmJson majorUpgrade plan →
    run.upgradeProtocol.applyAll elmJson (Keyed.sortBy PackageChange.key plan) = some changed →
    UpgradesSome run elmJson package majorUpgrade majorIgnoreTest changed

theorem solveAndUpgrade_leaves {solve : ElmJson → Option SolverOutcome} {idle : InstallPlan → Bool}
    {apply : ElmJson → InstallPlan → Option ElmJson}
    (upgraded : solveAndUpgrade run elmJson solve idle apply = some result) :
    result.Leaves elmJson fun changed => ∃ plan, run.Proceeds ∧
      SolvedWith (solve elmJson) plan ∧ idle plan = false ∧ apply elmJson plan = some changed := by
  unfold solveAndUpgrade at upgraded
  split at upgraded
  · cases upgraded
    exact .unchanged 1
  rename_i starts
  split at upgraded
  · cases upgraded
  · rename_i outcome solved
    split at upgraded
    · cases upgraded
      exact .unchanged 1
    rename_i ok
    split at upgraded
    · cases upgraded
      exact .unchanged 0
    rename_i shown
    split at upgraded
    · cases upgraded
      exact .unchanged 1
    · cases upgraded
      exact .unchanged 0
    · rename_i confirmed
      split at upgraded
      · cases upgraded
        exact .unchanged 1
      · rename_i changed applied
        cases upgraded
        apply run.save_leaves
        intro saves
        exact ⟨outcome.plan, ⟨by simpa using starts, confirmed, saves⟩,
          ⟨outcome, solved, not_not.mp ok, rfl⟩, by simpa using shown, applied⟩

theorem upgradeAllPackages_leaves {package : Option String} {majorUpgrade : Bool}
    (majorIgnoreTest : Bool) (all : upgradeTarget package = none)
    (upgraded : upgradeAllPackages run.upgradeProtocol run elmJson majorUpgrade = some result) :
    result.Leaves elmJson (UpgradesSome run elmJson package majorUpgrade majorIgnoreTest) := by
  apply (solveAndUpgrade_leaves upgraded).mono
  intro changed found
  obtain ⟨plan, proceeds, solved, shown, applied⟩ := found
  exact .all all ⟨proceeds, solved, by simpa using shown⟩ applied

theorem cmdUpgrade_leaves {package : Option String} {majorUpgrade majorIgnoreTest : Bool}
    (upgraded : cmdUpgrade run elmJson package majorUpgrade majorIgnoreTest = some result) :
    result.Leaves elmJson (UpgradesSome run elmJson package majorUpgrade majorIgnoreTest) := by
  unfold cmdUpgrade at upgraded
  split at upgraded
  · exact upgradeAllPackages_leaves _ rfl upgraded
  split at upgraded
  · rename_i same
    exact upgradeAllPackages_leaves _ (by rw [same]; rfl) upgraded
  rename_i text different
  have target : upgradeTarget (some text) = some text := by simp [upgradeTarget, different]
  unfold upgradeSinglePackage at upgraded
  split at upgraded
  · cases upgraded
    exact .unchanged 1
  rename_i name parsed
  split at upgraded
  · rename_i existing versions found known
    split at upgraded
    · cases upgraded
      exact .unchanged 1
    · cases upgraded
      exact .unchanged 0
    · rename_i latest newest
      dsimp only at upgraded
      split at upgraded
      · cases upgraded
        exact .unchanged 0
      rename_i newer
      split at upgraded
      · cases upgraded
        exact .unchanged 1
      rename_i free
      apply (solveAndUpgrade_leaves upgraded).mono
      intro changed found_
      obtain ⟨plan, proceeds, solved, _, applied⟩ := found_
      have available : UpgradeAvailable run.upgradeProtocol elmJson name majorUpgrade
          majorIgnoreTest :=
        ⟨existing, versions, latest, found, known, newest, newer, Bool.not_eq_true _ ▸ free⟩
      exact .single target parsed ⟨available, proceeds, solved⟩ applied
  · cases upgraded
    exact .unchanged 1

/-- A run that is confirmed and can write the file. -/
def acceptedRun (state : SolverState) : CommandRun where
  fuel := 1000
  solver := state
  solverStarts := true
  symlinkEnsured _ _ := true
  packageName := none
  autoYes := true
  response := none
  saves := true

end ElmWrap
