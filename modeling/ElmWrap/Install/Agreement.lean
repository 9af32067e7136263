import ElmWrap.Install.Applied

/-!
# One package on the path for several

`install_package` and `install_multiple_packages` classify a package on their own.
For a list of one package they leave the same file exactly where their
classifications agree.
-/

namespace ElmWrap

open Lib

/-! ## The path for one package -/

variable {elmJson : ElmJson} {run : CommandRun} {spec : PackageVersionSpec}

/-- Where the file cannot be written, the solver leaves it alone. -/
theorem solvedFile_unsaved (application : elmJson.type = .application) (request : AddRequest)
    (unsaved : run.saves = false) :
    solvedFile run elmJson request = elmJson := by
  rcases solvedFile_cases application run request with ⟨plan, changed, accepts, _, _⟩ | ⟨_, same⟩
  · rw [accepts.proceeds.saves] at unsaved
    cases unsaved
  · exact same

/-! ## The path for several packages -/

/-- The file after `install_multiple_packages` with a list of one package. -/
def severalFile (run : CommandRun) (elmJson : ElmJson) (spec : PackageVersionSpec)
    (isTest upgradeAll : Bool) : ElmJson :=
  (ProjectOperation.installMultiple run [spec] isTest upgradeAll).next elmJson

/-- The versions asked for are registered. -/
def versionKnown (run : CommandRun) (spec : PackageVersionSpec) : Bool :=
  !spec.version.any fun v => !versionExistsInRegistry run.solver spec.name v

theorem installPlanMerge_nil {plan : InstallPlan} (nodup : (plan.map PackageChange.name).Nodup)
    (new : ∀ change ∈ plan, change.newVersion ≠ none) : installPlanMerge [] plan = plan := by
  have grows : ∀ (rest done : InstallPlan),
      ((done ++ rest).map PackageChange.name).Nodup →
      (∀ change ∈ rest, change.newVersion ≠ none) →
      installPlanMerge done rest = done ++ rest := by
    intro rest
    induction rest with
    | nil =>
      intro done _ _
      rw [List.append_nil]
      rfl
    | cons change rest ih =>
      intro done distinct changes
      have fresh : ¬ InstallPlan.Changes done change.name := by
        intro known
        obtain ⟨other, member, same⟩ := known
        rw [List.map_append, List.map_cons] at distinct
        apply (List.nodup_append.mp distinct).2.2 other.name (List.mem_map_of_mem member)
          change.name List.mem_cons_self same
      have step : installPlanMerge done (change :: rest) =
          installPlanMerge (installPlanMergeStep done change) rest := rfl
      rw [step, installPlanMergeStep_eq (changes change List.mem_cons_self) fresh, ih]
      · rw [List.append_assoc]
        rfl
      · rw [List.append_assoc]
        exact distinct
      · intro other member
        exact changes other (List.mem_cons_of_mem _ member)
  exact grows plan [] nodup new

theorem severalFile_stopped (isTest upgradeAll : Bool)
    (stopped : versionKnown run spec = false ∨ run.linked elmJson spec.name = false) :
    severalFile run elmJson spec isTest upgradeAll = elmJson := by
  unfold severalFile ProjectOperation.next installMultiplePackages
  dsimp only
  split
  · rfl
  split
  · rfl
  rename_i known
  split
  · rfl
  rename_i linked
  rw [List.any_cons, List.any_nil, Bool.or_false, Bool.not_eq_true] at known linked
  rcases stopped with unknown | unlinked
  · unfold versionKnown at unknown
    rw [known] at unknown
    cases unknown
  · rw [unlinked] at linked
    cases linked

/-- Nothing is left for the solver. -/
theorem severalFile_unsolved (application : elmJson.type = .application) (isTest upgradeAll : Bool)
    (known : versionKnown run spec = true) (linked : run.linked elmJson spec.name = true)
    (idle : toSolve run elmJson [spec] = []) :
    severalFile run elmJson spec isTest upgradeAll =
      (installPlanned run elmJson [spec] isTest []).elmJson := by
  unfold versionKnown at known
  rw [Bool.not_eq_true'] at known
  unfold severalFile ProjectOperation.next installMultiplePackages
  dsimp only
  rw [if_neg (by simp [application]), if_neg (by simp [known]), if_neg (by simp [linked]), idle]
  rfl

theorem displayedChange_application (application : elmJson.type = .application)
    (requested : List PackageName) :
    displayedChange elmJson requested = fun _ => true := by
  funext change
  unfold displayedChange
  rw [application]

/-- Without promotions, the plan of the single package is applied. -/
theorem installPlanned_solved (application : elmJson.type = .application) {isTest : Bool}
    {plan : InstallPlan} (kept : promotions elmJson [spec] = []) {change : PackageChange}
    (member : change ∈ plan) :
    installPlanned run elmJson [spec] isTest plan =
      match run.confirmed with
      | none => ⟨1, elmJson⟩
      | some false => ⟨0, elmJson⟩
      | some true =>
        match applyPlan [spec.name] isTest elmJson plan with
        | none => ⟨1, elmJson⟩
        | some changed => run.save elmJson changed := by
  unfold installPlanned
  dsimp only
  rw [kept, displayedChange_application application]
  rw [if_neg]
  · rfl
  · intro hidden
    rw [Bool.and_eq_true, Bool.not_eq_true'] at hidden
    exact Bool.false_ne_true (hidden.1.symm.trans (List.any_eq_true.mpr ⟨change, member, rfl⟩))

theorem installPlanned_idle (isTest : Bool) (kept : promotions elmJson [spec] = []) :
    installPlanned run elmJson [spec] isTest [] = ⟨0, elmJson⟩ := by
  unfold installPlanned
  dsimp only
  rw [kept]
  rfl

/-- `solver_add_packages` for one package. -/
theorem solverAddPackages_single {fuel : Nat} {state : SolverState} {isTest upgradeAll : Bool} :
    solverAddPackages fuel state elmJson [spec] isTest upgradeAll =
      if packageExistsInRegistryInternal state spec.name then
        match solverAddPackage fuel state elmJson (spec.request isTest upgradeAll) with
        | none => none
        | some outcome =>
          if outcome.result ≠ .ok then some (outcome.result, []) else some (.ok, outcome.plan)
      else some (.invalidPackage, []) := by
  unfold solverAddPackages
  rw [if_neg (by simp), List.all_cons, List.all_nil, Bool.and_true]
  by_cases exists_ : packageExistsInRegistryInternal state spec.name = true
  case neg => rw [if_neg exists_, if_neg exists_]
  case pos =>
  rw [if_pos exists_, if_pos exists_]
  unfold solveEach
  cases solved : solverAddPackage fuel state elmJson (spec.request isTest upgradeAll) with
  | none => rfl
  | some outcome =>
    dsimp only
    split
    · rfl
    · rename_i ok
      have planned := solverAddPackage_planned solved (not_not.mp ok)
      have merged : installPlanMerge [] outcome.plan = outcome.plan := by
        apply installPlanMerge_nil planned.nodup
        intro change member
        obtain ⟨v, new⟩ := (planned.changes change member).version
        rw [new]
        exact Option.some_ne_none (versionText v)
      unfold solveEach
      rw [merged]

/-- The outcome of installing the package with others, where it has to be solved for. -/
theorem severalFile_eq (application : elmJson.type = .application) (isTest upgradeAll : Bool)
    (known : versionKnown run spec = true) (linked : run.linked elmJson spec.name = true)
    (solving : toSolve run elmJson [spec] = [spec]) :
    severalFile run elmJson spec isTest upgradeAll =
      ((if !run.solverStarts then some ⟨1, elmJson⟩
        else
          match solverAddPackages run.fuel run.solver elmJson [spec] isTest upgradeAll with
          | none => none
          | some (result, plan) =>
            if result ≠ .ok then some ⟨1, elmJson⟩
            else some (installPlanned run elmJson [spec] isTest plan)).map
        CommandResult.elmJson).getD elmJson := by
  unfold versionKnown at known
  rw [Bool.not_eq_true'] at known
  unfold severalFile ProjectOperation.next installMultiplePackages
  dsimp only
  rw [if_neg (by simp [application]), if_neg (by simp [known]), if_neg (by simp [linked]),
    solving]
  rfl

/-- The solver is asked for the package. -/
theorem severalFile_solved (application : elmJson.type = .application) (isTest upgradeAll : Bool)
    (linked : run.linked elmJson spec.name = true) (solving : toSolve run elmJson [spec] = [spec])
    (kept : promotions elmJson [spec] = []) :
    (solvedFile run elmJson (spec.request isTest upgradeAll)).SameMaps
      (severalFile run elmJson spec isTest upgradeAll) := by
  have refused : (∀ plan, ¬ AcceptsInstall run elmJson (spec.request isTest upgradeAll) plan) →
      (solvedFile run elmJson (spec.request isTest upgradeAll)).SameMaps elmJson := by
    intro none_
    apply (solvedFile_same_iff application run _).mpr
    intro plan accepts
    exact absurd accepts (none_ plan)
  by_cases known : versionKnown run spec = true
  case neg =>
    rw [Bool.not_eq_true] at known
    rw [severalFile_stopped isTest upgradeAll (Or.inl known)]
    apply refused
    intro plan accepts
    have target : (spec.version.any fun v => !versionExistsInRegistry run.solver spec.name v) =
        false := accepts.target
    unfold versionKnown at known
    rw [target] at known
    cases known
  case pos =>
    rw [severalFile_eq application isTest upgradeAll known linked solving,
      solverAddPackages_single]
    unfold versionKnown at known
    rw [Bool.not_eq_true'] at known
    by_cases starts : run.solverStarts = true
    case neg =>
      rw [if_pos (by simpa using starts)]
      apply refused
      intro plan accepts
      exact starts accepts.proceeds.starts
    case pos =>
    rw [if_neg (by simp [starts])]
    by_cases exists_ : packageExistsInRegistryInternal run.solver spec.name = true
    case neg =>
      rw [if_neg exists_]
      apply refused
      intro plan accepts
      exact exists_ accepts.known
    case pos =>
    rw [if_pos exists_]
    cases solved : solverAddPackage run.fuel run.solver elmJson
        (spec.request isTest upgradeAll) with
    | none =>
      apply refused
      intro plan accepts
      obtain ⟨outcome, found, _, _⟩ := accepts.solved
      rw [solved] at found
      cases found
    | some outcome =>
      dsimp only
      by_cases ok : outcome.result = .ok
      case neg =>
        rw [if_pos ok]
        dsimp only
        rw [if_pos ok]
        apply refused
        intro plan accepts
        obtain ⟨other, found, success, _⟩ := accepts.solved
        rw [solved] at found
        rw [← Option.some.inj found] at success
        exact ok success
      case pos =>
      rw [if_neg (not_not.mpr ok)]
      dsimp only
      rw [if_neg (by simp)]
      cases plan : outcome.plan with
      | nil =>
        rw [installPlanned_idle isTest kept]
        apply (solvedFile_same_iff application run _).mpr
        intro other accepts
        apply accepts.solved.unique
        exact ⟨outcome, solved, ok, plan⟩
      | cons change rest =>
        rw [installPlanned_solved application kept (List.mem_cons_self (a := change))]
        have single : solveAndInstall run elmJson (spec.request isTest upgradeAll) =
            some (match run.confirmed with
              | none => ⟨1, elmJson⟩
              | some false => ⟨0, elmJson⟩
              | some true =>
                match applyPlan [spec.name] isTest elmJson (change :: rest) with
                | none => ⟨1, elmJson⟩
                | some changed => run.save elmJson changed) := by
          have registered : packageExistsInRegistry run.solver spec.name = true := exists_
          unfold solveAndInstall
          rw [if_neg (by simpa [PackageVersionSpec.request] using registered),
            if_neg (by simpa [PackageVersionSpec.request] using known),
            if_neg (by simpa using starts), solved]
          dsimp only
          rw [if_neg (not_not.mpr ok), plan]
          cases run.confirmed with
          | none => rfl
          | some answer =>
            cases answer with
            | false => rfl
            | true =>
              dsimp only
              have same : applyPlan [(spec.request isTest upgradeAll).name]
                  (spec.request isTest upgradeAll).isTestDependency elmJson
                  (change :: rest) = applyPlan [spec.name] isTest elmJson
                    (change :: rest) := rfl
              rw [same]
              cases applyPlan [spec.name] isTest elmJson (change :: rest) with
              | none => rfl
              | some changed => rfl
        unfold solvedFile
        rw [single]
        exact ⟨rfl, fun _ _ => Iff.rfl⟩

/-- The package is promoted, if that is confirmed. -/
theorem severalFile_promoted (application : elmJson.type = .application) (isTest upgradeAll : Bool)
    (known : versionKnown run spec = true) (linked : run.linked elmJson spec.name = true)
    (indirect : elmJsonFindPackage elmJson spec.name = .indirectToDirect) {promoted : ElmJson}
    (promotes : elmJsonPromotePackage elmJson spec.name = some promoted) :
    severalFile run elmJson spec isTest upgradeAll =
      if run.confirmed = some true && run.saves then promoted.sortMaps else elmJson := by
  rw [severalFile_unsolved application isTest upgradeAll known linked
    (by simp [toSolve, indirect])]
  have moved : promotions elmJson [spec] = [spec.name] := by
    unfold promotions
    simp [indirect]
  unfold installPlanned
  dsimp only
  rw [moved, if_neg (by simp)]
  cases answer : run.confirmed with
  | none => rfl
  | some accepted =>
    cases accepted with
    | false => rfl
    | true =>
      rw [List.foldlM_cons, promotes]
      change (run.save elmJson promoted).elmJson = _
      rw [CommandRun.save_elmJson]
      simp

/-- The package is passed over. -/
theorem severalFile_skipped (application : elmJson.type = .application) (isTest upgradeAll : Bool)
    (idle : toSolve run elmJson [spec] = []) (kept : promotions elmJson [spec] = []) :
    severalFile run elmJson spec isTest upgradeAll = elmJson := by
  by_cases ready : versionKnown run spec = true ∧ run.linked elmJson spec.name = true
  · rw [severalFile_unsolved application isTest upgradeAll ready.1 ready.2 idle,
      installPlanned_idle isTest kept]
  · apply severalFile_stopped
    rw [not_and_or, Bool.not_eq_true, Bool.not_eq_true] at ready
    exact ready

/-- A test dependency goes to the solver if something is missing. -/
theorem severalFile_testDependency (application : elmJson.type = .application)
    (isTest upgradeAll : Bool) (linked : run.linked elmJson spec.name = true)
    (other : elmJsonFindPackage elmJson spec.name ≠ .none)
    (test : elmJsonFindPackage elmJson spec.name ≠ .indirectToDirect) :
    if run.incomplete elmJson then
      (solvedFile run elmJson (spec.request isTest upgradeAll)).SameMaps
        (severalFile run elmJson spec isTest upgradeAll)
    else severalFile run elmJson spec isTest upgradeAll = elmJson := by
  have kept : promotions elmJson [spec] = [] := by simp [promotions, test]
  split
  · rename_i incomplete
    apply severalFile_solved application isTest upgradeAll linked _ kept
    simp [toSolve, test, incomplete]
  · rename_i complete
    apply severalFile_skipped application isTest upgradeAll _ kept
    simp [toSolve, other, complete]

/-! ## Files that cannot be written -/

theorem CommandRun.save_unsaved (unsaved : run.saves = false) (elmJson changed : ElmJson) :
    run.save elmJson changed = ⟨1, elmJson⟩ := by
  unfold CommandRun.save
  rw [unsaved]
  rfl

theorem singleFile_unsaved (application : elmJson.type = .application) (request : AddRequest)
    (unsaved : run.saves = false) :
    singleFile run elmJson request = elmJson := by
  by_cases linked : run.linked elmJson request.name = true
  case neg =>
    exact singleFile_unlinked application (by simpa using linked)
  case pos =>
  cases found : findExistingPackage elmJson request.name with
  | none =>
    rw [singleFile_absent application run found]
    exact solvedFile_unsaved application request unsaved
  | some existing =>
    rw [singleFile_listed application request linked found]
    have solved := solvedFile_unsaved application request unsaved
    split
    · split
      · rfl
      · exact solved
    · split
      · exact solved
      · unfold installListed addToTestDirect
        simp only [CommandRun.save_unsaved unsaved, application]
        split
        · split
          · rfl
          · split
            · rfl
            · rfl
        · split
          · split
            · rfl
            · rfl
          · split
            · exact solved
            · rfl

theorem severalFile_unsaved (elmJson : ElmJson) (spec : PackageVersionSpec)
    (isTest upgradeAll : Bool) (unsaved : run.saves = false) :
    severalFile run elmJson spec isTest upgradeAll = elmJson := by
  have planned : ∀ plan, (installPlanned run elmJson [spec] isTest plan).elmJson = elmJson := by
    intro plan
    unfold installPlanned
    dsimp only
    simp only [CommandRun.save_unsaved unsaved]
    split
    · rfl
    split
    · rfl
    · rfl
    · split
      · rfl
      · split
        · rfl
        · rfl
  unfold severalFile ProjectOperation.next installMultiplePackages
  dsimp only
  split
  · rfl
  split
  · rfl
  split
  · rfl
  split
  · exact planned []
  split
  · rfl
  split
  · rfl
  · split
    · rfl
    · exact planned _

/-! ## Where the paths agree -/

/-- A listed package is treated alike: where only one path goes on to the solver, it has nothing
to change, and no path alone promotes the package or adds it to the test dependencies. -/
def ListedAlike (run : CommandRun) (elmJson : ElmJson) (request : AddRequest) : Prop :=
  match elmJsonFindPackage elmJson request.name, request.targetVersion with
  | .none, some target =>
    run.already elmJson request.name target = true → InstallIdle run elmJson request
  | .none, none =>
    if request.isTestDependency then
      (elmJson.maps .dependenciesTestDirect).has request.name = true ∧
        InstallIdle run elmJson request
    else run.incomplete elmJson = false → InstallIdle run elmJson request
  | .indirectToDirect, some target =>
    ¬ (versionExistsInRegistry run.solver request.name target = true ∧ run.confirmed = some true)
  | .indirectToDirect, none =>
    if request.isTestDependency then
      run.confirmed ≠ some true ∧ (elmJson.maps .dependenciesTestDirect).has request.name = true
    else run.confirmed = some true
  | .testToDirect, none =>
    request.isTestDependency = true ∧
      (run.incomplete elmJson = true → InstallIdle run elmJson request)
  | .testIndirectToTestDirect, none => False
  | _, some target =>
    run.incomplete elmJson = true ∨ run.already elmJson request.name target = true ∨
      InstallIdle run elmJson request

/-- The package is not listed, the command stops before it looks, the file cannot be written, or
the package is treated alike. -/
def InstallsAlike (run : CommandRun) (elmJson : ElmJson) (request : AddRequest) : Prop :=
  firstMap .application (elmJson.listing request.name) = none ∨
    run.linked elmJson request.name = false ∨ run.saves = false ∨
    ListedAlike run elmJson request

/-- The solver on both sides of the comparison, or on one. -/
theorem sameMaps_solved_iff (application : elmJson.type = .application) {request : AddRequest}
    {several : ElmJson} (solves : (solvedFile run elmJson request).SameMaps several) {skips : Prop}
    [Decidable skips] :
    (if skips then elmJson else solvedFile run elmJson request).SameMaps several ↔
      (skips → InstallIdle run elmJson request) := by
  rw [← solvedFile_same_iff application]
  split
  · rename_i skipped
    constructor
    · intro same _
      exact solves.trans same.symm
    · intro idle
      exact (idle skipped).symm.trans solves
  · rename_i solved
    constructor
    · intro _ skipped
      exact absurd skipped solved
    · intro _
      exact solves

section Listed

variable {elmJson : ElmJson} (application : elmJson.type = .application) {run : CommandRun}
  {spec : PackageVersionSpec} (isTest upgradeAll : Bool)
  (linked : run.linked elmJson spec.name = true) {existing : Package}
  (found : findExistingPackage elmJson spec.name = some existing)

include application found

/-- The solver leaves a listed package in its maps. -/
theorem solvedFile_kept (field : ElmJsonMap) :
    ((solvedFile run elmJson (spec.request isTest upgradeAll)).listing spec.name field).isSome =
      (elmJson.listing spec.name field).isSome := by
  apply solvedFile_places application
  rw [Ne, ← findExistingPackage_none_iff application, found]
  exact Option.some_ne_none existing

include linked

/-- With a version, the path for one package goes on to the solver unless that is listed. -/
theorem singleFile_version {target : Version} (version : spec.version = some target) :
    singleFile run elmJson (spec.request isTest upgradeAll) =
      if run.already elmJson spec.name target then elmJson
      else solvedFile run elmJson (spec.request isTest upgradeAll) := by
  have asks : (spec.request isTest upgradeAll).targetVersion = some target := version
  rw [singleFile_listed application (spec.request isTest upgradeAll) linked found, asks]
  rfl

/-- With `--test` and without a version, the package ends as a direct test dependency. -/
theorem singleFile_testDirect (saves : run.saves = true) (version : spec.version = none)
    (missing : (elmJson.maps .dependenciesTestDirect).has spec.name = false) :
    ((singleFile run elmJson (spec.request true upgradeAll)).listing spec.name
      .dependenciesTestDirect).isSome = true := by
  have same := (findExistingPackage_some found).2
  rw [singleFile_test application (spec.request true upgradeAll) linked found version rfl rfl,
    ← same]
  apply addToTestDirect_adds saves
  rw [same]
  exact missing

theorem singleFile_testKept (version : spec.version = none)
    (listed : (elmJson.maps .dependenciesTestDirect).has spec.name = true) :
    singleFile run elmJson (spec.request true upgradeAll) = elmJson := by
  rw [singleFile_test application (spec.request true upgradeAll) linked found version rfl rfl]
  unfold addToTestDirect
  rw [(findExistingPackage_some found).2, if_pos listed]

theorem alike_direct (saves : run.saves = true)
    (kept : elmJsonFindPackage elmJson spec.name = .none) :
    (singleFile run elmJson (spec.request isTest upgradeAll)).SameMaps
        (severalFile run elmJson spec isTest upgradeAll) ↔
      ListedAlike run elmJson (spec.request isTest upgradeAll) := by
  have solves := severalFile_solved application isTest upgradeAll linked
    (by simp [toSolve, kept]) (by simp [promotions, kept])
  have asked : (spec.request isTest upgradeAll).name = spec.name := rfl
  have asks : (spec.request isTest upgradeAll).targetVersion = spec.version := rfl
  have tests : (spec.request isTest upgradeAll).isTestDependency = isTest := rfl
  unfold ListedAlike
  rw [asked, kept, asks, tests]
  cases version : spec.version with
  | some target =>
    rw [singleFile_version application isTest upgradeAll linked found version]
    exact sameMaps_solved_iff application solves
  | none =>
    cases isTest with
    | false =>
      have single : singleFile run elmJson (spec.request false upgradeAll) =
          if run.incomplete elmJson = false then elmJson
          else solvedFile run elmJson (spec.request false upgradeAll) := by
        have none_ : (spec.request false upgradeAll).targetVersion = none := version
        rw [singleFile_listed application (spec.request false upgradeAll) linked found, none_]
        dsimp only
        rw [if_neg (by simp [PackageVersionSpec.request])]
        unfold installListed
        rw [if_neg (by simp [PackageVersionSpec.request]), asked, if_neg (not_not.mpr kept)]
        by_cases incomplete : run.incomplete elmJson = true
        · rw [if_pos incomplete, if_neg (by simp [incomplete])]
          rfl
        · rw [if_neg incomplete, if_pos (by simpa using incomplete)]
          rfl
      rw [single]
      exact sameMaps_solved_iff application solves
    | true =>
      dsimp only
      rw [if_pos rfl]
      by_cases listed : (elmJson.maps .dependenciesTestDirect).has spec.name = true
      · rw [singleFile_testKept application upgradeAll linked found version listed,
          ← solvedFile_same_iff application]
        constructor
        · intro same
          exact ⟨listed, solves.trans same.symm⟩
        · intro idle
          exact idle.2.symm.trans solves
      · constructor
        · intro same
          have added := singleFile_testDirect application upgradeAll linked found saves version
            (by simpa using listed)
          rw [same.listing, ← solves.listing, solvedFile_kept application true upgradeAll found,
            ← PackageMap.has_listing] at added
          exact absurd added listed
        · intro both
          exact absurd both.1 listed

/-- An indirect dependency is promoted on the path for several packages, if that is confirmed. -/
theorem alike_indirect (saves : run.saves = true)
    (indirect : elmJsonFindPackage elmJson spec.name = .indirectToDirect) :
    (singleFile run elmJson (spec.request isTest upgradeAll)).SameMaps
        (severalFile run elmJson spec isTest upgradeAll) ↔
      ListedAlike run elmJson (spec.request isTest upgradeAll) := by
  have place := elmJsonFindPackage_listedAt application spec.name
  rw [indirect] at place
  cases place with
  | indirect direct listed =>
  obtain ⟨promoted, promotes, relists⟩ := elmJsonPromotePackage_application application
    (by rw [indirect]; rfl) listed
  have moved : (promoted.sortMaps.listing spec.name .dependenciesDirect).isSome = true := by
    rw [ElmJson.listing_sortMaps, relists.own, Function.update_of_ne (by decide),
      Function.update_self]
    rfl
  have test : promoted.sortMaps.listing spec.name .dependenciesTestDirect =
      elmJson.listing spec.name .dependenciesTestDirect := by
    rw [ElmJson.listing_sortMaps, relists.own, Function.update_of_ne (by decide),
      Function.update_of_ne (by decide)]
  have unmoved : ¬ elmJson.SameMaps promoted.sortMaps := by
    intro same
    rw [← same.listing, direct] at moved
    cases moved
  have asked : (spec.request isTest upgradeAll).name = spec.name := rfl
  have asks : (spec.request isTest upgradeAll).targetVersion = spec.version := rfl
  have tests : (spec.request isTest upgradeAll).isTestDependency = isTest := rfl
  unfold ListedAlike
  rw [asked, indirect, asks, tests]
  cases version : spec.version with
  | some target =>
    have known : versionKnown run spec =
        versionExistsInRegistry run.solver spec.name target := by
      unfold versionKnown
      rw [version, Option.any_some, Bool.not_not]
    dsimp only
    rw [singleFile_version application isTest upgradeAll linked found version]
    by_cases taken : versionExistsInRegistry run.solver spec.name target = true ∧
        run.confirmed = some true
    · have several : severalFile run elmJson spec isTest upgradeAll = promoted.sortMaps := by
        rw [severalFile_promoted application isTest upgradeAll (known.trans taken.1) linked
          indirect promotes, if_pos (by simp [taken.2, saves])]
      rw [several]
      constructor
      · intro same
        rw [← same.listing] at moved
        split at moved
        · rw [direct] at moved
          cases moved
        · rw [solvedFile_kept application isTest upgradeAll found, direct] at moved
          cases moved
      · intro free
        exact absurd taken free
    · have stays : severalFile run elmJson spec isTest upgradeAll = elmJson := by
        by_cases registered : versionKnown run spec = true
        · rw [severalFile_promoted application isTest upgradeAll registered linked indirect
            promotes, if_neg]
          intro accepted
          rw [Bool.and_eq_true, decide_eq_true_iff] at accepted
          exact taken ⟨known.symm.trans registered, accepted.1⟩
        · exact severalFile_stopped isTest upgradeAll (Or.inl (by simpa using registered))
      have idle : InstallIdle run elmJson (spec.request isTest upgradeAll) := by
        intro plan accepts
        have exists_ := accepts.target
        rw [asked, asks, version, Option.any_some, Bool.not_eq_false'] at exists_
        exact absurd ⟨exists_, accepts.proceeds.confirmed⟩ taken
      rw [stays]
      constructor
      · intro _
        exact taken
      · intro _
        split
        · exact ElmJson.SameMaps.refl elmJson
        · exact (solvedFile_same_iff application run _).mpr idle
  | none =>
    have several := severalFile_promoted application isTest upgradeAll
      (by unfold versionKnown; rw [version]; rfl) linked indirect promotes
    dsimp only
    rw [several, saves, Bool.and_true]
    cases isTest with
    | false =>
      rw [singleFile_promoted application (spec.request false upgradeAll) linked found version
        rfl rfl saves (by rw [asked, indirect]; decide) promotes, if_neg Bool.false_ne_true]
      by_cases confirmed : run.confirmed = some true
      · rw [confirmed]
        exact ⟨fun _ => rfl, fun _ => ElmJson.SameMaps.refl _⟩
      · rw [if_neg (by simpa using confirmed)]
        constructor
        · intro same
          exact absurd same.symm unmoved
        · intro accepted
          exact absurd accepted confirmed
    | true =>
      rw [if_pos rfl]
      by_cases listedTest : (elmJson.maps .dependenciesTestDirect).has spec.name = true
      · rw [singleFile_testKept application upgradeAll linked found version listedTest]
        by_cases confirmed : run.confirmed = some true
        · rw [if_pos (by simpa using confirmed)]
          constructor
          · intro same
            exact absurd same unmoved
          · intro refused
            exact absurd confirmed refused.1
        · rw [if_neg (by simpa using confirmed)]
          exact ⟨fun _ => ⟨confirmed, listedTest⟩, fun _ => ElmJson.SameMaps.refl elmJson⟩
      · constructor
        · intro same
          have added := singleFile_testDirect application upgradeAll linked found saves version
            (by simpa using listedTest)
          rw [same.listing] at added
          rw [PackageMap.has_listing] at listedTest
          split at added
          · rw [test] at added
            exact absurd added listedTest
          · exact absurd added listedTest
        · intro both
          exact absurd both.2 listedTest

/-- A test dependency stays in its maps on the path for several packages. -/
theorem severalFile_kept (other : elmJsonFindPackage elmJson spec.name ≠ .none)
    (test : elmJsonFindPackage elmJson spec.name ≠ .indirectToDirect) (field : ElmJsonMap) :
    ((severalFile run elmJson spec isTest upgradeAll).listing spec.name field).isSome =
      (elmJson.listing spec.name field).isSome := by
  have several := severalFile_testDependency application isTest upgradeAll linked other test
  split at several
  · rw [← several.listing]
    exact solvedFile_kept application isTest upgradeAll found field
  · rw [several]

/-- A version of a test dependency is asked for. -/
theorem alike_testVersion (other : elmJsonFindPackage elmJson spec.name ≠ .none)
    (test : elmJsonFindPackage elmJson spec.name ≠ .indirectToDirect) {target : Version}
    (version : spec.version = some target) :
    (singleFile run elmJson (spec.request isTest upgradeAll)).SameMaps
        (severalFile run elmJson spec isTest upgradeAll) ↔
      run.incomplete elmJson = true ∨ run.already elmJson spec.name target = true ∨
        InstallIdle run elmJson (spec.request isTest upgradeAll) := by
  have several := severalFile_testDependency application isTest upgradeAll linked other test
  rw [singleFile_version application isTest upgradeAll linked found version]
  split at several
  · rename_i incomplete
    have moving : ¬ run.already elmJson spec.name target = true := by
      unfold CommandRun.already
      simp [incomplete]
    rw [if_neg moving]
    exact ⟨fun _ => Or.inl incomplete, fun _ => several⟩
  · rename_i complete
    rw [several]
    split
    · rename_i already
      exact ⟨fun _ => Or.inr (Or.inl already), fun _ => ElmJson.SameMaps.refl elmJson⟩
    · rename_i moving
      rw [solvedFile_same_iff application]
      constructor
      · intro idle
        exact Or.inr (Or.inr idle)
      · intro alike
        rcases alike with incomplete | already | idle
        · exact absurd incomplete complete
        · exact absurd already moving
        · exact idle

theorem alike_testDirect (saves : run.saves = true)
    (test : elmJsonFindPackage elmJson spec.name = .testToDirect) :
    (singleFile run elmJson (spec.request isTest upgradeAll)).SameMaps
        (severalFile run elmJson spec isTest upgradeAll) ↔
      ListedAlike run elmJson (spec.request isTest upgradeAll) := by
  have place := elmJsonFindPackage_listedAt application spec.name
  rw [test] at place
  cases place with
  | testDirect direct indirect listed =>
  have other : elmJsonFindPackage elmJson spec.name ≠ .none := by simp [test]
  have apart : elmJsonFindPackage elmJson spec.name ≠ .indirectToDirect := by simp [test]
  have asked : (spec.request isTest upgradeAll).name = spec.name := rfl
  have asks : (spec.request isTest upgradeAll).targetVersion = spec.version := rfl
  have tests : (spec.request isTest upgradeAll).isTestDependency = isTest := rfl
  unfold ListedAlike
  rw [asked, test, asks, tests]
  cases version : spec.version with
  | some target =>
    exact alike_testVersion application isTest upgradeAll linked found other apart version
  | none =>
    dsimp only
    cases isTest with
    | false =>
      constructor
      · intro same
        obtain ⟨promoted, promotes, relists⟩ := elmJsonPromotePackage_application application
          (by rw [test]; rfl) listed
        have gone : promoted.sortMaps.listing spec.name .dependenciesTestDirect = none := by
          rw [ElmJson.listing_sortMaps, relists.own, Function.update_self]
        rw [← severalFile_kept application false upgradeAll linked found other apart,
          ← same.listing,
          singleFile_promoted application (spec.request false upgradeAll) linked found version
            rfl rfl saves (by rw [asked]; exact other) promotes, gone] at listed
        cases listed
      · intro never
        cases never.1
    | true =>
      rw [singleFile_testKept application upgradeAll linked found version
        (by rw [PackageMap.has_listing]; exact listed)]
      have several := severalFile_testDependency application true upgradeAll linked other apart
      split at several
      · rename_i incomplete
        rw [← solvedFile_same_iff application]
        constructor
        · intro same
          exact ⟨rfl, fun _ => several.trans same.symm⟩
        · intro idle
          exact (idle.2 incomplete).symm.trans several
      · rename_i complete
        rw [several]
        constructor
        · intro _
          exact ⟨rfl, fun incomplete => absurd incomplete complete⟩
        · intro _
          exact ElmJson.SameMaps.refl elmJson

theorem alike_testIndirect (saves : run.saves = true)
    (test : elmJsonFindPackage elmJson spec.name = .testIndirectToTestDirect) :
    (singleFile run elmJson (spec.request isTest upgradeAll)).SameMaps
        (severalFile run elmJson spec isTest upgradeAll) ↔
      ListedAlike run elmJson (spec.request isTest upgradeAll) := by
  have place := elmJsonFindPackage_listedAt application spec.name
  rw [test] at place
  cases place with
  | testIndirect direct indirect absent listed =>
  have other : elmJsonFindPackage elmJson spec.name ≠ .none := by simp [test]
  have apart : elmJsonFindPackage elmJson spec.name ≠ .indirectToDirect := by simp [test]
  have asked : (spec.request isTest upgradeAll).name = spec.name := rfl
  have asks : (spec.request isTest upgradeAll).targetVersion = spec.version := rfl
  unfold ListedAlike
  rw [asked, test, asks]
  cases version : spec.version with
  | some target =>
    exact alike_testVersion application isTest upgradeAll linked found other apart version
  | none =>
    -- the path for one package makes it a direct test dependency, with `--test` or without
    have added : ((singleFile run elmJson (spec.request isTest upgradeAll)).listing spec.name
        .dependenciesTestDirect).isSome = true := by
      cases isTest with
      | true =>
        apply singleFile_testDirect application upgradeAll linked found saves version
        rw [PackageMap.has_listing, absent]
        rfl
      | false =>
        obtain ⟨promoted, promotes, relists⟩ := elmJsonPromotePackage_application application
          (by rw [test]; rfl) listed
        rw [singleFile_promoted application (spec.request false upgradeAll) linked found
            version rfl rfl saves (by rw [asked]; exact other) promotes,
          ElmJson.listing_sortMaps, relists.own, Function.update_of_ne (by decide),
          Function.update_self]
        rfl
    constructor
    · intro same
      rw [same.listing, severalFile_kept application isTest upgradeAll linked found other apart,
        absent] at added
      cases added
    · intro never
      exact never.elim

end Listed

/-- For an application, installing one package leaves the same file on the path for several
packages as on the path for one, exactly if the paths treat the package alike. -/
theorem installMultiple_alike {elmJson : ElmJson} (application : elmJson.type = .application)
    (run : CommandRun) (spec : PackageVersionSpec) (isTest upgradeAll : Bool) :
    ((ProjectOperation.install run (spec.request isTest upgradeAll)).next elmJson).SameMaps
        ((ProjectOperation.installMultiple run [spec] isTest upgradeAll).next elmJson) ↔
      InstallsAlike run elmJson (spec.request isTest upgradeAll) := by
  change (singleFile run elmJson (spec.request isTest upgradeAll)).SameMaps
    (severalFile run elmJson spec isTest upgradeAll) ↔ _
  unfold InstallsAlike
  have asked : (spec.request isTest upgradeAll).name = spec.name := rfl
  rw [asked]
  cases found : findExistingPackage elmJson spec.name with
  | none =>
    have absent := (findExistingPackage_none_iff application spec.name).mp found
    have kept := elmJsonFindPackage_absent application absent
    have linked : run.linked elmJson spec.name = true := by
      unfold CommandRun.linked
      rw [found]
    rw [singleFile_absent application run found]
    constructor
    · intro _
      exact Or.inl absent
    · intro _
      exact severalFile_solved application isTest upgradeAll linked (by simp [toSolve, kept])
        (by simp [promotions, kept])
  | some existing =>
    have listed : ¬ firstMap .application (elmJson.listing spec.name) = none := by
      rw [← findExistingPackage_none_iff application, found]
      exact Option.some_ne_none existing
    by_cases linked : run.linked elmJson spec.name = true
    case neg =>
      rw [Bool.not_eq_true] at linked
      rw [singleFile_unlinked application linked,
        severalFile_stopped isTest upgradeAll (Or.inr linked)]
      exact ⟨fun _ => Or.inr (Or.inl linked), fun _ => ElmJson.SameMaps.refl elmJson⟩
    case pos =>
    by_cases saves : run.saves = true
    case neg =>
      rw [Bool.not_eq_true] at saves
      rw [singleFile_unsaved application _ saves, severalFile_unsaved elmJson spec _ _ saves]
      exact ⟨fun _ => Or.inr (Or.inr (Or.inl saves)), fun _ => ElmJson.SameMaps.refl elmJson⟩
    case pos =>
    have alike : (singleFile run elmJson (spec.request isTest upgradeAll)).SameMaps
        (severalFile run elmJson spec isTest upgradeAll) ↔
          ListedAlike run elmJson (spec.request isTest upgradeAll) := by
      cases place : elmJsonFindPackage elmJson spec.name with
      | none => exact alike_direct application isTest upgradeAll linked found saves place
      | indirectToDirect =>
        exact alike_indirect application isTest upgradeAll linked found saves place
      | testToDirect =>
        exact alike_testDirect application isTest upgradeAll linked found saves place
      | testIndirectToTestDirect =>
        exact alike_testIndirect application isTest upgradeAll linked found saves place
    rw [alike]
    constructor
    · intro same
      exact Or.inr (Or.inr (Or.inr same))
    · intro cases_
      rcases cases_ with absent | unlinked | unsaved | same
      · exact absurd absent listed
      · rw [linked] at unlinked
        cases unlinked
      · rw [saves] at unsaved
        cases unsaved
      · exact same

/-- `elm/json`, without a version. -/
def installJson : PackageVersionSpec := ⟨elmJsonPackage, none⟩

theorem installMultiple_alike_json :
    ((ProjectOperation.install (acceptedRun sampleState) (installJson.request false false)).next
        (sampleApp none none)).SameMaps
      ((ProjectOperation.installMultiple (acceptedRun sampleState) [installJson] false false).next
        (sampleApp none none)) :=
  (installMultiple_alike rfl (acceptedRun sampleState) installJson false false).mpr
    (Or.inl (by decide))

/-- A direct test dependency becomes a direct dependency on the path for one package only. -/
theorem installMultiple_alike_fails :
    ¬ ∀ (run : CommandRun) (elmJson : ElmJson) (spec : PackageVersionSpec)
      (isTest upgradeAll : Bool), elmJson.type = .application →
        ((ProjectOperation.install run (spec.request isTest upgradeAll)).next elmJson).SameMaps
          ((ProjectOperation.installMultiple run [spec] isTest upgradeAll).next elmJson) := by
  intro claim
  have same := claim (acceptedRun sampleState)
    (sampleApp none (some ⟨elmJsonPackage, "1.1.0"⟩)) installJson false false rfl
  have entry := same.entries .dependenciesDirect ⟨elmJsonPackage, "1.1.0"⟩
  revert entry
  decide

end ElmWrap
