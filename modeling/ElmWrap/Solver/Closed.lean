import ElmWrap.Solver.Listing
import ElmWrap.Solver.Plan
import Mathlib.Algebra.Order.BigOperators.Group.List
import Mathlib.Algebra.Order.Group.Nat

/-!
# What an added package leaves behind

An `elm.json` is *closed* when every dependency of every listed version is
listed inside its constraint. A plan keeps it closed for every package the
solver has looked at. A package of a map the solver did not get stays as it is,
and loses a dependency when the plan moves that dependency out of its range.
-/

namespace ElmWrap

/-! ## Closed projects -/

/-- All entries of the maps. -/
def ElmJson.packages (elmJson : ElmJson) : List Package :=
  elmJson.type.maps.flatMap fun field => (elmJson.maps field).packages

variable {elmJson : ElmJson} {request : AddRequest} {outcome : SolverOutcome}

theorem ElmJson.lists_iff {p : Package} :
    elmJson.Lists p ↔ p ∈ elmJson.packages := by
  simp [ElmJson.Lists, ElmJson.packages]

/-- The dependency is listed at a version inside its constraint. -/
def ElmJson.Meets (elmJson : ElmJson) (q : Package) : Prop :=
  ∃ p ∈ elmJson.packages, p.name = q.name ∧ ∃ v ∈ pgVersionParse p.version,
    ∃ range ∈ pgElmParseConstraint q.version, pgRangeContains range v = true

instance (elmJson : ElmJson) (q : Package) : Decidable (elmJson.Meets q) :=
  inferInstanceAs (Decidable (∃ _ ∈ elmJson.packages, _ ∧ _))

/-- Every dependency of every listed version is met. -/
def ElmJson.Closed (elmJson : ElmJson) (deps : PackageName → PgVersion → List Package) : Prop :=
  ∀ p ∈ elmJson.packages, ∀ v ∈ pgVersionParse p.version, ∀ q ∈ deps p.name v, elmJson.Meets q

instance (elmJson : ElmJson) (deps : PackageName → PgVersion → List Package) :
    Decidable (elmJson.Closed deps) :=
  inferInstanceAs (Decidable (∀ _ ∈ elmJson.packages, _))

/-- A package listed in several maps has one version. -/
def ElmJson.Agrees (elmJson : ElmJson) : Prop :=
  ∀ p ∈ elmJson.packages, ∀ q ∈ elmJson.packages, p.name = q.name → p.version = q.version

instance (elmJson : ElmJson) : Decidable elmJson.Agrees :=
  inferInstanceAs (Decidable (∀ _ ∈ elmJson.packages, _))

/-- How many entries the maps have. -/
def ElmJson.entryCount (elmJson : ElmJson) : Nat := elmJson.packages.length

theorem pgVersionParse_versionText (v : Version) : pgVersionParse (versionText v) = some v :=
  versionParseSafe_versionToString v

/-! ## Plans made of selections -/

/-- A plan put together from the plans for several selections: of the changes for
a package it has one. -/
structure MergedPlan (currentPackages : PackageMap)
    (selections : List (List (PackageName × Version))) (plan : InstallPlan) : Prop where
  nodup : (plan.map PackageChange.name).Nodup
  source : ∀ c ∈ plan, ∃ s ∈ selections, ∃ p ∈ s, plannedChange currentPackages p = some c
  covers : ∀ s ∈ selections, ∀ p ∈ s, ∀ c, plannedChange currentPackages p = some c →
    plan.Changes p.1

theorem MergedPlan.new {currentPackages : PackageMap}
    {selections : List (List (PackageName × Version))} {plan : InstallPlan}
    (merged : MergedPlan currentPackages selections plan) :
    ∀ c ∈ plan, c.newVersion ≠ none := by
  intro c member none_
  obtain ⟨s, -, p, -, planned⟩ := merged.source c member
  rw [(plannedChange_some planned).2.1] at none_
  cases none_

theorem mergedPlan_single {currentPackages : PackageMap}
    {selected : List (PackageName × Version)} {plan : InstallPlan}
    (nodup : (selected.map Prod.fst).Nodup)
    (planned : planSelected currentPackages selected = some plan) :
    MergedPlan currentPackages [selected] plan := by
  rw [planSelected_eq] at planned
  cases planned
  refine ⟨plannedChanges_nodup currentPackages nodup, fun c member => ?_,
    fun s on p member c change => ?_⟩
  · obtain ⟨p, on, change⟩ := List.mem_filterMap.mp member
    exact ⟨selected, List.mem_singleton_self _, p, on, change⟩
  · rw [List.mem_singleton.mp on] at member
    exact ⟨c, List.mem_filterMap.mpr ⟨p, member, change⟩, (plannedChange_some change).1⟩

section Merged

variable {L : ElmListing} {elmJson elmJson' : ElmJson}
  {selections : List (List (PackageName × Version))} {plan : InstallPlan}

/-- A selected version is listed afterwards, if the selections agree on it. -/
theorem MergedPlan.selected_lists
    (merged : MergedPlan (collectCurrentPackages elmJson) selections plan)
    (applies : elmJson.Applies elmJson' plan) {s : List (PackageName × Version)}
    (on : s ∈ selections) {name : PackageName} {v : Version} (member : (name, v) ∈ s) :
    elmJson'.Lists ⟨name, versionText v⟩ ∨
      ∃ s' ∈ selections, ∃ w, (name, w) ∈ s' ∧ v ≠ w := by
  by_cases changes : plan.Changes name
  · obtain ⟨c, planned, rfl⟩ := changes
    obtain ⟨s', on', ⟨other, w⟩, member', change⟩ := merged.source c planned
    obtain ⟨same, new, -⟩ := plannedChange_some change
    rw [← show c.name = other from same] at member'
    by_cases equal : v = w
    · refine Or.inl (applies.written c planned _ ?_)
      rw [new, equal]
    · exact Or.inr ⟨s', on', w, member', equal⟩
  · left
    cases change : plannedChange (collectCurrentPackages elmJson) (name, v) with
    | some c => exact absurd (merged.covers s on _ member c change) changes
    | none =>
      obtain ⟨existing, found, text⟩ := plannedChange_none change
      obtain ⟨current, same⟩ := packageMapFind_some found
      have lists := (collectCurrentPackages_spec elmJson).1 existing current
      have entry : existing = ⟨name, versionText v⟩ := by
        rw [← show existing.name = name from same,
          ← show existing.version = versionText v from text]
      rw [← entry, applies.lists (by rw [same]; exact changes)]
      exact lists

/-- A version listed afterwards was selected, or nobody selected its package. -/
theorem MergedPlan.listed_selected
    (merged : MergedPlan (collectCurrentPackages elmJson) selections plan)
    (agrees : elmJson.Agrees) (once : ∀ c ∈ plan, elmJson.ListsOnce c.name)
    (applies : elmJson.Applies elmJson' plan) {p : Package} (lists : elmJson'.Lists p)
    {v : Version} (parsed : pgVersionParse p.version = some v) :
    (∃ s ∈ selections, (p.name, v) ∈ s) ∨
      (¬ plan.Changes p.name ∧ elmJson.Lists p ∧ ∀ s ∈ selections, ∀ w, (p.name, w) ∉ s) := by
  have reads : ∀ w, p.version = versionText w → w = v := by
    intro w text
    rw [text, pgVersionParse_versionText] at parsed
    exact Option.some.inj parsed
  by_cases changes : plan.Changes p.name
  · left
    obtain ⟨c, planned, named⟩ := changes
    obtain ⟨s, on, ⟨name, w⟩, member, change⟩ := merged.source c planned
    obtain ⟨same, new, -⟩ := plannedChange_some change
    have text := applies.only c planned (once c planned) p lists named.symm
    rw [new] at text
    rw [← reads w (Option.some.inj text).symm, ← named, show c.name = name from same]
    exact ⟨s, on, member⟩
  · rw [applies.lists changes] at lists
    by_cases selected : ∃ s ∈ selections, ∃ w, (p.name, w) ∈ s
    · left
      obtain ⟨s, on, w, member⟩ := selected
      cases change : plannedChange (collectCurrentPackages elmJson) (p.name, w) with
      | some c => exact absurd (merged.covers s on _ member c change) changes
      | none =>
        obtain ⟨existing, found, text⟩ := plannedChange_none change
        obtain ⟨current, same⟩ := packageMapFind_some found
        have other := (collectCurrentPackages_spec elmJson).1 existing current
        have equal := agrees p (ElmJson.lists_iff.mp lists) existing
          (ElmJson.lists_iff.mp other) same.symm
        rw [← reads w (equal.trans text)]
        exact ⟨s, on, member⟩
    · right
      refine ⟨changes, lists, fun s on w member => ?_⟩
      exact selected ⟨s, on, w, member⟩

/-- Afterwards every dependency is met, unless nobody selected the package and
the plan changes the dependency, or two selections disagree on the dependency. -/
theorem MergedPlan.closed
    (selection : ∀ s ∈ selections, L.Selection s)
    (merged : MergedPlan (collectCurrentPackages elmJson) selections plan)
    (agrees : elmJson.Agrees) (closed : elmJson.Closed L.entries)
    (once : ∀ c ∈ plan, elmJson.ListsOnce c.name) (applies : elmJson.Applies elmJson' plan)
    {p : Package} (lists : elmJson'.Lists p) {v : Version}
    (parsed : pgVersionParse p.version = some v) {q : Package}
    (depends : q ∈ L.reported p.name v) :
    elmJson'.Meets q ∨
      ((∀ s ∈ selections, ∀ w, (p.name, w) ∉ s) ∧ ¬ plan.Changes p.name ∧ plan.Changes q.name) ∨
      ∃ s ∈ selections, ∃ s' ∈ selections, ∃ w w', (q.name, w) ∈ s ∧ (q.name, w') ∈ s' ∧
        w ≠ w' := by
  rcases merged.listed_selected agrees once applies lists parsed with
    ⟨s, on, member⟩ | ⟨unchanged, before, unselected⟩
  · obtain ⟨range, constraint, w, chosen, inside⟩ :=
      (selection s on).closed p.name v member q depends
    rcases merged.selected_lists applies on chosen with listed | ⟨s', on', w', chosen', ne⟩
    · left
      exact ⟨_, ElmJson.lists_iff.mp listed, rfl, w, pgVersionParse_versionText w, range,
        constraint, inside⟩
    · exact Or.inr (Or.inr ⟨s, on, s', on', w, w', chosen, chosen', ne⟩)
  · have entry : q ∈ L.entries p.name v :=
      List.mem_of_mem_filter (List.mem_of_mem_take depends)
    obtain ⟨r, listed, named, w, version, range, constraint, inside⟩ :=
      closed p (ElmJson.lists_iff.mp before) v parsed q entry
    by_cases changes : plan.Changes q.name
    · exact Or.inr (Or.inl ⟨unselected, unchanged, changes⟩)
    · left
      refine ⟨r, ?_, named, w, version, range, constraint, inside⟩
      rw [← ElmJson.lists_iff, applies.lists (by rw [named]; exact changes)]
      exact ElmJson.lists_iff.mpr listed

end Merged

/-! ## Rungs -/

/-- A ladder that succeeds has a rung that does. -/
theorem climbLadder_ok {run : SolverStrategy → Option SolverOutcome} :
    ∀ {ladder : List SolverStrategy}, climbLadder run ladder = some outcome →
      outcome.result = .ok → ∃ strategy ∈ ladder, run strategy = some outcome := by
  intro ladder
  induction ladder with
  | nil =>
    intro climbed ok
    cases climbed
    cases ok
  | cons strategy rest ih =>
    intro climbed ok
    unfold climbLadder at climbed
    split at climbed
    · cases climbed
    · rename_i here ran
      split at climbed
      · obtain ⟨later, member, run⟩ := ih climbed ok
        exact ⟨later, List.mem_cons_of_mem _ member, run⟩
      · cases climbed
        exact ⟨strategy, List.mem_cons_self, ran⟩

/-- The maps of the production dependencies, and with `--test` the test maps. -/
def pinnedMaps (isTest : Bool) : List ElmJsonMap :=
  [.dependenciesDirect, .dependenciesIndirect] ++
    if isTest then [.dependenciesTestDirect, .dependenciesTestIndirect] else []

/-- The maps of an application `solver_add_package` passes to the solver: a major
upgrade without a version leaves out the production maps. -/
def solvedMaps (request : AddRequest) : List ElmJsonMap :=
  if request.targetVersion = none && request.majorUpgrade then
    if request.isTestDependency then [.dependenciesTestDirect, .dependenciesTestIndirect] else []
  else pinnedMaps request.isTestDependency

theorem strategyMaps_pinned (request : AddRequest) {strategy : SolverStrategy}
    (major : strategy ≠ .crossMajorForTarget) :
    (strategyMaps .application request strategy).map StrategyMap.field =
      pinnedMaps request.isTestDependency := by
  obtain ⟨name, target, test, upgrade, all⟩ := request
  cases strategy <;> cases test <;> cases all <;> first | rfl | exact absurd rfl major

/-- Every rung passes the same maps. -/
theorem strategyMaps_solved {strategy : SolverStrategy} (rung : strategy ∈ strategyLadder request) :
    (strategyMaps .application request strategy).map StrategyMap.field = solvedMaps request := by
  unfold strategyLadder at rung
  unfold solvedMaps
  cases target : request.targetVersion with
  | some v =>
    rw [target] at rung
    rw [if_neg (by simp)]
    refine strategyMaps_pinned request ?_
    rintro rfl
    simp at rung
  | none =>
    rw [target, if_neg (by simp)] at rung
    split at rung
    · rename_i major
      rw [if_pos (by simp [major]), List.mem_singleton.mp rung]
      obtain ⟨name, target, test, upgrade, all⟩ := request
      cases test <;> rfl
    · rename_i major
      rw [if_neg (by simp [major])]
      refine strategyMaps_pinned request ?_
      rintro rfl
      simp at rung

theorem strategyEntryCount_le {maps : List StrategyMap}
    (part : List.Sublist (maps.map StrategyMap.field) elmJson.type.maps) :
    strategyEntryCount elmJson maps ≤ elmJson.entryCount := by
  have count : elmJson.entryCount =
      (elmJson.type.maps.map fun field => (elmJson.maps field).packages.length).sum := by
    simp [ElmJson.entryCount, ElmJson.packages, List.length_flatMap]
  have shape : (maps.map fun m => (elmJson.maps m.field).packages.length) =
      (maps.map StrategyMap.field).map fun field => (elmJson.maps field).packages.length := by
    rw [List.map_map]
    rfl
  rw [count, strategyEntryCount, shape]
  exact (part.map _).sum_le_sum fun _ _ => Nat.zero_le _

theorem pinnedMaps_sublist (isTest : Bool) :
    List.Sublist (pinnedMaps isTest) ElmProjectType.application.maps := by
  cases isTest <;> decide

theorem solvedMaps_sublist (request : AddRequest) :
    List.Sublist (solvedMaps request) ElmProjectType.application.maps := by
  unfold solvedMaps
  split
  · cases request.isTestDependency <;> decide
  · exact pinnedMaps_sublist request.isTestDependency

/-- A successful rung, under package names. -/
theorem runWithStrategy_ok {fuel : Nat} {state : SolverState} {currentPackages : PackageMap}
    {strategy : SolverStrategy}
    (run : runWithStrategy fuel state elmJson request currentPackages strategy = some outcome)
    (ok : outcome.result = .ok) :
    ∃ ctx, RootsBuilt elmJson request strategy ctx ∧
      Solved state.listing request currentPackages ctx outcome := by
  have rung := runWithStrategy_listing run ok
  unfold runStrategy at rung
  split at rung
  · cases rung
    cases ok
  · rename_i ctx built
    exact ⟨ctx, rootsForStrategy_built built, solveRoots_ok rung ok⟩

/-- What `solver_add_package` gives for an application when it succeeds. -/
structure AddedTo (L : ElmListing) (elmJson : ElmJson) (request : AddRequest)
    (outcome : SolverOutcome) : Prop where
  selection : L.Selection outcome.selected
  requested : ∃ v, (request.name, v) ∈ outcome.selected
  passed : ∀ field ∈ solvedMaps request, ∀ p ∈ (elmJson.maps field).packages,
    ∃ v, (p.name, v) ∈ outcome.selected
  plan : planSelected (collectCurrentPackages elmJson) outcome.selected = some outcome.plan

theorem solverAddPackage_ok {fuel : Nat} {state : SolverState} (app : elmJson.type = .application)
    (fits : elmJson.entryCount < pgDependencyBuffer)
    (solved : solverAddPackage fuel state elmJson request = some outcome)
    (ok : outcome.result = .ok) : AddedTo state.listing elmJson request outcome := by
  unfold solverAddPackage at solved
  dsimp only at solved
  split at solved
  · cases solved
    cases ok
  · split at solved
    · cases solved
      cases ok
    · obtain ⟨strategy, rung, run⟩ := climbLadder_ok solved ok
      obtain ⟨ctx, built, success⟩ := runWithStrategy_ok run ok
      refine ⟨success.selection, success.requested, fun field passed p member => ?_, success.plan⟩
      have fields := strategyMaps_solved rung
      rw [← app] at fields
      rw [← fields] at passed
      obtain ⟨m, used, rfl⟩ := List.mem_map.mp passed
      obtain ⟨range, -, requires⟩ := built.maps m used p member
      have count : strategyEntryCount elmJson (strategyMaps elmJson.type request strategy) ≤
          elmJson.entryCount := by
        refine strategyEntryCount_le ?_
        rw [fields, app]
        exact solvedMaps_sublist request
      have room : ctx.rootDeps.length ≤ pgDependencyBuffer := by
        rw [built.length]
        omega
      obtain ⟨v, chosen, -⟩ := success.required room p.name range requires
      exact ⟨v, chosen⟩

/-! ## One package -/

/-- No map passed to the solver lists the package, the plan leaves it alone, and changes its
dependency. -/
def Bypassed (elmJson : ElmJson) (maps : List ElmJsonMap) (plan : InstallPlan) (p q : Package) :
    Prop :=
  (∀ field ∈ maps, ¬ elmJson.ListsName field p.name) ∧
    ¬ plan.Changes p.name ∧ plan.Changes q.name

theorem AddedTo.bypassed {L : ElmListing} (added : AddedTo L elmJson request outcome)
    {name : PackageName} (unselected : ∀ w, (name, w) ∉ outcome.selected) :
    ∀ field ∈ solvedMaps request, ¬ elmJson.ListsName field name := by
  intro field passed listed
  obtain ⟨p, member, same⟩ := List.mem_map.mp listed
  obtain ⟨v, chosen⟩ := added.passed field passed p member
  rw [same] at chosen
  exact unselected v chosen

/-- If `solver_add_package` succeeds for a closed application that lists fewer
packages than the solver takes requirements, its plan can be applied, and the
result meets every reported dependency of every listed package that has not been
bypassed. -/
theorem solverAddPackage_closed {fuel : Nat} {state : SolverState} {elmJson : ElmJson}
    {request : AddRequest} {outcome : SolverOutcome} (requested : List PackageName) (isTest : Bool)
    (app : elmJson.type = .application) (agrees : elmJson.Agrees)
    (closed : elmJson.Closed state.listing.entries)
    (fits : elmJson.entryCount < pgDependencyBuffer)
    (solved : solverAddPackage fuel state elmJson request = some outcome)
    (ok : outcome.result = .ok) (once : ∀ c ∈ outcome.plan, elmJson.ListsOnce c.name) :
    ∃ elmJson', applyPlan requested isTest elmJson outcome.plan = some elmJson' ∧
      ∀ p ∈ elmJson'.packages, ∀ v ∈ pgVersionParse p.version,
        ∀ q ∈ state.listing.reported p.name v,
          elmJson'.Meets q ∨ Bypassed elmJson (solvedMaps request) outcome.plan p q := by
  have added := solverAddPackage_ok app fits solved ok
  have merged := mergedPlan_single added.selection.nodup added.plan
  obtain ⟨elmJson', applied, applies⟩ :=
    applyPlan_app requested isTest outcome.plan app merged.nodup merged.new
  refine ⟨elmJson', applied, fun p lists v parsed q depends => ?_⟩
  have selection : ∀ s ∈ [outcome.selected], state.listing.Selection s := by
    intro s on
    rw [List.mem_singleton.mp on]
    exact added.selection
  rcases merged.closed selection agrees closed once applies (ElmJson.lists_iff.mpr lists) parsed
      depends with met | ⟨unselected, unchanged, changes⟩ | ⟨s, on, s', on', w, w', left, right, ne⟩
  · exact Or.inl met
  · right
    exact ⟨added.bypassed (unselected _ (List.mem_singleton_self _)), unchanged, changes⟩
  · rw [List.mem_singleton.mp on] at left
    rw [List.mem_singleton.mp on'] at right
    have same := List.inj_on_of_nodup_map added.selection.nodup left right rfl
    exact absurd (Prod.mk.inj same).2 ne

/-! ### A registry with three packages -/

def elmHttpPackage : PackageName where
  author := "elm"
  project := "http"
  validAuthor := elm_validAuthor
  validProject := by decide
  short := by decide

def elmTestPackage : PackageName where
  author := "elm-explorations"
  project := "test"
  validAuthor := by decide
  validProject := by decide
  short := by decide

/-- `elm/http` needs the newer `elm/json`, `elm-explorations/test` the older one. -/
def sampleDependencies (name : PackageName) : List Package :=
  if name = elmHttpPackage then [⟨elmJsonPackage, "1.1.0 <= v < 2.0.0"⟩]
  else if name = elmTestPackage then [⟨elmJsonPackage, "1.0.0 <= v < 1.1.0"⟩]
  else []

/-- The three packages in a V1 registry, with their `elm.json` in the cache. -/
def sampleState : SolverState where
  protocolMode := .v1
  online := true
  registry := some {
    entries := [⟨"elm", "json", [⟨1, 1, 0⟩, ⟨1, 0, 0⟩]⟩, ⟨"elm", "http", [⟨2, 0, 0⟩]⟩,
      ⟨"elm-explorations", "test", [⟨1, 0, 0⟩]⟩]
    sinceCount := 4 }
  v2Registry := none
  elmJsonRead name _ := some {
    type := .package
    maps := fun field =>
      if field = .packageDependencies then
        { packages := sampleDependencies name
          nodup := by unfold sampleDependencies; split <;> [skip; split] <;> simp }
      else packageMapCreate }
  elmJsonDownloaded _ _ := none
  cacheRegistryExists := true
  cachePackageExists _ _ := true
  cacheDownloadPackage _ _ := true

/-- An application with one package in two of its maps each. -/
def sampleApp (direct testDirect : Option Package) : ElmJson where
  type := .application
  maps
    | .dependenciesDirect => ⟨direct.toList, by cases direct <;> simp⟩
    | .dependenciesTestDirect => ⟨testDirect.toList, by cases testDirect <;> simp⟩
    | _ => packageMapCreate

/-- `install elm/http`. -/
def installHttp : AddRequest where
  name := elmHttpPackage
  targetVersion := none
  isTestDependency := false
  majorUpgrade := false
  upgradeAll := false

theorem solverAddPackage_closed_http : ∃ outcome elmJson',
    solverAddPackage 80 sampleState (sampleApp (some ⟨elmJsonPackage, "1.0.0"⟩) none) installHttp =
        some outcome ∧ outcome.plan ≠ [] ∧
      applyPlan [elmHttpPackage] false (sampleApp (some ⟨elmJsonPackage, "1.0.0"⟩) none)
        outcome.plan = some elmJson' ∧
      ∀ p ∈ elmJson'.packages, ∀ v ∈ pgVersionParse p.version,
        ∀ q ∈ sampleState.listing.reported p.name v, elmJson'.Meets q ∨
          Bypassed (sampleApp (some ⟨elmJsonPackage, "1.0.0"⟩) none) (solvedMaps installHttp)
            outcome.plan p q := by
  let app := sampleApp (some ⟨elmJsonPackage, "1.0.0"⟩) none
  have facts : (solverAddPackage 80 sampleState app installHttp).map
      (fun o => (o.result, o.plan)) = some (.ok,
        [⟨elmJsonPackage, some "1.0.0", some "1.1.0"⟩, ⟨elmHttpPackage, none, some "2.0.0"⟩]) := by
    decide +kernel
  obtain ⟨outcome, solved, same⟩ := Option.map_eq_some_iff.mp facts
  have plan := congrArg Prod.snd same
  dsimp only at plan
  have agrees : app.Agrees := by decide
  have closed : app.Closed sampleState.listing.entries := by decide
  obtain ⟨elmJson', applied, closed⟩ := solverAddPackage_closed [elmHttpPackage] false rfl agrees
    closed (by decide) solved (congrArg Prod.fst same) (by rw [plan]; decide)
  exact ⟨outcome, elmJson', solved, by rw [plan]; simp, applied, closed⟩

/-- Without `--test` the solver does not look at the test maps: the plan moves
`elm/json` away from under `elm-explorations/test`. -/
theorem solverAddPackage_breaks_test :
    ¬ ∀ (fuel : Nat) (state : SolverState) (elmJson elmJson' : ElmJson) (request : AddRequest)
      (outcome : SolverOutcome), state.protocolMode = .v1 → elmJson.type = .application →
        elmJson.Agrees → elmJson.Closed state.listing.entries →
        solverAddPackage fuel state elmJson request = some outcome → outcome.result = .ok →
        applyPlan [request.name] request.isTestDependency elmJson outcome.plan = some elmJson' →
        elmJson'.Closed state.listing.entries := by
  intro claim
  let app := sampleApp (some ⟨elmJsonPackage, "1.0.0"⟩) (some ⟨elmTestPackage, "1.0.0"⟩)
  have facts : (solverAddPackage 80 sampleState app installHttp).bind (fun o =>
      (applyPlan [elmHttpPackage] false app o.plan).map fun elmJson' =>
        (o.result, decide (elmJson'.Closed sampleState.listing.entries))) =
          some (.ok, false) := by decide +kernel
  obtain ⟨outcome, solved, rest⟩ := Option.bind_eq_some_iff.mp facts
  obtain ⟨elmJson', applied, same⟩ := Option.map_eq_some_iff.mp rest
  have open_ := of_decide_eq_false (congrArg Prod.snd same)
  exact open_ (claim 80 sampleState app elmJson' installHttp outcome rfl rfl (by decide)
    (by decide) solved (congrArg Prod.fst same) applied)

/-! ## The exact rung -/

theorem strategyMaps_exact {m : StrategyMap}
    (used : m ∈ strategyMaps .application request .exactAll) : m.rangeOf = exactRange := by
  have all : ∀ n ∈ strategyMaps .application request .exactAll, n.rangeOf = exactRange := by
    unfold strategyMaps
    cases request.isTestDependency <;> simp
  exact all m used

/-- If the exact rung succeeds, a change for a package of a map it pins writes the
version that was there. -/
theorem runWithStrategy_exact {fuel : Nat} {state : SolverState} {elmJson : ElmJson}
    {request : AddRequest} {outcome : SolverOutcome} (app : elmJson.type = .application)
    (fits : elmJson.entryCount < pgDependencyBuffer)
    (run : runWithStrategy fuel state elmJson request (collectCurrentPackages elmJson) .exactAll =
      some outcome)
    (ok : outcome.result = .ok) :
    ∀ change ∈ outcome.plan, ∀ field ∈ pinnedMaps request.isTestDependency,
      ∀ p ∈ (elmJson.maps field).packages, p.name = change.name →
        ∃ v, pgVersionParse p.version = some v ∧ change.newVersion = some (versionText v) := by
  obtain ⟨ctx, built, success⟩ := runWithStrategy_ok run ok
  intro change planned field pinned p member named
  have fields := strategyMaps_pinned request (show SolverStrategy.exactAll ≠ _ by decide)
  rw [← fields, ← app] at pinned
  obtain ⟨m, used, rfl⟩ := List.mem_map.mp pinned
  obtain ⟨range, parsed, requires⟩ := built.maps m used p member
  rw [strategyMaps_exact (by rw [← app]; exact used)] at parsed
  obtain ⟨v, version, rfl⟩ := Option.map_eq_some_iff.mp parsed
  have count : strategyEntryCount elmJson (strategyMaps elmJson.type request .exactAll) ≤
      elmJson.entryCount := by
    refine strategyEntryCount_le ?_
    rw [app, fields]
    exact pinnedMaps_sublist request.isTestDependency
  have room : ctx.rootDeps.length ≤ pgDependencyBuffer := by
    rw [built.length]
    omega
  obtain ⟨w, chosen, inside⟩ := success.required room p.name _ requires
  have same := pgRangeContains_exact.mp inside
  subst same
  have merged := mergedPlan_single success.selection.nodup success.plan
  obtain ⟨s, on, ⟨name, u⟩, selected, made⟩ := merged.source change planned
  rw [List.mem_singleton.mp on] at selected
  obtain ⟨sameName, new, -⟩ := plannedChange_some made
  have here : name = p.name := sameName.symm.trans named.symm
  subst here
  have versions := List.inj_on_of_nodup_map success.selection.nodup chosen selected rfl
  refine ⟨w, version, ?_⟩
  rw [new, (Prod.mk.inj versions).2]

theorem runWithStrategy_exact_http : ∃ outcome,
    runWithStrategy 60 sampleState (sampleApp (some ⟨elmJsonPackage, "1.1.0"⟩) none) installHttp
        (collectCurrentPackages (sampleApp (some ⟨elmJsonPackage, "1.1.0"⟩) none)) .exactAll =
          some outcome ∧ outcome.result = .ok ∧
      ∀ change ∈ outcome.plan, ∀ field ∈ pinnedMaps false,
        ∀ p ∈ ((sampleApp (some ⟨elmJsonPackage, "1.1.0"⟩) none).maps field).packages,
          p.name = change.name →
            ∃ v, pgVersionParse p.version = some v ∧ change.newVersion = some (versionText v) := by
  let app := sampleApp (some ⟨elmJsonPackage, "1.1.0"⟩) none
  have facts : (runWithStrategy 60 sampleState app installHttp (collectCurrentPackages app)
      .exactAll).map SolverOutcome.result = some .ok := by decide
  obtain ⟨outcome, run, ok⟩ := Option.map_eq_some_iff.mp facts
  have fits : app.entryCount < pgDependencyBuffer := by decide
  exact ⟨outcome, run, ok, runWithStrategy_exact rfl fits run ok⟩

/-- A package of a test map is not pinned without `--test`, and the exact rung
changes its version. -/
theorem runWithStrategy_exact_moves_test :
    ¬ ∀ (fuel : Nat) (state : SolverState) (elmJson : ElmJson) (request : AddRequest)
      (outcome : SolverOutcome), elmJson.type = .application →
        runWithStrategy fuel state elmJson request (collectCurrentPackages elmJson) .exactAll =
          some outcome → outcome.result = .ok →
        ∀ change ∈ outcome.plan, ∀ p ∈ elmJson.packages, p.name = change.name →
          ∃ v, pgVersionParse p.version = some v ∧ change.newVersion = some (versionText v) := by
  intro claim
  let app := sampleApp none (some ⟨elmJsonPackage, "1.0.0"⟩)
  have facts : (runWithStrategy 60 sampleState app installHttp (collectCurrentPackages app)
      .exactAll).map (fun o => (o.result, o.plan)) = some (.ok,
        [⟨elmHttpPackage, none, some "2.0.0"⟩, ⟨elmJsonPackage, some "1.0.0", some "1.1.0"⟩]) := by
    decide
  obtain ⟨outcome, run, same⟩ := Option.map_eq_some_iff.mp facts
  have plan := congrArg Prod.snd same
  dsimp only at plan
  obtain ⟨v, version, new⟩ := claim 60 sampleState app installHttp outcome rfl run
    (congrArg Prod.fst same) ⟨elmJsonPackage, some "1.0.0", some "1.1.0"⟩ (by rw [plan]; simp)
    ⟨elmJsonPackage, "1.0.0"⟩ (by decide) rfl
  have read : pgVersionParse "1.0.0" = some ⟨1, 0, 0⟩ := by decide
  rw [show (⟨elmJsonPackage, "1.0.0"⟩ : Package).version = "1.0.0" from rfl, read] at version
  cases version
  exact absurd new (by decide)

end ElmWrap
