import ElmWrap.Solver.Closed
import ElmWrap.PgSolver.Agreement

/-!
# The two protocols agree

The V1 and the V2 path climb the same ladder over the same roots and make the
same plans; they differ in the provider. When both registries hold the same
versions and dependencies, in the same order, the providers answer alike, and so
every rung gives the same. Another order of the dependencies gives the packages
other ids, and ties are broken by the ids.
-/

namespace ElmWrap

/-- Two listings with the same versions and the same entries for each of them
lead to the same runs. -/
theorem ElmListing.agrees {L L' : ElmListing} (versions : L.versions = L'.versions)
    (entries : ∀ name, ∀ v ∈ L.versions name, L.entries name v = L'.entries name v)
    (first : PgElmContext) : PgAgrees L.provider L'.provider pgElmRootPackageId first where
  versions ctx pkg := by
    simp only [ElmListing.provider, ElmListing.getVersions, versions]
  dependencies ctx pkg v _ listed := by
    have same : L.getDependencies ctx pkg v pgDependencyBuffer =
        L'.getDependencies ctx pkg v pgDependencyBuffer := by
      unfold ElmListing.getDependencies
      by_cases root : pkg = pgElmRootPackageId
      · rw [if_pos root, if_pos root]
      · obtain ⟨name, named, member⟩ := ElmListing.listed_named root (listed root)
        rw [if_neg root, if_neg root]
        rw [PgElmContext.Named] at named
        rw [named]
        dsimp only
        rw [entries name v (List.mem_of_mem_take member)]
    simp only [ElmListing.provider, same]

/-- The versions the V2 index has for a package, valid or not. -/
def V2Registry.versions (registry : V2Registry) (name : PackageName) : List PgVersion :=
  match v2RegistryFind registry name.author name.project with
  | none => []
  | some entry => entry.versions.map V2PackageVersion.version

/-- The V1 registry with the `elm.json` files, and the V2 index, hold the same
versions and dependency constraints, and all versions are valid. -/
structure SameRegistry (env : PgElmEnv) (registry : V2Registry) : Prop where
  valid : ∀ entry ∈ registry.entries, ∀ pv ∈ entry.versions, pv.status = .valid
  versions : ∀ name, env.versions name = registry.versions name
  entries : ∀ name, ∀ v ∈ env.versions name,
    (v2Named (registry.dependencies name v)).Perm
      ((env.entries name v).map fun p => (p.name, p.version))

/-- The dependencies of every version stand in the same order. -/
def SameOrder (env : PgElmEnv) (registry : V2Registry) : Prop :=
  ∀ name, ∀ v ∈ env.versions name,
    v2Named (registry.dependencies name v) = (env.entries name v).map fun p => (p.name, p.version)

theorem V2Registry.validVersions_eq {registry : V2Registry}
    (valid : ∀ entry ∈ registry.entries, ∀ pv ∈ entry.versions, pv.status = .valid)
    (name : PackageName) : registry.validVersions name = registry.versions name := by
  unfold V2Registry.validVersions V2Registry.versions
  cases found : v2RegistryFind registry name.author name.project with
  | none => rfl
  | some entry =>
    have all : entry.versions.filter (fun pv => pv.status = .valid) = entry.versions := by
      apply List.filter_eq_self.mpr
      intro pv member
      exact decide_eq_true (valid entry (List.mem_of_find?_eq_some found) pv member)
    dsimp only
    rw [all]

theorem SameRegistry.agrees {env : PgElmEnv} {registry : V2Registry}
    (same : SameRegistry env registry) (ordered : SameOrder env registry) (first : PgElmContext) :
    PgAgrees env.listing.provider registry.listing.provider pgElmRootPackageId first := by
  refine ElmListing.agrees ?_ (fun name v member => ?_) first
  · funext name
    exact (same.versions name).trans (V2Registry.validVersions_eq same.valid name).symm
  · have texts := ordered name v member
    change env.entries name v = v2Entries (registry.dependencies name v)
    unfold v2Entries
    rw [texts, List.map_map]
    exact (List.map_id _).symm

/-- Whether the requested package is there in the end: from the cache, or
downloaded. -/
def SolverState.provides (state : SolverState) (name : PackageName) (text : String) : Bool :=
  state.cachePackageExists name text || state.cacheDownloadPackage name text

/-- What follows the root requirements depends on the provider and on whether the
requested package can be had. -/
theorem solveRoots_congr {P P' : PgDependencyProvider PgElmContext} {state state' : SolverState}
    {request : AddRequest}
    (agrees : ∀ first, PgAgrees P P' pgElmRootPackageId first)
    (provided : ∀ text, state.provides request.name text = state'.provides request.name text)
    (fuel : Nat) (currentPackages : PackageMap) (ctx : PgElmContext) :
    solveRoots P fuel state request currentPackages ctx =
      solveRoots P' fuel state' request currentPackages ctx := by
  have missing : ∀ text,
      (!state.cachePackageExists request.name text &&
        !state.cacheDownloadPackage request.name text) =
      (!state'.cachePackageExists request.name text &&
        !state'.cacheDownloadPackage request.name text) := by
    intro text
    rw [← Bool.not_or, ← Bool.not_or]
    exact congrArg not (provided text)
  unfold solveRoots
  dsimp only
  have prepared : pgSolverAddRootDependencies (pgSolverNew (pgElmInternPackage ctx request.name).1
      pgElmRootPackageId pgElmRootVersion) [] = some _ := rfl
  have run := (agrees (pgElmInternPackage ctx request.name).1).solve prepared (by simp) fuel
  simp only [run, missing]

/-- Through the V1 and the V2 implementation `solver_add_package` gives the same
result and the same plan, when the registries hold the same in the same order. -/
theorem solverAddPackage_protocols {fuel : Nat} {state state' : SolverState}
    {registry : V2Registry} {elmJson : ElmJson} {request : AddRequest}
    (v1 : state.protocolMode = .v1) (v2 : state'.protocolMode = .v2)
    (loaded : state'.v2Registry = some registry) (same : SameRegistry state.pgElmEnv registry)
    (ordered : SameOrder state.pgElmEnv registry) (online : state.online = state'.online)
    (cached : state.cacheRegistryExists = state'.cacheRegistryExists)
    (provided : ∀ text, state.provides request.name text = state'.provides request.name text) :
    solverAddPackage fuel state elmJson request = solverAddPackage fuel state' elmJson request := by
  have rungs : runWithStrategy fuel state elmJson request (collectCurrentPackages elmJson) =
      runWithStrategy fuel state' elmJson request (collectCurrentPackages elmJson) := by
    funext strategy
    unfold runWithStrategy
    rw [v1, v2]
    dsimp only
    unfold runWithStrategyV1 runWithStrategyV2
    rw [loaded]
    dsimp only
    unfold runStrategy
    cases rootsForStrategy elmJson request strategy with
    | none => rfl
    | some ctx =>
      dsimp only
      rw [pgElmMakeProvider_eq, pgElmV2MakeProvider_eq]
      exact solveRoots_congr (same.agrees ordered) provided fuel _ ctx
  unfold solverAddPackage
  dsimp only
  rw [online, cached, rungs]

/-! ## Three packages -/

/-- A V1 registry with versions of three packages. -/
def threeListed (json http test : List Version) : Registry where
  entries := [⟨"elm", "json", json⟩, ⟨"elm", "http", http⟩, ⟨"elm-explorations", "test", test⟩]
  sinceCount := 4

/-- The three packages in a V2 index. -/
def threeIndexed (json http test : List V2PackageVersion) : V2Registry where
  entries := [⟨"elm", "json", json⟩, ⟨"elm", "http", http⟩, ⟨"elm-explorations", "test", test⟩]

section Three

variable {env : PgElmEnv} {json http test : List Version}

/-- A package that has versions is one of the three. -/
theorem threeListed_names (registered : env.registry = some (threeListed json http test))
    {name : PackageName} {v : PgVersion} (listed : v ∈ env.versions name) :
    name = elmJsonPackage ∨ name = elmHttpPackage ∨ name = elmTestPackage := by
  have here : ∀ known : PackageName,
      (decide (known.author = name.author) && decide (known.project = name.project)) = true →
        name = known := by
    intro known both
    rw [Bool.and_eq_true, decide_eq_true_iff, decide_eq_true_iff] at both
    exact PackageName.ext_parts both.1.symm both.2.symm
  unfold PgElmEnv.versions registryFind at listed
  simp only [registered, threeListed, RegistryEntry.isFor, List.find?_cons,
    List.find?_nil] at listed
  generalize ofJson : (decide ("elm" = name.author) && decide ("json" = name.project)) = isJson
    at listed
  generalize ofHttp : (decide ("elm" = name.author) && decide ("http" = name.project)) = isHttp
    at listed
  generalize ofTest : (decide ("elm-explorations" = name.author) &&
    decide ("test" = name.project)) = isTest at listed
  cases isJson with
  | true => exact Or.inl (here elmJsonPackage ofJson)
  | false =>
    cases isHttp with
    | true => exact Or.inr (Or.inl (here elmHttpPackage ofHttp))
    | false =>
      cases isTest with
      | true => exact Or.inr (Or.inr (here elmTestPackage ofTest))
      | false => exact absurd listed List.not_mem_nil

theorem threeListed_versions (registered : env.registry = some (threeListed json http test))
    {json' http' test' : List V2PackageVersion} (sameJson : json = json'.map (·.version))
    (sameHttp : http = http'.map (·.version)) (sameTest : test = test'.map (·.version))
    (name : PackageName) : env.versions name = (threeIndexed json' http' test').versions name := by
  unfold PgElmEnv.versions V2Registry.versions v2RegistryFind
  simp only [registered, threeListed, threeIndexed, registryFind, RegistryEntry.isFor,
    List.find?_cons, List.find?_nil]
  generalize (decide ("elm" = name.author) && decide ("json" = name.project)) = isJson
  generalize (decide ("elm" = name.author) && decide ("http" = name.project)) = isHttp
  generalize (decide ("elm-explorations" = name.author) && decide ("test" = name.project)) = isTest
  cases isJson <;> cases isHttp <;> cases isTest <;> first | assumption | rfl

/-- What holds of the versions of the three packages holds of all versions. -/
theorem threeListed_forall (registered : env.registry = some (threeListed json http test))
    {p : PackageName → PgVersion → Prop}
    (ofJson : ∀ v ∈ env.versions elmJsonPackage, p elmJsonPackage v)
    (ofHttp : ∀ v ∈ env.versions elmHttpPackage, p elmHttpPackage v)
    (ofTest : ∀ v ∈ env.versions elmTestPackage, p elmTestPackage v) (name : PackageName) :
    ∀ v ∈ env.versions name, p name v := by
  intro v member
  rcases threeListed_names registered member with rfl | rfl | rfl
  · exact ofJson v member
  · exact ofHttp v member
  · exact ofTest v member

end Three

def sampleIndex : V2Registry :=
  threeIndexed [⟨1, 1, 0, .valid, []⟩, ⟨1, 0, 0, .valid, []⟩]
    [⟨2, 0, 0, .valid, [⟨"elm/json", "1.1.0 <= v < 2.0.0"⟩]⟩]
    [⟨1, 0, 0, .valid, [⟨"elm/json", "1.0.0 <= v < 1.1.0"⟩]⟩]

theorem sampleState_registered : sampleState.pgElmEnv.registry =
    some (threeListed [⟨1, 1, 0⟩, ⟨1, 0, 0⟩] [⟨2, 0, 0⟩] [⟨1, 0, 0⟩]) := rfl

theorem sampleIndex_ordered : SameOrder sampleState.pgElmEnv sampleIndex :=
  threeListed_forall sampleState_registered (by decide) (by decide) (by decide)

theorem sampleIndex_same : SameRegistry sampleState.pgElmEnv sampleIndex where
  valid := by decide
  versions := threeListed_versions sampleState_registered rfl rfl rfl
  entries name v member := .of_eq (sampleIndex_ordered name v member)

/-- Installing `elm/http` through both protocols. -/
theorem solverAddPackage_protocols_http :
    solverAddPackage 80 sampleState (sampleApp (some ⟨elmJsonPackage, "1.0.0"⟩) none) installHttp =
      solverAddPackage 80 { sampleState with
        protocolMode := .v2, registry := none, v2Registry := some sampleIndex }
        (sampleApp (some ⟨elmJsonPackage, "1.0.0"⟩) none) installHttp :=
  solverAddPackage_protocols rfl rfl rfl sampleIndex_same sampleIndex_ordered rfl rfl fun _ => rfl

/-- `elm/http` needs two packages, and the newer version of each needs the older one of the
other. -/
def coupledDependencies (name : PackageName) (version : String) : List Package :=
  if name = elmHttpPackage then
    [⟨elmJsonPackage, "1.0.0 <= v < 3.0.0"⟩, ⟨elmTestPackage, "1.0.0 <= v < 3.0.0"⟩]
  else if version = "2.0.0" then
    [⟨if name = elmJsonPackage then elmTestPackage else elmJsonPackage, "1.0.0 <= v < 2.0.0"⟩]
  else []

def coupledState : SolverState :=
  { sampleState with
    registry := some (threeListed [⟨2, 0, 0⟩, ⟨1, 0, 0⟩] [⟨2, 0, 0⟩] [⟨2, 0, 0⟩, ⟨1, 0, 0⟩])
    elmJsonRead := fun name version => some {
      type := .package
      maps := fun field =>
        if field = .packageDependencies then
          { packages := coupledDependencies name version
            nodup := by unfold coupledDependencies; split <;> [decide; (split <;> simp)] }
        else packageMapCreate } }

/-- The dependencies of `elm/http` in the other order. -/
def coupledIndex : V2Registry :=
  threeIndexed
    [⟨2, 0, 0, .valid, [⟨"elm-explorations/test", "1.0.0 <= v < 2.0.0"⟩]⟩, ⟨1, 0, 0, .valid, []⟩]
    [⟨2, 0, 0, .valid, [⟨"elm-explorations/test", "1.0.0 <= v < 3.0.0"⟩,
      ⟨"elm/json", "1.0.0 <= v < 3.0.0"⟩]⟩]
    [⟨2, 0, 0, .valid, [⟨"elm/json", "1.0.0 <= v < 2.0.0"⟩]⟩, ⟨1, 0, 0, .valid, []⟩]

theorem coupledState_registered : coupledState.pgElmEnv.registry =
    some (threeListed [⟨2, 0, 0⟩, ⟨1, 0, 0⟩] [⟨2, 0, 0⟩] [⟨2, 0, 0⟩, ⟨1, 0, 0⟩]) := rfl

theorem coupledIndex_same : SameRegistry coupledState.pgElmEnv coupledIndex where
  valid := by decide
  versions := threeListed_versions coupledState_registered rfl rfl rfl
  entries := threeListed_forall coupledState_registered (by decide) (by decide) (by decide)

/-- The package whose id is the smaller one gets its newer version. -/
theorem solverAddPackage_protocols_order :
    ¬ ∀ (fuel : Nat) (state state' : SolverState) (registry : V2Registry) (elmJson : ElmJson)
      (request : AddRequest) (outcome outcome' : SolverOutcome),
      state.protocolMode = .v1 → state'.protocolMode = .v2 → state'.v2Registry = some registry →
      SameRegistry state.pgElmEnv registry → state.online = state'.online →
      state.cacheRegistryExists = state'.cacheRegistryExists →
      (∀ text, state.provides request.name text = state'.provides request.name text) →
      solverAddPackage fuel state elmJson request = some outcome →
      solverAddPackage fuel state' elmJson request = some outcome' →
      ∀ change, change ∈ outcome.plan ↔ change ∈ outcome'.plan := by
  intro claim
  let state' : SolverState := { coupledState with
    protocolMode := .v2, registry := none, v2Registry := some coupledIndex }
  have first : (solverAddPackage 100 coupledState (sampleApp none none) installHttp).map
      SolverOutcome.plan = some [⟨elmHttpPackage, none, some "2.0.0"⟩,
        ⟨elmJsonPackage, none, some "2.0.0"⟩, ⟨elmTestPackage, none, some "1.0.0"⟩] := by
    decide +kernel
  have second : (solverAddPackage 100 state' (sampleApp none none) installHttp).map
      SolverOutcome.plan = some [⟨elmHttpPackage, none, some "2.0.0"⟩,
        ⟨elmTestPackage, none, some "2.0.0"⟩, ⟨elmJsonPackage, none, some "1.0.0"⟩] := by
    decide +kernel
  obtain ⟨outcome, run, plan⟩ := Option.map_eq_some_iff.mp first
  obtain ⟨outcome', run', plan'⟩ := Option.map_eq_some_iff.mp second
  have same := claim 100 coupledState state' coupledIndex _ _ outcome outcome' rfl rfl rfl
    coupledIndex_same rfl rfl (fun _ => rfl) run run' ⟨elmJsonPackage, none, some "2.0.0"⟩
  rw [plan, plan'] at same
  revert same
  decide

end ElmWrap
