import Mathlib.Algebra.GroupWithZero.Nat
import ElmWrap.Solver.Strategy

/-!
# Contexts and root requirements

A context only grows: names keep their ids. What the provider reports of a
version are its dependency entries, as far as they can be read and fit, and the
roots of a strategy are the entries of the maps it uses, together with the
requested package.
-/

namespace ElmWrap

/-! ## Growing contexts -/

/-- The package has this id. -/
def PgElmContext.Named (ctx : PgElmContext) (id : PgPackageId) (name : PackageName) : Prop :=
  pgElmGetAuthorName ctx id = some name

/-- The later context has the names and the root requirements of the earlier one. -/
structure PgElmContext.Grows (ctx ctx' : PgElmContext) : Prop where
  packages : ctx.packages <+: ctx'.packages
  rootDeps : ctx.rootDeps <+: ctx'.rootDeps

theorem PgElmContext.Grows.refl (ctx : PgElmContext) : ctx.Grows ctx :=
  ⟨List.prefix_rfl, List.prefix_rfl⟩

theorem PgElmContext.Grows.trans {a b c : PgElmContext} (first : a.Grows b) (second : b.Grows c) :
    a.Grows c :=
  ⟨first.packages.trans second.packages, first.rootDeps.trans second.rootDeps⟩

theorem PgElmContext.named_iff {ctx : PgElmContext} {id : PgPackageId} {name : PackageName} :
    ctx.Named id name ↔ ∃ i, id = i + 1 ∧ ctx.packages[i]? = some name := by
  cases id with
  | zero => simp [PgElmContext.Named, pgElmGetAuthorName]
  | succ i => simp [PgElmContext.Named, pgElmGetAuthorName]

theorem PgElmContext.Named.grow {ctx ctx' : PgElmContext} {id : PgPackageId} {name : PackageName}
    (named : ctx.Named id name) (grows : ctx.Grows ctx') : ctx'.Named id name := by
  obtain ⟨i, rfl, found⟩ := PgElmContext.named_iff.1 named
  obtain ⟨rest, whole⟩ := grows.packages
  apply PgElmContext.named_iff.2
  refine ⟨i, rfl, ?_⟩
  rw [← whole, List.getElem?_append_left (List.getElem?_eq_some_iff.mp found).1]
  exact found

theorem PgElmContext.Named.ne_root {ctx : PgElmContext} {id : PgPackageId} {name : PackageName}
    (named : ctx.Named id name) : id ≠ pgElmRootPackageId := by
  obtain ⟨i, rfl, -⟩ := PgElmContext.named_iff.1 named
  exact Nat.succ_ne_zero i

/-- `pg_elm_intern_package` changes nothing but the names, and gives the id. -/
theorem pgElmInternPackage_spec (ctx : PgElmContext) (name : PackageName) :
    ctx.Grows (pgElmInternPackage ctx name).1 ∧
      (pgElmInternPackage ctx name).1.rootDeps = ctx.rootDeps ∧
      (pgElmInternPackage ctx name).1.Named (pgElmInternPackage ctx name).2 name := by
  unfold pgElmInternPackage
  split
  · rename_i known
    refine ⟨PgElmContext.Grows.refl ctx, rfl, PgElmContext.named_iff.2 ⟨_, rfl, ?_⟩⟩
    exact List.getElem?_idxOf known
  · refine ⟨⟨List.prefix_append _ _, List.prefix_rfl⟩, rfl,
      PgElmContext.named_iff.2 ⟨_, rfl, ?_⟩⟩
    simp

/-! ## What the providers report -/

/-- A reported dependency is the entry, read. -/
def PgElmContext.Reads (ctx : PgElmContext) (p : Package) (dep : PgDependency) : Prop :=
  ctx.Named dep.1 p.name ∧ pgElmParseConstraint p.version = some dep.2

theorem forall₂_left {α β : Type} {R : α → β → Prop} {left : List α} {right : List β}
    (related : List.Forall₂ R left right) {a : α} (member : a ∈ left) : ∃ b ∈ right, R a b := by
  induction related with
  | nil => cases member
  | @cons c b _ _ here _ ih =>
    rcases List.mem_cons.mp member with rfl | member
    · exact ⟨b, List.mem_cons_self, here⟩
    · obtain ⟨other, on, there⟩ := ih member
      exact ⟨other, List.mem_cons_of_mem _ on, there⟩

/-- The entries whose constraint can be read. -/
def readable (entries : List Package) : List Package :=
  entries.filter fun p => (pgElmParseConstraint p.version).isSome

theorem pgElmCopyDependencies_spec (capacity : Nat) (ctx : PgElmContext)
    (entries : List Package) :
    ctx.Grows (pgElmCopyDependencies capacity ctx entries).1 ∧
      (pgElmCopyDependencies capacity ctx entries).1.rootDeps = ctx.rootDeps ∧
      List.Forall₂ (pgElmCopyDependencies capacity ctx entries).1.Reads
        ((readable entries).take capacity) (pgElmCopyDependencies capacity ctx entries).2 := by
  induction entries generalizing capacity ctx with
  | nil =>
    cases capacity with
    | zero => exact ⟨PgElmContext.Grows.refl ctx, rfl, List.Forall₂.nil⟩
    | succ capacity => exact ⟨PgElmContext.Grows.refl ctx, rfl, List.Forall₂.nil⟩
  | cons p rest ih =>
    cases capacity with
    | zero =>
      rw [pgElmCopyDependencies, List.take_zero]
      exact ⟨PgElmContext.Grows.refl ctx, rfl, List.Forall₂.nil⟩
    | succ capacity =>
      rw [pgElmCopyDependencies]
      cases parsed : pgElmParseConstraint p.version with
      | none =>
        have skipped : readable (p :: rest) = readable rest := by
          simp [readable, parsed]
        rw [skipped]
        exact ih (capacity + 1) ctx
      | some range =>
        have kept : readable (p :: rest) = p :: readable rest := by
          simp [readable, parsed]
        obtain ⟨grows, roots, named⟩ := pgElmInternPackage_spec ctx p.name
        obtain ⟨later, kept_roots, reads⟩ := ih capacity (pgElmInternPackage ctx p.name).1
        rw [kept, List.take_succ_cons]
        exact ⟨grows.trans later, kept_roots.trans roots,
          List.Forall₂.cons ⟨named.grow later, parsed⟩ reads⟩

/-! ## The roots of a strategy -/

/-- The package has this root requirement. -/
def PgElmContext.Requires (ctx : PgElmContext) (name : PackageName) (range : PgVersionRange) :
    Prop :=
  ∃ id, ctx.Named id name ∧ (id, range) ∈ ctx.rootDeps

theorem PgElmContext.Requires.grow {ctx ctx' : PgElmContext} {name : PackageName}
    {range : PgVersionRange} (requires : ctx.Requires name range) (grows : ctx.Grows ctx') :
    ctx'.Requires name range := by
  obtain ⟨id, named, member⟩ := requires
  exact ⟨id, named.grow grows, grows.rootDeps.subset member⟩

theorem pgElmAddRootDependency_spec {ctx ctx' : PgElmContext} {id : PgPackageId}
    {range : PgVersionRange} (added : pgElmAddRootDependency ctx id range = some ctx') :
    ctx.Grows ctx' ∧ ctx'.packages = ctx.packages ∧ (id, range) ∈ ctx'.rootDeps ∧
      ctx'.rootDeps.length = ctx.rootDeps.length + 1 := by
  unfold pgElmAddRootDependency at added
  split at added
  · cases added
  · cases added
    exact ⟨⟨List.prefix_rfl, List.prefix_append _ _⟩, rfl, by simp, by simp⟩

/-- `some` root requirement was added for the entry, with the range made of its
text. -/
theorem solverAddRootDependency_spec {rangeOf : String → Option PgVersionRange}
    {ctx ctx' : PgElmContext} {p : Package}
    (added : solverAddRootDependency rangeOf ctx p = some ctx') :
    ctx.Grows ctx' ∧ (∃ range, rangeOf p.version = some range ∧ ctx'.Requires p.name range) ∧
      ctx'.rootDeps.length = ctx.rootDeps.length + 1 := by
  obtain ⟨grows, roots, named⟩ := pgElmInternPackage_spec ctx p.name
  unfold solverAddRootDependency at added
  dsimp only at added
  cases parsed : rangeOf p.version with
  | none =>
    rw [parsed] at added
    cases added
  | some range =>
    rw [parsed] at added
    obtain ⟨later, -, member, length⟩ := pgElmAddRootDependency_spec added
    rw [roots] at length
    exact ⟨grows.trans later, ⟨range, rfl, _, named.grow later, member⟩, length⟩

theorem solverAddMapDependencies_spec {rangeOf : String → Option PgVersionRange} :
    ∀ (entries : List Package) {ctx ctx' : PgElmContext},
      entries.foldlM (solverAddRootDependency rangeOf) ctx = some ctx' →
        ctx.Grows ctx' ∧
          (∀ p ∈ entries, ∃ range, rangeOf p.version = some range ∧
            ctx'.Requires p.name range) ∧
          ctx'.rootDeps.length = ctx.rootDeps.length + entries.length := by
  intro entries
  induction entries with
  | nil =>
    intro ctx ctx' added
    cases added
    exact ⟨PgElmContext.Grows.refl ctx, by simp, rfl⟩
  | cons p entries ih =>
    intro ctx ctx' added
    rw [List.foldlM_cons] at added
    obtain ⟨middle, first, rest⟩ := Option.bind_eq_some_iff.mp added
    obtain ⟨grows, requires, length⟩ := solverAddRootDependency_spec first
    obtain ⟨later, others, total⟩ := ih rest
    refine ⟨grows.trans later, fun q member => ?_, ?_⟩
    · rcases List.mem_cons.mp member with rfl | member
      · obtain ⟨range, parsed, here⟩ := requires
        exact ⟨range, parsed, here.grow later⟩
      · exact others q member
    · rw [total, length, List.length_cons]
      omega

/-- A map a strategy uses, and how it reads the versions in it. -/
structure StrategyMap where
  field : ElmJsonMap
  rangeOf : String → Option PgVersionRange

/-- The maps a strategy passes to the solver. -/
def strategyMaps (type : ElmProjectType) (request : AddRequest) (strategy : SolverStrategy) :
    List StrategyMap :=
  let pinProd := request.isTestDependency && !request.upgradeAll
  let prod (direct indirect : String → Option PgVersionRange) : List StrategyMap :=
    [⟨.dependenciesDirect, direct⟩, ⟨.dependenciesIndirect, indirect⟩]
  let test (range : String → Option PgVersionRange) : List StrategyMap :=
    if request.isTestDependency then
      [⟨.dependenciesTestDirect, range⟩, ⟨.dependenciesTestIndirect, range⟩]
    else []
  match type with
  | .application =>
    match strategy with
    | .exactAll => prod exactRange exactRange ++ test exactRange
    | .exactDirectUpgradableIndirect =>
      prod exactRange (if pinProd then exactRange else upgradableRange) ++ test exactRange
    | .upgradableWithinMajor =>
      (if pinProd then prod exactRange exactRange else prod upgradableRange upgradableRange) ++
        test upgradableRange
    | .crossMajorForTarget => test exactRange
  | .package =>
    (if strategy = .crossMajorForTarget then []
      else [⟨.packageDependencies, pgElmParseConstraint⟩]) ++
      if request.isTestDependency then [⟨.packageTestDependencies, pgElmParseConstraint⟩] else []

/-- `root_ok` is the conjunction over the maps of the strategy. -/
theorem buildRoots_eq (elmJson : ElmJson) (request : AddRequest) (strategy : SolverStrategy)
    (ctx : PgElmContext) :
    buildRoots elmJson request strategy ctx =
      (strategyMaps elmJson.type request strategy).foldlM
        (fun ctx m => solverAddMapDependencies m.rangeOf (elmJson.maps m.field) ctx) ctx := by
  obtain ⟨type, maps⟩ := elmJson
  obtain ⟨name, target, test, major, all⟩ := request
  cases type <;> cases strategy <;> cases test <;> cases all <;>
    simp [buildRoots, strategyMaps, buildRootsStrategyExactApp, buildRootsStrategyExactDirectApp,
      buildRootsStrategyUpgradableApp, buildRootsStrategyCrossMajorForTarget,
      solverAddExactMapDependencies, solverAddUpgradableMapDependencies,
      solverAddConstraintMapDependencies]

/-- The number of entries the maps of a strategy have. -/
def strategyEntryCount (elmJson : ElmJson) (maps : List StrategyMap) : Nat :=
  (maps.map fun m => (elmJson.maps m.field).packages.length).sum

theorem buildRoots_spec {elmJson : ElmJson} :
    ∀ (maps : List StrategyMap) {ctx ctx' : PgElmContext},
      maps.foldlM (fun ctx m => solverAddMapDependencies m.rangeOf (elmJson.maps m.field) ctx)
        ctx = some ctx' →
      ctx.Grows ctx' ∧
        (∀ m ∈ maps, ∀ p ∈ (elmJson.maps m.field).packages, ∃ range,
          m.rangeOf p.version = some range ∧ ctx'.Requires p.name range) ∧
        ctx'.rootDeps.length = ctx.rootDeps.length + strategyEntryCount elmJson maps := by
  intro maps
  induction maps with
  | nil =>
    intro ctx ctx' built
    cases built
    exact ⟨PgElmContext.Grows.refl ctx, by simp, rfl⟩
  | cons m maps ih =>
    intro ctx ctx' built
    rw [List.foldlM_cons] at built
    obtain ⟨middle, first, rest⟩ := Option.bind_eq_some_iff.mp built
    obtain ⟨grows, requires, length⟩ := solverAddMapDependencies_spec _ first
    obtain ⟨later, others, total⟩ := ih rest
    refine ⟨grows.trans later, fun n member p on => ?_, ?_⟩
    · rcases List.mem_cons.mp member with rfl | member
      · obtain ⟨range, parsed, here⟩ := requires p on
        exact ⟨range, parsed, here.grow later⟩
      · exact others n member p on
    · rw [total, length, strategyEntryCount, strategyEntryCount, List.map_cons, List.sum_cons]
      omega

theorem addRequested_spec {request : AddRequest} {strategy : SolverStrategy}
    {ctx ctx' : PgElmContext} (added : addRequested request strategy ctx = some ctx') :
    ctx.Grows ctx' ∧ ctx'.Requires request.name (requestedRange request strategy) ∧
      ctx'.rootDeps.length = ctx.rootDeps.length + 1 := by
  obtain ⟨grows, roots, named⟩ := pgElmInternPackage_spec ctx request.name
  unfold addRequested at added
  dsimp only at added
  obtain ⟨later, -, member, length⟩ := pgElmAddRootDependency_spec added
  rw [roots] at length
  exact ⟨grows.trans later, ⟨_, named.grow later, member⟩, length⟩

/-- The root requirements of a strategy: every entry of the maps it uses, and the
requested package. -/
structure RootsBuilt (elmJson : ElmJson) (request : AddRequest) (strategy : SolverStrategy)
    (ctx : PgElmContext) : Prop where
  maps : ∀ m ∈ strategyMaps elmJson.type request strategy,
    ∀ p ∈ (elmJson.maps m.field).packages, ∃ range,
      m.rangeOf p.version = some range ∧ ctx.Requires p.name range
  requested : ctx.Requires request.name (requestedRange request strategy)
  length : ctx.rootDeps.length =
    strategyEntryCount elmJson (strategyMaps elmJson.type request strategy) + 1

theorem rootsForStrategy_built {elmJson : ElmJson} {request : AddRequest}
    {strategy : SolverStrategy} {ctx : PgElmContext}
    (built : rootsForStrategy elmJson request strategy = some ctx) :
    RootsBuilt elmJson request strategy ctx := by
  unfold rootsForStrategy at built
  split at built
  · obtain ⟨middle, first, rest⟩ := Option.bind_eq_some_iff.mp built
    rw [buildRoots_eq] at rest
    obtain ⟨-, requested, one⟩ := addRequested_spec first
    obtain ⟨later, maps, total⟩ := buildRoots_spec _ rest
    refine ⟨maps, requested.grow later, ?_⟩
    rw [total, one]
    simp [pgElmContextNew, Nat.add_comm]
  · obtain ⟨middle, first, rest⟩ := Option.bind_eq_some_iff.mp built
    rw [buildRoots_eq] at first
    obtain ⟨-, maps, total⟩ := buildRoots_spec _ first
    obtain ⟨later, requested, one⟩ := addRequested_spec rest
    refine ⟨fun m member p on => ?_, requested, ?_⟩
    · obtain ⟨range, parsed, here⟩ := maps m member p on
      exact ⟨range, parsed, here.grow later⟩
    · rw [one, total]
      simp [pgElmContextNew]

end ElmWrap
