import ElmWrap.Solver.Roots
import ElmWrap.PgSolver.Selection

/-!
# What a run of the Elm solver selects

Under package names, either registry is a *listing*: the versions of every
package and the dependency entries of every version. What a successful run
selects is closed in the listing, as far as the provider reports it, and meets
the root requirements the provider reports.
-/

namespace ElmWrap

/-- The versions of packages and the dependency entries of versions. -/
@[ext] structure ElmListing where
  versions : PackageName → List PgVersion
  entries : PackageName → PgVersion → List Package

/-! ## The provider of a listing -/

/-- The versions the provider copies. -/
def ElmListing.getVersions (L : ElmListing) (ctx : PgElmContext) (pkg : PgPackageId)
    (capacity : Nat) : List PgVersion :=
  if capacity = 0 then []
  else if pkg = pgElmRootPackageId then [pgElmRootVersion]
  else
    match pgElmGetAuthorName ctx pkg with
    | none => []
    | some name => (L.versions name).take capacity

/-- The dependencies the provider copies. -/
def ElmListing.getDependencies (L : ElmListing) (ctx : PgElmContext) (pkg : PgPackageId)
    (version : PgVersion) (capacity : Nat) : PgElmContext × List PgDependency :=
  if capacity = 0 then (ctx, [])
  else if pkg = pgElmRootPackageId then (ctx, ctx.rootDeps.take capacity)
  else
    match pgElmGetAuthorName ctx pkg with
    | none => (ctx, [])
    | some name => pgElmCopyDependencies capacity ctx (L.entries name version)

theorem ElmListing.getVersions_length (L : ElmListing) (ctx : PgElmContext) (pkg : PgPackageId)
    (capacity : Nat) : (L.getVersions ctx pkg capacity).length ≤ capacity := by
  unfold ElmListing.getVersions
  repeat' split
  all_goals simp <;> omega

theorem ElmListing.getDependencies_length (L : ElmListing) (ctx : PgElmContext)
    (pkg : PgPackageId) (version : PgVersion) (capacity : Nat) :
    (L.getDependencies ctx pkg version capacity).2.length ≤ capacity := by
  unfold ElmListing.getDependencies
  repeat' split
  · exact Nat.zero_le _
  · simp
  · exact Nat.zero_le _
  · exact pgElmCopyDependencies_length _ _ _

/-- What both wirings hand to the solver. -/
def ElmListing.provider (L : ElmListing) : PgDependencyProvider PgElmContext where
  getVersions ctx pkg capacity := some (L.getVersions ctx pkg capacity)
  getDependencies ctx pkg version capacity :=
    ((L.getDependencies ctx pkg version capacity).1,
      some (L.getDependencies ctx pkg version capacity).2)
  getVersions_length ctx pkg capacity _ answer :=
    Option.some.inj answer ▸ L.getVersions_length ctx pkg capacity
  getDependencies_length ctx pkg version capacity _ answer :=
    Option.some.inj answer ▸ L.getDependencies_length ctx pkg version capacity

/-- The V1 registry with the `elm.json` files as a listing. -/
def PgElmEnv.listing (env : PgElmEnv) : ElmListing := ⟨env.versions, env.entries⟩

/-- The V2 index as a listing. -/
def V2Registry.listing (registry : V2Registry) : ElmListing where
  versions := registry.validVersions
  entries name version := v2Entries (registry.dependencies name version)

theorem pgElmMakeProvider_eq (env : PgElmEnv) : pgElmMakeProvider env = env.listing.provider :=
  rfl

theorem pgElmV2MakeProvider_eq (registry : V2Registry) :
    pgElmV2MakeProvider registry = registry.listing.provider := by
  have same : ∀ ctx pkg version capacity,
      pgElmV2ProviderGetDependencies registry ctx pkg version capacity =
        registry.listing.getDependencies ctx pkg version capacity := by
    intro ctx pkg version capacity
    unfold pgElmV2ProviderGetDependencies ElmListing.getDependencies
    by_cases nothing : capacity = 0
    · rw [if_pos nothing, if_pos nothing]
    · by_cases root : pkg = pgElmRootPackageId
      · rw [if_neg nothing, if_neg nothing, if_pos root, if_pos root]
      · rw [if_neg nothing, if_neg nothing, if_neg root, if_neg root]
        cases pgElmGetAuthorName ctx pkg with
        | none => rfl
        | some name => exact pgElmV2CopyDependencies_eq (v2Entries_named _) capacity ctx
  ext1
  · rfl
  · funext ctx pkg version capacity
    simp only [pgElmV2MakeProvider, ElmListing.provider, same]

/-- The listing a run reads. -/
def SolverState.listing (state : SolverState) : ElmListing :=
  match state.protocolMode with
  | .v1 => state.pgElmEnv.listing
  | .v2 =>
    match state.v2Registry with
    | none => ⟨fun _ => [], fun _ _ => []⟩
    | some registry => registry.listing

/-- A rung that succeeds is a rung on the listing. -/
theorem runWithStrategy_listing {fuel : Nat} {state : SolverState} {elmJson : ElmJson}
    {request : AddRequest} {currentPackages : PackageMap} {strategy : SolverStrategy}
    {outcome : SolverOutcome}
    (run : runWithStrategy fuel state elmJson request currentPackages strategy = some outcome)
    (ok : outcome.result = .ok) :
    runStrategy state.listing.provider fuel state elmJson request currentPackages strategy =
      some outcome := by
  unfold runWithStrategy at run
  unfold SolverState.listing
  cases mode : state.protocolMode with
  | v1 =>
    rw [mode] at run
    exact run
  | v2 =>
    rw [mode] at run
    dsimp only at run ⊢
    unfold runWithStrategyV2 at run
    cases loaded : state.v2Registry with
    | none =>
      rw [loaded] at run
      cases run
      cases ok
    | some registry =>
      rw [loaded] at run
      dsimp only at run ⊢
      rw [← pgElmV2MakeProvider_eq]
      exact run

/-! ## Contexts along a run -/

theorem ElmListing.getDependencies_grows (L : ElmListing) (ctx : PgElmContext)
    (pkg : PgPackageId) (version : PgVersion) (capacity : Nat) :
    ctx.Grows (L.getDependencies ctx pkg version capacity).1 ∧
      (L.getDependencies ctx pkg version capacity).1.rootDeps = ctx.rootDeps := by
  unfold ElmListing.getDependencies
  split
  · exact ⟨PgElmContext.Grows.refl ctx, rfl⟩
  · split
    · exact ⟨PgElmContext.Grows.refl ctx, rfl⟩
    · split
      · exact ⟨PgElmContext.Grows.refl ctx, rfl⟩
      · rename_i name _
        have spec := pgElmCopyDependencies_spec capacity ctx (L.entries name version)
        exact ⟨spec.1, spec.2.1⟩

theorem ElmListing.reach_grows {L : ElmListing} {ctx ctx' : PgElmContext}
    (reach : PgCtxReach L.provider ctx ctx') :
    ctx.Grows ctx' ∧ ctx'.rootDeps = ctx.rootDeps := by
  induction reach with
  | refl => exact ⟨PgElmContext.Grows.refl ctx, rfl⟩
  | @tail middle _ _ step ih =>
    obtain ⟨pkg, v, rfl⟩ := step
    have grows := L.getDependencies_grows middle pkg v pgDependencyBuffer
    exact ⟨ih.1.trans grows.1, grows.2.trans ih.2⟩

/-- A listed version of a package other than the root is one of the package's
name, which the id has from then on. -/
theorem ElmListing.listed_named {L : ElmListing} {first ctx : PgElmContext} {pkg : PgPackageId}
    {v : PgVersion} (other : pkg ≠ pgElmRootPackageId)
    (listed : ∃ vs, PgListed L.provider first ctx pkg vs ∧ v ∈ vs) :
    ∃ name, ctx.Named pkg name ∧ v ∈ (L.versions name).take pgDecisionVersionBuffer := by
  obtain ⟨vs, ⟨at_, -, after, answer⟩, member⟩ := listed
  have same : L.getVersions at_ pkg pgDecisionVersionBuffer = vs := Option.some.inj answer
  unfold ElmListing.getVersions at same
  rw [if_neg (by decide), if_neg other] at same
  cases named : pgElmGetAuthorName at_ pkg with
  | none =>
    rw [named] at same
    rw [← same] at member
    cases member
  | some name =>
    rw [named] at same
    have here : at_.Named pkg name := named
    refine ⟨name, here.grow (ElmListing.reach_grows after).1, ?_⟩
    rw [← same] at member
    exact member

/-! ## Selections -/

/-- The selection has the package at a version inside the range. -/
def Chosen (selected : List (PackageName × Version)) (name : PackageName)
    (range : PgVersionRange) : Prop :=
  ∃ v, (name, v) ∈ selected ∧ pgRangeContains range v = true

/-- The dependency entries of a version that the provider reports. -/
def ElmListing.reported (L : ElmListing) (name : PackageName) (version : PgVersion) :
    List Package :=
  (readable (L.entries name version)).take pgDependencyBuffer

/-- A selection of listed versions, one for a package, that meets the reported
dependencies of each. -/
structure ElmListing.Selection (L : ElmListing) (selected : List (PackageName × Version)) :
    Prop where
  nodup : (selected.map Prod.fst).Nodup
  listed : ∀ name v, (name, v) ∈ selected → v ∈ L.versions name
  closed : ∀ name v, (name, v) ∈ selected → ∀ q ∈ L.reported name v,
    ∃ range, pgElmParseConstraint q.version = some range ∧ Chosen selected q.name range

theorem pgElmSelected_mem {ctx : PgElmContext} {σ : PgPackageId → Option PgVersion}
    {name : PackageName} {v : Version} :
    (name, v) ∈ pgElmSelected ctx σ ↔ ∃ id, ctx.Named id name ∧ σ id = some v := by
  unfold pgElmSelected
  rw [List.mem_filterMap]
  constructor
  · rintro ⟨⟨n, i⟩, member, chosen⟩
    obtain ⟨w, here, same⟩ := Option.map_eq_some_iff.mp chosen
    cases same
    refine ⟨i + 1, PgElmContext.named_iff.mpr ⟨i, rfl, ?_⟩, here⟩
    exact List.mem_zipIdx_iff_getElem?.mp member
  · intro ⟨id, named, chosen⟩
    obtain ⟨i, rfl, found⟩ := PgElmContext.named_iff.mp named
    refine ⟨(name, i), List.mem_zipIdx_iff_getElem?.mpr found, ?_⟩
    rw [chosen]
    rfl

theorem pgElmSelected_nodup (ctx : PgElmContext) (σ : PgPackageId → Option PgVersion) :
    ((pgElmSelected ctx σ).map Prod.fst).Nodup := by
  have names : List.Sublist ((pgElmSelected ctx σ).map Prod.fst) ctx.packages := by
    have whole : ctx.packages.zipIdx.map Prod.fst = ctx.packages := List.zipIdx_map_fst 0 _
    have part : (pgElmSelected ctx σ).map Prod.fst =
        ((ctx.packages.zipIdx.filter fun p => (σ (p.2 + 1)).isSome).map Prod.fst) := by
      unfold pgElmSelected
      generalize ctx.packages.zipIdx = items
      induction items with
      | nil => rfl
      | cons p rest ih =>
        cases chosen : σ (p.2 + 1) with
        | none => simpa [chosen] using ih
        | some v => simpa [chosen] using ih
    rw [part]
    conv_rhs => rw [← whole]
    exact List.Sublist.map _ List.filter_sublist
  exact names.nodup ctx.nodup

/-- What a successful run of a strategy gives. -/
structure Solved (L : ElmListing) (request : AddRequest) (currentPackages : PackageMap)
    (ctx : PgElmContext) (outcome : SolverOutcome) : Prop where
  selection : L.Selection outcome.selected
  requested : ∃ v, (request.name, v) ∈ outcome.selected
  required : ctx.rootDeps.length ≤ pgDependencyBuffer → ∀ name range,
    ctx.Requires name range → Chosen outcome.selected name range
  plan : planSelected currentPackages outcome.selected = some outcome.plan

section Consistent

variable {L : ElmListing} {first last : PgElmContext} {σ : PgPackageId → Option PgVersion}

/-- A requirement the solver meets, under names. -/
theorem chosen_of_meets {dep : PgDependency} {name : PackageName} (named : last.Named dep.1 name)
    (meets : PgMeets σ dep) : Chosen (pgElmSelected last σ) name dep.2 := by
  obtain ⟨v, here, inside⟩ := meets
  exact ⟨v, pgElmSelected_mem.mpr ⟨dep.1, named, here⟩, inside⟩

theorem PgConsistent.selection
    (consistent : PgConsistent L.provider first last pgElmRootPackageId pgElmRootVersion [] σ) :
    L.Selection (pgElmSelected last σ) where
  nodup := pgElmSelected_nodup last σ
  listed name v member := by
    obtain ⟨id, named, chosen⟩ := pgElmSelected_mem.mp member
    obtain ⟨deps, depends, -⟩ := consistent.closed id v chosen
    obtain ⟨name', named', inside⟩ :=
      ElmListing.listed_named named.ne_root (depends.listed named.ne_root)
    rw [PgElmContext.Named, named] at named'
    cases named'
    exact List.mem_of_mem_take inside
  closed name v member q reported := by
    obtain ⟨id, named, chosen⟩ := pgElmSelected_mem.mp member
    obtain ⟨deps, ⟨ctx, ctx', -, after, answer, listed⟩, meets⟩ := consistent.closed id v chosen
    obtain ⟨name', here, -⟩ := ElmListing.listed_named named.ne_root (listed named.ne_root)
    have copied : L.getDependencies ctx id v pgDependencyBuffer = (ctx', deps) := by
      have parts := Prod.mk.inj answer
      exact Prod.ext parts.1 (Option.some.inj parts.2)
    have step : PgCtxReach L.provider ctx ctx' := by
      have step := pgCtxReach_step (P := L.provider) ctx id v
      rw [answer] at step
      exact step
    have grows := (ElmListing.reach_grows (Relation.ReflTransGen.trans step after)).1
    have same : name' = name := by
      have later : last.Named id name' := here.grow grows
      rw [PgElmContext.Named, named] at later
      exact (Option.some.inj later).symm
    subst same
    unfold ElmListing.getDependencies at copied
    rw [if_neg (by decide), if_neg named.ne_root, here] at copied
    have spec := (pgElmCopyDependencies_spec pgDependencyBuffer ctx (L.entries name' v)).2.2
    dsimp only at copied
    rw [copied] at spec
    obtain ⟨dep, on, reads⟩ := forall₂_left spec reported
    refine ⟨dep.2, reads.2, chosen_of_meets ?_ (meets dep on)⟩
    exact reads.1.grow (ElmListing.reach_grows after).1

theorem PgConsistent.required_root
    (consistent : PgConsistent L.provider first last pgElmRootPackageId pgElmRootVersion [] σ)
    (fits : first.rootDeps.length ≤ pgDependencyBuffer) {dep : PgDependency}
    (member : dep ∈ first.rootDeps) : PgMeets σ dep := by
  obtain ⟨deps, ⟨ctx, ctx', before, -, answer, -⟩, meets⟩ :=
    consistent.closed _ _ consistent.root
  have copied : (L.getDependencies ctx pgElmRootPackageId pgElmRootVersion
      pgDependencyBuffer).2 = deps := Option.some.inj (Prod.mk.inj answer).2
  have reported : deps = first.rootDeps := by
    rw [← copied, ElmListing.getDependencies, if_neg (by decide), if_pos rfl,
      (ElmListing.reach_grows before).2, List.take_of_length_le fits]
  exact meets dep (by rw [reported]; exact member)

end Consistent

/-- A successful run selects versions that are closed in the listing and meet the
root requirements, and its plan is the one for them. -/
theorem solveRoots_ok {L : ElmListing} {fuel : Nat} {state : SolverState} {request : AddRequest}
    {currentPackages : PackageMap} {ctx : PgElmContext} {outcome : SolverOutcome}
    (run : solveRoots L.provider fuel state request currentPackages ctx = some outcome)
    (ok : outcome.result = .ok) : Solved L request currentPackages ctx outcome := by
  obtain ⟨grows, roots, named⟩ := pgElmInternPackage_spec ctx request.name
  unfold solveRoots at run
  dsimp only at run
  generalize pgElmInternPackage ctx request.name = interned at grows roots named run
  obtain ⟨first, newPkgId⟩ := interned
  dsimp only at grows roots named run
  split at run
  · cases run
  · rename_i status s solved
    split at run
    · cases run
      cases ok
    · rename_i status_ok
      have status_eq : status = .ok := not_not.mp status_ok
      subst status_eq
      have prepared : pgSolverAddRootDependencies
          (pgSolverNew first pgElmRootPackageId pgElmRootVersion) [] = some _ := rfl
      have consistent := pgSolverSolve_ok_consistent prepared (by simp) solved
      have last := consistent.closed _ _ consistent.root
      split at run
      · cases run
        cases ok
      · rename_i chosen here
        split at run
        · cases run
          cases ok
        · rename_i plan planned
          split at run
          · cases run
            cases ok
          · cases run
            have reach : first.Grows s.providerCtx := by
              obtain ⟨deps, ⟨at_, next, before, after, answer, -⟩, -⟩ := last
              have step := pgCtxReach_step (P := L.provider) at_ pgElmRootPackageId
                pgElmRootVersion
              rw [answer] at step
              exact (ElmListing.reach_grows
                (before.trans (Relation.ReflTransGen.trans step after))).1
            refine ⟨consistent.selection, ?_, ?_, planned⟩
            · exact ⟨chosen, pgElmSelected_mem.mpr ⟨newPkgId, named.grow reach, here⟩⟩
            · intro fits name range requires
              obtain ⟨id, has, member⟩ := requires
              rw [← roots] at fits member
              exact chosen_of_meets (has.grow (grows.trans reach))
                (consistent.required_root fits member)

end ElmWrap
