import ElmWrap.ElmJson
import ElmWrap.Registry
import ElmWrap.PgSolver.State

/-!
# The dependency providers of the Elm solver

`pgsolver/pg_elm.c` answers the solver from the V1 registry and from the
`elm.json` of each package version; `protocol_v2/solver/pg_elm_v2.c` answers it
from the V2 index. Both intern package names as ids, and both hold the root
requirements, which they report as dependencies of the synthetic root package.
-/

namespace ElmWrap

/-! ## Contexts -/

/-- What changes in a `PgElmContext` or a `PgElmV2Context`: the package of id
`i + 1` is `packages[i]`. Id 0 is reserved for the root, whose name
`__root__/__root__` is no package name. -/
structure PgElmContext where
  packages : List PackageName
  rootDeps : List PgDependency
  nodup : packages.Nodup
deriving DecidableEq

/-- `pg_elm_context_new`, `pg_elm_v2_context_new`. -/
def pgElmContextNew : PgElmContext := ⟨[], [], List.nodup_nil⟩

/-- `pg_elm_root_package_id`, `pg_elm_v2_root_package_id`. -/
def pgElmRootPackageId : PgPackageId := 0

/-- The version of the root package. -/
def pgElmRootVersion : PgVersion := ⟨1, 0, 0⟩

/-- `pg_elm_intern_package`, `pg_elm_v2_intern_package`. -/
def pgElmInternPackage (ctx : PgElmContext) (name : PackageName) : PgElmContext × PgPackageId :=
  if known : name ∈ ctx.packages then (ctx, ctx.packages.idxOf name + 1)
  else
    ({ ctx with
        packages := ctx.packages ++ [name]
        nodup := by
          refine List.nodup_append.mpr ⟨ctx.nodup, List.nodup_singleton _, ?_⟩
          intro a on b new same
          rw [List.mem_singleton.mp new] at same
          exact known (same ▸ on) },
      ctx.packages.length + 1)

/-- `pg_elm_get_author_name`, `pg_elm_v2_get_author_name`, for an id other than the
root's. -/
def pgElmGetAuthorName (ctx : PgElmContext) (pkg : PgPackageId) : Option PackageName :=
  match pkg with
  | 0 => none
  | i + 1 => ctx.packages[i]?

/-- `pg_elm_add_root_dependency`, `pg_elm_v2_add_root_dependency`; `none` when they
return `false`. -/
def pgElmAddRootDependency (ctx : PgElmContext) (pkg : PgPackageId) (range : PgVersionRange) :
    Option PgElmContext :=
  if range.isEmpty then none
  else some { ctx with rootDeps := ctx.rootDeps ++ [(pkg, range)] }

/-! ## V1 -/

/-- What a `PgElmContext` points to and does not change: the registry, the
`elm.json` files of the package cache, and what reading one gives after its
package has been downloaded. -/
structure PgElmEnv where
  registry : Option Registry
  online : Bool
  elmJsonRead : PackageName → String → Option ElmJson
  elmJsonDownloaded : PackageName → String → Option ElmJson

/-- The versions `pg_elm_provider_get_versions` copies for a package. -/
def PgElmEnv.versions (env : PgElmEnv) (name : PackageName) : List PgVersion :=
  match env.registry with
  | none => []
  | some registry =>
    match registryFind registry name.author name.project with
    | none => []
    | some entry => entry.versions

/-- `pg_elm_provider_get_versions`. -/
def pgElmProviderGetVersions (env : PgElmEnv) (ctx : PgElmContext) (pkg : PgPackageId)
    (capacity : Nat) : List PgVersion :=
  if capacity = 0 then []
  else if pkg = pgElmRootPackageId then [pgElmRootVersion]
  else
    match pgElmGetAuthorName ctx pkg with
    | none => []
    | some name => (env.versions name).take capacity

/-- The `elm.json` `pg_elm_provider_get_dependencies` gets hold of. -/
def PgElmEnv.elmJson (env : PgElmEnv) (name : PackageName) (version : PgVersion) :
    Option ElmJson :=
  let text := versionToString version
  match env.elmJsonRead name text with
  | some elmJson => some elmJson
  | none => if env.online then env.elmJsonDownloaded name text else none

/-- The loop of `pg_elm_provider_get_dependencies`, which may write `capacity` more
dependencies. -/
def pgElmCopyDependencies : Nat → PgElmContext → List Package →
    PgElmContext × List PgDependency
  | 0, ctx, _ => (ctx, [])
  | _ + 1, ctx, [] => (ctx, [])
  | capacity + 1, ctx, p :: rest =>
    match pgElmParseConstraint p.version with
    | none => pgElmCopyDependencies (capacity + 1) ctx rest
    | some range =>
      let (ctx, depId) := pgElmInternPackage ctx p.name
      let (ctx, deps) := pgElmCopyDependencies capacity ctx rest
      (ctx, (depId, range) :: deps)

/-- The entries the loop goes through. -/
def PgElmEnv.entries (env : PgElmEnv) (name : PackageName) (version : PgVersion) :
    List Package :=
  match env.elmJson name version with
  | none => []
  | some elmJson =>
    match elmJson.type with
    | .package => (elmJson.maps .packageDependencies).packages
    | .application => []

/-- `pg_elm_provider_get_dependencies`. -/
def pgElmProviderGetDependencies (env : PgElmEnv) (ctx : PgElmContext) (pkg : PgPackageId)
    (version : PgVersion) (capacity : Nat) : PgElmContext × List PgDependency :=
  if capacity = 0 then (ctx, [])
  else if pkg = pgElmRootPackageId then (ctx, ctx.rootDeps.take capacity)
  else
    match pgElmGetAuthorName ctx pkg with
    | none => (ctx, [])
    | some name => pgElmCopyDependencies capacity ctx (env.entries name version)

theorem pgElmCopyDependencies_length (capacity : Nat) (ctx : PgElmContext)
    (entries : List Package) :
    (pgElmCopyDependencies capacity ctx entries).2.length ≤ capacity := by
  fun_induction pgElmCopyDependencies capacity ctx entries with
  | case1 => exact Nat.le_refl 0
  | case2 => exact Nat.zero_le _
  | case3 _ _ _ _ _ ih => exact ih
  | case4 _ _ _ _ _ _ _ _ _ _ _ _ ih => simp_all

/-- `pg_elm_make_provider`. -/
def pgElmMakeProvider (env : PgElmEnv) : PgDependencyProvider PgElmContext where
  getVersions ctx pkg capacity := some (pgElmProviderGetVersions env ctx pkg capacity)
  getDependencies ctx pkg version capacity :=
    ((pgElmProviderGetDependencies env ctx pkg version capacity).1,
      some (pgElmProviderGetDependencies env ctx pkg version capacity).2)
  getVersions_length ctx pkg capacity vs answer := by
    cases answer
    unfold pgElmProviderGetVersions
    repeat' split
    all_goals simp <;> omega
  getDependencies_length ctx pkg version capacity ds answer := by
    cases answer
    unfold pgElmProviderGetDependencies
    repeat' split
    · exact Nat.zero_le _
    · simp
    · exact Nat.zero_le _
    · exact pgElmCopyDependencies_length _ _ _

/-! ## V2 -/

/-- The versions `pg_elm_v2_provider_get_versions` copies for a package. -/
def V2Registry.validVersions (registry : V2Registry) (name : PackageName) : List PgVersion :=
  match v2RegistryFind registry name.author name.project with
  | none => []
  | some entry => (entry.versions.filter fun pv => pv.status = .valid).map
      V2PackageVersion.version

/-- `pg_elm_v2_provider_get_versions`. -/
def pgElmV2ProviderGetVersions (registry : V2Registry) (ctx : PgElmContext) (pkg : PgPackageId)
    (capacity : Nat) : List PgVersion :=
  if capacity = 0 then []
  else if pkg = pgElmRootPackageId then [pgElmRootVersion]
  else
    match pgElmGetAuthorName ctx pkg with
    | none => []
    | some name => (registry.validVersions name).take capacity

/-- The loop of `pg_elm_v2_provider_get_dependencies`. -/
def pgElmV2CopyDependencies : Nat → PgElmContext → List V2Dependency →
    PgElmContext × List PgDependency
  | 0, ctx, _ => (ctx, [])
  | _ + 1, ctx, [] => (ctx, [])
  | capacity + 1, ctx, dep :: rest =>
    match parsePackageName dep.packageName with
    | none => pgElmV2CopyDependencies (capacity + 1) ctx rest
    | some name =>
      match versionParseConstraint dep.constraint with
      | none => pgElmV2CopyDependencies (capacity + 1) ctx rest
      | some range =>
        let (ctx, depId) := pgElmInternPackage ctx name
        let (ctx, deps) := pgElmV2CopyDependencies capacity ctx rest
        (ctx, (depId, range) :: deps)

/-- The entries the loop goes through. -/
def V2Registry.dependencies (registry : V2Registry) (name : PackageName)
    (version : PgVersion) : List V2Dependency :=
  match v2RegistryFindVersion registry name.author name.project version.major version.minor
      version.patch with
  | none => []
  | some pv => pv.dependencies

/-- `pg_elm_v2_provider_get_dependencies`. -/
def pgElmV2ProviderGetDependencies (registry : V2Registry) (ctx : PgElmContext)
    (pkg : PgPackageId) (version : PgVersion) (capacity : Nat) :
    PgElmContext × List PgDependency :=
  if capacity = 0 then (ctx, [])
  else if pkg = pgElmRootPackageId then (ctx, ctx.rootDeps.take capacity)
  else
    match pgElmGetAuthorName ctx pkg with
    | none => (ctx, [])
    | some name => pgElmV2CopyDependencies capacity ctx (registry.dependencies name version)

/-- The entries of a dependency list whose package name is one. -/
def v2Named (deps : List V2Dependency) : List (PackageName × String) :=
  deps.filterMap fun dep => (parsePackageName dep.packageName).map fun name =>
    (name, dep.constraint)

/-- The two loops do the same on the same names and constraints. -/
theorem pgElmV2CopyDependencies_eq {deps : List V2Dependency} {entries : List Package}
    (same : v2Named deps = entries.map fun p => (p.name, p.version)) (capacity : Nat)
    (ctx : PgElmContext) :
    pgElmV2CopyDependencies capacity ctx deps = pgElmCopyDependencies capacity ctx entries := by
  induction deps generalizing entries capacity ctx with
  | nil =>
    have empty : entries = [] := List.map_eq_nil_iff.mp same.symm
    subst empty
    cases capacity <;> rfl
  | cons dep deps ih =>
    cases capacity with
    | zero => rw [pgElmV2CopyDependencies, pgElmCopyDependencies]
    | succ capacity =>
      cases named : parsePackageName dep.packageName with
      | none =>
        have rest : v2Named deps = entries.map fun p => (p.name, p.version) := by
          rw [← same]
          simp [v2Named, named]
        rw [pgElmV2CopyDependencies, named]
        exact ih rest (capacity + 1) ctx
      | some name =>
        have head : v2Named (dep :: deps) = (name, dep.constraint) :: v2Named deps := by
          simp [v2Named, named]
        rw [head] at same
        obtain ⟨p, entries, rfl⟩ : ∃ p rest, entries = p :: rest := by
          cases entries with
          | nil => cases same
          | cons p rest => exact ⟨p, rest, rfl⟩
        rw [List.map_cons] at same
        obtain ⟨first, rest⟩ := List.cons.inj same
        have sameName : name = p.name := congrArg Prod.fst first
        have sameText : dep.constraint = p.version := congrArg Prod.snd first
        rw [pgElmV2CopyDependencies, pgElmCopyDependencies, named, pgElmParseConstraint,
          sameText, sameName]
        dsimp only
        cases versionParseConstraint p.version with
        | none => exact ih rest (capacity + 1) ctx
        | some range =>
          dsimp only
          rw [ih rest]

/-- A dependency list as package map entries. -/
def v2Entries (deps : List V2Dependency) : List Package :=
  (v2Named deps).map fun p => ⟨p.1, p.2⟩

theorem v2Entries_named (deps : List V2Dependency) :
    v2Named deps = (v2Entries deps).map fun p => (p.name, p.version) := by
  simp [v2Entries, Function.comp_def]

/-- `pg_elm_v2_make_provider`. -/
def pgElmV2MakeProvider (registry : V2Registry) : PgDependencyProvider PgElmContext where
  getVersions ctx pkg capacity := some (pgElmV2ProviderGetVersions registry ctx pkg capacity)
  getDependencies ctx pkg version capacity :=
    ((pgElmV2ProviderGetDependencies registry ctx pkg version capacity).1,
      some (pgElmV2ProviderGetDependencies registry ctx pkg version capacity).2)
  getVersions_length ctx pkg capacity vs answer := by
    cases answer
    unfold pgElmV2ProviderGetVersions
    repeat' split
    all_goals simp <;> omega
  getDependencies_length ctx pkg version capacity ds answer := by
    cases answer
    unfold pgElmV2ProviderGetDependencies
    repeat' split
    · exact Nat.zero_le _
    · simp
    · exact Nat.zero_le _
    · rw [pgElmV2CopyDependencies_eq (v2Entries_named _)]
      exact pgElmCopyDependencies_length _ _ _

end ElmWrap
