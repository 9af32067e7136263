import ElmWrap.PackageName
import Mathlib.Data.List.Sort

/-!
# The registries

`registry.c`: the V1 registry, a list of packages with their versions, newest
first. `v2_registry.c`: the V2 index, whose versions carry a status and their
dependencies. Authors and names of registry entries are the bytes of a file and
need not be what `parse_package_name` accepts.
-/

namespace ElmWrap

theorem versionCompare_eq_zero {a b : Version} : versionCompare a b = 0 ↔ a = b := by
  have key : ∀ x y : UInt16, (x.toNat : Int) - y.toNat = 0 ↔ x = y := by
    intro x y
    rw [← UInt16.toNat_inj]
    omega
  cases a
  cases b
  simp only [versionCompare, Version.mk.injEq]
  split
  · rename_i other
    rw [key]
    exact ⟨fun same => absurd same other, fun same => same.1⟩
  · rename_i major
    split
    · rename_i other
      rw [key]
      exact ⟨fun same => absurd same other, fun same => same.2.1⟩
    · rename_i minor
      rw [key]
      exact ⟨fun same => ⟨not_not.mp major, not_not.mp minor, same⟩, fun same => same.2.2⟩

/-! ## V1 -/

/-- `RegistryEntry`. -/
structure RegistryEntry where
  author : String
  name : String
  versions : List Version
deriving DecidableEq, Repr

/-- `Registry`. -/
structure Registry where
  entries : List RegistryEntry
  sinceCount : Nat
deriving DecidableEq, Repr

/-- `registry_create`. -/
def registryCreate : Registry := { entries := [], sinceCount := 0 }

/-- The test with which `registry_find` compares an entry. -/
def RegistryEntry.isFor (author name : String) (entry : RegistryEntry) : Bool :=
  entry.author = author && entry.name = name

/-- `registry_find`. -/
def registryFind (registry : Registry) (author name : String) : Option RegistryEntry :=
  registry.entries.find? (RegistryEntry.isFor author name)

/-! ## V2 -/

/-- `V2VersionStatus`. -/
inductive V2VersionStatus
  | valid
  | obsolete
  | missing
  | missingDeps
deriving DecidableEq, Repr

/-- `V2Dependency`. -/
structure V2Dependency where
  packageName : String
  constraint : String
deriving DecidableEq, Repr

/-- `V2PackageVersion`. -/
structure V2PackageVersion where
  major : UInt16
  minor : UInt16
  patch : UInt16
  status : V2VersionStatus
  dependencies : List V2Dependency
deriving DecidableEq, Repr

/-- The three components as a `Version`. -/
def V2PackageVersion.version (pv : V2PackageVersion) : Version := ⟨pv.major, pv.minor, pv.patch⟩

/-- `V2PackageEntry`. -/
structure V2PackageEntry where
  author : String
  name : String
  versions : List V2PackageVersion
deriving DecidableEq, Repr

/-- `V2Registry`. -/
structure V2Registry where
  entries : List V2PackageEntry
deriving DecidableEq, Repr

/-- `v2_registry_find`. -/
def v2RegistryFind (registry : V2Registry) (author name : String) : Option V2PackageEntry :=
  registry.entries.find? fun entry => entry.author = author && entry.name = name

/-- `v2_registry_find_version`. -/
def v2RegistryFindVersion (registry : V2Registry) (author name : String)
    (major minor patch : UInt16) : Option V2PackageVersion :=
  match v2RegistryFind registry author name with
  | none => none
  | some entry =>
    entry.versions.find? fun v => v.major = major && v.minor = minor && v.patch = patch

end ElmWrap
