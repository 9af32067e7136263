import Mathlib.Algebra.GroupWithZero.Nat
import ElmWrap.Registry.Operations
import ElmWrap.Lib.Json

/-!
# Reading the answers of a package server

`parse_all_packages_json` and `parse_since_response` of `install_env.c`. Both
take the result of `cJSON_Parse`, `none` where it fails, and a registry, and
leave behind a registry and what they return. What a document adds is stated as
the versions the registry has afterwards.
-/

namespace ElmWrap

open Lib

/-! ## `parse_all_packages_json` -/

/-- The loop beyond the items of a package. -/
def parsePackageVersions (author name : String) : List Json → Registry → Registry × Bool
  | [], registry => (registry, true)
  | .string text :: rest, registry =>
    match registryAddVersionEx registry author name (versionParse text) false with
    | ⟨registry, true, _⟩ => parsePackageVersions author name rest registry
    | ⟨registry, false, _⟩ => (registry, false)
  | _ :: rest, registry => parsePackageVersions author name rest registry

/-- The loop beyond the packages, with `canonical_since_count`; `none` in its place
where the function returns `false`. -/
def parsePackages : List (Option String × Json) → Nat → Registry → Registry × Option Nat
  | [], canonical, registry => (registry, some canonical)
  | (key, .array items) :: rest, canonical, registry =>
    if canonical + items.length > sizeMax then (registry, none)
    else
      let canonical := canonical + items.length
      match key.bind parsePackageName with
      | none => parsePackages rest canonical registry
      | some name =>
        let registry := registryAddEntry registry name.author name.project
        match parsePackageVersions name.author name.project items registry with
        | (registry, true) => parsePackages rest canonical registry
        | (registry, false) => (registry, none)
  | _ :: rest, canonical, registry => parsePackages rest canonical registry

/-- `parse_all_packages_json`. -/
def parseAllPackagesJson (json : Option Json) (registry : Registry) : Registry × Bool :=
  match json with
  | none => (registry, false)
  | some json =>
    match parsePackages json.children 0 registry with
    | (registry, none) => (registry, false)
    | (registry, some canonical) =>
      (registrySortEntries { registry with sinceCount := canonical }, true)

/-! ## `parse_since_response` -/

/-- The loop beyond the items. -/
def parseSinceItems : List Json → Registry → Registry × Bool
  | [], registry => (registry, true)
  | .string text :: rest, registry =>
    match parsePackageWithVersion text with
    | none => parseSinceItems rest registry
    | some (name, version) =>
      match registryAddVersionEx registry name.author name.project version false with
      | ⟨registry, true, _⟩ => parseSinceItems rest registry
      | ⟨registry, false, _⟩ => (registry, false)
  | _ :: rest, registry => parseSinceItems rest registry

/-- `parse_since_response`. -/
def parseSinceResponse (json : Option Json) (registry : Registry) : Registry × Bool :=
  match json with
  | some (.array items) =>
    if items.length = 0 then (registry, true)
    else
      match parseSinceItems items registry with
      | (registry, false) => (registry, false)
      | (registry, true) =>
        if registry.sinceCount + items.length > sizeMax then (registry, false)
        else ({ registry with sinceCount := registry.sinceCount + items.length }, true)
  | _ => (registry, false)

/-! ## What is added -/

/-- Add versions without counting them. -/
def Registry.addAll (registry : Registry) (added : List (PackageName × Version)) : Registry :=
  added.foldl (fun registry p =>
    (registryAddVersionEx registry p.1.author p.1.project p.2 false).registry) registry

@[simp] theorem Registry.addAll_nil (registry : Registry) : registry.addAll [] = registry := rfl

@[simp] theorem Registry.addAll_cons (registry : Registry) (p : PackageName × Version)
    (rest : List (PackageName × Version)) :
    registry.addAll (p :: rest) =
      (registryAddVersionEx registry p.1.author p.1.project p.2 false).registry.addAll rest := rfl

@[simp] theorem Registry.addAll_sinceCount (registry : Registry)
    (added : List (PackageName × Version)) :
    (registry.addAll added).sinceCount = registry.sinceCount := by
  induction added generalizing registry with
  | nil => rfl
  | cons p rest ih => rw [Registry.addAll_cons, ih, registryAddVersionEx_uncounted]

theorem Registry.WellFormed.addAll {registry : Registry} (wellFormed : registry.WellFormed)
    (added : List (PackageName × Version)) : (registry.addAll added).WellFormed := by
  induction added generalizing registry with
  | nil => exact wellFormed
  | cons p rest ih => exact ih (wellFormed.addVersionEx _ _ _ _)

/-- An uncounted version is always added. -/
theorem registryAddVersionEx_uncounted_eq (registry : Registry) (author name : String)
    (version : Version) :
    ∃ changed, registryAddVersionEx registry author name version false =
      ⟨(registryAddVersionEx registry author name version false).registry, true, changed⟩ := by
  have ok := registryAddVersionEx_uncounted_ok registry author name version
  cases result : registryAddVersionEx registry author name version false with
  | mk registry' returned changed =>
    rw [result] at ok
    cases ok
    exact ⟨changed, rfl⟩

/-- What the items of a package say. -/
def itemVersions (name : PackageName) (items : List Json) : List (PackageName × Version) :=
  (items.filterMap Json.text?).map fun text => (name, versionParse text)

theorem parsePackageVersions_eq (name : PackageName) (items : List Json) (registry : Registry) :
    parsePackageVersions name.author name.project items registry =
      (registry.addAll (itemVersions name items), true) := by
  induction items generalizing registry with
  | nil => rfl
  | cons item rest ih =>
    cases item with
    | string text =>
      obtain ⟨changed, added⟩ := registryAddVersionEx_uncounted_eq registry name.author
        name.project (versionParse text)
      unfold parsePackageVersions
      rw [added]
      exact ih _
    | null => exact ih registry
    | bool value => exact ih registry
    | number literal => exact ih registry
    | array inner => exact ih registry
    | object members => exact ih registry

/-- What a response says: the packages and versions of the items that are read. -/
def sinceVersions (items : List Json) : List (PackageName × Version) :=
  (items.filterMap Json.text?).filterMap parsePackageWithVersion

theorem parseSinceItems_eq (items : List Json) (registry : Registry) :
    parseSinceItems items registry = (registry.addAll (sinceVersions items), true) := by
  induction items generalizing registry with
  | nil => rfl
  | cons item rest ih =>
    cases item with
    | string text =>
      unfold parseSinceItems sinceVersions
      rw [List.filterMap_cons_some (f := Json.text?) rfl]
      cases parsed : parsePackageWithVersion text with
      | none =>
        rw [List.filterMap_cons_none parsed]
        exact ih registry
      | some p =>
        obtain ⟨changed, added⟩ := registryAddVersionEx_uncounted_eq registry p.1.author
          p.1.project p.2
        rw [List.filterMap_cons_some parsed]
        dsimp only
        rw [added]
        exact ih _
    | null => exact ih registry
    | bool value => exact ih registry
    | number literal => exact ih registry
    | array inner => exact ih registry
    | object members => exact ih registry

/-- What the loop beyond the packages does to the registry for one of them. -/
def readPackage (registry : Registry) (package : Option String × Json) : Registry :=
  match package with
  | (key, .array items) =>
    match key.bind parsePackageName with
    | none => registry
    | some name =>
      (registryAddEntry registry name.author name.project).addAll (itemVersions name items)
  | _ => registry

/-- What it adds to `canonical_since_count`. -/
def packageCount (package : Option String × Json) : Nat :=
  match package with
  | (_, .array items) => items.length
  | _ => 0

theorem parsePackages_cons (package : Option String × Json) (rest : List (Option String × Json))
    {canonical : Nat} (fits : canonical ≤ sizeMax) (registry : Registry) :
    parsePackages (package :: rest) canonical registry =
      if canonical + packageCount package > sizeMax then (registry, none)
      else
        parsePackages rest (canonical + packageCount package) (readPackage registry package) := by
  obtain ⟨key, value⟩ := package
  cases value with
  | array items =>
    rw [parsePackages]
    unfold readPackage packageCount
    dsimp only
    cases key.bind parsePackageName with
    | none => exact rfl
    | some name =>
      dsimp only
      rw [parsePackageVersions_eq]
  | null => exact (if_neg (Nat.not_lt.mpr fits)).symm
  | bool value => exact (if_neg (Nat.not_lt.mpr fits)).symm
  | number literal => exact (if_neg (Nat.not_lt.mpr fits)).symm
  | string value => exact (if_neg (Nat.not_lt.mpr fits)).symm
  | object members => exact (if_neg (Nat.not_lt.mpr fits)).symm

theorem parsePackages_ok {packages : List (Option String × Json)} {canonical : Nat}
    (fits : canonical + (packages.map packageCount).sum ≤ sizeMax) (registry : Registry) :
    parsePackages packages canonical registry =
      (packages.foldl readPackage registry,
        some (canonical + (packages.map packageCount).sum)) := by
  induction packages generalizing canonical registry with
  | nil => rfl
  | cons package rest ih =>
    rw [List.map_cons, List.sum_cons] at fits ⊢
    rw [parsePackages_cons package rest (by omega), if_neg (by omega), ih (by omega),
      List.foldl_cons, Nat.add_assoc]

/-- Where the count overflows, the packages before are in the registry. -/
theorem parsePackages_overflow {packages : List (Option String × Json)} {canonical : Nat}
    (fits : canonical ≤ sizeMax)
    (beyond : canonical + (packages.map packageCount).sum > sizeMax) (registry : Registry) :
    ∃ read, read <+: packages ∧
      parsePackages packages canonical registry = (read.foldl readPackage registry, none) := by
  induction packages generalizing canonical registry with
  | nil =>
    rw [List.map_nil, List.sum_nil] at beyond
    omega
  | cons package rest ih =>
    rw [List.map_cons, List.sum_cons] at beyond
    rw [parsePackages_cons package rest fits]
    split
    · exact ⟨[], List.nil_prefix, rfl⟩
    · rename_i room
      obtain ⟨read, front, same⟩ := ih (Nat.not_lt.mp room) (by omega)
        (readPackage registry package)
      exact ⟨package :: read, (List.prefix_cons_inj package).mpr front, same⟩

/-- What `parse_all_packages_json` does to the registry: it reads the packages, up to
one that overflows the count. -/
theorem parseAllPackagesJson_eq (json : Json) (registry : Registry) :
    parseAllPackagesJson (some json) registry =
        (registrySortEntries
          { json.children.foldl readPackage registry with
            sinceCount := (json.children.map packageCount).sum }, true) ∧
        (json.children.map packageCount).sum ≤ sizeMax ∨
      ∃ read, read <+: json.children ∧
        parseAllPackagesJson (some json) registry = (read.foldl readPackage registry, false) ∧
        (json.children.map packageCount).sum > sizeMax := by
  by_cases fits : (json.children.map packageCount).sum ≤ sizeMax
  · left
    refine ⟨?_, fits⟩
    unfold parseAllPackagesJson
    dsimp only
    rw [parsePackages_ok (by omega)]
    simp
  · right
    have beyond : 0 + (json.children.map packageCount).sum > sizeMax := by omega
    obtain ⟨read, front, same⟩ := parsePackages_overflow (Nat.zero_le _) beyond registry
    refine ⟨read, front, ?_, by omega⟩
    unfold parseAllPackagesJson
    dsimp only
    rw [same]

theorem parseSinceResponse_eq (items : List Json) (registry : Registry) :
    parseSinceResponse (some (.array items)) registry =
      if registry.sinceCount + items.length > sizeMax ∧ items ≠ [] then
        (registry.addAll (sinceVersions items), false)
      else
        ({ registry.addAll (sinceVersions items) with
            sinceCount := registry.sinceCount + items.length }, true) := by
  unfold parseSinceResponse
  dsimp only
  by_cases none : items = []
  · subst none
    simp [sinceVersions]
  · rw [if_neg (fun empty => none (List.length_eq_zero_iff.mp empty)), parseSinceItems_eq]
    simp [none]

theorem parseSinceResponse_entries (items : List Json) (registry : Registry) :
    (parseSinceResponse (some (.array items)) registry).1.entries =
      (registry.addAll (sinceVersions items)).entries := by
  rw [parseSinceResponse_eq]
  split
  · exact rfl
  · exact rfl

end ElmWrap
