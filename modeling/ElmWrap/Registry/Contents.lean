import ElmWrap.Registry.Import

/-!
# What a registry contains

A registry as a set of versions of packages, and the entries in it that have no
version. A sorted registry in which every entry has one is determined by this set
and its counter.
-/

namespace ElmWrap

open Lib

namespace Registry

variable {registry : Registry}

/-- The registry lists a version of a package. -/
def Has (registry : Registry) (author name : String) (version : Version) : Prop :=
  version ∈ (registry.versions author name).getD []

instance (registry : Registry) (author name : String) (version : Version) :
    Decidable (registry.Has author name version) :=
  inferInstanceAs (Decidable (_ ∈ _))

/-- The registry has an entry without versions. -/
def Bare (registry : Registry) (author name : String) : Prop :=
  registry.versions author name = some []

/-- Every entry has a version. -/
def Populated (registry : Registry) : Prop := ∀ author name, ¬ registry.Bare author name

/-- The entries are in the order of `registry_entry_compare`. -/
def Sorted (registry : Registry) : Prop :=
  Keyed.Increasing RegistryEntry.key registry.entries

theorem populated_iff (wellFormed : registry.WellFormed) :
    registry.Populated ↔ ∀ entry ∈ registry.entries, entry.versions ≠ [] := by
  constructor
  · intro populated entry member empty
    apply populated entry.author entry.name
    unfold Bare
    rw [wellFormed.versions_mem member, empty]
  · intro versioned author name bare
    obtain ⟨entry, found, empty⟩ := Option.map_eq_some_iff.mp bare
    rw [registryFind_eq] at found
    exact versioned entry (Keyed.lookup_some found).1 empty

/-- Two sorted registries with the same versions, none of them with a bare entry, are
the same. -/
theorem ext_has {other : Registry} (left : registry.WellFormed) (right : other.WellFormed)
    (leftSorted : registry.Sorted) (rightSorted : other.Sorted)
    (leftPopulated : registry.Populated) (rightPopulated : other.Populated)
    (count : registry.sinceCount = other.sinceCount)
    (same : ∀ author name version,
      registry.Has author name version ↔ other.Has author name version) :
    registry = other := by
  have versions : ∀ author name, registry.versions author name = other.versions author name := by
    intro author name
    have members := same author name
    unfold Has at members
    cases here : registry.versions author name with
    | none =>
      cases there : other.versions author name with
      | none => rfl
      | some vs =>
        rw [here, there] at members
        have empty : vs = [] := List.eq_nil_iff_forall_not_mem.mpr fun v on => by
          simpa using (members v).mpr on
        exact absurd (there.trans (congrArg some empty)) (rightPopulated author name)
    | some vs =>
      cases there : other.versions author name with
      | none =>
        rw [here, there] at members
        have empty : vs = [] := List.eq_nil_iff_forall_not_mem.mpr fun v on => by
          simpa using (members v).mp on
        exact absurd (here.trans (congrArg some empty)) (leftPopulated author name)
      | some ws =>
        rw [here, there] at members
        rw [(left.versions_descending here).ext (right.versions_descending there) members]
  have entries : registry.entries = other.entries := by
    apply leftSorted.ext rightSorted
    intro k
    have found := versions (ofLex k).1 (ofLex k).2
    unfold Registry.versions at found
    rw [registryFind_eq, registryFind_eq] at found
    change (Keyed.lookup RegistryEntry.key k registry.entries).map RegistryEntry.versions =
      (Keyed.lookup RegistryEntry.key k other.entries).map RegistryEntry.versions at found
    cases here : Keyed.lookup RegistryEntry.key k registry.entries with
    | none =>
      rw [here] at found
      cases there : Keyed.lookup RegistryEntry.key k other.entries with
      | none => rfl
      | some f =>
        rw [there] at found
        cases found
    | some e =>
      cases there : Keyed.lookup RegistryEntry.key k other.entries with
      | none =>
        rw [here, there] at found
        cases found
      | some f =>
        rw [here, there] at found
        have keys : e.key = f.key :=
          (Keyed.lookup_some here).2.trans (Keyed.lookup_some there).2.symm
        obtain ⟨author, name⟩ := Prod.mk.inj (toLex.injective keys)
        cases e
        cases f
        cases author
        cases name
        cases Option.some.inj found
        rfl
  cases registry
  cases other
  cases entries
  cases count
  rfl

/-! ## What the operations do to the contents -/

theorem sorted_sort (wellFormed : registry.WellFormed) : (registrySortEntries registry).Sorted := by
  rw [registrySortEntries_eq]
  exact Keyed.increasing_sortBy wellFormed.distinct

theorem Sorted.sort_eq (sorted : registry.Sorted) : registrySortEntries registry = registry := by
  rw [registrySortEntries_eq, sorted.sortBy_eq]

theorem versions_sort (wellFormed : registry.WellFormed) (author name : String) :
    (registrySortEntries registry).versions author name = registry.versions author name := by
  rw [registrySortEntries_eq]
  unfold Registry.versions
  rw [registryFind_eq, registryFind_eq, Keyed.lookup_sortBy wellFormed.distinct]

theorem has_addEntry {author name author' name' : String} {version : Version} :
    (registryAddEntry registry author name).Has author' name' version ↔
      registry.Has author' name' version := by
  unfold Has
  rw [registryAddEntry_versions]
  split
  · rename_i same
    rw [same.1, same.2]
    rfl
  · rfl

theorem bare_addEntry {author name author' name' : String} :
    (registryAddEntry registry author name).Bare author' name' ↔
      registry.Bare author' name' ∨
        author' = author ∧ name' = name ∧ registry.versions author name = none := by
  unfold Bare
  rw [registryAddEntry_versions]
  split
  · rename_i same
    rw [same.1, same.2]
    cases registry.versions author name with
    | none => simp
    | some versions => simp
  · rename_i other
    constructor
    · exact Or.inl
    · intro which
      rcases which with old | ⟨author_eq, name_eq, _⟩
      · exact old
      · exact absurd ⟨author_eq, name_eq⟩ other

theorem has_addVersionEx {author name author' name' : String} {version version' : Version}
    {countForSince : Bool} :
    (registryAddVersionEx registry author name version countForSince).registry.Has author' name'
        version' ↔
      registry.Has author' name' version' ∨
        author = author' ∧ name = name' ∧ version = version' := by
  unfold Has
  rw [registryAddVersionEx_versions]
  split
  · rename_i same
    rw [same.1, same.2]
    simp [or_comm, eq_comm]
  · rename_i other
    constructor
    · exact Or.inl
    · intro which
      rcases which with old | ⟨author_eq, name_eq, _⟩
      · exact old
      · exact absurd ⟨author_eq.symm, name_eq.symm⟩ other

theorem bare_addVersionEx {author name author' name' : String} {version : Version}
    {countForSince : Bool} :
    (registryAddVersionEx registry author name version countForSince).registry.Bare author' name' ↔
      registry.Bare author' name' ∧ ¬ (author = author' ∧ name = name') := by
  unfold Bare
  rw [registryAddVersionEx_versions]
  split
  · rename_i same
    constructor
    · intro bare
      have there : version ∈ Keyed.addDesc version ((registry.versions author name).getD []) :=
        Keyed.mem_addDesc.mpr (Or.inl rfl)
      rw [Option.some.inj bare] at there
      cases there
    · intro both
      exact absurd ⟨same.1.symm, same.2.symm⟩ both.2
  · rename_i other
    constructor
    · intro bare
      exact ⟨bare, fun same => other ⟨same.1.symm, same.2.symm⟩⟩
    · exact And.left

theorem has_addAll {added : List (PackageName × Version)} {author name : String}
    {version : Version} :
    (registry.addAll added).Has author name version ↔
      registry.Has author name version ∨
        ∃ p ∈ added, p.1.author = author ∧ p.1.project = name ∧ p.2 = version := by
  induction added generalizing registry with
  | nil => simp
  | cons p rest ih =>
    rw [addAll_cons, ih, has_addVersionEx]
    simp [or_assoc]

theorem bare_addAll {added : List (PackageName × Version)} {author name : String} :
    (registry.addAll added).Bare author name ↔
      registry.Bare author name ∧ ∀ p ∈ added, ¬ (p.1.author = author ∧ p.1.project = name) := by
  induction added generalizing registry with
  | nil => simp
  | cons p rest ih =>
    rw [addAll_cons, ih, bare_addVersionEx]
    simp [and_assoc]

/-- Adding the same versions again changes nothing. -/
theorem addAll_known {added : List (PackageName × Version)}
    (known : ∀ p ∈ added, registry.Has p.1.author p.1.project p.2) :
    registry.addAll added = registry := by
  induction added with
  | nil => rfl
  | cons p rest ih =>
    have first := known p List.mem_cons_self
    rw [addAll_cons, registryAddVersionEx_known false first]
    exact ih fun q on => known q (List.mem_cons_of_mem p on)

end Registry

/-! ## What an all-packages document says -/

/-- The versions a member of the document lists. -/
def packageVersions (package : Option String × Json) : List (PackageName × Version) :=
  match package with
  | (key, .array items) =>
    match key.bind parsePackageName with
    | none => []
    | some name => itemVersions name items
  | _ => []

/-- The member is an array without a string, under an accepted name. -/
def Opens (package : Option String × Json) (author name : String) : Prop :=
  ∃ key items accepted, package = (some key, .array items) ∧
    parsePackageName key = some accepted ∧ accepted.author = author ∧ accepted.project = name ∧
    items.filterMap Json.text? = []

namespace Registry

variable {registry : Registry}

theorem has_readPackage {package : Option String × Json} {author name : String}
    {version : Version} :
    (readPackage registry package).Has author name version ↔
      registry.Has author name version ∨
        ∃ p ∈ packageVersions package, p.1.author = author ∧ p.1.project = name ∧
          p.2 = version := by
  obtain ⟨key, value⟩ := package
  cases value with
  | array items =>
    unfold readPackage packageVersions
    dsimp only
    cases key.bind parsePackageName with
    | none => simp
    | some accepted => exact has_addAll.trans (or_congr_left has_addEntry)
  | null => simp [readPackage, packageVersions]
  | bool value => simp [readPackage, packageVersions]
  | number literal => simp [readPackage, packageVersions]
  | string value => simp [readPackage, packageVersions]
  | object members => simp [readPackage, packageVersions]

theorem bare_readPackage {package : Option String × Json} {author name : String}
    (bare : (readPackage registry package).Bare author name) :
    registry.Bare author name ∨ Opens package author name := by
  unfold readPackage at bare
  split at bare
  · rename_i key items
    split at bare
    · exact Or.inl bare
    · rename_i accepted parsed
      obtain ⟨text, present, parsed⟩ := Option.bind_eq_some_iff.mp parsed
      subst present
      rw [bare_addAll, bare_addEntry] at bare
      obtain ⟨old | ⟨author_eq, name_eq, _⟩, unnamed⟩ := bare
      · exact Or.inl old
      · right
        refine ⟨text, items, accepted, rfl, parsed, author_eq.symm, name_eq.symm, ?_⟩
        -- a string would have given the entry a version
        cases texts : items.filterMap Json.text? with
        | nil => rfl
        | cons version rest =>
          have named : (accepted, versionParse version) ∈ itemVersions accepted items := by
            unfold itemVersions
            rw [texts]
            exact List.mem_cons_self
          exact absurd ⟨author_eq.symm, name_eq.symm⟩ (unnamed _ named)
  · exact Or.inl bare

theorem WellFormed.readPackage (wellFormed : registry.WellFormed)
    (package : Option String × Json) : (readPackage registry package).WellFormed := by
  unfold ElmWrap.readPackage
  split
  · split
    · exact wellFormed
    · exact (wellFormed.addEntry _ _).addAll _
  · exact wellFormed

theorem readPackage_sinceCount (package : Option String × Json) :
    (readPackage registry package).sinceCount = registry.sinceCount := by
  unfold readPackage
  split
  · split
    · exact rfl
    · rw [addAll_sinceCount, registryAddEntry_sinceCount]
  · exact rfl

theorem WellFormed.readPackages (wellFormed : registry.WellFormed)
    (packages : List (Option String × Json)) :
    (packages.foldl ElmWrap.readPackage registry).WellFormed := by
  induction packages generalizing registry with
  | nil => exact wellFormed
  | cons package rest ih => exact ih (wellFormed.readPackage package)

theorem has_readPackages {packages : List (Option String × Json)} {author name : String}
    {version : Version} :
    (packages.foldl readPackage registry).Has author name version ↔
      registry.Has author name version ∨
        ∃ p ∈ packages.flatMap packageVersions, p.1.author = author ∧ p.1.project = name ∧
          p.2 = version := by
  induction packages generalizing registry with
  | nil => simp
  | cons package rest ih =>
    rw [List.foldl_cons, ih, has_readPackage, List.flatMap_cons]
    simp only [List.mem_append, or_and_right, exists_or, or_assoc]

theorem bare_readPackages {packages : List (Option String × Json)} {author name : String}
    (bare : (packages.foldl readPackage registry).Bare author name) :
    registry.Bare author name ∨ ∃ package ∈ packages, Opens package author name := by
  induction packages generalizing registry with
  | nil => exact Or.inl bare
  | cons package rest ih =>
    rcases ih bare with later | ⟨other, on, opens⟩
    · rcases bare_readPackage later with old | opens
      · exact Or.inl old
      · exact Or.inr ⟨package, List.mem_cons_self, opens⟩
    · exact Or.inr ⟨other, List.mem_cons_of_mem package on, opens⟩

theorem readPackages_sinceCount (packages : List (Option String × Json)) :
    (packages.foldl readPackage registry).sinceCount = registry.sinceCount := by
  induction packages generalizing registry with
  | nil => rfl
  | cons package rest ih => rw [List.foldl_cons, ih, readPackage_sinceCount]

end Registry

end ElmWrap
