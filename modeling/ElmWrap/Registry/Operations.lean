import ElmWrap.Registry
import ElmWrap.VersionRange
import ElmWrap.Lib.Keyed
import Mathlib.Data.Prod.Lex
import Mathlib.Data.String.Basic

/-!
# Changing the V1 registry

The operations of `registry.c` that add and remove entries and versions, and the
order in which the entries are stored. A registry is looked at through the
versions it has under an author and a name; what an operation does is stated as
what it does to these. Allocations are taken to succeed.
-/

namespace ElmWrap

open Lib

/-- `SIZE_MAX`. -/
def sizeMax : Nat := 2 ^ 64 - 1

theorem sizeMax_eq : sizeMax = 18446744073709551615 := rfl

/-- Versions in the order of `version_compare`. -/
instance : LinearOrder Version := LinearOrder.lift' Version.key fun _ _ => Version.key_injective

theorem versionCompare_pos {a b : Version} : versionCompare a b > 0 ↔ b < a := by
  have ha := a.minor.toNat_lt
  have hb := b.minor.toNat_lt
  have ha' := a.patch.toNat_lt
  have hb' := b.patch.toNat_lt
  change versionCompare a b > 0 ↔ b.key < a.key
  simp only [versionCompare, Version.key, ne_eq, ← UInt16.toNat_inj]
  split
  · omega
  · split <;> omega

/-- The author and the name of an entry, in the order of `registry_entry_compare`. -/
def RegistryEntry.key (entry : RegistryEntry) : String ×ₗ String := toLex (entry.author, entry.name)

theorem registryFind_eq (registry : Registry) (author name : String) :
    registryFind registry author name =
      Keyed.lookup RegistryEntry.key (toLex (author, name)) registry.entries := by
  unfold registryFind Keyed.lookup
  congr 1
  funext entry
  simp [RegistryEntry.isFor, RegistryEntry.key]

/-- `registry_entry_compare`. -/
def registryEntryCompare (a b : RegistryEntry) : Ordering :=
  (compare a.author b.author).then (compare a.name b.name)

theorem registryEntryCompare_isLE {a b : RegistryEntry} :
    (registryEntryCompare a b).isLE = true ↔ a.key ≤ b.key := by
  unfold registryEntryCompare RegistryEntry.key
  rw [Prod.Lex.toLex_le_toLex]
  cases order : compare a.author b.author with
  | lt => simpa using Or.inl (compare_lt_iff_lt.mp order)
  | eq =>
    have same := compare_eq_iff_eq.mp order
    simp [same, Ordering.isLE_iff_ne_gt, ← compare_le_iff_le]
  | gt =>
    have less := compare_gt_iff_gt.mp order
    simp [not_lt_of_gt less, ne_of_gt less]

/-- `registry_sort_entries`. -/
def registrySortEntries (registry : Registry) : Registry :=
  { registry with
    entries := registry.entries.insertionSort fun a b => (registryEntryCompare a b).isLE = true }

theorem registrySortEntries_eq (registry : Registry) :
    registrySortEntries registry =
      { registry with entries := Keyed.sortBy RegistryEntry.key registry.entries } := by
  unfold registrySortEntries Keyed.sortBy
  simp only [registryEntryCompare_isLE]

/-! ## Operations -/

/-- What an operation leaves behind: the registry, what it returns, and its
parameter `out_added` or `out_removed`. -/
structure RegistryResult where
  registry : Registry
  ok : Bool
  changed : Bool
deriving DecidableEq, Repr

/-- `registry_add_entry`. -/
def registryAddEntry (registry : Registry) (author name : String) : Registry :=
  match registryFind registry author name with
  | some _ => registry
  | none => { registry with entries := registry.entries ++ [⟨author, name, []⟩] }

/-- A change of the versions of the entry `registry_find` points to. -/
def Registry.setVersions (registry : Registry) (author name : String)
    (f : List Version → List Version) : Registry :=
  { registry with
    entries := Keyed.update RegistryEntry.key (toLex (author, name))
      (fun entry => { entry with versions := f entry.versions }) registry.entries }

/-- `versions` with `version` at the `insert_pos` of `registry_add_version_ex`. -/
def insertVersion (version : Version) (versions : List Version) : List Version :=
  versions.orderedInsert (fun v w => versionCompare v w > 0) version

/-- The loops that look for a version. -/
def hasVersion (versions : List Version) (version : Version) : Bool :=
  versions.any fun v => versionCompare v version = 0

/-- `registry_add_version_ex`. The version is in the registry before the check of
`since_count`. -/
def registryAddVersionEx (registry : Registry) (author name : String) (version : Version)
    (countForSince : Bool) : RegistryResult :=
  -- it leaves the registry alone where the entry exists
  let registry := registryAddEntry registry author name
  match registryFind registry author name with
  | none => ⟨registry, false, false⟩
  | some entry =>
    if hasVersion entry.versions version then ⟨registry, true, false⟩
    else
      let registry := registry.setVersions author name (insertVersion version)
      if countForSince then
        if registry.sinceCount = sizeMax then ⟨registry, false, true⟩
        else ⟨{ registry with sinceCount := registry.sinceCount + 1 }, true, true⟩
      else ⟨registry, true, true⟩

/-- `registry_add_version`. -/
def registryAddVersion (registry : Registry) (author name : String) (version : Version) :
    RegistryResult :=
  registryAddVersionEx registry author name version true

/-- `registry_remove_version_ex`. An entry goes with its last version. -/
def registryRemoveVersionEx (registry : Registry) (author name : String) (version : Version)
    (decrementSinceCount : Bool) : RegistryResult :=
  match registryFind registry author name with
  | none => ⟨registry, true, false⟩
  | some entry =>
    if !hasVersion entry.versions version then ⟨registry, true, false⟩
    else
      let registry :=
        if entry.versions.length = 1 then
          { registry with
            entries := Keyed.remove RegistryEntry.key (toLex (author, name)) registry.entries }
        else registry.setVersions author name fun versions =>
          versions.eraseP fun v => versionCompare v version = 0
      let registry :=
        if decrementSinceCount && registry.sinceCount > 0 then
          { registry with sinceCount := registry.sinceCount - 1 }
        else registry
      ⟨registry, true, true⟩

/-! ## The versions of a package -/

/-- The versions the registry has under an author and a name; `none` where it has
no entry. -/
def Registry.versions (registry : Registry) (author name : String) : Option (List Version) :=
  (registryFind registry author name).map RegistryEntry.versions

theorem insertVersion_eq (version : Version) (versions : List Version) :
    insertVersion version versions = Keyed.insertDesc version versions := by
  unfold insertVersion Keyed.insertDesc
  simp only [versionCompare_pos]

@[simp] theorem hasVersion_iff {versions : List Version} {version : Version} :
    hasVersion versions version = true ↔ version ∈ versions := by
  simp [hasVersion, versionCompare_eq_zero]

@[simp] theorem registryCreate_versions (author name : String) :
    registryCreate.versions author name = none := rfl

@[simp] theorem Registry.versions_sinceCount (registry : Registry) (count : Nat)
    (author name : String) :
    Registry.versions { registry with sinceCount := count } author name =
      registry.versions author name := rfl

@[simp] theorem Registry.setVersions_sinceCount (registry : Registry) (author name : String)
    (f : List Version → List Version) :
    (registry.setVersions author name f).sinceCount = registry.sinceCount := rfl

theorem Registry.setVersions_versions (registry : Registry) (author name : String)
    (f : List Version → List Version) (author' name' : String) :
    (registry.setVersions author name f).versions author' name' =
      if author' = author ∧ name' = name then (registry.versions author name).map f
      else registry.versions author' name' := by
  unfold Registry.versions
  rw [registryFind_eq, registryFind_eq, registryFind_eq]
  unfold Registry.setVersions
  rw [Keyed.lookup_update (f := fun entry : RegistryEntry =>
    { entry with versions := f entry.versions }) fun _ => rfl]
  by_cases same : author' = author ∧ name' = name
  · rw [if_pos (by rw [same.1, same.2]), if_pos same, Option.map_map, Option.map_map]
    rfl
  · rw [if_neg (fun eq => same (by simpa using eq)), if_neg same]

@[simp] theorem registryAddEntry_sinceCount (registry : Registry) (author name : String) :
    (registryAddEntry registry author name).sinceCount = registry.sinceCount := by
  unfold registryAddEntry
  split <;> rfl

theorem registryAddEntry_versions (registry : Registry) (author name author' name' : String) :
    (registryAddEntry registry author name).versions author' name' =
      if author' = author ∧ name' = name then some ((registry.versions author name).getD [])
      else registry.versions author' name' := by
  unfold registryAddEntry
  split
  · rename_i entry found
    split
    · rename_i same
      rw [same.1, same.2]
      simp [Registry.versions, found]
    · exact rfl
  · rename_i missing
    have old : registry.versions author name = none := by simp [Registry.versions, missing]
    unfold Registry.versions
    rw [registryFind_eq, registryFind_eq, registryFind_eq, Keyed.lookup_append, Keyed.lookup_cons]
    by_cases same : author' = author ∧ name' = name
    · rw [if_pos same, same.1, same.2, ← registryFind_eq, missing]
      simp [RegistryEntry.key]
    · rw [if_neg same, if_neg]
      · simp
      · intro eq
        apply same
        simpa [RegistryEntry.key, eq_comm] using eq

/-- What `registry_add_version_ex` does. -/
theorem registryAddVersionEx_eq (registry : Registry) (author name : String) (version : Version)
    (countForSince : Bool) :
    registryAddVersionEx registry author name version countForSince =
      if version ∈ (registry.versions author name).getD [] then
        ⟨registryAddEntry registry author name, true, false⟩
      else
        ⟨{ (registryAddEntry registry author name).setVersions author name
              (Keyed.insertDesc version) with
            sinceCount := registry.sinceCount +
              if countForSince = true ∧ registry.sinceCount ≠ sizeMax then 1 else 0 },
          !(countForSince && registry.sinceCount = sizeMax), true⟩ := by
  have here := registryAddEntry_versions registry author name author name
  rw [if_pos ⟨rfl, rfl⟩] at here
  unfold Registry.versions at here
  obtain ⟨entry, found, versions⟩ := Option.map_eq_some_iff.mp here
  have sorted : insertVersion version = Keyed.insertDesc version :=
    funext fun versions => insertVersion_eq version versions
  unfold registryAddVersionEx
  simp only [found, hasVersion_iff, versions, Registry.setVersions_sinceCount,
    registryAddEntry_sinceCount, sorted]
  unfold Registry.versions
  split
  · exact rfl
  · cases countForSince with
    | false => simp [Registry.setVersions]
    | true =>
      by_cases full : registry.sinceCount = sizeMax
      · simp [full, Registry.setVersions]
      · simp [full, Registry.setVersions]

/-- Adding a version puts it among the versions of its package, at its place. -/
theorem registryAddVersionEx_versions (registry : Registry) (author name : String)
    (version : Version) (countForSince : Bool) (author' name' : String) :
    (registryAddVersionEx registry author name version countForSince).registry.versions
        author' name' =
      if author' = author ∧ name' = name then
        some (Keyed.addDesc version ((registry.versions author name).getD []))
      else registry.versions author' name' := by
  rw [registryAddVersionEx_eq]
  unfold Keyed.addDesc
  split
  · exact registryAddEntry_versions registry author name author' name'
  · have here := registryAddEntry_versions registry author name author name
    rw [if_pos ⟨rfl, rfl⟩] at here
    rw [Registry.versions_sinceCount, Registry.setVersions_versions, here,
      registryAddEntry_versions]
    split
    · exact rfl
    · exact rfl

theorem registryAddEntry_known {registry : Registry} {author name : String}
    {versions : List Version} (known : registry.versions author name = some versions) :
    registryAddEntry registry author name = registry := by
  obtain ⟨entry, found, _⟩ := Option.map_eq_some_iff.mp known
  unfold registryAddEntry
  rw [found]

/-- Adding a version that is there changes nothing. -/
theorem registryAddVersionEx_known {registry : Registry} {author name : String}
    {version : Version} (countForSince : Bool)
    (known : version ∈ (registry.versions author name).getD []) :
    registryAddVersionEx registry author name version countForSince = ⟨registry, true, false⟩ := by
  rw [registryAddVersionEx_eq, if_pos known]
  cases listed : registry.versions author name with
  | none =>
    rw [listed] at known
    cases known
  | some versions => rw [registryAddEntry_known listed]

@[simp] theorem registryAddVersionEx_uncounted_ok (registry : Registry) (author name : String)
    (version : Version) : (registryAddVersionEx registry author name version false).ok = true := by
  rw [registryAddVersionEx_eq]
  split
  · exact rfl
  · exact rfl

@[simp] theorem registryAddVersionEx_uncounted (registry : Registry) (author name : String)
    (version : Version) :
    (registryAddVersionEx registry author name version false).registry.sinceCount =
      registry.sinceCount := by
  rw [registryAddVersionEx_eq]
  split
  · simp
  · simp

/-! ## The representation invariant -/

/-- One entry for each author and name, its versions newest first, and a counter
that fits a `size_t`. -/
structure Registry.WellFormed (registry : Registry) : Prop where
  distinct : Keyed.Distinct RegistryEntry.key registry.entries
  descending : ∀ entry ∈ registry.entries, Keyed.Descending entry.versions
  counted : registry.sinceCount ≤ sizeMax

namespace Registry.WellFormed

variable {registry : Registry}

theorem create : registryCreate.WellFormed where
  distinct := List.nodup_nil
  descending := by
    intro entry member
    cases member
  counted := Nat.zero_le _

theorem versions_mem (wellFormed : registry.WellFormed) {entry : RegistryEntry}
    (member : entry ∈ registry.entries) :
    registry.versions entry.author entry.name = some entry.versions := by
  have found : Keyed.lookup RegistryEntry.key (toLex (entry.author, entry.name)) registry.entries =
      some entry := Keyed.lookup_mem wellFormed.distinct member
  unfold Registry.versions
  rw [registryFind_eq, found]
  rfl

theorem versions_descending (wellFormed : registry.WellFormed) {author name : String}
    {versions : List Version} (listed : registry.versions author name = some versions) :
    Keyed.Descending versions := by
  unfold Registry.versions at listed
  obtain ⟨entry, found, same⟩ := Option.map_eq_some_iff.mp listed
  rw [registryFind_eq] at found
  exact same ▸ wellFormed.descending entry (Keyed.lookup_some found).1

theorem setCount (wellFormed : registry.WellFormed) {count : Nat} (fits : count ≤ sizeMax) :
    WellFormed { registry with sinceCount := count } where
  distinct := wellFormed.distinct
  descending := wellFormed.descending
  counted := fits

theorem sorted (wellFormed : registry.WellFormed) : (registrySortEntries registry).WellFormed := by
  rw [registrySortEntries_eq]
  exact {
    distinct := wellFormed.distinct.sortBy
    descending := fun entry member => wellFormed.descending entry (Keyed.mem_sortBy.mp member)
    counted := wellFormed.counted }

theorem addEntry (wellFormed : registry.WellFormed) (author name : String) :
    (registryAddEntry registry author name).WellFormed := by
  unfold registryAddEntry
  split
  · exact wellFormed
  · rename_i missing
    rw [registryFind_eq] at missing
    refine ⟨wellFormed.distinct.append_new missing, ?_, wellFormed.counted⟩
    intro entry member
    rcases List.mem_append.mp member with old | new
    · exact wellFormed.descending entry old
    · rw [List.mem_singleton.mp new]
      exact List.Pairwise.nil

/-- A change of the versions of one package keeps the invariant when it keeps these
versions in order. -/
theorem setVersions (wellFormed : registry.WellFormed) {author name : String}
    {f : List Version → List Version}
    (keeps : ∀ versions, registry.versions author name = some versions →
      Keyed.Descending versions → Keyed.Descending (f versions)) :
    (registry.setVersions author name f).WellFormed where
  distinct := by
    apply wellFormed.distinct.update
    intro entry
    rfl
  descending := by
    intro entry member
    rcases Keyed.mem_update member with old | ⟨before, old, same, changed⟩
    · exact wellFormed.descending entry old
    · obtain ⟨author_eq, name_eq⟩ := Prod.mk.inj (toLex.injective same)
      have listed := wellFormed.versions_mem old
      rw [author_eq, name_eq] at listed
      rw [changed]
      exact keeps _ listed (wellFormed.descending before old)
  counted := wellFormed.counted

theorem addVersionEx (wellFormed : registry.WellFormed) (author name : String)
    (version : Version) (countForSince : Bool) :
    (registryAddVersionEx registry author name version countForSince).registry.WellFormed := by
  have entered := wellFormed.addEntry author name
  rw [registryAddVersionEx_eq]
  split
  · exact entered
  · rename_i new
    apply WellFormed.setCount
    · apply entered.setVersions
      intro versions listed descending
      apply descending.insertDesc
      rw [registryAddEntry_versions, if_pos ⟨rfl, rfl⟩] at listed
      exact Option.some.inj listed ▸ new
    · have counted := wellFormed.counted
      split
      · rename_i room
        have := room.2
        omega
      · exact counted

theorem removeVersionEx (wellFormed : registry.WellFormed) (author name : String)
    (version : Version) (decrementSinceCount : Bool) :
    (registryRemoveVersionEx registry author name version
      decrementSinceCount).registry.WellFormed := by
  have decrement : ∀ r : Registry, r.WellFormed →
      (if decrementSinceCount && r.sinceCount > 0 then { r with sinceCount := r.sinceCount - 1 }
        else r).WellFormed := by
    intro r good
    split
    · have counted := good.counted
      exact good.setCount (by omega)
    · exact good
  unfold registryRemoveVersionEx
  split
  · exact wellFormed
  · split
    · exact wellFormed
    · apply decrement
      split
      · exact ⟨wellFormed.distinct.remove,
          fun entry member => wellFormed.descending entry (Keyed.mem_remove member),
          wellFormed.counted⟩
      · apply wellFormed.setVersions
        intro versions _ descending
        exact descending.sublist List.eraseP_sublist

end Registry.WellFormed

/-- Removing a version takes it out, and its entry with it when it was the only one. -/
theorem registryRemoveVersionEx_versions {registry : Registry} (wellFormed : registry.WellFormed)
    (author name : String) (version : Version) (decrementSinceCount : Bool)
    (author' name' : String) :
    (registryRemoveVersionEx registry author name version decrementSinceCount).registry.versions
        author' name' =
      if author' = author ∧ name' = name then
        (registry.versions author name).bind fun versions =>
          if versions = [version] then none else some (versions.erase version)
      else registry.versions author' name' := by
  have decrement : ∀ r : Registry,
      (if decrementSinceCount && r.sinceCount > 0 then { r with sinceCount := r.sinceCount - 1 }
        else r).versions author' name' = r.versions author' name' := by
    intro r
    split
    · exact rfl
    · exact rfl
  have unchanged : ∀ versions, registry.versions author name = some versions →
      version ∉ versions → registry.versions author' name' =
        if author' = author ∧ name' = name then
          (registry.versions author name).bind fun versions =>
            if versions = [version] then none else some (versions.erase version)
        else registry.versions author' name' := by
    intro versions listed absent
    split
    · rename_i same
      have other : versions ≠ [version] := fun single => absent (by simp [single])
      rw [same.1, same.2, listed, Option.bind_some, if_neg other, List.erase_of_not_mem absent]
    · exact rfl
  unfold registryRemoveVersionEx
  cases found : registryFind registry author name with
  | none =>
    have none : registry.versions author name = none := by simp [Registry.versions, found]
    dsimp only
    split
    · rename_i same
      rw [same.1, same.2, none]
      exact rfl
    · exact rfl
  | some entry =>
    have listed : registry.versions author name = some entry.versions := by
      simp [Registry.versions, found]
    dsimp only
    by_cases there : version ∈ entry.versions
    · rw [if_neg (show ¬ (!hasVersion entry.versions version) = true by simp [there]), decrement]
      by_cases single : entry.versions.length = 1
      · rw [if_pos single]
        obtain ⟨only, just⟩ := List.length_eq_one_iff.mp single
        rw [just] at there
        have same := List.mem_singleton.mp there
        rw [listed, Option.bind_some, if_pos (just.trans (same ▸ rfl))]
        unfold Registry.versions
        rw [registryFind_eq, registryFind_eq, Keyed.lookup_remove wellFormed.distinct]
        by_cases here : author' = author ∧ name' = name
        · rw [if_pos (by rw [here.1, here.2]), if_pos here]
          exact rfl
        · rw [if_neg fun eq => here (by simpa using eq), if_neg here]
      · have several : entry.versions ≠ [version] := by
          intro just
          rw [just] at single
          exact single rfl
        have erase : (entry.versions.eraseP fun v => decide (versionCompare v version = 0)) =
            entry.versions.erase version := by
          rw [List.erase_eq_eraseP']
          congr 1
          funext v
          apply Bool.eq_iff_iff.mpr
          simp [versionCompare_eq_zero]
        rw [if_neg single, Registry.setVersions_versions, listed, Option.map_some,
          Option.bind_some, if_neg several, erase]
    · have absent : hasVersion entry.versions version = false :=
        Bool.eq_false_iff.mpr fun has => there (hasVersion_iff.mp has)
      rw [if_pos (show (!hasVersion entry.versions version) = true by rw [absent]; rfl)]
      exact unchanged entry.versions listed there

end ElmWrap
