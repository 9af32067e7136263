import ElmWrap.Registry.Stored

/-!
# Local development packages in `registry.dat`

`ensure_local_dev_in_registry_dat` and `remove_local_dev_from_registry_dat` of
`install_local_dev.c`. Registering a version does nothing where the registry has
it; unregistering takes it out, whoever has put it in.
-/

namespace ElmWrap

open Lib Lib.Binary

/-! ## The two operations -/

/-- The registry `ensure_local_dev_in_registry_dat` starts from; `none` where the file cannot be
loaded. -/
def storedRegistry (disk : Option Bytes) : Option Registry :=
  match disk with
  | none => some registryCreate
  | some bytes => registryLoadFromDat bytes

/-- `ensure_local_dev_in_registry_dat`: the file, and what it returns. -/
def ensureLocalDevInRegistryDat (disk : Option Bytes) (package : PackageName) (version : String) :
    Option Bytes × Bool :=
  match storedRegistry disk with
  | none => (disk, false)
  | some registry =>
    let added := registryAddVersionEx registry package.author package.project
      (versionParse version) false
    if !added.ok then (disk, false)
    else if added.changed then
      match registryDatWrite (registrySortEntries added.registry) with
      | none => (disk, false)
      | some bytes => (some bytes, true)
    else (disk, true)

/-- `remove_local_dev_from_registry_dat`. -/
def removeLocalDevFromRegistryDat (disk : Option Bytes) (package : PackageName)
    (version : String) : Option Bytes :=
  match disk with
  | none => none
  | some bytes =>
    match registryLoadFromDat bytes with
    | none => disk
    | some registry =>
      let removed := registryRemoveVersionEx registry package.author package.project
        (versionParse version) false
      if !removed.ok then disk
      else if removed.changed then
        match registryDatWrite (registrySortEntries removed.registry) with
        | none => disk
        | some bytes => some bytes
      else disk

/-- What `unregister_local_dev_package` meets at the tracking directory of the version. -/
inductive LocalDevTracking
  | missing
  | removed
  | stuck
deriving DecidableEq

/-- `unregister_local_dev_package` for a package that is named in its `elm.json`: the exit code and
the file. -/
def unregisterLocalDevPackage (tracking : LocalDevTracking) (disk : Option Bytes)
    (package : PackageName) (version : String) : Nat × Option Bytes :=
  match tracking with
  | .stuck => (1, disk)
  | .missing | .removed => (0, removeLocalDevFromRegistryDat disk package version)

/-! ## Registries that can be stored -/

/-- A registry that can be written and read back. -/
structure Registry.Kept (registry : Registry) : Prop where
  wellFormed : registry.WellFormed
  populated : registry.Populated
  names : ∀ k ∈ registry.entries.map RegistryEntry.key,
    ShortCString (ofLex k).1 ∧ ShortCString (ofLex k).2
  fits : registry.entries.length ≤ sizeMax / sizeofRegistryEntry

theorem Registry.Kept.stored {registry : Registry} (kept : registry.Kept) :
    ∃ bytes, registryDatWrite (registrySortEntries registry) = some bytes ∧
      registryLoadFromDat bytes = some (registrySortEntries registry) := by
  have sorted : (registrySortEntries registry).entries.Perm registry.entries := by
    rw [registrySortEntries_eq]
    exact Keyed.perm_sortBy _
  have nonempty := (Registry.populated_iff kept.wellFormed).mp kept.populated
  have writable : (registryDatWrite (registrySortEntries registry)).isSome = true := by
    rw [registryDatWrite_isSome]
    intro entry member
    exact nonempty entry (sorted.mem_iff.mp member)
  obtain ⟨bytes, written⟩ := Option.isSome_iff_exists.mp writable
  refine ⟨bytes, written, ?_⟩
  have storable : ∀ entry ∈ (registrySortEntries registry).entries, entry.Storable := by
    intro entry member
    have there := sorted.mem_iff.mp member
    have names := kept.names entry.key (List.mem_map_of_mem there)
    exact {
      author := names.1
      name := names.2
      versions := length_le_of_descending (kept.wellFormed.descending entry there) }
  rw [registryLoadFromDat_of_write storable kept.wellFormed.counted
    (sorted.length_eq.trans_le kept.fits) written]
  rw [(Registry.sorted_sort kept.wellFormed).sort_eq]

theorem Registry.kept_create : registryCreate.Kept where
  wellFormed := Registry.WellFormed.create
  populated := by
    intro author name bare
    cases bare
  names := by
    intro k member
    cases member
  fits := Nat.zero_le _

/-- What is stored, if it is well-formed, can be written again and is sorted. -/
theorem Registry.kept_of_stored {disk : Option Bytes} {registry : Registry}
    (stored : storedRegistry disk = some registry) (wellFormed : registry.WellFormed) :
    registry.Kept ∧ registry.Sorted := by
  cases disk with
  | none =>
    cases stored
    exact ⟨Registry.kept_create, List.Pairwise.nil⟩
  | some bytes =>
    obtain ⟨each, fits, sorted⟩ := registryLoadFromDat_some stored
    refine ⟨⟨wellFormed, ?_, ?_, fits⟩, ?_⟩
    · rw [Registry.populated_iff wellFormed]
      intro entry member
      exact (each entry member).2.2
    · intro k member
      obtain ⟨entry, there, rfl⟩ := List.mem_map.mp member
      exact ⟨(each entry there).1, (each entry there).2.1⟩
    · rw [← sorted]
      exact Registry.sorted_sort wellFormed

/-! ## What the operations do to a stored registry -/

theorem registryAddEntry_keys (registry : Registry) (author name : String) :
    (registryAddEntry registry author name).entries.map RegistryEntry.key =
        registry.entries.map RegistryEntry.key ∨
      (registryAddEntry registry author name).entries.map RegistryEntry.key =
        registry.entries.map RegistryEntry.key ++ [toLex (author, name)] := by
  unfold registryAddEntry
  split
  · exact Or.inl rfl
  · apply Or.inr
    rw [List.map_append]
    rfl

theorem registryAddVersionEx_keys (registry : Registry) (author name : String)
    (version : Version) (countForSince : Bool) :
    (registryAddVersionEx registry author name version countForSince).registry.entries.map
        RegistryEntry.key =
      (registryAddEntry registry author name).entries.map RegistryEntry.key := by
  rw [registryAddVersionEx_eq]
  split
  · rfl
  · unfold Registry.setVersions
    dsimp only
    apply Keyed.map_update
    intro entry
    rfl

theorem registryRemoveVersionEx_keys (registry : Registry) (author name : String)
    (version : Version) :
    ((registryRemoveVersionEx registry author name version false).registry.entries.map
        RegistryEntry.key).Sublist (registry.entries.map RegistryEntry.key) := by
  unfold registryRemoveVersionEx
  split
  · exact List.Sublist.refl _
  · split
    · exact List.Sublist.refl _
    · dsimp only
      rw [Bool.false_and, if_neg Bool.false_ne_true]
      split
      · exact (List.eraseP_sublist).map RegistryEntry.key
      · unfold Registry.setVersions
        dsimp only
        rw [Keyed.map_update]
        intro entry
        rfl

theorem Registry.Kept.addVersionEx {registry : Registry} (kept : registry.Kept)
    (room : registry.entries.length < sizeMax / sizeofRegistryEntry) (package : PackageName)
    (version : Version) :
    (registryAddVersionEx registry package.author package.project version false).registry.Kept where
  wellFormed := kept.wellFormed.addVersionEx package.author package.project version false
  populated := by
    intro author name bare
    rw [Registry.bare_addVersionEx] at bare
    exact kept.populated author name bare.1
  names := by
    rw [registryAddVersionEx_keys]
    rcases registryAddEntry_keys registry package.author package.project with same | more
    · rw [same]
      exact kept.names
    · rw [more]
      intro k member
      rcases List.mem_append.mp member with old | new
      · exact kept.names k old
      · rw [List.mem_singleton.mp new]
        exact ⟨package.author_short, package.project_short⟩
  fits := by
    have keys := congrArg List.length
      (registryAddVersionEx_keys registry package.author package.project version false)
    rw [List.length_map, List.length_map] at keys
    rcases registryAddEntry_keys registry package.author package.project with same | more
    · have count := congrArg List.length same
      rw [List.length_map, List.length_map] at count
      omega
    · have count := congrArg List.length more
      rw [List.length_map, List.length_append, List.length_map, List.length_singleton] at count
      omega

theorem Registry.Kept.removeVersionEx {registry : Registry} (kept : registry.Kept)
    (author name : String) (version : Version) :
    (registryRemoveVersionEx registry author name version false).registry.Kept where
  wellFormed := kept.wellFormed.removeVersionEx author name version false
  populated := by
    intro author' name' bare
    exact kept.populated author' name' (bare.of_removeVersionEx kept.wellFormed)
  names := by
    intro k member
    exact kept.names k ((registryRemoveVersionEx_keys registry author name version).mem member)
  fits := by
    have fewer := (registryRemoveVersionEx_keys registry author name version).length_le
    rw [List.length_map, List.length_map] at fewer
    exact fewer.trans kept.fits

theorem Registry.has_sort {registry : Registry} (wellFormed : registry.WellFormed)
    {author name : String} {version : Version} :
    (registrySortEntries registry).Has author name version ↔ registry.Has author name version := by
  unfold Has
  rw [versions_sort wellFormed]

theorem Registry.has_removeVersionEx {registry : Registry} (wellFormed : registry.WellFormed)
    {author name author' name' : String} {version version' : Version} :
    (registryRemoveVersionEx registry author name version false).registry.Has author' name'
        version' ↔
      registry.Has author' name' version' ∧
        ¬ (author' = author ∧ name' = name ∧ version' = version) := by
  unfold Has
  rw [registryRemoveVersionEx_versions wellFormed]
  by_cases same : author' = author ∧ name' = name
  · rw [if_pos same, same.1, same.2]
    cases listed : registry.versions author name with
    | none => simp
    | some versions =>
      have nodup := (wellFormed.versions_descending listed).nodup
      rw [Option.bind_some, Option.getD_some]
      split
      · rename_i only
        rw [only]
        simp
      · rw [Option.getD_some, nodup.mem_erase_iff]
        constructor
        · intro both
          exact ⟨both.2, fun all => both.1 all.2.2⟩
        · intro both
          exact ⟨fun eq => both.2 ⟨rfl, rfl, eq⟩, both.1⟩
  · rw [if_neg same]
    constructor
    · intro listed
      exact ⟨listed, fun all => same ⟨all.1, all.2.1⟩⟩
    · exact And.left

/-- A version that is there is taken out, and the counter stays. -/
theorem registryRemoveVersionEx_listed {registry : Registry} {author name : String}
    {version : Version} (listed : registry.Has author name version) :
    (registryRemoveVersionEx registry author name version false).ok = true ∧
      (registryRemoveVersionEx registry author name version false).changed = true ∧
      (registryRemoveVersionEx registry author name version false).registry.sinceCount =
        registry.sinceCount := by
  unfold Registry.Has Registry.versions at listed
  unfold registryRemoveVersionEx
  cases found : registryFind registry author name with
  | none =>
    rw [found] at listed
    cases listed
  | some entry =>
    rw [found] at listed
    have known : hasVersion entry.versions version = true := hasVersion_iff.mpr listed
    dsimp only
    rw [known, Bool.false_and, if_neg (by simp), if_neg (by simp)]
    refine ⟨rfl, rfl, ?_⟩
    dsimp only
    split
    · rfl
    · rfl

/-! ## Registering and unregistering -/

/-- After a registration the stored registry has the version; it is the one of before if it had
it. -/
theorem ensureLocalDevInRegistryDat_stored {disk : Option Bytes} {registry : Registry}
    (stored : storedRegistry disk = some registry) (wellFormed : registry.WellFormed)
    (room : registry.entries.length < sizeMax / sizeofRegistryEntry) (package : PackageName)
    (version : String) :
    ∃ after, (ensureLocalDevInRegistryDat disk package version).2 = true ∧
      storedRegistry (ensureLocalDevInRegistryDat disk package version).1 = some after ∧
      after.WellFormed ∧ after.sinceCount = registry.sinceCount ∧
      ∀ author name v, after.Has author name v ↔ registry.Has author name v ∨
        package.author = author ∧ package.project = name ∧ versionParse version = v := by
  obtain ⟨kept, _⟩ := Registry.kept_of_stored stored wellFormed
  unfold ensureLocalDevInRegistryDat
  rw [stored]
  dsimp only
  rw [if_neg (by simp)]
  by_cases known : registry.Has package.author package.project (versionParse version)
  · rw [registryAddVersionEx_known false known]
    refine ⟨registry, rfl, stored, wellFormed, rfl, ?_⟩
    intro author name v
    constructor
    · exact Or.inl
    · intro listed
      rcases listed with old | ⟨rfl, rfl, rfl⟩
      · exact old
      · exact known
  · have added := kept.addVersionEx room package (versionParse version)
    have changed : (registryAddVersionEx registry package.author package.project
        (versionParse version) false).changed = true := by
      unfold Registry.Has at known
      rw [registryAddVersionEx_eq, if_neg known]
    obtain ⟨bytes, written, loaded⟩ := added.stored
    rw [if_pos changed, written]
    refine ⟨_, rfl, loaded, added.wellFormed.sorted, ?_, ?_⟩
    · exact registryAddVersionEx_uncounted registry _ _ _
    · intro author name v
      rw [Registry.has_sort added.wellFormed, Registry.has_addVersionEx]

/-- After the removal of a version the stored registry has all other versions of before. -/
theorem removeLocalDevFromRegistryDat_stored {disk : Option Bytes} {registry : Registry}
    (stored : storedRegistry disk = some registry) (wellFormed : registry.WellFormed)
    {package : PackageName} {version : String}
    (listed : registry.Has package.author package.project (versionParse version)) :
    ∃ after, storedRegistry (removeLocalDevFromRegistryDat disk package version) = some after ∧
      after.WellFormed ∧ after.sinceCount = registry.sinceCount ∧
      ∀ author name v, after.Has author name v ↔ registry.Has author name v ∧
        ¬ (author = package.author ∧ name = package.project ∧ v = versionParse version) := by
  obtain ⟨kept, _⟩ := Registry.kept_of_stored stored wellFormed
  cases disk with
  | none =>
    cases stored
    cases listed
  | some bytes =>
    have loaded : registryLoadFromDat bytes = some registry := stored
    have removed := kept.removeVersionEx package.author package.project (versionParse version)
    have facts := registryRemoveVersionEx_listed listed
    obtain ⟨after, written, back⟩ := removed.stored
    unfold removeLocalDevFromRegistryDat
    dsimp only
    rw [loaded]
    dsimp only
    rw [if_neg (by simp [facts.1]), if_pos facts.2.1, written]
    refine ⟨_, back, removed.wellFormed.sorted, facts.2.2, ?_⟩
    intro author name v
    rw [Registry.has_sort removed.wellFormed, Registry.has_removeVersionEx wellFormed]

/-- Registering a version and unregistering it leaves the stored registry as it was, exactly if the
registry did not have the version. -/
theorem unregisterLocalDevPackage_restores {disk : Option Bytes} {registry : Registry}
    (stored : storedRegistry disk = some registry) (wellFormed : registry.WellFormed)
    (room : registry.entries.length < sizeMax / sizeofRegistryEntry) {package : PackageName}
    {version : String} {tracking : LocalDevTracking} {final : Option Bytes}
    (unregistered : unregisterLocalDevPackage tracking
      (ensureLocalDevInRegistryDat disk package version).1 package version = (0, final)) :
    storedRegistry final = some registry ↔
      ¬ registry.Has package.author package.project (versionParse version) := by
  have removal : final = removeLocalDevFromRegistryDat
      (ensureLocalDevInRegistryDat disk package version).1 package version := by
    unfold unregisterLocalDevPackage at unregistered
    cases tracking with
    | stuck => cases unregistered
    | missing => exact (congrArg Prod.snd unregistered).symm
    | removed => exact (congrArg Prod.snd unregistered).symm
  obtain ⟨between, _, registered, fine, count, contents⟩ :=
    ensureLocalDevInRegistryDat_stored stored wellFormed room package version
  obtain ⟨after, back, good, same, left⟩ := removeLocalDevFromRegistryDat_stored registered fine
    ((contents _ _ _).mpr (Or.inr ⟨rfl, rfl, rfl⟩))
  rw [removal, back]
  constructor
  · intro restored known
    rw [Option.some.inj restored] at left
    exact ((left _ _ _).mp known).2 ⟨rfl, rfl, rfl⟩
  · intro new
    obtain ⟨kept, sorted⟩ := Registry.kept_of_stored stored wellFormed
    obtain ⟨afterKept, afterSorted⟩ := Registry.kept_of_stored back good
    congr 1
    apply Registry.ext_has good wellFormed afterSorted sorted afterKept.populated kept.populated
      (same.trans count)
    intro author name v
    rw [left, contents]
    constructor
    · intro both
      rcases both.1 with old | ⟨rfl, rfl, rfl⟩
      · exact old
      · exact absurd ⟨rfl, rfl, rfl⟩ both.2
    · intro old
      refine ⟨Or.inl old, ?_⟩
      intro here
      obtain ⟨rfl, rfl, rfl⟩ := here
      exact new old

/-- `elm/json` has been published; `elm/core` has not. -/
def publishedRegistry : Registry :=
  (registryAddVersion registryCreate "elm" "json" ⟨1, 1, 3⟩).registry

/-- The file with this registry. -/
def publishedDat : Option Bytes := registryDatWrite publishedRegistry

theorem publishedDat_stored : storedRegistry publishedDat = some publishedRegistry := by
  decide

theorem publishedRegistry_wellFormed : publishedRegistry.WellFormed :=
  Registry.WellFormed.create.addVersionEx "elm" "json" ⟨1, 1, 3⟩ true

/-- `elm/json`. -/
def publishedPackage : PackageName := elmJsonPackage

/-- A version that has not been published. -/
theorem unregisterLocalDevPackage_restores_new :
    storedRegistry (unregisterLocalDevPackage .missing
      (ensureLocalDevInRegistryDat publishedDat publishedPackage "1.2.0").1
        publishedPackage "1.2.0").2 = some publishedRegistry :=
  (@unregisterLocalDevPackage_restores publishedDat publishedRegistry publishedDat_stored
    publishedRegistry_wellFormed (by decide) publishedPackage "1.2.0" .missing _ rfl).mpr
    (by decide)

/-- A published version is taken out of the registry. -/
theorem unregisterLocalDevPackage_restores_fails :
    ¬ ∀ (disk final : Option Bytes) (registry : Registry) (package : PackageName)
      (version : String) (tracking : LocalDevTracking),
        storedRegistry disk = some registry → registry.WellFormed →
        registry.entries.length < sizeMax / sizeofRegistryEntry →
        unregisterLocalDevPackage tracking (ensureLocalDevInRegistryDat disk package version).1
          package version = (0, final) →
        storedRegistry final = some registry := by
  intro claim
  have restored := claim publishedDat _ publishedRegistry publishedPackage "1.1.3" .missing
    publishedDat_stored publishedRegistry_wellFormed (by decide) rfl
  revert restored
  decide

end ElmWrap
