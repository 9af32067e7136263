import ElmWrap.Lib.Block
import ElmWrap.V2Index.Parse

/-!
# The arrays of a V2 registry

`v2_registry.c` keeps its versions and dependencies in arrays whose capacity it does not
store: each call infers it from the number of elements. Here the arrays are blocks of
memory, and any calls in any order, merges among them, store what the lists of
`ElmWrap.V2Index.Parse` say. An allocation is taken to succeed, and the licenses are left
out as they are there.
-/

namespace ElmWrap.V2Index

open Lib

/-! ## Memory -/

/-- What may go wrong with an array. The second is what a run is watched for, and no check of the
source. -/
inductive ArrayFault
  /-- An element is written behind the end. -/
  | outside
  /-- The capacity that is inferred is not that of the array. -/
  | misjudged
deriving DecidableEq

/-- `V2PackageVersion`. -/
structure StoredVersion where
  major : UInt16
  minor : UInt16
  patch : UInt16
  status : V2VersionStatus
  dependencies : Option (Block V2Dependency)
  dependencyCount : Nat

/-- `V2PackageEntry`. -/
structure StoredEntry where
  author : String
  name : String
  versions : Option (Block StoredVersion)
  versionCount : Nat

/-- `V2Registry`. -/
structure StoredRegistry where
  entries : Block StoredEntry
  entryCount : Nat
  entryCapacity : Nat

/-- `INITIAL_ENTRY_CAPACITY`. -/
def initialEntryCapacity : Nat := 512

/-- `INITIAL_VERSION_CAPACITY`. -/
def initialVersionCapacity : Nat := 8

/-- `INITIAL_DEP_CAPACITY`. -/
def initialDepCapacity : Nat := 16

/-- What `memset` leaves of a version. -/
def clearedVersion : StoredVersion where
  major := 0
  minor := 0
  patch := 0
  status := .valid
  dependencies := none
  dependencyCount := 0

section

variable {α : Type}

/-- An element is written. -/
def storeAt (block : Block α) (i : Nat) (a : α) : Except ArrayFault (Block α) :=
  match block.write i a with
  | some written => .ok written
  | none => .error .outside

/-- What a pointer to an element points to is changed. -/
def changeAt (block : Block α) (count i : Nat) (change : α → Except ArrayFault α) :
    Except ArrayFault (Block α) :=
  match (block.items count)[i]? with
  | some a => do storeAt block i (← change a)
  | none => .ok block

/-- The array to which an element is added, where the capacity is inferred. -/
def arrayWithRoom (initial : Nat) (array : Option (Block α)) (count : Nat) :
    Except ArrayFault (Block α) :=
  match array with
  | none => .ok (.fresh initial)
  | some block =>
    let cap := doubledCapacity initial count
    if cap ≠ block.size then .error .misjudged
    else if cap ≤ count then .ok (block.resize (cap * 2))
    else .ok block

/-- The elements of an array. -/
def arrayItems (array : Option (Block α)) (count : Nat) : List α :=
  match array with
  | none => []
  | some block => block.items count

end

/-! ## The functions -/

/-- `v2_package_add_version`. -/
def v2PackageAddVersion (entry : StoredEntry) : Except ArrayFault StoredEntry := do
  let versions ← arrayWithRoom initialVersionCapacity entry.versions entry.versionCount
  let versions ← storeAt versions entry.versionCount clearedVersion
  return { entry with versions := some versions, versionCount := entry.versionCount + 1 }

/-- `v2_version_add_dependency`. -/
def v2VersionAddDependency (version : StoredVersion) (dependency : V2Dependency) :
    Except ArrayFault StoredVersion := do
  let dependencies ←
    arrayWithRoom initialDepCapacity version.dependencies version.dependencyCount
  let dependencies ← storeAt dependencies version.dependencyCount dependency
  return { version with
    dependencies := some dependencies
    dependencyCount := version.dependencyCount + 1 }

/-- The assignments to the fields of a version. -/
def StoredVersion.assign (version : StoredVersion) (v : Version) (status : V2VersionStatus) :
    StoredVersion :=
  { version with major := v.major, minor := v.minor, patch := v.patch, status := status }

/-- A change of a version of an entry. -/
def StoredEntry.changeVersion (entry : StoredEntry) (i : Nat)
    (change : StoredVersion → Except ArrayFault StoredVersion) :
    Except ArrayFault StoredEntry :=
  match entry.versions with
  | none => .ok entry
  | some block => do
    return { entry with versions := some (← changeAt block entry.versionCount i change) }

namespace StoredRegistry

/-- `v2_registry_create`. -/
def create : StoredRegistry where
  entries := .fresh initialEntryCapacity
  entryCount := 0
  entryCapacity := initialEntryCapacity

/-- A change of an entry of a registry. -/
def changeEntry (registry : StoredRegistry) (i : Nat)
    (change : StoredEntry → Except ArrayFault StoredEntry) :
    Except ArrayFault StoredRegistry := do
  return { registry with entries := (← changeAt registry.entries registry.entryCount i change) }

/-- `v2_registry_add_entry`, with the place of the entry; a merge finds or adds an entry in the same
way. -/
def addEntry (registry : StoredRegistry) (author name : String) :
    Except ArrayFault (StoredRegistry × Nat) :=
  match (registry.entries.items registry.entryCount).findIdx? fun entry =>
      entry.author = author ∧ entry.name = name with
  | some i => .ok (registry, i)
  | none => do
    let (entries, capacity) :=
      if registry.entryCapacity ≤ registry.entryCount then
        (registry.entries.resize (registry.entryCapacity * 2), registry.entryCapacity * 2)
      else (registry.entries, registry.entryCapacity)
    let entries ← storeAt entries registry.entryCount ⟨author, name, none, 0⟩
    return (⟨entries, registry.entryCount + 1, capacity⟩, registry.entryCount)

end StoredRegistry

/-- The loop of `v2_registry_merge_local_dev` over the versions of an entry. -/
def StoredEntry.mergeVersions (mainEntry localEntry : StoredEntry) :
    Except ArrayFault StoredEntry :=
  (arrayItems localEntry.versions localEntry.versionCount).foldlM (fun mainEntry localVer =>
    if (arrayItems mainEntry.versions mainEntry.versionCount).any fun mainVer =>
        mainVer.major = localVer.major ∧ mainVer.minor = localVer.minor ∧
          mainVer.patch = localVer.patch then
      .ok mainEntry
    else do
      let added ← v2PackageAddVersion mainEntry
      added.changeVersion mainEntry.versionCount fun newVer =>
        (arrayItems localVer.dependencies localVer.dependencyCount).foldlM v2VersionAddDependency
          (newVer.assign ⟨localVer.major, localVer.minor, localVer.patch⟩ localVer.status))
    mainEntry

/-- The loop of `v2_registry_merge_local_dev` over the entries. -/
def StoredRegistry.mergeLocalDev (registry localDev : StoredRegistry) :
    Except ArrayFault StoredRegistry :=
  (localDev.entries.items localDev.entryCount).foldlM (fun registry localEntry => do
    let (registry, i) ← registry.addEntry localEntry.author localEntry.name
    registry.changeEntry i (·.mergeVersions localEntry)) registry

/-! ## Calls -/

/-- A call or an assignment. A registry is told by its number, and what a pointer points to by its
place. -/
inductive Call
  | create
  | addEntry (registry : Nat) (author name : String)
  | addVersion (registry entry : Nat)
  | assign (registry entry version : Nat) (v : Version) (status : V2VersionStatus)
  | addDependency (registry entry version : Nat) (dependency : V2Dependency)
  | mergeLocalDev (registry localDev : Nat)

/-- A change of a registry. -/
def changeRegistry (registries : List StoredRegistry) (k : Nat)
    (change : StoredRegistry → Except ArrayFault StoredRegistry) :
    Except ArrayFault (List StoredRegistry) :=
  match registries[k]? with
  | some registry => (change registry).map (registries.set k)
  | none => .ok registries

/-- A call, in memory. -/
def Call.run (registries : List StoredRegistry) : Call → Except ArrayFault (List StoredRegistry)
  | .create => .ok (registries ++ [.create])
  | .addEntry k author name =>
    changeRegistry registries k fun registry => (registry.addEntry author name).map Prod.fst
  | .addVersion k i =>
    changeRegistry registries k fun registry => registry.changeEntry i v2PackageAddVersion
  | .assign k i j v status =>
    changeRegistry registries k fun registry =>
      registry.changeEntry i fun entry =>
        entry.changeVersion j fun version => .ok (version.assign v status)
  | .addDependency k i j dependency =>
    changeRegistry registries k fun registry =>
      registry.changeEntry i fun entry =>
        entry.changeVersion j fun version => v2VersionAddDependency version dependency
  | .mergeLocalDev k l =>
    match registries[l]? with
    | some localDev => changeRegistry registries k fun registry => registry.mergeLocalDev localDev
    | none => .ok registries

/-- A change of an entry, on lists. -/
def changeListedEntry (registry : V2Registry) (i : Nat)
    (change : List V2PackageVersion → List V2PackageVersion) : V2Registry where
  entries := registry.entries.modify i fun entry =>
    { entry with versions := change entry.versions }

/-- A call, on lists. -/
def Call.onLists (registries : List V2Registry) : Call → List V2Registry
  | .create => registries ++ [v2RegistryCreate]
  | .addEntry k author name => registries.modify k (v2RegistryAddEntry · author name)
  | .addVersion k i =>
    registries.modify k (changeListedEntry · i (· ++ [⟨0, 0, 0, .valid, []⟩]))
  | .assign k i j v status =>
    registries.modify k (changeListedEntry · i (·.modify j fun pv =>
      ⟨v.major, v.minor, v.patch, status, pv.dependencies⟩))
  | .addDependency k i j dependency =>
    registries.modify k (changeListedEntry · i (·.modify j fun pv =>
      { pv with dependencies := pv.dependencies ++ [dependency] }))
  | .mergeLocalDev k l =>
    match registries[l]? with
    | some localDev => registries.modify k (mergeV2Entries localDev.entries)
    | none => registries

/-! ## What is stored -/

section

variable {α : Type}

/-- An array holds the items of a list, and its capacity is the one that is inferred. -/
def ArrayHolds (initial : Nat) (array : Option (Block α)) (count : Nat) (items : List α) : Prop :=
  count = items.length ∧
    match array with
    | none => items = []
    | some block => block.Holds items ∧ block.size = doubledCapacity initial count

end

/-- A version is stored. -/
def StoredVersion.Stores (stored : StoredVersion) (pv : V2PackageVersion) : Prop :=
  stored.major = pv.major ∧ stored.minor = pv.minor ∧ stored.patch = pv.patch ∧
    stored.status = pv.status ∧
    ArrayHolds initialDepCapacity stored.dependencies stored.dependencyCount pv.dependencies

/-- An entry is stored. -/
def StoredEntry.Stores (stored : StoredEntry) (entry : V2PackageEntry) : Prop :=
  stored.author = entry.author ∧ stored.name = entry.name ∧
    ∃ versions, ArrayHolds initialVersionCapacity stored.versions stored.versionCount versions ∧
      List.Forall₂ StoredVersion.Stores versions entry.versions

/-- A registry is stored. -/
def StoredRegistry.Stores (stored : StoredRegistry) (registry : V2Registry) : Prop :=
  0 < stored.entryCapacity ∧ stored.entries.size = stored.entryCapacity ∧
    ∃ entries, stored.entries.Holds entries ∧ stored.entryCount = entries.length ∧
      List.Forall₂ StoredEntry.Stores entries registry.entries

section

variable {α β : Type}

theorem ArrayHolds.items {initial count : Nat} {array : Option (Block α)} {items : List α}
    (holds : ArrayHolds initial array count items) : arrayItems array count = items := by
  obtain ⟨rfl, holds⟩ := holds
  cases array with
  | none => exact (show items = [] from holds).symm
  | some block => exact holds.1.items_eq

/-- An element is added: the capacity is inferred rightly, the element is written inside, and the
elements that were there stay. -/
theorem ArrayHolds.add {initial count : Nat} (some_ : 0 < initial) {array : Option (Block α)}
    {items : List α} (holds : ArrayHolds initial array count items) (a : α) :
    ∃ room written, arrayWithRoom initial array count = .ok room ∧
      storeAt room count a = .ok written ∧
      ArrayHolds initial (some written) (count + 1) (items ++ [a]) := by
  -- the array that is written to
  have room : ∃ room, arrayWithRoom initial array count = .ok room ∧ room.Holds items ∧
      count < room.size ∧ room.size = doubledCapacity initial (count + 1) := by
    obtain ⟨rfl, holds⟩ := holds
    cases array with
    | none =>
      obtain rfl : items = [] := holds
      have first : doubledCapacity initial 1 = initial := by
        rw [doubledCapacity, if_neg (by omega)]
      exact ⟨_, rfl, Block.holds_nil _, by simpa using some_, by simpa using first.symm⟩
    | some block =>
      obtain ⟨holds, sized⟩ := holds
      have enough := Lib.le_doubledCapacity some_ items.length
      unfold arrayWithRoom
      dsimp only
      rw [if_neg (fun other => other sized.symm)]
      by_cases full : doubledCapacity initial items.length ≤ items.length
      · rw [if_pos full]
        refine ⟨_, rfl, holds.resize (by omega), ?_, ?_⟩
        · rw [Block.size_resize]
          have positive := Lib.doubledCapacity_pos some_ items.length
          omega
        · rw [Block.size_resize, Lib.doubledCapacity_full some_ full]
      · rw [if_neg full]
        refine ⟨block, rfl, holds, by omega, ?_⟩
        rw [sized, Lib.doubledCapacity_room some_ (by omega)]
  obtain ⟨room, made, held, space, sized⟩ := room
  obtain ⟨rfl, -⟩ := holds
  obtain ⟨written, wrote, same, held'⟩ := held.write space a
  refine ⟨room, written, made, ?_, ?_, held', same.trans sized⟩
  · unfold storeAt
    rw [wrote]
  · rw [List.length_append]
    rfl

/-- A change at one place, in the items of an array and in the list they stand for. -/
theorem forall₂_modify {R : α → β → Prop} {items : List α} {specs : List β}
    (related : List.Forall₂ R items specs) {i : Nat} {a a' : α} (there : items[i]? = some a)
    {f : β → β} (changed : ∀ b, R a b → R a' (f b)) :
    List.Forall₂ R (items.set i a') (specs.modify i f) := by
  induction related generalizing i with
  | nil => cases there
  | cons here later ih =>
    cases i with
    | zero =>
      cases there
      rw [List.set_cons_zero, List.modify_zero_cons]
      exact .cons (changed _ here) later
    | succ i =>
      rw [List.getElem?_cons_succ] at there
      rw [List.set_cons_succ, List.modify_succ_cons]
      exact .cons here (ih there)

/-- The same, for what is changed by a function that may fail. -/
theorem forall₂_change {R : α → β → Prop} {items : List α} {specs : List β}
    (related : List.Forall₂ R items specs) {i : Nat} {a : α} (there : items[i]? = some a)
    {change : α → Except ArrayFault α} {f : β → β}
    (changes : ∀ a b, R a b → ∃ a', change a = .ok a' ∧ R a' (f b)) :
    ∃ a', change a = .ok a' ∧ List.Forall₂ R (items.set i a') (specs.modify i f) := by
  obtain ⟨b, stands⟩ : ∃ b, R a b := by
    obtain ⟨j, bound, rfl⟩ := List.mem_iff_getElem.mp (List.mem_of_getElem? there)
    exact ⟨_, related.get bound (related.length_eq ▸ bound)⟩
  obtain ⟨a', ran, -⟩ := changes a b stands
  refine ⟨a', ran, forall₂_modify related there fun b stands => ?_⟩
  obtain ⟨a'', ran', stands'⟩ := changes a b stands
  cases ran.symm.trans ran'
  exact stands'

theorem forall₂_modify_none {R : α → β → Prop} {items : List α} {specs : List β}
    (related : List.Forall₂ R items specs) {i : Nat} (none_ : items[i]? = none) {f : β → β} :
    List.Forall₂ R items (specs.modify i f) := by
  rw [List.getElem?_eq_none_iff, related.length_eq] at none_
  rwa [List.modify_eq_self none_]

/-- What a pointer to an element points to is changed, and nothing else. -/
theorem changeAt_holds {R : α → β → Prop} {block : Block α} {items : List α} {specs : List β}
    (holds : block.Holds items) (related : List.Forall₂ R items specs) (i : Nat)
    {change : α → Except ArrayFault α} {f : β → β}
    (changes : ∀ a b, R a b → ∃ a', change a = .ok a' ∧ R a' (f b)) :
    ∃ changed items', changeAt block items.length i change = .ok changed ∧
      changed.size = block.size ∧ changed.Holds items' ∧ items'.length = items.length ∧
      List.Forall₂ R items' (specs.modify i f) := by
  unfold changeAt
  rw [holds.items_eq]
  cases there : items[i]? with
  | none => exact ⟨block, items, rfl, rfl, holds, rfl, forall₂_modify_none related there⟩
  | some a =>
    obtain ⟨a', ran, related'⟩ := forall₂_change related there changes
    obtain ⟨written, wrote, sized, held⟩ :=
      holds.set (List.getElem?_eq_some_iff.mp there).1 a'
    refine ⟨written, items.set i a', ?_, sized, held, List.length_set, related'⟩
    dsimp only [Except.bind, bind]
    rw [ran]
    unfold storeAt
    dsimp only
    rw [wrote]

end

/-! ## The functions store what the lists say -/

theorem clearedVersion_stores : clearedVersion.Stores ⟨0, 0, 0, .valid, []⟩ :=
  ⟨rfl, rfl, rfl, rfl, rfl, rfl⟩

theorem addVersion_stores {stored : StoredEntry} {entry : V2PackageEntry}
    (stores : stored.Stores entry) :
    ∃ added, v2PackageAddVersion stored = .ok added ∧
      added.versionCount = stored.versionCount + 1 ∧
      added.Stores { entry with versions := entry.versions ++ [⟨0, 0, 0, .valid, []⟩] } := by
  obtain ⟨author, name, versions, holds, related⟩ := stores
  obtain ⟨room, written, made, wrote, held⟩ := holds.add (by decide) clearedVersion
  refine ⟨{ stored with versions := some written, versionCount := stored.versionCount + 1 },
    ?_, rfl, author, name, versions ++ [clearedVersion], held, ?_⟩
  · unfold v2PackageAddVersion
    dsimp only [bind, Except.bind]
    rw [made]
    dsimp only
    rw [wrote]
    rfl
  · exact List.rel_append related (.cons clearedVersion_stores .nil)

theorem addDependency_stores {stored : StoredVersion} {pv : V2PackageVersion}
    (stores : stored.Stores pv) (dependency : V2Dependency) :
    ∃ added, v2VersionAddDependency stored dependency = .ok added ∧
      added.Stores { pv with dependencies := pv.dependencies ++ [dependency] } := by
  obtain ⟨major, minor, patch, status, holds⟩ := stores
  obtain ⟨room, written, made, wrote, held⟩ := holds.add (by decide) dependency
  refine ⟨{ stored with
    dependencies := some written
    dependencyCount := stored.dependencyCount + 1 }, ?_, major, minor, patch, status, held⟩
  unfold v2VersionAddDependency
  dsimp only [bind, Except.bind]
  rw [made]
  dsimp only
  rw [wrote]
  rfl

theorem addDependencies_stores (dependencies : List V2Dependency) {stored : StoredVersion}
    {pv : V2PackageVersion} (stores : stored.Stores pv) :
    ∃ added, dependencies.foldlM v2VersionAddDependency stored = .ok added ∧
      added.Stores { pv with dependencies := pv.dependencies ++ dependencies } := by
  induction dependencies generalizing stored pv with
  | nil => exact ⟨stored, rfl, by rwa [List.append_nil]⟩
  | cons dependency rest ih =>
    obtain ⟨first, ran, stores⟩ := addDependency_stores stores dependency
    obtain ⟨added, runs, stores⟩ := ih stores
    refine ⟨added, ?_, by rwa [List.append_assoc] at stores⟩
    rw [List.foldlM_cons, ran]
    exact runs

theorem assign_stores {stored : StoredVersion} {pv : V2PackageVersion} (stores : stored.Stores pv)
    (v : Version) (status : V2VersionStatus) :
    (stored.assign v status).Stores ⟨v.major, v.minor, v.patch, status, pv.dependencies⟩ :=
  ⟨rfl, rfl, rfl, rfl, stores.2.2.2.2⟩

theorem changeVersion_stores {stored : StoredEntry} {entry : V2PackageEntry}
    (stores : stored.Stores entry) (i : Nat)
    {change : StoredVersion → Except ArrayFault StoredVersion}
    {f : V2PackageVersion → V2PackageVersion}
    (changes : ∀ version pv, version.Stores pv →
      ∃ version', change version = .ok version' ∧ version'.Stores (f pv)) :
    ∃ changed, stored.changeVersion i change = .ok changed ∧
      changed.Stores { entry with versions := entry.versions.modify i f } := by
  obtain ⟨author, name, versions, ⟨counted, holds⟩, related⟩ := stores
  unfold StoredEntry.changeVersion
  cases array : stored.versions with
  | none =>
    rw [array] at holds
    obtain rfl : versions = [] := holds
    refine ⟨stored, rfl, author, name, [], ⟨counted, by rw [array]⟩, ?_⟩
    exact forall₂_modify_none related rfl
  | some block =>
    rw [array] at holds
    obtain ⟨holds, sized⟩ := holds
    obtain ⟨changed, versions', ran, same, held, length, related'⟩ :=
      changeAt_holds holds related i changes
    dsimp only [bind, Except.bind]
    rw [counted, ran]
    rw [counted] at sized
    exact ⟨_, rfl, author, name, versions', ⟨length.symm, held, same.trans sized⟩, related'⟩

theorem changeEntry_stores {stored : StoredRegistry} {registry : V2Registry}
    (stores : stored.Stores registry) (i : Nat)
    {change : StoredEntry → Except ArrayFault StoredEntry}
    {f : List V2PackageVersion → List V2PackageVersion}
    (changes : ∀ entry pe, StoredEntry.Stores entry pe →
      ∃ entry', change entry = .ok entry' ∧ entry'.Stores { pe with versions := f pe.versions }) :
    ∃ changed, stored.changeEntry i change = .ok changed ∧
      changed.Stores (changeListedEntry registry i f) := by
  obtain ⟨positive, sized, entries, holds, counted, related⟩ := stores
  obtain ⟨changed, entries', ran, same, held, length, related'⟩ :=
    changeAt_holds holds related i changes
  unfold StoredRegistry.changeEntry
  dsimp only [bind, Except.bind]
  rw [counted, ran]
  exact ⟨_, rfl, positive, same.trans sized, entries', held, length.symm, related'⟩

theorem findIdx?_stores {entries : List StoredEntry} {listed : List V2PackageEntry}
    (related : List.Forall₂ StoredEntry.Stores entries listed) (author name : String) :
    (entries.findIdx? fun entry => entry.author = author ∧ entry.name = name) =
      listed.findIdx? fun entry => entry.key = (author, name) := by
  induction related with
  | nil => rfl
  | cons here _ ih =>
    rw [List.findIdx?_cons, List.findIdx?_cons, ih, here.1, here.2.1]
    simp only [V2PackageEntry.key, Prod.mk.injEq]

/-- An entry is found, or written behind the others; its place is that of its key. -/
theorem addEntry_stores {stored : StoredRegistry} {registry : V2Registry}
    (stores : stored.Stores registry) (author name : String) :
    ∃ added i, stored.addEntry author name = .ok (added, i) ∧
      added.Stores (v2RegistryAddEntry registry author name) ∧
      ∀ f, changeListedEntry (v2RegistryAddEntry registry author name) i f =
        (v2RegistryAddEntry registry author name).setVersions (author, name) f := by
  obtain ⟨positive, sized, entries, holds, counted, related⟩ := stores
  have place := findIdx?_stores related author name
  unfold StoredRegistry.addEntry v2RegistryAddEntry
  rw [v2RegistryFind_eq, counted, holds.items_eq, place]
  cases found : registry.entries.findIdx? fun entry => entry.key = (author, name) with
  | some i =>
    have there : Keyed.lookup V2PackageEntry.key (author, name) registry.entries ≠ none :=
      fun none_ => nomatch (Keyed.findIdx?_eq_none.mpr none_).symm.trans found
    obtain ⟨entry, there⟩ := Option.ne_none_iff_exists'.mp there
    rw [there]
    refine ⟨stored, i, rfl, ⟨positive, sized, entries, holds, counted, related⟩, fun f => ?_⟩
    unfold changeListedEntry V2Registry.setVersions
    rw [Keyed.update_eq_modify _ found]
  | none =>
    rw [Keyed.findIdx?_eq_none.mp found]
    -- the array that is written to
    obtain ⟨room, capacity, made, held, space, same⟩ : ∃ room capacity,
        (if stored.entryCapacity ≤ entries.length then
          (stored.entries.resize (stored.entryCapacity * 2), stored.entryCapacity * 2)
        else (stored.entries, stored.entryCapacity)) = (room, capacity) ∧ room.Holds entries ∧
        entries.length < room.size ∧ room.size = capacity := by
      have fits := holds.length_le
      split
      · exact ⟨_, _, rfl, holds.resize (by omega), by rw [Block.size_resize]; omega,
          Block.size_resize _ _⟩
      · exact ⟨_, _, rfl, holds, by omega, sized⟩
    obtain ⟨written, wrote, kept, held'⟩ := held.write space ⟨author, name, none, 0⟩
    have positive' : 0 < capacity := by omega
    dsimp only [bind, Except.bind]
    rw [made]
    unfold storeAt
    dsimp only
    rw [wrote]
    refine ⟨_, _, rfl, ⟨positive', kept.trans same, _, held', ?_, ?_⟩, fun f => ?_⟩
    · rw [List.length_append]
      rfl
    · exact List.rel_append related (.cons ⟨rfl, rfl, [], ⟨rfl, rfl⟩, .nil⟩ .nil)
    · unfold changeListedEntry V2Registry.setVersions
      rw [Keyed.update_eq_modify]
      rw [List.findIdx?_append, found, related.length_eq]
      simp [V2PackageEntry.key]

theorem any_stores {versions : List StoredVersion} {listed : List V2PackageVersion}
    (related : List.Forall₂ StoredVersion.Stores versions listed) (pv : V2PackageVersion) :
    (versions.any fun mainVer =>
        mainVer.major = pv.major ∧ mainVer.minor = pv.minor ∧ mainVer.patch = pv.patch) =
      listed.any fun v => v.version = pv.version := by
  induction related with
  | nil => rfl
  | cons first _ ih =>
    rw [List.any_cons, List.any_cons, ih, first.1, first.2.1, first.2.2.1]
    simp only [V2PackageVersion.version, Version.mk.injEq]

theorem modify_last {α : Type} (items : List α) (a : α) (f : α → α) :
    (items ++ [a]).modify items.length f = items ++ [f a] := by
  induction items with
  | nil => rfl
  | cons b items ih => exact congrArg (b :: ·) ih

/-- A version of the local-dev registry is added with what it says. -/
theorem addMerged_stores {stored : StoredEntry} {entry : V2PackageEntry}
    (stores : stored.Stores entry) (pv : V2PackageVersion) :
    ∃ merged, (do
        let added ← v2PackageAddVersion stored
        added.changeVersion stored.versionCount fun newVer =>
          pv.dependencies.foldlM v2VersionAddDependency
            (newVer.assign ⟨pv.major, pv.minor, pv.patch⟩ pv.status)) = .ok merged ∧
      merged.Stores { entry with versions := entry.versions ++ [pv] } := by
  obtain ⟨added, ran, -, stores'⟩ := addVersion_stores stores
  have changes : ∀ version p, StoredVersion.Stores version p →
      ∃ version', pv.dependencies.foldlM v2VersionAddDependency
        (version.assign ⟨pv.major, pv.minor, pv.patch⟩ pv.status) = .ok version' ∧
      version'.Stores { pv with dependencies := p.dependencies ++ pv.dependencies } :=
    fun version p stores => addDependencies_stores pv.dependencies
      (assign_stores stores ⟨pv.major, pv.minor, pv.patch⟩ pv.status)
  obtain ⟨merged, runs, stores'⟩ := changeVersion_stores stores' stored.versionCount changes
  -- the version that was added is the last one
  obtain ⟨-, -, versions, holds, related⟩ := stores
  rw [holds.1.trans related.length_eq, modify_last] at stores'
  refine ⟨merged, ?_, stores'⟩
  dsimp only [bind, Except.bind]
  rw [ran]
  exact runs

/-- The versions of an entry of the local-dev registry are added, those that are new. -/
theorem mergeVersions_stores {mainEntry localEntry : StoredEntry} {main listed : V2PackageEntry}
    (mainStores : mainEntry.Stores main) (localStores : localEntry.Stores listed) :
    ∃ merged, mainEntry.mergeVersions localEntry = .ok merged ∧
      merged.Stores { main with versions := mergeV2Versions listed.versions main.versions } := by
  obtain ⟨-, -, locals, localHolds, localRelated⟩ := localStores
  unfold StoredEntry.mergeVersions mergeV2Versions
  rw [localHolds.items]
  clear localHolds
  generalize listed.versions = pvs at localRelated ⊢
  induction localRelated generalizing mainEntry main with
  | nil => exact ⟨mainEntry, rfl, mainStores⟩
  | @cons localVer pv _ _ here _ ih =>
    rw [List.foldlM_cons, List.foldl_cons]
    obtain ⟨major, minor, patch, status, dependencies⟩ := here
    obtain ⟨-, -, versions, holds, related⟩ := id mainStores
    rw [holds.items, major, minor, patch, status, dependencies.items,
      any_stores related pv]
    by_cases on : (main.versions.any fun v => v.version = pv.version) = true
    · rw [if_pos on, if_pos on]
      exact ih mainStores
    · rw [if_neg on, if_neg on]
      obtain ⟨first, ran, stores⟩ := addMerged_stores mainStores pv
      obtain ⟨merged, rest, stores⟩ := ih stores
      refine ⟨merged, ?_, stores⟩
      rw [ran]
      exact rest

theorem mergeLocalDev_stores {stored storedLocal : StoredRegistry}
    {registry localDev : V2Registry} (stores : stored.Stores registry)
    (localStores : storedLocal.Stores localDev) :
    ∃ merged, stored.mergeLocalDev storedLocal = .ok merged ∧
      merged.Stores (mergeV2Entries localDev.entries registry) := by
  obtain ⟨-, -, locals, localHolds, counted, localRelated⟩ := localStores
  unfold StoredRegistry.mergeLocalDev mergeV2Entries
  rw [counted, localHolds.items_eq]
  clear localHolds counted
  generalize localDev.entries = entries at localRelated ⊢
  induction localRelated generalizing stored registry with
  | nil => exact ⟨stored, rfl, stores⟩
  | @cons localEntry entry _ _ here _ ih =>
    rw [List.foldlM_cons, List.foldl_cons]
    obtain ⟨added, i, ran, stores, place⟩ :=
      addEntry_stores stores localEntry.author localEntry.name
    obtain ⟨changed, runs, stores⟩ := changeEntry_stores stores i
      fun mainEntry main mainStores => mergeVersions_stores mainStores here
    rw [place, here.1, here.2.1] at stores
    obtain ⟨merged, rest, stores⟩ := ih stores
    refine ⟨merged, ?_, stores⟩
    dsimp only [bind, Except.bind]
    rw [ran]
    dsimp only
    rw [runs]
    exact rest

/-! ## Runs -/

theorem create_stores : StoredRegistry.create.Stores v2RegistryCreate :=
  ⟨by decide, Block.size_fresh _, [], Block.holds_nil _, rfl, .nil⟩

theorem changeRegistry_stores {stored : List StoredRegistry} {registries : List V2Registry}
    (stores : List.Forall₂ StoredRegistry.Stores stored registries) (k : Nat)
    {change : StoredRegistry → Except ArrayFault StoredRegistry} {f : V2Registry → V2Registry}
    (changes : ∀ a b, StoredRegistry.Stores a b → ∃ a', change a = .ok a' ∧ a'.Stores (f b)) :
    ∃ changed, changeRegistry stored k change = .ok changed ∧
      List.Forall₂ StoredRegistry.Stores changed (registries.modify k f) := by
  unfold changeRegistry
  cases there : stored[k]? with
  | none => exact ⟨stored, rfl, forall₂_modify_none stores there⟩
  | some a =>
    obtain ⟨a', ran, stores'⟩ := forall₂_change stores there changes
    dsimp only
    rw [ran]
    exact ⟨_, rfl, stores'⟩

/-- A call goes well, and stores what the lists say after it. -/
theorem Call.run_stores {stored : List StoredRegistry} {registries : List V2Registry}
    (stores : List.Forall₂ StoredRegistry.Stores stored registries) (call : Call) :
    ∃ after, call.run stored = .ok after ∧
      List.Forall₂ StoredRegistry.Stores after (call.onLists registries) := by
  cases call with
  | create => exact ⟨_, rfl, List.rel_append stores (.cons create_stores .nil)⟩
  | addEntry k author name =>
    refine changeRegistry_stores stores k fun a b stores => ?_
    obtain ⟨added, i, ran, stores, -⟩ := addEntry_stores stores author name
    exact ⟨added, by rw [ran]; rfl, stores⟩
  | addVersion k i =>
    refine changeRegistry_stores stores k fun a b stores => ?_
    refine changeEntry_stores stores i fun entry pe stores => ?_
    obtain ⟨added, ran, -, stores⟩ := addVersion_stores stores
    exact ⟨added, ran, stores⟩
  | assign k i j v status =>
    refine changeRegistry_stores stores k fun a b stores => ?_
    refine changeEntry_stores stores i fun entry pe stores => ?_
    exact changeVersion_stores stores j fun version pv stores =>
      ⟨_, rfl, assign_stores stores v status⟩
  | addDependency k i j dependency =>
    refine changeRegistry_stores stores k fun a b stores => ?_
    refine changeEntry_stores stores i fun entry pe stores => ?_
    exact changeVersion_stores stores j fun version pv stores =>
      addDependency_stores stores dependency
  | mergeLocalDev k l =>
    unfold Call.run Call.onLists
    dsimp only
    cases there : stored[l]? with
    | none =>
      rw [List.getElem?_eq_none_iff, stores.length_eq, ← List.getElem?_eq_none_iff] at there
      rw [there]
      exact ⟨stored, rfl, stores⟩
    | some storedLocal =>
      obtain ⟨bound, rfl⟩ := List.getElem?_eq_some_iff.mp there
      have bound' := stores.length_eq ▸ bound
      rw [List.getElem?_eq_getElem bound']
      exact changeRegistry_stores stores k fun a b stores' =>
        mergeLocalDev_stores stores' (stores.get bound bound')

theorem run_stores (calls : List Call) {stored : List StoredRegistry}
    {registries : List V2Registry}
    (stores : List.Forall₂ StoredRegistry.Stores stored registries) :
    ∃ after, calls.foldlM Call.run stored = .ok after ∧
      List.Forall₂ StoredRegistry.Stores after (calls.foldl Call.onLists registries) := by
  induction calls generalizing stored registries with
  | nil => exact ⟨stored, rfl, stores⟩
  | cons call rest ih =>
    obtain ⟨first, ran, stores⟩ := call.run_stores stores
    obtain ⟨after, runs, stores⟩ := ih stores
    refine ⟨after, ?_, stores⟩
    rw [List.foldlM_cons, ran]
    exact runs

/-- In any calls, in any order, with any merges among them, every element is written inside its
array, every capacity is inferred rightly, and the arrays hold what the lists say: what was there
and what was added. -/
theorem calls_store (calls : List Call) :
    ∃ stored, calls.foldlM Call.run [] = .ok stored ∧
      List.Forall₂ StoredRegistry.Stores stored (calls.foldl Call.onLists []) :=
  run_stores calls .nil

end ElmWrap.V2Index
