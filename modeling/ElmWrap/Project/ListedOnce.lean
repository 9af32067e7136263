import ElmWrap.Project.Operations
import ElmWrap.Remove.Needed

/-!
# Every package in one map

No command lists a package of an application in a second map, except an install
with `--test` of a production dependency, which the command is written for.
-/

namespace ElmWrap

open Lib

/-! ## Listed names -/

theorem ElmJson.listsName_update (elmJson : ElmJson) (field : ElmJsonMap) (name : PackageName)
    (version : String) (other : ElmJsonMap) (p : PackageName) :
    (elmJson.setMap field (packageMapUpdate (elmJson.maps field) name version)).ListsName other p ↔
      elmJson.ListsName other p := by
  unfold ListsName
  rw [setMap_maps]
  split
  · rename_i here
    rw [here, List.mem_map, List.mem_map]
    constructor
    · intro found
      obtain ⟨q, member, same⟩ := found
      rcases packageMapUpdate_mem.mp member with ⟨_, old⟩ | ⟨rfl, listed⟩
      · exact ⟨q, old, same⟩
      · rw [← same]
        exact List.mem_map.mp listed
    · intro found
      obtain ⟨q, member, same⟩ := found
      by_cases this : q.name = name
      · exact ⟨⟨name, version⟩,
          packageMapUpdate_mem.mpr (Or.inr ⟨rfl, this ▸ List.mem_map_of_mem member⟩),
          this.symm.trans same⟩
      · exact ⟨q, packageMapUpdate_mem.mpr (Or.inl ⟨this, member⟩), same⟩
  · exact Iff.rfl

theorem ElmJson.listsName_add (elmJson : ElmJson) (field : ElmJsonMap) (name : PackageName)
    (version : String) (other : ElmJsonMap) (p : PackageName) :
    (elmJson.setMap field ((elmJson.maps field).add name version)).ListsName other p ↔
      elmJson.ListsName other p ∨ (other = field ∧ p = name) := by
  unfold ListsName
  rw [setMap_maps]
  split
  · rename_i here
    rw [here]
    apply PackageMap.mem_names_add.trans
    simp [PackageMap.names]
  · rename_i apart
    simp [apart]

variable {name : PackageName} {elmJson changed moved : ElmJson}

theorem ElmJson.listsName_move {version : String} {source target : ElmJsonMap} (field : ElmJsonMap)
    (p : PackageName) :
    (elmJson.move name version source target).ListsName field p ↔
      (elmJson.ListsName field p ∨ (field = target ∧ p = name)) ∧
        ¬ (field = source ∧ p = name) := by
  have added := elmJson.listsName_add target name version field p
  unfold move
  dsimp only
  unfold ListsName at added ⊢
  rw [setMap_maps (elmJson.setMap target _)]
  split
  · rename_i here
    subst here
    rw [← added, List.mem_map, List.mem_map]
    constructor
    · intro found
      obtain ⟨q, member, same⟩ := found
      obtain ⟨on, other⟩ := mem_packageMapRemove.mp member
      exact ⟨⟨q, on, same⟩, fun both => other (same.trans both.2)⟩
    · intro both
      obtain ⟨⟨q, on, same⟩, apart⟩ := both
      refine ⟨q, mem_packageMapRemove.mpr ⟨on, ?_⟩, same⟩
      intro other
      exact apart ⟨rfl, same.symm.trans other⟩
  · rename_i apart
    rw [added]
    simp [apart]

@[simp] theorem ElmJson.listsName_sortMaps (elmJson : ElmJson) (field : ElmJsonMap)
    (p : PackageName) : elmJson.sortMaps.ListsName field p ↔ elmJson.ListsName field p := by
  unfold ListsName
  rw [List.mem_map, List.mem_map]
  simp

/-- A package that fewer maps list is still listed once. -/
theorem ElmJson.ListsOnce.of_subset {elmJson other : ElmJson} (once : elmJson.ListsOnce name)
    (type : other.type = elmJson.type)
    (subset : ∀ field ∈ elmJson.type.maps, other.ListsName field name →
      elmJson.ListsName field name) : other.ListsOnce name := by
  intro left used right also first second
  rw [type] at used also
  exact once left used right also (subset left used first) (subset right also second)

/-- So is one that only one map can list. -/
theorem ElmJson.listsOnce_of_field {elmJson : ElmJson} {name : PackageName} {target : ElmJsonMap}
    (only : ∀ field ∈ elmJson.type.maps, elmJson.ListsName field name → field = target) :
    elmJson.ListsOnce name := by
  intro left used right also first second
  rw [only left used first, only right also second]

/-! ## Changes that list no package a second time -/

/-- The type stays, and what is listed once stays listed once. -/
structure ElmJson.KeepsOnce (elmJson changed : ElmJson) : Prop where
  type : changed.type = elmJson.type
  once : ∀ name, elmJson.ListsOnce name → changed.ListsOnce name

theorem ElmJson.KeepsOnce.refl (elmJson : ElmJson) : elmJson.KeepsOnce elmJson :=
  ⟨rfl, fun _ once => once⟩

theorem ElmJson.KeepsOnce.trans {first second third : ElmJson} (left : first.KeepsOnce second)
    (right : second.KeepsOnce third) : first.KeepsOnce third :=
  ⟨right.type.trans left.type, fun name once => right.once name (left.once name once)⟩

theorem ElmJson.KeepsOnce.of_names (type : changed.type = elmJson.type)
    (names : ∀ field name, changed.ListsName field name → elmJson.ListsName field name) :
    elmJson.KeepsOnce changed :=
  ⟨type, fun name once => once.of_subset type fun field _ => names field name⟩

theorem ElmJson.keepsOnce_sortMaps (elmJson : ElmJson) : elmJson.KeepsOnce elmJson.sortMaps :=
  .of_names rfl fun field name => (elmJson.listsName_sortMaps field name).mp

theorem ElmJson.keepsOnce_update (elmJson : ElmJson) (field : ElmJsonMap) (name : PackageName)
    (version : String) :
    elmJson.KeepsOnce
      (elmJson.setMap field (packageMapUpdate (elmJson.maps field) name version)) :=
  .of_names rfl fun other p => (elmJson.listsName_update field name version other p).mp

/-- Moving a package that only the source can list. -/
theorem ElmJson.keepsOnce_move {version : String} {source target : ElmJsonMap}
    (used : source ∈ elmJson.type.maps) (listed : elmJson.ListsName source name) :
    elmJson.KeepsOnce (elmJson.move name version source target) := by
  refine ⟨rfl, ?_⟩
  intro other once
  by_cases same : other = name
  · subst same
    apply @ElmJson.listsOnce_of_field _ _ target
    intro field here moved
    obtain ⟨old | ⟨there, _⟩, away⟩ := (ElmJson.listsName_move field other).mp moved
    · exact absurd ⟨once field here source used old listed, rfl⟩ away
    · exact there
  · apply ElmJson.ListsOnce.of_subset once
    · rfl
    · intro field _ moved
      obtain ⟨old | ⟨_, here⟩, _⟩ := (ElmJson.listsName_move field other).mp moved
      · exact old
      · exact absurd here same

theorem elmJsonPromotePackage_keepsOnce {elmJson promoted : ElmJson}
    (result : elmJsonPromotePackage elmJson name = some promoted) :
    elmJson.KeepsOnce promoted := by
  obtain ⟨source, target, version, used, _, _, entry, rfl⟩ := elmJsonPromotePackage_some result
  exact ElmJson.keepsOnce_move used (ElmJson.ListsName.of_mem entry)

theorem packageMapAdd_eq {map added : PackageMap} {version : String}
    (result : packageMapAdd map name version = some added) : added = map.add name version := by
  unfold PackageMap.add
  rw [result]
  rfl

/-- A package that no map lists is added to one. -/
theorem ElmJson.keepsOnce_add (absent : ∀ field ∈ elmJson.type.maps, ¬ elmJson.ListsName field name)
    (field : ElmJsonMap) (version : String) :
    elmJson.KeepsOnce (elmJson.setMap field ((elmJson.maps field).add name version)) := by
  refine ⟨rfl, ?_⟩
  intro other once
  by_cases same : other = name
  · subst same
    apply @ElmJson.listsOnce_of_field _ _ field
    intro there used listed
    rcases (elmJson.listsName_add field other version there other).mp listed with old | ⟨here, _⟩
    · exact absurd old (absent there used)
    · exact here
  · apply ElmJson.ListsOnce.of_subset once
    · rfl
    · intro there _ listed
      rcases (elmJson.listsName_add field name version there other).mp listed with old | ⟨_, here⟩
      · exact old
      · exact absurd here same

theorem addOrUpdatePackageInElmJson_keepsOnce {version : String} {isTest isDirect : Bool}
    (result : addOrUpdatePackageInElmJson elmJson name version isTest isDirect = some changed) :
    elmJson.KeepsOnce changed := by
  unfold addOrUpdatePackageInElmJson at result
  dsimp only at result
  split at result
  · cases result
    exact elmJson.keepsOnce_update _ _ _
  · rename_i missing
    obtain ⟨map, added, rfl⟩ := Option.map_eq_some_iff.mp result
    rw [packageMapAdd_eq added]
    exact ElmJson.keepsOnce_add (fun field used => findPackageMap_none missing used) _ _

theorem applyChange_keepsOnce {requested : List PackageName} {isTest : Bool}
    {change : PackageChange} (result : applyChange requested isTest elmJson change = some changed) :
    elmJson.KeepsOnce changed := by
  unfold applyChange at result
  dsimp only at result
  split at result
  · cases result
    exact ElmJson.KeepsOnce.refl elmJson
  split at result
  · cases result
  · exact addOrUpdatePackageInElmJson_keepsOnce result

/-- A loop of such changes. -/
theorem foldlM_keepsOnce {α : Type} {f : ElmJson → α → Option ElmJson}
    (step : ∀ (elmJson : ElmJson) (a : α) (changed : ElmJson),
      f elmJson a = some changed → elmJson.KeepsOnce changed) {items : List α}
    (result : items.foldlM f elmJson = some changed) : elmJson.KeepsOnce changed := by
  induction items generalizing elmJson with
  | nil =>
    cases result
    exact ElmJson.KeepsOnce.refl _
  | cons a items ih =>
    rw [List.foldlM_cons] at result
    obtain ⟨middle, first, rest⟩ := Option.bind_eq_some_iff.mp result
    exact (step elmJson a middle first).trans (ih rest)

theorem foldl_keepsOnce {α : Type} {f : ElmJson → α → ElmJson}
    (step : ∀ (elmJson : ElmJson) (a : α), elmJson.KeepsOnce (f elmJson a)) (items : List α)
    (elmJson : ElmJson) : elmJson.KeepsOnce (items.foldl f elmJson) := by
  apply List.foldlRecOn (motive := fun changed : ElmJson => elmJson.KeepsOnce changed)
  · exact ElmJson.KeepsOnce.refl elmJson
  · intro changed keeps a _
    exact keeps.trans (step changed a)

theorem applyPlan_keepsOnce {requested : List PackageName} {isTest : Bool} {plan : InstallPlan}
    (result : applyPlan requested isTest elmJson plan = some changed) :
    elmJson.KeepsOnce changed :=
  foldlM_keepsOnce (fun _ _ _ => applyChange_keepsOnce) result

/-! ## Upgrades -/

theorem applyChangePreservingLocation_keepsOnce {change : PackageChange} {isTest isDirect : Bool}
    (result : applyChangePreservingLocation elmJson change isTest isDirect = some changed) :
    elmJson.KeepsOnce changed := by
  unfold applyChangePreservingLocation at result
  split at result
  · cases result
  dsimp only at result
  split at result
  · cases result
    exact foldl_keepsOnce (fun elmJson field => elmJson.keepsOnce_update _ _ _) _ elmJson
  · exact addOrUpdatePackageInElmJson_keepsOnce result

theorem setPkgVersion_listsName (elmJson : ElmJson) (name : PackageName) (version : String)
    (field : ElmJsonMap) (p : PackageName) :
    (setPkgVersion elmJson name version).ListsName field p ↔ elmJson.ListsName field p := by
  unfold setPkgVersion
  split
  · exact elmJson.listsName_update _ _ _ field p
  · exact Iff.rfl

theorem setPkgVersion_type (elmJson : ElmJson) (name : PackageName) (version : String) :
    (setPkgVersion elmJson name version).type = elmJson.type := by
  unfold setPkgVersion
  split <;> rfl

theorem applyAllChangeV2_keepsOnce (elmJson : ElmJson) (change : PackageChange) :
    elmJson.KeepsOnce (applyAllChangeV2 elmJson change) := by
  unfold applyAllChangeV2
  split
  · exact .of_names (setPkgVersion_type _ _ _) fun field name =>
      (setPkgVersion_listsName _ _ _ field name).mp
  · exact ElmJson.KeepsOnce.refl elmJson

/-- A package that is not listed is added to one and the same map by all of its changes. -/
theorem applySingleV2_keepsOnce {plan : InstallPlan} (planned : plan.PlannedFor elmJson)
    (name : PackageName) (isTest : Bool) :
    elmJson.KeepsOnce (plan.foldl (applySingleChangeV2 name isTest) elmJson) := by
  have places : ∀ p, (plan.foldl (applySingleChangeV2 name isTest) elmJson).type = elmJson.type ∧
      ∀ field, (plan.foldl (applySingleChangeV2 name isTest) elmJson).ListsName field p →
        elmJson.ListsName field p ∨
          ((∀ other ∈ elmJson.type.maps, ¬ elmJson.ListsName other p) ∧
            field = targetMap elmJson.type isTest (p = name)) := by
    intro p
    apply List.foldlRecOn (motive := fun changed : ElmJson => changed.type = elmJson.type ∧
      ∀ field, changed.ListsName field p → elmJson.ListsName field p ∨
          ((∀ other ∈ elmJson.type.maps, ¬ elmJson.ListsName other p) ∧
            field = targetMap elmJson.type isTest (p = name)))
    · exact ⟨rfl, fun field => Or.inl⟩
    · intro changed holds change member
      obtain ⟨type, places⟩ := holds
      unfold applySingleChangeV2
      split
      · refine ⟨(setPkgVersion_type _ _ _).trans type, ?_⟩
        intro field listed
        exact places field ((setPkgVersion_listsName _ _ _ field p).mp listed)
      · rename_i version old new
        refine ⟨type, ?_⟩
        intro field listed
        rcases (changed.listsName_add _ _ _ field p).mp listed with before | ⟨here, same⟩
        · exact places field before
        · rw [here, type, same]
          exact Or.inr ⟨(planned.changes change member).new_iff.mp old, rfl⟩
      · exact ⟨type, places⟩
  refine ⟨(places name).1, ?_⟩
  intro p once
  obtain ⟨type, places⟩ := places p
  by_cases absent : ∀ other ∈ elmJson.type.maps, ¬ elmJson.ListsName other p
  · apply @ElmJson.listsOnce_of_field _ _ (targetMap elmJson.type isTest (p = name))
    intro field used listed
    rw [type] at used
    rcases places field listed with old | ⟨_, here⟩
    · exact absurd old (absent field used)
    · exact here
  · apply once.of_subset type
    intro field _ listed
    rcases places field listed with old | ⟨none, _⟩
    · exact old
    · exact absurd none absent

theorem applySingle_keepsOnce {run : CommandRun} {plan : InstallPlan}
    (planned : plan.PlannedFor elmJson) {isTest : Bool}
    (applied : run.upgradeProtocol.applySingle name isTest elmJson plan = some changed) :
    elmJson.KeepsOnce changed := by
  unfold CommandRun.upgradeProtocol at applied
  split at applied
  · cases applied
    exact applySingleV2_keepsOnce planned name isTest
  · apply foldlM_keepsOnce _ applied
    intro elmJson change changed step
    unfold applySingleChangeV1 at step
    split at step
    · cases step
      exact ElmJson.KeepsOnce.refl elmJson
    · exact applyChangePreservingLocation_keepsOnce step

theorem applyAll_keepsOnce {run : CommandRun} {plan : InstallPlan}
    (applied : run.upgradeProtocol.applyAll elmJson plan = some changed) :
    elmJson.KeepsOnce changed := by
  unfold CommandRun.upgradeProtocol at applied
  split at applied
  · cases applied
    exact foldl_keepsOnce applyAllChangeV2_keepsOnce plan elmJson
  · apply foldlM_keepsOnce _ applied
    intro elmJson change changed step
    unfold applyAllChangeV1 at step
    split at step
    · cases step
      exact ElmJson.KeepsOnce.refl elmJson
    · exact applyChangePreservingLocation_keepsOnce step

theorem upgradesSome_keepsOnce {run : CommandRun} {package : Option String}
    {majorUpgrade majorIgnoreTest : Bool}
    (upgrades : UpgradesSome run elmJson package majorUpgrade majorIgnoreTest changed) :
    elmJson.KeepsOnce changed := by
  cases upgrades with
  | single target parsed accepts applied => exact applySingle_keepsOnce accepts.planned applied
  | all target accepts applied => exact applyAll_keepsOnce applied

/-! ## Removals -/

/-- While packages are moved and removed, what was listed once is listed once; a target is in
its map or the indirect counterpart. -/
structure ElmJson.Stays (elmJson moved : ElmJson) : Prop extends elmJson.KeepsOnce moved where
  place : ∀ name, elmJson.ListsOnce name → ∀ source target,
    findPackageMap elmJson name = some source → source.indirect = some target →
    ∀ field ∈ elmJson.type.maps, moved.ListsName field name → field = source ∨ field = target

theorem ElmJson.Stays.refl (elmJson : ElmJson) : elmJson.Stays elmJson where
  toKeepsOnce := ElmJson.KeepsOnce.refl elmJson
  place name once source target found _ field used listed := by
    obtain ⟨also, here⟩ := findPackageMap_some found
    exact Or.inl (once field used source also listed here)

theorem ElmJson.Stays.of_subset {elmJson moved later : ElmJson} (stays : elmJson.Stays moved)
    (type : later.type = moved.type)
    (subset : ∀ field name, later.ListsName field name → moved.ListsName field name) :
    elmJson.Stays later where
  toKeepsOnce := stays.toKeepsOnce.trans (.of_names type subset)
  place name once source target found pair field used listed :=
    stays.place name once source target found pair field used (subset field name listed)

/-- A target moves between its map and the counterpart. -/
theorem ElmJson.Stays.move {other : PackageName} (stays : elmJson.Stays moved)
    {source target here there : ElmJsonMap} (found : findPackageMap elmJson other = some source)
    (pair : source.indirect = some target)
    (ends : (here = source ∧ there = target) ∨ (here = target ∧ there = source))
    (version : String) : elmJson.Stays (moved.move other version here there) := by
  -- the package itself ends in one map
  have own : elmJson.ListsOnce other → ∀ field ∈ elmJson.type.maps,
      (moved.move other version here there).ListsName field other → field = there := by
    intro once field used listed
    obtain ⟨old | ⟨arrived, _⟩, left⟩ := (ElmJson.listsName_move field other).mp listed
    · have apart : field ≠ here := fun leaves => left ⟨leaves, rfl⟩
      rcases stays.place other once source target found pair field used old with at_ | at_
      · rcases ends with ⟨first, second⟩ | ⟨first, second⟩
        · exact absurd (at_.trans first.symm) apart
        · exact at_.trans second.symm
      · rcases ends with ⟨first, second⟩ | ⟨first, second⟩
        · exact at_.trans second.symm
        · exact absurd (at_.trans first.symm) apart
    · exact arrived
  -- the others stay where they are
  have others : ∀ name, name ≠ other → ∀ field,
      (moved.move other version here there).ListsName field name → moved.ListsName field name := by
    intro name different field listed
    obtain ⟨old | ⟨_, same⟩, _⟩ := (ElmJson.listsName_move field name).mp listed
    · exact old
    · exact absurd same different
  have type : (moved.move other version here there).type = elmJson.type := stays.type
  constructor
  · refine ⟨type, ?_⟩
    intro name once
    by_cases same : name = other
    · subst same
      apply @ElmJson.listsOnce_of_field _ _ there
      rw [type]
      exact own once
    · apply (stays.once name once).of_subset
      · rfl
      · exact fun field _ => others name same field
  · intro name once first second found_ pair_ field used listed
    by_cases same : name = other
    · subst same
      rw [found] at found_
      cases found_
      rw [pair] at pair_
      cases pair_
      rw [own once field used listed]
      rcases ends with ⟨_, second⟩ | ⟨_, second⟩
      · exact Or.inr second
      · exact Or.inl second
    · exact stays.place name once first second found_ pair_ field used
        (others name same field listed)

theorem ElmJson.Stays.moveToDemote (stays : elmJson.Stays moved) (name : PackageName) :
    elmJson.Stays (moveToDemote moved (removalTarget elmJson name)) := by
  unfold ElmWrap.moveToDemote removalTarget
  dsimp only
  split
  · rename_i target version source pair _ found
    rw [found] at pair
    exact stays.move found pair (Or.inl ⟨rfl, rfl⟩) version
  · exact stays

theorem ElmJson.Stays.moveBack (stays : elmJson.Stays moved) (name : PackageName) :
    elmJson.Stays (moveBack moved (removalTarget elmJson name)) := by
  unfold ElmWrap.moveBack removalTarget
  dsimp only
  split
  · rename_i target version source pair _ found
    rw [found] at pair
    exact stays.move found pair (Or.inr ⟨rfl, rfl⟩) version
  · exact stays

theorem ElmJson.Stays.remove (stays : elmJson.Stays moved) (name : PackageName) :
    elmJson.Stays (removeFromAllAppMaps moved name) := by
  apply stays.of_subset (removeFromAllAppMaps_type moved name)
  intro field other listed
  unfold removeFromAllAppMaps at listed
  split at listed
  · exact listed
  · unfold ElmJson.ListsName at listed ⊢
    dsimp only at listed
    split at listed
    · obtain ⟨p, member, same⟩ := List.mem_map.mp listed
      exact List.mem_map.mpr ⟨p, (mem_packageMapRemove.mp member).1, same⟩
    · exact listed

theorem ElmJson.Stays.foldl {α : Type} {elmJson moved : ElmJson} (stays : elmJson.Stays moved)
    {f : ElmJson → α → ElmJson} {items : List α}
    (step : ∀ moved, elmJson.Stays moved → ∀ a ∈ items, elmJson.Stays (f moved a)) :
    elmJson.Stays (items.foldl f moved) := by
  apply List.foldlRecOn (motive := fun moved : ElmJson => elmJson.Stays moved)
  · exact stays
  · intro moved stays a member
    exact step moved stays a member

/-- A step for every target. -/
theorem ElmJson.Stays.targets (stays : elmJson.Stays moved) {f : ElmJson → RemovalTarget → ElmJson}
    (step : ∀ moved, elmJson.Stays moved → ∀ name,
      elmJson.Stays (f moved (removalTarget elmJson name))) (names : List PackageName) :
    elmJson.Stays ((names.map (removalTarget elmJson)).foldl f moved) := by
  apply stays.foldl
  intro moved stays target member
  obtain ⟨name, _, rfl⟩ := List.mem_map.mp member
  exact step moved stays name

theorem removeFromApplication_keepsOnce (run : RemoveRun) (elmJson : ElmJson)
    (names : List PackageName) :
    elmJson.KeepsOnce
      ((removeFromApplication run (some elmJson) elmJson names).disk.getD elmJson) := by
  unfold removeFromApplication
  dsimp only
  split
  · exact ElmJson.KeepsOnce.refl elmJson
  split
  · exact ElmJson.KeepsOnce.refl elmJson
  · exact ElmJson.KeepsOnce.refl elmJson
  unfold saveAndFinish
  dsimp only
  split
  · have there := (ElmJson.Stays.refl elmJson).targets
      (fun _ stays name => stays.moveToDemote name) names
    have back := there.targets (fun _ stays name => stays.moveBack name) names
    apply ElmJson.KeepsOnce.trans _ (ElmJson.keepsOnce_sortMaps _)
    apply ElmJson.Stays.toKeepsOnce
    apply ElmJson.Stays.foldl
    · apply back.targets
      intro moved stays name
      split
      · exact stays.moveToDemote name
      · exact stays
    · intro moved stays change _
      exact stays.remove change.name
  · exact ElmJson.KeepsOnce.refl elmJson

theorem cmdRemove_keepsOnce (run : RemoveRun) (application : elmJson.type = .application)
    (package_names : List String) :
    elmJson.KeepsOnce ((cmdRemove run (some elmJson) package_names).disk.getD elmJson) := by
  unfold cmdRemove
  split
  · exact ElmJson.KeepsOnce.refl elmJson
  dsimp only
  split
  · exact ElmJson.KeepsOnce.refl elmJson
  split
  · exact ElmJson.KeepsOnce.refl elmJson
  split
  · exact ElmJson.KeepsOnce.refl elmJson
  exact removeFromApplication_keepsOnce run elmJson _

/-! ## Sequences of commands -/

/-- The command adds a production dependency to the direct test dependencies: it is asked for
with `--test`, without a version and without `--major`. -/
def ProjectOperation.AddsToTest (elmJson : ElmJson) (name : PackageName) :
    ProjectOperation → Prop
  | .install _ request => request.name = name ∧ request.isTestDependency = true ∧
    request.targetVersion = none ∧ request.majorUpgrade = false ∧
    (elmJson.ListsName .dependenciesDirect name ∨ elmJson.ListsName .dependenciesIndirect name) ∧
    ∀ field ∈ [ElmJsonMap.dependenciesTestDirect, .dependenciesTestIndirect],
      ¬ elmJson.ListsName field name
  | _ => False

/-- What is written once is listed once, where the command does not add to the test
dependencies. -/
theorem CommandResult.Leaves.once {P : ElmJson → Prop} {result : CommandResult}
    (leaves : result.Leaves elmJson P)
    (keeps : ∀ changed, P changed → changed.type = elmJson.type ∧ changed.ListsOnce name)
    (once : elmJson.ListsOnce name) :
    result.elmJson.type = elmJson.type ∧ result.elmJson.ListsOnce name := by
  cases leaves with
  | unchanged code => exact ⟨rfl, once⟩
  | @saved changed holds =>
    obtain ⟨type, once⟩ := keeps changed holds
    exact ⟨type, (ElmJson.keepsOnce_sortMaps changed).once name once⟩

theorem installsOne_once (application : elmJson.type = .application) {run : CommandRun}
    {request : AddRequest}
    (apart : ¬ (ProjectOperation.install run request).AddsToTest elmJson name)
    (once : elmJson.ListsOnce name) (installs : InstallsOne run elmJson request changed) :
    changed.type = elmJson.type ∧ changed.ListsOnce name := by
  have keeps : elmJson.KeepsOnce changed →
      changed.type = elmJson.type ∧ changed.ListsOnce name :=
    fun kept => ⟨kept.type, kept.once name once⟩
  rcases installs with ⟨plan, _, applied⟩ | listed
  · exact keeps (applyPlan_keepsOnce applied)
  cases listed with
  | promoted promotes => exact keeps (elmJsonPromotePackage_keepsOnce promotes)
  | testIndirect entry =>
    apply keeps
    apply ElmJson.keepsOnce_move
    · rw [application]
      decide
    · exact ElmJson.ListsName.of_mem entry
  | @production existing found _ test target minor free =>
    refine ⟨rfl, ?_⟩
    apply once.of_subset
    · rfl
    · intro field _ added
      rcases (elmJson.listsName_add _ _ _ field name).mp added with old | ⟨_, same⟩
      · exact old
      · -- it would be an addition to the test dependencies
        exfalso
        apply apart
        refine ⟨same.symm, test, target, minor, ?_, same ▸ free⟩
        obtain ⟨⟨there, used, member⟩, named⟩ := findExistingPackage_some found
        have listed : elmJson.ListsName there name := by
          rw [same, ← named]
          exact ElmJson.ListsName.of_mem member
        rw [application] at used
        cases there with
        | dependenciesDirect => exact Or.inl listed
        | dependenciesIndirect => exact Or.inr listed
        | dependenciesTestDirect => exact absurd (same ▸ listed) (free _ (by decide))
        | dependenciesTestIndirect => exact absurd (same ▸ listed) (free _ (by decide))
        | packageDependencies => exact absurd used (by decide)
        | packageTestDependencies => exact absurd used (by decide)
  | testDependency _ package =>
    rw [application] at package
    cases package

theorem ProjectOperation.next_once (application : elmJson.type = .application)
    {operation : ProjectOperation} (apart : ¬ operation.AddsToTest elmJson name)
    (once : elmJson.ListsOnce name) :
    (operation.next elmJson).type = elmJson.type ∧ (operation.next elmJson).ListsOnce name := by
  have keeps : ∀ {changed}, elmJson.KeepsOnce changed →
      changed.type = elmJson.type ∧ changed.ListsOnce name :=
    fun kept => ⟨kept.type, kept.once name once⟩
  cases operation with
  | install run request =>
    unfold next
    dsimp only
    cases installed : installPackage run elmJson request with
    | none => exact ⟨rfl, once⟩
    | some result =>
      apply (installPackage_leaves installed).once _ once
      intro changed installs
      exact installsOne_once application apart once installs
  | installMultiple run specs isTest upgradeAll =>
    unfold next
    dsimp only
    cases installed : installMultiplePackages run elmJson specs isTest upgradeAll with
    | none => exact ⟨rfl, once⟩
    | some result =>
      apply (installMultiplePackages_leaves installed).once _ once
      intro changed installs
      obtain ⟨plan, _, direct, promotes, applied⟩ := installs
      apply keeps
      apply ElmJson.KeepsOnce.trans _ (applyPlan_keepsOnce applied)
      exact foldlM_keepsOnce (fun _ _ _ => elmJsonPromotePackage_keepsOnce) promotes
  | installFile run other isTest file =>
    apply (installFromFile_leaves run elmJson other isTest file).once _ once
    intro changed installs
    obtain ⟨actual, version, _, recorded⟩ := installs
    exact keeps (addOrUpdatePackageInElmJson_keepsOnce recorded)
  | promote other =>
    unfold next
    dsimp only
    cases promotes : elmJsonPromotePackage elmJson other with
    | none => exact ⟨rfl, once⟩
    | some promoted => exact keeps (elmJsonPromotePackage_keepsOnce promotes)
  | upgrade run package majorUpgrade majorIgnoreTest =>
    unfold next
    dsimp only
    cases upgraded : cmdUpgrade run elmJson package majorUpgrade majorIgnoreTest with
    | none => exact ⟨rfl, once⟩
    | some result =>
      apply (cmdUpgrade_leaves upgraded).once _ once
      intro changed upgrades
      exact keeps (upgradesSome_keepsOnce upgrades)
  | remove run package_names => exact keeps (cmdRemove_keepsOnce run application package_names)

/-- All entries of a package are at one version. -/
def ElmJson.OneVersion (elmJson : ElmJson) (name : PackageName) : Prop :=
  ∀ p q, elmJson.Lists p → elmJson.Lists q → p.name = name → q.name = name → p = q

theorem ElmJson.ListsOnce.oneVersion (once : elmJson.ListsOnce name) : elmJson.OneVersion name := by
  intro p q first second named also
  obtain ⟨left, used, here⟩ := first
  obtain ⟨right, used_, there⟩ := second
  have same := once left used right used_ (named ▸ ElmJson.ListsName.of_mem here)
    (also ▸ ElmJson.ListsName.of_mem there)
  rw [same] at here
  exact PackageMap.same_entry here there (named.trans also.symm)

theorem ElmJson.OneVersion.of_subset {elmJson other : ElmJson} (one : elmJson.OneVersion name)
    (subset : ∀ p, other.Lists p → p.name = name → elmJson.Lists p) : other.OneVersion name :=
  fun p q first second named also =>
    one p q (subset p first named) (subset q second also) named also

/-- An addition to the test dependencies repeats the version that is listed. -/
theorem ProjectOperation.AddsToTest.oneVersion (application : elmJson.type = .application)
    {operation : ProjectOperation} (adds : operation.AddsToTest elmJson name)
    (once : elmJson.ListsOnce name) : (operation.next elmJson).OneVersion name := by
  cases operation with
  | install run request =>
    obtain ⟨rfl, _⟩ := adds
    unfold next
    dsimp only
    cases installed : installPackage run elmJson request with
    | none => exact once.oneVersion
    | some result =>
      cases installPackage_leaves installed with
      | unchanged code => exact once.oneVersion
      | @saved changed installs =>
        apply ElmJson.OneVersion.of_subset _
          fun p listed _ => (changed.lists_sortMaps p).mp listed
        have keeps : elmJson.KeepsOnce changed → changed.OneVersion request.name :=
          fun kept => (kept.once request.name once).oneVersion
        rcases installs with ⟨plan, _, applied⟩ | listed
        · exact keeps (applyPlan_keepsOnce applied)
        cases listed with
        | promoted promotes => exact keeps (elmJsonPromotePackage_keepsOnce promotes)
        | testIndirect entry =>
          apply keeps
          apply ElmJson.keepsOnce_move
          · rw [application]
            decide
          · exact ElmJson.ListsName.of_mem entry
        | @production existing found =>
          apply once.oneVersion.of_subset
          intro p added named
          obtain ⟨field, used, member⟩ := added
          rw [ElmJson.setMap_maps] at member
          split at member
          · rename_i here
            rcases PackageMap.mem_add.mp member with old | ⟨_, new⟩
            · exact ⟨_, here ▸ used, old⟩
            · obtain ⟨listed, same⟩ := findExistingPackage_some found
              rw [new, ← same]
              exact listed
          · exact ⟨field, used, member⟩
        | testDependency _ package =>
          rw [application] at package
          cases package
  | _ => exact absurd adds id

/-- In every sequence of commands on an application that lists no package twice, a package is
listed once, and so at one version, for as long as no command adds it to the test dependencies;
such a command leaves it at one version. -/
theorem runProject_listsOnce {elmJson : ElmJson} (application : elmJson.type = .application)
    (once : elmJson.ListedOnce) (operations : List ProjectOperation) {name : PackageName}
    (apart : ∀ done operation rest, operations = done ++ operation :: rest →
      ¬ operation.AddsToTest (runProject elmJson done) name) :
    (∀ done rest, operations = done ++ rest →
        (runProject elmJson done).ListsOnce name ∧ (runProject elmJson done).OneVersion name) ∧
      ∀ operation : ProjectOperation, operation.AddsToTest (runProject elmJson operations) name →
        (operation.next (runProject elmJson operations)).OneVersion name := by
  have reached : ∀ done rest, operations = done ++ rest →
      (runProject elmJson done).type = .application ∧ (runProject elmJson done).ListsOnce name := by
    intro done rest split
    apply @runProject_induction
      (fun elmJson : ElmJson => elmJson.type = .application ∧ elmJson.ListsOnce name)
      (fun elmJson operation => ¬ operation.AddsToTest elmJson name)
    · intro elmJson operation holds apart
      obtain ⟨type, once⟩ := operation.next_once holds.1 apart holds.2
      exact ⟨type.trans holds.1, once⟩
    · exact ⟨application, once name⟩
    · intro before operation after here
      apply apart before operation (after ++ rest)
      rw [split, here, List.append_assoc]
      rfl
  constructor
  · intro done rest split
    have here := (reached done rest split).2
    exact ⟨here, here.oneVersion⟩
  · intro operation adds
    obtain ⟨type, once⟩ := reached operations [] (List.append_nil operations).symm
    exact adds.oneVersion type once

/-- A promotion, and an installation that adds another package to the test dependencies. -/
def promoteAndTest : List ProjectOperation :=
  [.promote elmVirtualDomPackage,
    .install (acceptedRun sampleState) ⟨elmBrowserPackage, none, true, false, false⟩]

theorem runProject_listsOnce_promoted :
    (∀ done rest, promoteAndTest = done ++ rest →
        (runProject browserApplication done).ListsOnce elmVirtualDomPackage ∧
          (runProject browserApplication done).OneVersion elmVirtualDomPackage) ∧
      ∀ operation : ProjectOperation,
        operation.AddsToTest (runProject browserApplication promoteAndTest) elmVirtualDomPackage →
        (operation.next (runProject browserApplication promoteAndTest)).OneVersion
          elmVirtualDomPackage := by
  apply runProject_listsOnce rfl browserApplication_once
  intro done operation rest split adds
  have member : operation ∈ promoteAndTest := by
    rw [split]
    exact List.mem_append_right _ List.mem_cons_self
  rcases List.mem_cons.mp member with rfl | install
  · exact adds
  · rw [List.mem_singleton.mp install] at adds
    exact absurd adds.1 (by decide)

/-- `install --test elm/browser` lists the package in two maps. -/
theorem runProject_lists_twice :
    ¬ ∀ elmJson : ElmJson, elmJson.type = .application → elmJson.ListedOnce →
      ∀ operations, (runProject elmJson operations).ListedOnce := by
  intro claim
  have once := claim browserApplication rfl browserApplication_once
    [.install (acceptedRun sampleState) ⟨elmBrowserPackage, none, true, false, false⟩]
  have same := once elmBrowserPackage .dependenciesDirect (by decide)
    .dependenciesTestDirect (by decide)
  have different : ElmJsonMap.dependenciesDirect ≠ .dependenciesTestDirect := by decide
  apply different
  apply same
  · unfold ElmJson.ListsName
    decide
  · unfold ElmJson.ListsName
    decide

end ElmWrap
