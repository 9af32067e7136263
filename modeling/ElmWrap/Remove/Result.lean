import ElmWrap.Orphans.Exact
import ElmWrap.Remove.Moves

/-!
# What `cmd_remove` leaves

The maps of an `elm.json` after a removal, in terms of the packages that were
asked for and of those that the remaining ones need. Nothing is written unless
the command succeeds, and until the changes are confirmed `elm_json` lists what
it listed before.
-/

namespace ElmWrap

open Lib

/-! ## The entries of an application -/

theorem ElmJsonMap.app_cases {field : ElmJsonMap}
    (app : field ∈ ElmProjectType.application.maps) :
    ∃ source target, source.indirect = some target ∧ (field = source ∨ field = target) := by
  cases field with
  | dependenciesDirect => exact ⟨_, _, rfl, Or.inl rfl⟩
  | dependenciesTestDirect => exact ⟨_, _, rfl, Or.inl rfl⟩
  | dependenciesIndirect => exact ⟨.dependenciesDirect, _, rfl, Or.inr rfl⟩
  | dependenciesTestIndirect => exact ⟨.dependenciesTestDirect, _, rfl, Or.inr rfl⟩
  | packageDependencies => exact absurd app (by decide)
  | packageTestDependencies => exact absurd app (by decide)

theorem ElmJson.lists_app {elmJson : ElmJson} (application : elmJson.type = .application)
    {p : Package} :
    elmJson.Lists p ↔ ∃ source target, source.indirect = some target ∧
      (p ∈ (elmJson.maps source).packages ∨ p ∈ (elmJson.maps target).packages) := by
  unfold Lists
  rw [application]
  constructor
  · intro listed
    obtain ⟨field, app, member⟩ := listed
    obtain ⟨source, target, pair, here | there⟩ := ElmJsonMap.app_cases app
    · exact ⟨source, target, pair, Or.inl (here ▸ member)⟩
    · exact ⟨source, target, pair, Or.inr (there ▸ member)⟩
  · intro listed
    obtain ⟨source, target, pair, direct | indirect⟩ := listed
    · exact ⟨source, (ElmJsonMap.indirect_app pair).1, direct⟩
    · exact ⟨target, (ElmJsonMap.indirect_app pair).2, indirect⟩

theorem mem_indirectPackages {elmJson : ElmJson} {p : Package} :
    p ∈ indirectPackages elmJson ↔ ∃ source target, ElmJsonMap.indirect source = some target ∧
      p ∈ (elmJson.maps target).packages := by
  unfold indirectPackages
  rw [List.mem_append]
  constructor
  · intro which
    rcases which with plain | test
    · exact ⟨.dependenciesDirect, _, rfl, plain⟩
    · exact ⟨.dependenciesTestDirect, _, rfl, test⟩
  · intro found
    obtain ⟨source, target, pair, member⟩ := found
    cases source with
    | dependenciesDirect => cases pair; exact Or.inl member
    | dependenciesTestDirect => cases pair; exact Or.inr member
    | _ => cases pair

theorem mem_keptPackages {elmJson : ElmJson} {exclude : List PackageName} {p : Package} :
    p ∈ keptPackages elmJson exclude ↔
      (∃ source target, source.indirect = some target ∧ p ∈ (elmJson.maps source).packages) ∧
        p.name ∉ exclude := by
  unfold keptPackages
  rw [List.mem_filter, List.mem_append]
  apply and_congr
  · constructor
    · intro which
      rcases which with plain | test
      · exact ⟨.dependenciesDirect, _, rfl, plain⟩
      · exact ⟨.dependenciesTestDirect, _, rfl, test⟩
    · intro found
      obtain ⟨source, target, pair, member⟩ := found
      cases source with
      | dependenciesDirect => exact Or.inl member
      | dependenciesTestDirect => exact Or.inr member
      | _ => cases pair
  · simp

theorem mem_graphRoots {elmJson : ElmJson} (application : elmJson.type = .application)
    {p : Package} : p ∈ graphRoots elmJson [] ↔ elmJson.Lists p := by
  constructor
  · exact graphRoots_listed application
  · intro listed
    obtain ⟨source, target, pair, direct | indirect⟩ := (ElmJson.lists_app application).mp listed
    · apply List.mem_append_left
      exact mem_keptPackages.mpr ⟨⟨source, target, pair, direct⟩, List.not_mem_nil⟩
    · apply List.mem_append_right
      exact mem_indirectPackages.mpr ⟨source, target, pair, indirect⟩

/-! ## The state in which orphans are looked for -/

section Demoted

variable {elmJson moved : ElmJson} {S : PackageName → Prop}
  (application : elmJson.type = .application) (state : Moved elmJson S moved)

include application state

theorem Moved.lists (p : Package) : moved.Lists p ↔ elmJson.Lists p := by
  rw [ElmJson.lists_app application, ElmJson.lists_app (state.type.trans application)]
  apply exists_congr
  intro source
  apply exists_congr
  intro target
  apply and_congr_right
  intro pair
  rw [state.source_entries pair, state.target_entries pair]
  tauto

theorem Moved.readable (cache : PackageCache) :
    ReadableDependency moved cache [] = ReadableDependency elmJson cache [] := by
  funext p d
  unfold ReadableDependency
  simp only [mem_graphRoots application, mem_graphRoots (state.type.trans application),
    state.lists application]

theorem Moved.versionsAgree {cache : PackageCache} (agree : VersionsAgree elmJson cache []) :
    VersionsAgree moved cache [] := by
  have same : ∀ p, p ∈ graphRoots moved [] ↔ p ∈ graphRoots elmJson [] := by
    intro p
    rw [mem_graphRoots application, mem_graphRoots (state.type.trans application),
      state.lists application]
  constructor
  · intro p first q second
    exact agree.single p ((same p).mp first) q ((same q).mp second)
  · intro p root exact_ json read d member constant
    exact (same d).mpr (agree.listed p ((same p).mp root) exact_ json read d member constant)

omit application in
theorem Moved.kept {names : List PackageName} (only : ∀ name, S name ↔ name ∈ names) :
    Kept moved [] = Kept elmJson names := by
  funext name
  apply propext
  unfold Kept
  rw [List.mem_map, List.mem_map]
  apply exists_congr
  intro p
  apply and_congr_left
  intro same
  rw [mem_keptPackages, mem_keptPackages]
  constructor
  · intro both
    obtain ⟨⟨source, target, pair, member⟩, _⟩ := both
    obtain ⟨old, stays⟩ := (state.source_entries pair p).mp member
    exact ⟨⟨source, target, pair, old⟩, fun inside => stays ((only _).mpr inside)⟩
  · intro both
    obtain ⟨⟨source, target, pair, member⟩, outside⟩ := both
    have stays : ¬ S p.name := fun inside => outside ((only _).mp inside)
    exact ⟨⟨source, target, pair, (state.source_entries pair p).mpr ⟨member, stays⟩⟩,
      List.not_mem_nil⟩

end Demoted

/-! ## The removals of a plan -/

theorem mem_addRemoval {plan : InstallPlan} {name other : PackageName} {version : String} :
    other ∈ (addRemoval plan name version).map PackageChange.name ↔
      other ∈ plan.map PackageChange.name ∨ other = name := by
  unfold addRemoval installPlanAddChange
  simp

theorem mem_addTargetRemovals (orphaned : PackageMap) (targets : List RemovalTarget)
    (plan : InstallPlan) (name : PackageName) :
    name ∈ (targets.foldl (addTargetRemoval orphaned) plan).map PackageChange.name ↔
      name ∈ plan.map PackageChange.name ∨ ∃ target ∈ targets, target.name = name ∧
        target.version.isSome = true ∧ target.demote orphaned = false := by
  induction targets generalizing plan with
  | nil => simp
  | cons target targets ih =>
    rw [List.foldl_cons, ih, List.exists_mem_cons_iff, ← or_assoc]
    apply or_congr_left
    unfold addTargetRemoval
    cases version : target.version with
    | none => simp
    | some version =>
      dsimp only
      cases kept : target.demote orphaned with
      | true => simp
      | false =>
        rw [if_neg (by simp), mem_addRemoval]
        simp [eq_comm]

theorem mem_addOrphanRemovals (targets : List RemovalTarget) (packages : List Package)
    (plan : InstallPlan) (name : PackageName) :
    name ∈ (packages.foldl (addOrphanRemoval targets) plan).map PackageChange.name ↔
      name ∈ plan.map PackageChange.name ∨
        (name ∈ packages.map Package.name ∧ ∀ target ∈ targets, target.name ≠ name) := by
  induction packages generalizing plan with
  | nil => simp
  | cons p packages ih =>
    rw [List.foldl_cons, ih, List.map_cons, List.mem_cons]
    unfold addOrphanRemoval
    by_cases asked : ∃ target ∈ targets, target.name = p.name
    · have any : (targets.any fun target => target.name = p.name) = true := by
        simpa using asked
      rw [if_pos any]
      apply or_congr_right
      apply and_congr_left
      intro free
      constructor
      · exact Or.inr
      · intro which
        rcases which with here | rest
        · obtain ⟨target, member, same⟩ := asked
          exact absurd (same.trans here.symm) (free target member)
        · exact rest
    · have any : (targets.any fun target => target.name = p.name) ≠ true := by
        simpa using asked
      rw [if_neg any, mem_addRemoval, or_assoc]
      apply or_congr_right
      rw [or_and_right]
      apply or_congr_left
      constructor
      · intro here
        refine ⟨here, ?_⟩
        intro target member same
        exact asked ⟨target, member, same.trans here⟩
      · exact And.left

/-- The packages that a plan removes. -/
theorem mem_removalPlan {targets : List RemovalTarget} {orphaned : PackageMap}
    {name : PackageName} :
    name ∈ (removalPlan targets orphaned).map PackageChange.name ↔
      (∃ target ∈ targets, target.name = name ∧ target.version.isSome = true ∧
          target.demote orphaned = false) ∨
        (name ∈ orphaned.names ∧ ∀ target ∈ targets, target.name ≠ name) := by
  unfold removalPlan
  rw [mem_addOrphanRemovals, mem_addTargetRemovals]
  simp [PackageMap.names]

theorem mem_names_sortBy {plan : InstallPlan} {name : PackageName} :
    name ∈ (Keyed.sortBy PackageChange.key plan).map PackageChange.name ↔
      name ∈ plan.map PackageChange.name :=
  ((Keyed.perm_sortBy plan).map PackageChange.name).mem_iff

theorem foldl_removeFromAllAppMaps (plan : InstallPlan) {elmJson : ElmJson}
    (application : elmJson.type = .application) :
    (plan.foldl (fun elmJson change => removeFromAllAppMaps elmJson change.name)
        elmJson).type = .application ∧
      ∀ field ∈ ElmProjectType.application.maps, ∀ p,
        (p ∈ ((plan.foldl (fun elmJson change => removeFromAllAppMaps elmJson change.name)
            elmJson).maps field).packages ↔
          p ∈ (elmJson.maps field).packages ∧ p.name ∉ plan.map PackageChange.name) := by
  induction plan generalizing elmJson with
  | nil => exact ⟨application, by simp⟩
  | cons change plan ih =>
    rw [List.foldl_cons]
    obtain ⟨type, entries⟩ := ih ((removeFromAllAppMaps_type elmJson change.name).trans application)
    refine ⟨type, ?_⟩
    intro field app p
    rw [entries field app, mem_removeFromAllAppMaps application app, List.map_cons, List.mem_cons,
      not_or, and_assoc]

/-! ## What is left -/

/-- What a removal leaves of an application's maps. `stays` says which of the packages that are
or become indirect are kept. -/
structure LeavesOf (elmJson : ElmJson) (names : List PackageName) (stays : PackageName → Prop)
    (result : ElmJson) : Prop where
  type : result.type = .application
  direct : ∀ source target, source.indirect = some target → ∀ p,
    p ∈ (result.maps source).packages ↔
      p ∈ (elmJson.maps source).packages ∧ p.name ∉ names
  indirect : ∀ source target, source.indirect = some target → ∀ p,
    p ∈ (result.maps target).packages ↔
      ((p ∈ (elmJson.maps target).packages ∧ p.name ∉ names) ∨
        (p ∈ (elmJson.maps source).packages ∧ p.name ∈ names)) ∧ stays p.name

theorem LeavesOf.congr {elmJson : ElmJson} {names : List PackageName}
    {stays also : PackageName → Prop} {result : ElmJson}
    (leaves : LeavesOf elmJson names stays result)
    (same : ∀ source target, source.indirect = some target → ∀ p,
      (p ∈ (elmJson.maps target).packages ∨
        (p ∈ (elmJson.maps source).packages ∧ p.name ∈ names)) → (stays p.name ↔ also p.name)) :
    LeavesOf elmJson names also result where
  type := leaves.type
  direct := leaves.direct
  indirect source target pair p := by
    rw [leaves.indirect source target pair]
    apply and_congr_right
    intro which
    apply same source target pair
    rcases which with ⟨member, _⟩ | both
    · exact Or.inl member
    · exact Or.inr both

/-- What is left was listed. -/
theorem LeavesOf.lists {elmJson : ElmJson} (application : elmJson.type = .application)
    {names : List PackageName} {stays : PackageName → Prop} {result : ElmJson}
    (leaves : LeavesOf elmJson names stays result) {p : Package} (listed : result.Lists p) :
    elmJson.Lists p := by
  apply (ElmJson.lists_app application).mpr
  obtain ⟨source, target, pair, direct | indirect⟩ := (ElmJson.lists_app leaves.type).mp listed
  · exact ⟨source, target, pair, Or.inl ((leaves.direct source target pair p).mp direct).1⟩
  · obtain ⟨⟨member, _⟩ | ⟨member, _⟩, _⟩ := (leaves.indirect source target pair p).mp indirect
    · exact ⟨source, target, pair, Or.inr member⟩
    · exact ⟨source, target, pair, Or.inl member⟩

section Leaves

variable {elmJson : ElmJson} (application : elmJson.type = .application)
  (once : elmJson.ListedOnce)

include application once

/-- A package of a direct map is in no indirect one. -/
theorem not_listed_twice {source target origin other : ElmJsonMap}
    (pair : source.indirect = some target) (also : origin.indirect = some other) {p q : Package}
    (direct : p ∈ (elmJson.maps source).packages) (indirect : q ∈ (elmJson.maps other).packages) :
    p.name ≠ q.name := by
  intro same
  have left : source ∈ elmJson.type.maps := by
    rw [application]
    exact (ElmJsonMap.indirect_app pair).1
  have right : other ∈ elmJson.type.maps := by
    rw [application]
    exact (ElmJsonMap.indirect_app also).2
  have fields := once q.name source left other right (same ▸ ElmJson.ListsName.of_mem direct)
    (ElmJson.ListsName.of_mem indirect)
  rw [fields, ElmJsonMap.indirect_indirect also] at pair
  cases pair

/-- Which targets are demoted. -/
theorem removalTarget_demote {orphaned : PackageMap} {name : PackageName} :
    (removalTarget elmJson name).demote orphaned = true ↔
      elmJson.ListsDirect name ∧ name ∉ orphaned.names := by
  unfold RemovalTarget.demote
  rw [Bool.and_eq_true, Option.isNone_iff_eq_none]
  have missing : packageMapFind orphaned name = none ↔ name ∉ orphaned.names := by
    rw [← PackageMap.find_isSome, Option.isSome_iff_ne_none, not_not]
  rcases removalTarget_cases application (once name) with
    ⟨source, target, version, pair, entry, here⟩ | ⟨absent, none⟩
  · have direct : elmJson.ListsDirect name :=
      ⟨source, target, pair, ElmJson.ListsName.of_mem entry⟩
    rw [here]
    simp [direct, missing]
  · rw [none]
    simp [absent]

/-- The packages that are removed from all maps. -/
theorem mem_removalPlan_targets {names : List PackageName}
    (listed : ∀ name ∈ names, (findExistingPackage elmJson name).isSome = true)
    {orphaned : PackageMap} {name : PackageName} :
    name ∈ (removalPlan (names.map (removalTarget elmJson)) orphaned).map PackageChange.name ↔
      (name ∈ names ∧ (elmJson.ListsDirect name → name ∈ orphaned.names)) ∨
        (name ∈ orphaned.names ∧ name ∉ names) := by
  rw [mem_removalPlan]
  apply or_congr
  · constructor
    · intro found
      obtain ⟨target, member, same, _, stays⟩ := found
      obtain ⟨asked, inside, rfl⟩ := List.mem_map.mp member
      have here : asked = name := same
      subst here
      refine ⟨inside, ?_⟩
      intro direct
      by_contra free
      rw [(removalTarget_demote application once).mpr ⟨direct, free⟩] at stays
      cases stays
    · intro both
      obtain ⟨inside, orphan⟩ := both
      refine ⟨_, List.mem_map_of_mem inside, rfl, ?_, ?_⟩
      · unfold removalTarget
        rw [Option.isSome_map]
        exact listed name inside
      · cases stays : (removalTarget elmJson name).demote orphaned with
        | false => rfl
        | true =>
          obtain ⟨direct, free⟩ := (removalTarget_demote application once).mp stays
          exact absurd (orphan direct) free
  · apply and_congr_right
    intro _
    constructor
    · intro free inside
      exact free _ (List.mem_map_of_mem inside) rfl
    · intro outside target member same
      obtain ⟨asked, inside, rfl⟩ := List.mem_map.mp member
      have here : asked = name := same
      exact outside (here ▸ inside)

/-- The demotions and the removals that follow. -/
theorem demote_and_remove {names : List PackageName}
    (listed : ∀ name ∈ names, (findExistingPackage elmJson name).isSome = true)
    {orphaned : PackageMap}
    (some_ : ∀ name ∈ orphaned.names, elmJson.ListsDirect name → name ∈ names)
    {restored : ElmJson} (state : Moved elmJson (fun _ => False) restored) {plan : InstallPlan}
    (removes : ∀ name, name ∈ plan.map PackageChange.name ↔
      name ∈ (removalPlan (names.map (removalTarget elmJson)) orphaned).map PackageChange.name) :
    LeavesOf elmJson names (· ∉ orphaned.names)
      (plan.foldl (fun elmJson change => removeFromAllAppMaps elmJson change.name)
        ((names.map (removalTarget elmJson)).foldl (fun moved target =>
          if target.demote orphaned then moveToDemote moved target else moved) restored)) := by
  have demoted := Moved.moveTargets application once (RemovalTarget.demote orphaned) names state
  have gone := foldl_removeFromAllAppMaps plan (demoted.type.trans application)
  have planned : ∀ name, name ∈ plan.map PackageChange.name ↔
      (name ∈ names ∧ (elmJson.ListsDirect name → name ∈ orphaned.names)) ∨
        (name ∈ orphaned.names ∧ name ∉ names) :=
    fun name => (removes name).trans (mem_removalPlan_targets application once listed)
  constructor
  · exact gone.1
  · intro source target pair p
    rw [gone.2 source (ElmJsonMap.indirect_app pair).1, demoted.source_entries pair, planned,
      removalTarget_demote application once, and_assoc]
    apply and_congr_right
    intro member
    have direct : elmJson.ListsDirect p.name :=
      ⟨source, target, pair, ElmJson.ListsName.of_mem member⟩
    have orphans := some_ p.name
    tauto
  · intro source target pair p
    rw [gone.2 target (ElmJsonMap.indirect_app pair).2, demoted.target_entries pair, planned,
      removalTarget_demote application once]
    have direct : p ∈ (elmJson.maps source).packages → elmJson.ListsDirect p.name :=
      fun member => ⟨source, target, pair, ElmJson.ListsName.of_mem member⟩
    have indirect : p ∈ (elmJson.maps target).packages → ¬ elmJson.ListsDirect p.name := by
      intro member listed_
      obtain ⟨origin, other, also, here⟩ := listed_
      obtain ⟨q, on, same⟩ := List.mem_map.mp here
      exact not_listed_twice application once also pair on member same
    tauto

end Leaves

end ElmWrap
