import ElmWrap.Solver.Strategy
import ElmWrap.ElmJson.Maps

/-!
# Plans and their application

The plan for a selection has a change for every selected package that
`elm.json` lists at another version text or not at all. Applied to an
application, a change writes its package and leaves the others alone.
-/

namespace ElmWrap

/-! ## The plan for a selection -/

/-- The version text a plan writes. -/
def versionText (v : Version) : String := versionFormat v.major v.minor v.patch

/-- The change the loop makes for a selected package. -/
def plannedChange (currentPackages : PackageMap) (p : PackageName × Version) :
    Option PackageChange :=
  match packageMapFind currentPackages p.1 with
  | none => some ⟨p.1, none, some (versionText p.2)⟩
  | some existing =>
    if existing.version ≠ versionText p.2 then
      some ⟨p.1, some existing.version, some (versionText p.2)⟩
    else none

theorem plannedChange_some {currentPackages : PackageMap} {p : PackageName × Version}
    {c : PackageChange} (planned : plannedChange currentPackages p = some c) :
    c.name = p.1 ∧ c.newVersion = some (versionText p.2) ∧
      c.oldVersion = (packageMapFind currentPackages p.1).map Package.version := by
  unfold plannedChange at planned
  split at planned
  · rename_i missing
    cases planned
    simp [missing]
  · rename_i existing found
    split at planned
    · cases planned
      simp [found]
    · cases planned

theorem plannedChange_none {currentPackages : PackageMap} {p : PackageName × Version}
    (same : plannedChange currentPackages p = none) :
    ∃ existing, packageMapFind currentPackages p.1 = some existing ∧
      existing.version = versionText p.2 := by
  unfold plannedChange at same
  split at same
  · cases same
  · rename_i existing found
    split at same
    · cases same
    · rename_i equal
      exact ⟨existing, found, not_not.mp equal⟩

theorem planStep_eq (currentPackages : PackageMap) (plan : InstallPlan)
    (p : PackageName × Version) :
    planStep currentPackages plan p =
      some (plan ++ (plannedChange currentPackages p).toList) := by
  unfold planStep plannedChange versionText
  cases packageMapFind currentPackages p.1 with
  | none => simp [installPlanAddChange]
  | some existing =>
    dsimp only
    split
    · simp [installPlanAddChange]
    · simp

/-- Collecting the changes never fails. -/
theorem planSelected_eq (currentPackages : PackageMap) (selected : List (PackageName × Version)) :
    planSelected currentPackages selected =
      some (selected.filterMap (plannedChange currentPackages)) := by
  have from_ : ∀ (selected : List (PackageName × Version)) (plan : InstallPlan),
      selected.foldlM (planStep currentPackages) plan =
        some (plan ++ selected.filterMap (plannedChange currentPackages)) := by
    intro selected
    induction selected with
    | nil => simp
    | cons p rest ih =>
      intro plan
      rw [List.foldlM_cons, planStep_eq]
      dsimp only [Option.bind_eq_bind, Option.bind_some]
      rw [ih, List.append_assoc]
      cases change : plannedChange currentPackages p <;> simp [change]
  exact from_ selected []

theorem plannedChanges_nodup (currentPackages : PackageMap)
    {selected : List (PackageName × Version)} (nodup : (selected.map Prod.fst).Nodup) :
    ((selected.filterMap (plannedChange currentPackages)).map PackageChange.name).Nodup := by
  have part : List.Sublist
      ((selected.filterMap (plannedChange currentPackages)).map PackageChange.name)
      (selected.map Prod.fst) := by
    clear nodup
    induction selected with
    | nil => exact List.Sublist.slnil
    | cons p rest ih =>
      cases change : plannedChange currentPackages p with
      | none =>
        rw [List.filterMap_cons_none change]
        exact List.Sublist.cons _ ih
      | some c =>
        rw [List.filterMap_cons_some change, List.map_cons, List.map_cons,
          (plannedChange_some change).1]
        exact List.Sublist.cons_cons _ ih
  exact part.nodup nodup

/-! ## The current packages -/

/-- `collect_current_packages` has nothing but entries of the maps, and one for
every package listed. -/
theorem collectCurrentPackages_spec (elmJson : ElmJson) :
    (∀ p ∈ (collectCurrentPackages elmJson).packages, elmJson.Lists p) ∧
      ∀ p, elmJson.Lists p → ∃ q, packageMapFind (collectCurrentPackages elmJson) p.name = some q ∧
        elmJson.Lists q ∧ q.name = p.name := by
  have collected : ∀ (entries : List Package) (start : PackageMap),
      let final := entries.foldl (fun current p =>
        (packageMapAdd current p.name p.version).getD current) start
      (∀ p ∈ final.packages, p ∈ start.packages ∨ p ∈ entries) ∧
        (∀ p ∈ start.packages, p ∈ final.packages) ∧
        ∀ p ∈ entries, p.name ∈ final.packages.map Package.name := by
    intro entries
    induction entries with
    | nil => intro start; exact ⟨fun p on => Or.inl on, fun p on => on, by simp⟩
    | cons p rest ih =>
      intro start
      obtain ⟨from_, keeps, names⟩ := ih ((packageMapAdd start p.name p.version).getD start)
      dsimp only [List.foldl_cons]
      cases added : packageMapAdd start p.name p.version with
      | none =>
        rw [added, Option.getD_none] at from_ keeps names
        have here : p.name ∈ start.packages.map Package.name := by
          by_contra missing
          obtain ⟨map, some_⟩ := packageMapAdd_some p.version missing
          rw [added] at some_
          cases some_
        refine ⟨fun q on => ?_, keeps, fun q on => ?_⟩
        · exact (from_ q on).imp_right (List.mem_cons_of_mem _)
        · rcases List.mem_cons.mp on with rfl | on
          · obtain ⟨r, member, same⟩ := List.mem_map.mp here
            exact List.mem_map.mpr ⟨r, keeps r member, same⟩
          · exact names q on
      | some map =>
        rw [added, Option.getD_some] at from_ keeps names
        refine ⟨fun q on => ?_, fun q on => ?_, fun q on => ?_⟩
        · rcases from_ q on with old | later
          · rcases (packageMapAdd_mem added).mp old with old | rfl
            · exact Or.inl old
            · exact Or.inr List.mem_cons_self
          · exact Or.inr (List.mem_cons_of_mem _ later)
        · exact keeps q ((packageMapAdd_mem added).mpr (Or.inl on))
        · rcases List.mem_cons.mp on with rfl | on
          · exact List.mem_map_of_mem (keeps _ ((packageMapAdd_mem added).mpr (Or.inr rfl)))
          · exact names q on
  obtain ⟨from_, -, names⟩ := collected
    (elmJson.type.maps.flatMap fun field => (elmJson.maps field).packages) packageMapCreate
  have listed : ∀ p ∈ (collectCurrentPackages elmJson).packages, elmJson.Lists p := by
    intro p member
    rcases from_ p member with none_ | entry
    · cases none_
    · obtain ⟨field, used, here⟩ := List.mem_flatMap.mp entry
      exact ⟨field, used, here⟩
  refine ⟨listed, fun p lists => ?_⟩
  obtain ⟨field, used, here⟩ := lists
  have named := names p (List.mem_flatMap.mpr ⟨field, used, here⟩)
  obtain ⟨q, member, same⟩ := List.mem_map.mp named
  exact ⟨q, by rw [← same]; exact packageMapFind_mem member, listed q member, same⟩

/-! ## One change -/

@[simp] theorem ElmJson.setMap_maps_same (elmJson : ElmJson) (field : ElmJsonMap)
    (map : PackageMap) : (elmJson.setMap field map).maps field = map := by
  simp [ElmJson.setMap]

theorem ElmJson.setMap_maps_other (elmJson : ElmJson) {field other : ElmJsonMap}
    (map : PackageMap) (ne : other ≠ field) :
    (elmJson.setMap field map).maps other = elmJson.maps other := by
  simp [ElmJson.setMap, ne]

/-- What writing a package at a version does to an `elm.json`. -/
structure ElmJson.Writes (elmJson elmJson' : ElmJson) (name : PackageName) (version : String) :
    Prop where
  type : elmJson'.type = elmJson.type
  others : ∀ p : Package, p.name ≠ name → ∀ field,
    p ∈ (elmJson'.maps field).packages ↔ p ∈ (elmJson.maps field).packages
  written : elmJson'.Lists ⟨name, version⟩
  only : elmJson.ListsOnce name → ∀ p, elmJson'.Lists p → p.name = name → p.version = version

/-- For a frame that sets one field, the other fields need no look. -/
theorem ElmJson.Writes.setMap {elmJson : ElmJson} {field : ElmJsonMap} {map : PackageMap}
    {name : PackageName} {version : String} (used : field ∈ elmJson.type.maps)
    (others : ∀ p : Package, p.name ≠ name →
      (p ∈ map.packages ↔ p ∈ (elmJson.maps field).packages))
    (written : ⟨name, version⟩ ∈ map.packages)
    (only : ∀ p ∈ map.packages, p.name = name → p.version = version)
    (nowhere : elmJson.ListsOnce name → ∀ other ∈ elmJson.type.maps, other ≠ field →
      ¬ elmJson.ListsName other name) :
    elmJson.Writes (elmJson.setMap field map) name version where
  type := rfl
  others p ne other := by
    by_cases same : other = field
    · subst same
      rw [ElmJson.setMap_maps_same]
      exact others p ne
    · rw [ElmJson.setMap_maps_other _ _ same]
  written := ⟨field, used, by rw [ElmJson.setMap_maps_same]; exact written⟩
  only once p lists named := by
    obtain ⟨other, there, member⟩ := lists
    by_cases same : other = field
    · subst same
      rw [ElmJson.setMap_maps_same] at member
      exact only p member named
    · rw [ElmJson.setMap_maps_other _ _ same] at member
      exact absurd (named ▸ ElmJson.ListsName.of_mem member) (nowhere once other there same)

/-- `add_or_update_package_in_elm_json` succeeds for an application. -/
theorem addOrUpdatePackageInElmJson_app {elmJson : ElmJson} (app : elmJson.type = .application)
    (name : PackageName) (version : String) (isTest isDirect : Bool) :
    ∃ elmJson', addOrUpdatePackageInElmJson elmJson name version isTest isDirect = some elmJson' ∧
      elmJson.Writes elmJson' name version := by
  unfold addOrUpdatePackageInElmJson
  cases found : findPackageMap elmJson name with
  | some field =>
    obtain ⟨used, listed⟩ := findPackageMap_some found
    refine ⟨_, rfl, ElmJson.Writes.setMap used ?_ ?_ ?_ ?_⟩
    · intro p ne
      rw [packageMapUpdate_mem]
      constructor
      · intro cases_
        rcases cases_ with ⟨-, member⟩ | ⟨rfl, -⟩
        · exact member
        · exact absurd rfl ne
      · exact fun member => Or.inl ⟨ne, member⟩
    · rw [packageMapUpdate_mem, app]
      exact Or.inr ⟨rfl, listed⟩
    · intro p member named
      rw [packageMapUpdate_mem, app] at member
      rcases member with ⟨ne, -⟩ | ⟨rfl, -⟩
      · exact absurd named ne
      · rfl
    · intro once other there ne here
      exact ne (once other there field used here listed)
  | none =>
    have absent : ∀ field ∈ elmJson.type.maps, ¬ elmJson.ListsName field name :=
      fun field used => findPackageMap_none found used
    have used := targetMap_mem elmJson.type isTest isDirect
    rw [app] at absent used
    obtain ⟨map, added⟩ := packageMapAdd_some version (absent _ used)
    dsimp only
    rw [app]
    dsimp only
    rw [added]
    refine ⟨_, rfl, ElmJson.Writes.setMap (by rw [app]; exact used) ?_ ?_ ?_ ?_⟩
    · intro p ne
      rw [packageMapAdd_mem added]
      constructor
      · intro cases_
        rcases cases_ with member | rfl
        · exact member
        · exact absurd rfl ne
      · exact Or.inl
    · exact (packageMapAdd_mem added).mpr (Or.inr rfl)
    · intro p member named
      rcases (packageMapAdd_mem added).mp member with old | rfl
      · exact absurd (named ▸ ElmJson.ListsName.of_mem old) (absent _ used)
      · rfl
    · intro _ other there _
      rw [app] at there
      exact absent other there

theorem applyChange_app {elmJson : ElmJson} (app : elmJson.type = .application)
    (requested : List PackageName) (isTest : Bool) {change : PackageChange} {version : String}
    (new : change.newVersion = some version) :
    ∃ elmJson', applyChange requested isTest elmJson change = some elmJson' ∧
      elmJson.Writes elmJson' change.name version := by
  unfold applyChange
  rw [app, new]
  exact addOrUpdatePackageInElmJson_app app _ _ _ _

/-! ## The whole plan -/

/-- The plan changes the package. -/
def InstallPlan.Changes (plan : InstallPlan) (name : PackageName) : Prop :=
  ∃ c ∈ plan, c.name = name

/-- What applying a plan does to an `elm.json`. -/
structure ElmJson.Applies (elmJson elmJson' : ElmJson) (plan : InstallPlan) : Prop where
  type : elmJson'.type = elmJson.type
  kept : ∀ p : Package, ¬ plan.Changes p.name → ∀ field,
    p ∈ (elmJson'.maps field).packages ↔ p ∈ (elmJson.maps field).packages
  written : ∀ c ∈ plan, ∀ version, c.newVersion = some version →
    elmJson'.Lists ⟨c.name, version⟩
  only : ∀ c ∈ plan, elmJson.ListsOnce c.name → ∀ p, elmJson'.Lists p → p.name = c.name →
    c.newVersion = some p.version

theorem ElmJson.Applies.lists {elmJson elmJson' : ElmJson} {plan : InstallPlan}
    (applies : elmJson.Applies elmJson' plan) {p : Package} (same : ¬ plan.Changes p.name) :
    elmJson'.Lists p ↔ elmJson.Lists p := by
  unfold ElmJson.Lists
  rw [applies.type]
  simp only [applies.kept p same]

/-- A package another change writes is listed where it was. -/
theorem ElmJson.Writes.listsOnce {elmJson elmJson' : ElmJson} {name other : PackageName}
    {version : String} (writes : elmJson.Writes elmJson' name version) (ne : other ≠ name)
    (once : elmJson.ListsOnce other) : elmJson'.ListsOnce other := by
  have names : ∀ field, elmJson'.ListsName field other → elmJson.ListsName field other := by
    intro field listed
    obtain ⟨p, member, same⟩ := List.mem_map.mp listed
    rw [writes.others p (by rw [same]; exact ne)] at member
    exact List.mem_map.mpr ⟨p, member, same⟩
  intro left inLeft right inRight here there
  rw [writes.type] at inLeft inRight
  exact once left inLeft right inRight (names left here) (names right there)

/-- Applying a plan to an application succeeds and writes every package of the
plan at the new version. -/
theorem applyPlan_app (requested : List PackageName) (isTest : Bool) :
    ∀ (plan : InstallPlan) {elmJson : ElmJson}, elmJson.type = .application →
      (plan.map PackageChange.name).Nodup → (∀ c ∈ plan, c.newVersion ≠ none) →
      ∃ elmJson', applyPlan requested isTest elmJson plan = some elmJson' ∧
        elmJson.Applies elmJson' plan := by
  intro plan
  induction plan with
  | nil =>
    intro elmJson _ _ _
    exact ⟨elmJson, rfl, rfl, fun _ _ _ => Iff.rfl, by simp, by simp⟩
  | cons change rest ih =>
    intro elmJson app nodup new
    obtain ⟨fresh, nodup⟩ := List.nodup_cons.mp nodup
    obtain ⟨version, here⟩ := Option.ne_none_iff_exists'.mp (new change List.mem_cons_self)
    obtain ⟨middle, first, writes⟩ := applyChange_app app requested isTest here
    obtain ⟨final, run, applies⟩ := ih (writes.type.trans app) nodup
      fun c member => new c (List.mem_cons_of_mem _ member)
    have unchanged : ∀ p : Package, p.name = change.name → ¬ InstallPlan.Changes rest p.name := by
      intro p named changes
      obtain ⟨c, member, same⟩ := changes
      exact fresh (List.mem_map.mpr ⟨c, member, same.trans named⟩)
    refine ⟨final, ?_, applies.type.trans writes.type, ?_, ?_, ?_⟩
    · unfold applyPlan at run ⊢
      rw [List.foldlM_cons, first]
      exact run
    · intro p same field
      have other : p.name ≠ change.name := fun named =>
        same ⟨change, List.mem_cons_self, named.symm⟩
      rw [applies.kept p _ field, writes.others p other field]
      intro changes
      obtain ⟨c, member, named⟩ := changes
      exact same ⟨c, List.mem_cons_of_mem _ member, named⟩
    · intro c member text written
      rcases List.mem_cons.mp member with rfl | later
      · rw [here] at written
        cases written
        exact (applies.lists (unchanged _ rfl)).mpr writes.written
      · exact applies.written c later text written
    · intro c member once p lists named
      rcases List.mem_cons.mp member with rfl | later
      · rw [applies.lists (unchanged p named)] at lists
        rw [here, writes.only once p lists named]
      · have other : c.name ≠ change.name := fun same =>
          fresh (List.mem_map.mpr ⟨c, later, same⟩)
        exact applies.only c later (writes.listsOnce other once) p lists named

end ElmWrap
