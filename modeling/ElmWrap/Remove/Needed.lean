import ElmWrap.Remove.Result

/-!
# Removing packages from an application

After a removal the packages that were asked for are direct dependencies no
more; they and the other indirect packages are listed as indirect as long as the
remaining packages need them.
-/

namespace ElmWrap

open Lib

/-! ## Ends of the command -/

/-- The command ends without a change of what is listed, or with the maps of which `P` holds, in
the file too if it can be written. -/
inductive RemoveResult.Ends (elmJson : ElmJson) (P : ElmJson → Prop) : RemoveResult → Prop
  | unread : Ends elmJson P ⟨.failed, none, some elmJson⟩
  | unchanged {outcome : RemoveOutcome} {memory : ElmJson} :
    outcome = .failed ∨ outcome = .aborted → memory.SameMaps elmJson →
    Ends elmJson P ⟨outcome, some memory, some elmJson⟩
  | notSaved {memory : ElmJson} : P memory → Ends elmJson P ⟨.notSaved, some memory, some elmJson⟩
  | removed {memory : ElmJson} : P memory → Ends elmJson P ⟨.removed, some memory, some memory⟩

theorem RemoveResult.Ends.mono {elmJson : ElmJson} {P Q : ElmJson → Prop} {result : RemoveResult}
    (ends : result.Ends elmJson P) (more : ∀ m, P m → Q m) : result.Ends elmJson Q := by
  cases ends with
  | unread => exact .unread
  | unchanged early same => exact .unchanged early same
  | notSaved holds => exact .notSaved (more _ holds)
  | removed holds => exact .removed (more _ holds)

theorem saveAndFinish_ends (run : RemoveRun) (elmJson : ElmJson) {P : ElmJson → Prop} {m : ElmJson}
    (holds : P m.sortMaps) : (saveAndFinish run (some elmJson) m).Ends elmJson P := by
  unfold saveAndFinish
  dsimp only
  split
  · exact .removed holds
  · exact .notSaved holds

theorem LeavesOf.sortMaps {elmJson : ElmJson} {names : List PackageName}
    {stays : PackageName → Prop} {result : ElmJson} (leaves : LeavesOf elmJson names stays result) :
    LeavesOf elmJson names stays result.sortMaps where
  type := leaves.type
  direct source target pair p := by
    rw [ElmJson.mem_sortMaps]
    exact leaves.direct source target pair p
  indirect source target pair p := by
    rw [ElmJson.mem_sortMaps]
    exact leaves.indirect source target pair p

/-- What the branch for applications leaves: the orphaned packages are those found while the
requested ones are moved. -/
def LeavesWithoutOrphans (cache : PackageCache) (elmJson : ElmJson) (names : List PackageName)
    (result : ElmJson) : Prop :=
  ∃ moved orphaned, Moved elmJson (· ∈ names) moved ∧
    findOrphanedPackages true moved cache [] = some orphaned ∧
    LeavesOf elmJson names (· ∉ orphaned.names) result

theorem removeFromApplication_ends (run : RemoveRun) {elmJson : ElmJson}
    (application : elmJson.type = .application) (once : elmJson.ListedOnce)
    {names : List PackageName}
    (listed : ∀ name ∈ names, (findExistingPackage elmJson name).isSome = true) :
    (removeFromApplication run (some elmJson) elmJson names).Ends elmJson
      (LeavesWithoutOrphans run.cache elmJson names) := by
  have there : Moved elmJson (· ∈ names)
      ((names.map (removalTarget elmJson)).foldl moveToDemote elmJson) :=
    (Moved.moveAll application once names (Moved.refl elmJson)).congr (by simp)
  have back := Moved.thereAndBack application once names
  unfold removeFromApplication
  dsimp only
  cases found : findOrphanedPackages run.ruleWorks
      ((names.map (removalTarget elmJson)).foldl moveToDemote elmJson) run.cache [] with
  | none => exact .unchanged (Or.inl rfl) back.restored
  | some orphaned =>
    dsimp only
    cases answer : run.confirmed with
    | none => exact .unchanged (Or.inl rfl) back.restored
    | some yes =>
      cases yes with
      | false => exact .unchanged (Or.inr rfl) back.restored
      | true =>
        have works : run.ruleWorks = true := by
          by_contra broken
          unfold findOrphanedPackages at found
          rw [if_neg (by simp [there.type.trans application]), if_pos (by simp [broken])]
            at found
          cases found
        rw [works] at found
        apply saveAndFinish_ends
        refine ⟨_, orphaned, there, found, LeavesOf.sortMaps ?_⟩
        apply demote_and_remove application once listed _ back fun name => mem_names_sortBy
        -- an orphaned package is an indirect one of the moved state
        intro name orphan direct
        obtain ⟨other, same, exactly⟩ := findOrphanedPackages_names
          (there.type.trans application) run.cache []
        rw [found] at same
        cases same
        obtain ⟨p, member, rfl⟩ := List.mem_map.mp ((exactly name).mp orphan).1
        obtain ⟨source, target, pair, on⟩ := mem_indirectPackages.mp member
        rcases (there.target_entries pair p).mp on with old | ⟨_, inside⟩
        · obtain ⟨origin, counterpart, also, here⟩ := direct
          obtain ⟨q, first, twice⟩ := List.mem_map.mp here
          exact absurd twice (not_listed_twice application once also pair first old)
        · exact inside

/-- What the branch for packages leaves. -/
structure LeavesOfPackage (elmJson : ElmJson) (names : List PackageName) (result : ElmJson) :
    Prop where
  type : result.type = elmJson.type
  entries : ∀ field ∈ ElmProjectType.package.maps, ∀ p,
    p ∈ (result.maps field).packages ↔ p ∈ (elmJson.maps field).packages ∧ p.name ∉ names

theorem mem_removeFromPackageMaps {elmJson : ElmJson} {name : PackageName} {field : ElmJsonMap}
    (used : field ∈ ElmProjectType.package.maps) {p : Package} :
    p ∈ ((removeFromPackageMaps elmJson name).maps field).packages ↔
      p ∈ (elmJson.maps field).packages ∧ p.name ≠ name := by
  unfold removeFromPackageMaps
  dsimp only
  rw [ElmJson.setMap_maps, ElmJson.setMap_maps, ElmJson.setMap_maps]
  cases field with
  | packageDependencies => exact mem_packageMapRemove
  | packageTestDependencies => exact mem_packageMapRemove
  | _ => exact absurd used (by decide)

theorem foldl_removeFromPackageMaps (plan : InstallPlan) (elmJson : ElmJson) :
    LeavesOfPackage elmJson (plan.map PackageChange.name)
      (plan.foldl (fun elmJson change => removeFromPackageMaps elmJson change.name) elmJson) := by
  induction plan generalizing elmJson with
  | nil => exact ⟨rfl, by simp⟩
  | cons change plan ih =>
    rw [List.foldl_cons]
    have rest := ih (removeFromPackageMaps elmJson change.name)
    constructor
    · exact rest.type
    · intro field used p
      rw [rest.entries field used, mem_removeFromPackageMaps used, List.map_cons, List.mem_cons,
        not_or, and_assoc]

theorem mem_addPackageRemovals {elmJson : ElmJson} {names : List PackageName}
    (listed : ∀ name ∈ names, (findExistingPackage elmJson name).isSome = true)
    (plan : InstallPlan) (other : PackageName) :
    other ∈ (names.foldl (addPackageRemoval elmJson) plan).map PackageChange.name ↔
      other ∈ plan.map PackageChange.name ∨ other ∈ names := by
  induction names generalizing plan with
  | nil => simp
  | cons name names ih =>
    obtain ⟨p, found⟩ := Option.isSome_iff_exists.mp (listed name List.mem_cons_self)
    rw [List.foldl_cons, ih fun name member => listed name (List.mem_cons_of_mem _ member)]
    unfold addPackageRemoval
    rw [found]
    dsimp only
    rw [mem_addRemoval, List.mem_cons, or_assoc]

theorem removeFromPackage_ends (run : RemoveRun) (elmJson : ElmJson) {names : List PackageName}
    (listed : ∀ name ∈ names, (findExistingPackage elmJson name).isSome = true) :
    (removeFromPackage run (some elmJson) elmJson names).Ends elmJson
      (LeavesOfPackage elmJson names) := by
  unfold removeFromPackage
  dsimp only
  cases run.confirmed with
  | none => exact .unchanged (Or.inl rfl) (ElmJson.SameMaps.refl elmJson)
  | some yes =>
    cases yes with
    | false => exact .unchanged (Or.inr rfl) (ElmJson.SameMaps.refl elmJson)
    | true =>
      apply saveAndFinish_ends
      have leaves := foldl_removeFromPackageMaps
        (Keyed.sortBy PackageChange.key (names.foldl (addPackageRemoval elmJson) [])) elmJson
      constructor
      · exact leaves.type
      · intro field used p
        rw [ElmJson.mem_sortMaps, leaves.entries field used, mem_names_sortBy,
          mem_addPackageRemovals listed]
        simp

/-- What the command leaves. -/
structure CommandLeaves (cache : PackageCache) (elmJson : ElmJson) (names : List PackageName)
    (result : ElmJson) : Prop where
  application : elmJson.type = .application → LeavesWithoutOrphans cache elmJson names result
  package : elmJson.type = .package → LeavesOfPackage elmJson names result

theorem cmdRemove_ends (run : RemoveRun) {elmJson : ElmJson} (once : elmJson.ListedOnce)
    (package_names : List String) :
    (cmdRemove run (some elmJson) package_names).Ends elmJson fun result =>
      ∃ names, package_names.mapM parsePackageName = some names ∧
        CommandLeaves run.cache elmJson names result := by
  have unchanged := ElmJson.SameMaps.refl elmJson
  unfold cmdRemove
  split
  · exact .unread
  · dsimp only
    cases parsed : package_names.mapM parsePackageName with
    | none => exact .unchanged (Or.inl rfl) unchanged
    | some names =>
      dsimp only
      split
      · exact .unchanged (Or.inl rfl) unchanged
      · rename_i present
        have listed : ∀ name ∈ names, (findExistingPackage elmJson name).isSome = true := by
          intro name member
          by_contra missing
          apply present
          rw [List.any_eq_true]
          exact ⟨name, member, by simpa using missing⟩
        split
        · exact .unchanged (Or.inl rfl) unchanged
        · split
          · rename_i application
            apply (removeFromApplication_ends run application once listed).mono
            intro m leaves
            refine ⟨names, rfl, fun _ => leaves, ?_⟩
            intro package
            rw [application] at package
            cases package
          · rename_i other
            apply (removeFromPackage_ends run elmJson listed).mono
            intro m leaves
            exact ⟨names, rfl, fun application => absurd application other, fun _ => leaves⟩

/-! ## The packages that are needed -/

/-- Every dependency of a listed package is listed. -/
def ElmJson.ClosedIn (elmJson : ElmJson) (cache : PackageCache) : Prop :=
  ∀ q, elmJson.Lists q → ∀ d, RecordedDependency elmJson cache q.name d →
    ∃ p, elmJson.Lists p ∧ p.name = d

/-- The files in the cache lead to every listed package that is needed. -/
structure CacheLeads (elmJson : ElmJson) (cache : PackageCache) (names : List PackageName) :
    Prop where
  agree : VersionsAgree elmJson cache []
  covered : ∀ p, elmJson.Lists p → Needed elmJson cache names p.name →
    Closure.Reached (ReadableDependency elmJson cache []) (Kept elmJson names) p.name

/-- The packages are removed from an application. -/
structure RemovedFromApplication (elmJson : ElmJson) (cache : PackageCache)
    (names : List PackageName) (result : ElmJson) : Prop where
  leaves : LeavesOf elmJson names (Needed elmJson cache names) result
  /-- A package that was indirect is removed although it is needed. -/
  closed : ∀ q, result.Lists q → ∀ d, RecordedDependency result cache q.name d →
    (∃ p, result.Lists p ∧ p.name = d) ∨
      (d ∈ names ∧ d ∈ (indirectPackages elmJson).map Package.name)

/-- Without the orphaned packages is with those that are needed. -/
theorem LeavesWithoutOrphans.needed {elmJson : ElmJson} (application : elmJson.type = .application)
    {cache : PackageCache} {names : List PackageName} (leads : CacheLeads elmJson cache names)
    {result : ElmJson} (leaves : LeavesWithoutOrphans cache elmJson names result) :
    LeavesOf elmJson names (Needed elmJson cache names) result := by
  obtain ⟨moved, orphaned, state, found, leaves⟩ := leaves
  have type := state.type.trans application
  obtain ⟨other, same, exactly⟩ := findOrphanedPackages_names type cache []
  rw [found] at same
  cases same
  apply leaves.congr
  intro source target pair p which
  have indirect : p ∈ (moved.maps target).packages := (state.target_entries pair p).mpr which
  have listed : elmJson.Lists p :=
    (state.lists application p).mp
      ((ElmJson.lists_app type).mpr ⟨source, target, pair, Or.inr indirect⟩)
  have among : p.name ∈ (indirectPackages moved).map Package.name :=
    List.mem_map_of_mem (mem_indirectPackages.mpr ⟨source, target, pair, indirect⟩)
  have orphan := exactly p.name
  rw [(state.versionsAgree application leads.agree).followed, state.readable application,
    state.kept fun _ => Iff.rfl] at orphan
  constructor
  · intro stays
    by_contra free
    apply stays
    refine orphan.mpr ⟨among, ?_⟩
    intro reached
    exact free (reached.mono fun _ _ readable => readable.recorded application)
  · intro needed member
    exact (orphan.mp member).2 (leads.covered p listed needed)

theorem LeavesOf.removed {elmJson : ElmJson} (application : elmJson.type = .application)
    {cache : PackageCache} (closed : elmJson.ClosedIn cache) {names : List PackageName}
    {result : ElmJson} (leaves : LeavesOf elmJson names (Needed elmJson cache names) result) :
    RemovedFromApplication elmJson cache names result where
  leaves := leaves
  closed q listed d depends := by
    have before := leaves.lists application listed
    have recorded : RecordedDependency elmJson cache q.name d := by
      obtain ⟨r, on, same, rest⟩ := depends
      exact ⟨r, leaves.lists application on, same, rest⟩
    obtain ⟨p, here, rfl⟩ := closed q before d recorded
    -- what remains is needed, and with it what it depends on
    have remains : Needed elmJson cache names q.name := by
      obtain ⟨source, target, pair, direct | indirect⟩ := (ElmJson.lists_app leaves.type).mp listed
      · obtain ⟨member, outside⟩ := (leaves.direct source target pair q).mp direct
        apply Closure.Reached.start
        exact List.mem_map_of_mem (mem_keptPackages.mpr ⟨⟨source, target, pair, member⟩, outside⟩)
      · exact ((leaves.indirect source target pair q).mp indirect).2
    have needed : Needed elmJson cache names p.name := remains.tail recorded
    obtain ⟨source, target, pair, direct | indirect⟩ := (ElmJson.lists_app application).mp here
    · apply Or.inl
      refine ⟨p, (ElmJson.lists_app leaves.type).mpr ⟨source, target, pair, ?_⟩, rfl⟩
      by_cases asked : p.name ∈ names
      · exact Or.inr ((leaves.indirect source target pair p).mpr ⟨Or.inr ⟨direct, asked⟩, needed⟩)
      · exact Or.inl ((leaves.direct source target pair p).mpr ⟨direct, asked⟩)
    · by_cases asked : p.name ∈ names
      · refine Or.inr ⟨asked, ?_⟩
        exact List.mem_map_of_mem (mem_indirectPackages.mpr ⟨source, target, pair, indirect⟩)
      · apply Or.inl
        refine ⟨p, (ElmJson.lists_app leaves.type).mpr ⟨source, target, pair, ?_⟩, rfl⟩
        exact Or.inr ((leaves.indirect source target pair p).mpr ⟨Or.inl ⟨indirect, asked⟩, needed⟩)

/-- What a removal does. -/
structure RemovesPackages (elmJson : ElmJson) (cache : PackageCache) (names : List PackageName)
    (result : ElmJson) : Prop where
  application : elmJson.type = .application → RemovedFromApplication elmJson cache names result
  package : elmJson.type = .package → LeavesOfPackage elmJson names result

/-- The packages are listed, everything works, and the changes are confirmed. -/
structure RemoveRun.Succeeds (run : RemoveRun) (elmJson : ElmJson) (package_names : List String) :
    Prop where
  asked : package_names ≠ []
  listed : ∃ names, package_names.mapM parsePackageName = some names ∧
    ∀ name ∈ names, (findExistingPackage elmJson name).isSome = true
  env : run.envWorks = true
  rule : elmJson.type = .application → run.ruleWorks = true
  confirmed : run.confirmed = some true
  saves : run.saves = true

theorem saveAndFinish_removed {run : RemoveRun} (saves : run.saves = true) (disk : Option ElmJson)
    (elmJson : ElmJson) : (saveAndFinish run disk elmJson).outcome = .removed := by
  unfold saveAndFinish
  dsimp only
  rw [if_pos saves]

theorem cmdRemove_succeeds {run : RemoveRun} {elmJson : ElmJson} {package_names : List String}
    (succeeds : run.Succeeds elmJson package_names) :
    (cmdRemove run (some elmJson) package_names).outcome = .removed := by
  obtain ⟨names, parsed, listed⟩ := succeeds.listed
  unfold cmdRemove
  rw [if_neg succeeds.asked]
  dsimp only
  rw [parsed]
  dsimp only
  have present : ¬ (names.any fun name => (findExistingPackage elmJson name).isNone) = true := by
    intro any
    obtain ⟨name, member, missing⟩ := List.any_eq_true.mp any
    rw [Option.isNone_iff_eq_none] at missing
    have found := listed name member
    rw [missing] at found
    cases found
  rw [if_neg present, if_neg (by simp [succeeds.env])]
  by_cases application : elmJson.type = .application
  · rw [if_pos application]
    unfold removeFromApplication
    dsimp only
    rw [succeeds.rule application]
    have type : ((names.map (removalTarget elmJson)).foldl moveToDemote elmJson).type =
        .application := by
      apply List.foldlRecOn (motive := fun elmJson : ElmJson => elmJson.type = .application)
      · exact application
      · intro moved same target _
        unfold moveToDemote
        split
        · exact same
        · exact same
    obtain ⟨orphaned, found, _⟩ := findOrphanedPackages_names type run.cache []
    rw [found, succeeds.confirmed]
    exact saveAndFinish_removed succeeds.saves _ _
  · rw [if_neg application]
    unfold removeFromPackage
    dsimp only
    rw [succeeds.confirmed]
    exact saveAndFinish_removed succeeds.saves _ _

/-- `cmd_remove` either changes nothing that is listed, in memory or in the file, or removes the
packages and what is not needed without them; the file is then as before or as `elm_json`. It
removes them if they are listed, everything works and the changes are confirmed. -/
theorem cmdRemove_removes (run : RemoveRun) {elmJson : ElmJson} (once : elmJson.ListedOnce)
    (closed : elmJson.type = .application → elmJson.ClosedIn run.cache)
    {package_names : List String}
    (leads : elmJson.type = .application → ∀ names,
      package_names.mapM parsePackageName = some names → CacheLeads elmJson run.cache names) :
    ((cmdRemove run (some elmJson) package_names).Ends elmJson fun result =>
      ∃ names, package_names.mapM parsePackageName = some names ∧
        RemovesPackages elmJson run.cache names result) ∧
    (run.Succeeds elmJson package_names →
      (cmdRemove run (some elmJson) package_names).outcome = .removed) := by
  refine ⟨?_, cmdRemove_succeeds⟩
  apply (cmdRemove_ends run once package_names).mono
  intro m found
  obtain ⟨names, parsed, leaves⟩ := found
  refine ⟨names, parsed, ?_, leaves.package⟩
  intro application
  have needed :=
    (leaves.application application).needed application (leads application names parsed)
  exact needed.removed application (closed application)

/-! ## An application with `elm/browser` -/

theorem ElmJson.listedOnce_of_names {elmJson : ElmJson}
    (apart : ∀ left ∈ elmJson.type.maps, ∀ name ∈ (elmJson.maps left).names,
      ∀ right ∈ elmJson.type.maps, name ∈ (elmJson.maps right).names → left = right) :
    elmJson.ListedOnce := fun name left used right also first second =>
  apart left used name first right also second

theorem browserApplication_once : browserApplication.ListedOnce :=
  ElmJson.listedOnce_of_names (by decide)

/-- `elm/browser` is in the cache. -/
def browserCache : PackageCache := [⟨⟨elmBrowserPackage, "1.0.2"⟩, browserElmJson, true⟩]

theorem browserCache_metadata {p : Package} {m : PackageMetadata}
    (found : browserCache.metadata p = some m) :
    p = ⟨elmBrowserPackage, "1.0.2"⟩ ∧
      m = ⟨⟨elmBrowserPackage, "1.0.2"⟩, browserElmJson, true⟩ := by
  unfold PackageCache.metadata browserCache at found
  have same := List.find?_some found
  have member := List.mem_singleton.mp (List.mem_of_find?_eq_some found)
  rw [member] at same
  exact ⟨(of_decide_eq_true same).symm, member⟩

theorem browserApplication_recorded {p d : PackageName}
    (depends : RecordedDependency browserApplication browserCache p d) :
    p = elmBrowserPackage ∧ d = elmVirtualDomPackage := by
  obtain ⟨q, _, same, m, found, member⟩ := depends
  obtain ⟨rfl, rfl⟩ := browserCache_metadata found
  exact ⟨same.symm, List.mem_singleton.mp member⟩

theorem browserApplication_lists_virtualDom :
    browserApplication.Lists ⟨elmVirtualDomPackage, "1.0.3"⟩ :=
  ⟨.dependenciesIndirect, by decide, List.mem_singleton.mpr rfl⟩

theorem browserApplication_closed : browserApplication.ClosedIn browserCache := by
  intro q _ d depends
  obtain ⟨_, same⟩ := browserApplication_recorded depends
  exact ⟨_, browserApplication_lists_virtualDom, same.symm⟩

theorem browserApplication_leads (names : List PackageName) :
    CacheLeads browserApplication browserCache names := by
  constructor
  · constructor
    · decide
    · intro p _ _ json read d member constant
      unfold PackageCache.elmJsonRead at read
      split at read
      · rename_i m found
        obtain ⟨_, same⟩ := browserCache_metadata found
        rw [same] at read
        cases read
        rw [List.mem_singleton.mp member] at constant
        exact absurd constant (by decide)
      · cases read
  · intro p _ needed
    apply needed.mono
    intro source d depends
    obtain ⟨first, second⟩ := browserApplication_recorded depends
    rw [first, second]
    refine ⟨⟨elmBrowserPackage, "1.0.2"⟩, by decide, by decide, rfl, browserElmJson, ?_, ?_⟩
    · rfl
    · decide

/-- A run in which everything works. -/
def browserRun : RemoveRun := ⟨browserCache, true, true, true, none, true⟩

theorem cmdRemove_removes_browser :
    ((cmdRemove browserRun (some browserApplication) ["elm/browser"]).Ends browserApplication
      fun result => ∃ names, ["elm/browser"].mapM parsePackageName = some names ∧
        RemovesPackages browserApplication browserRun.cache names result) ∧
    (browserRun.Succeeds browserApplication ["elm/browser"] →
      (cmdRemove browserRun (some browserApplication) ["elm/browser"]).outcome = .removed) :=
  cmdRemove_removes browserRun browserApplication_once (fun _ => browserApplication_closed)
    (fun _ names _ => browserApplication_leads names)

/-- The conditions under which a run removes packages from an application that lists nothing
twice, is closed, and whose files can be read. -/
structure Removal (run : RemoveRun) (elmJson : ElmJson) (package_names : List String)
    (names : List PackageName) : Prop where
  application : elmJson.type = .application
  once : elmJson.ListedOnce
  closed : elmJson.ClosedIn run.cache
  leads : ∀ names, CacheLeads elmJson run.cache names
  parsed : package_names.mapM parsePackageName = some names

/-- The last argument says whether the file can be written. -/
theorem browserApplication_removal {text : String} {name : PackageName}
    (parsed : parsePackageName text = some name) (saves : Bool) :
    Removal { browserRun with saves := saves } browserApplication [text] [name] where
  application := rfl
  once := browserApplication_once
  closed := browserApplication_closed
  leads := browserApplication_leads
  parsed := by
    rw [List.mapM_cons, parsed]
    rfl

/-- With `elm/browser` goes `elm/virtual-dom`, which nothing needs any more; `elm/virtual-dom` is
removed on request although `elm/browser` needs it; and if the file cannot be written, the
maps in memory are those of the removal. -/
theorem cmdRemove_keeps_fails :
    (¬ ∀ run elmJson package_names names, Removal run elmJson package_names names →
      ∀ m, (cmdRemove run (some elmJson) package_names).disk = some m →
        ∀ field p, p ∈ (elmJson.maps field).packages → p.name ∉ names →
          p ∈ (m.maps field).packages) ∧
    (¬ ∀ run elmJson package_names names, Removal run elmJson package_names names →
      ∀ m, (cmdRemove run (some elmJson) package_names).disk = some m → m.ClosedIn run.cache) ∧
    ¬ ∀ run elmJson package_names names, Removal run elmJson package_names names →
      (cmdRemove run (some elmJson) package_names).outcome ≠ .removed →
        ∀ m, (cmdRemove run (some elmJson) package_names).memory = some m →
          m.SameMaps elmJson := by
  have browser : parsePackageName "elm/browser" = some elmBrowserPackage := by decide
  have virtualDom : parsePackageName "elm/virtual-dom" = some elmVirtualDomPackage := by
    decide
  refine ⟨?_, ?_, ?_⟩
  · intro claim
    have holds := claim _ _ _ _ (browserApplication_removal browser true)
    have left : ((cmdRemove browserRun (some browserApplication) ["elm/browser"]).disk.map fun m =>
        (m.maps .dependenciesIndirect).packages) = some [] := by decide
    obtain ⟨m, disk, none⟩ := Option.map_eq_some_iff.mp left
    have member := holds m disk .dependenciesIndirect ⟨elmVirtualDomPackage, "1.0.3"⟩
      (List.mem_singleton.mpr rfl) (by decide)
    rw [none] at member
    cases member
  · intro claim
    have holds := claim _ _ _ _ (browserApplication_removal virtualDom true)
    have left : ((cmdRemove browserRun (some browserApplication) ["elm/virtual-dom"]).disk.map
        fun m =>
          (m.type, ElmProjectType.application.maps.map fun field => (m.maps field).packages)) =
        some (.application, [[⟨elmBrowserPackage, "1.0.2"⟩], [], [], []]) := by decide
    obtain ⟨m, disk, only⟩ := Option.map_eq_some_iff.mp left
    injection only with type entries
    have lists : ∀ p, m.Lists p ↔ p = ⟨elmBrowserPackage, "1.0.2"⟩ := by
      intro p
      injection entries with direct rest
      injection rest with indirect rest
      injection rest with test rest
      injection rest with testIndirect _
      unfold ElmJson.Lists
      rw [type]
      simp [ElmProjectType.maps, direct, indirect, test, testIndirect]
    obtain ⟨p, listed, same⟩ := holds m disk ⟨elmBrowserPackage, "1.0.2"⟩ ((lists _).mpr rfl)
      elmVirtualDomPackage ⟨_, (lists _).mpr rfl, rfl, _, rfl, by decide⟩
    rw [(lists p).mp listed] at same
    exact absurd same (by decide)
  · intro claim
    have holds := claim _ _ _ _ (browserApplication_removal browser false)
    have left : ((cmdRemove { browserRun with saves := false } (some browserApplication)
        ["elm/browser"]).memory.map fun m => (m.maps .dependenciesDirect).packages) = some [] := by
      decide
    obtain ⟨m, memory, none⟩ := Option.map_eq_some_iff.mp left
    have same := holds (by decide) m memory
    have member := (same.entries .dependenciesDirect ⟨elmBrowserPackage, "1.0.2"⟩).mpr
      (List.mem_singleton.mpr rfl)
    rw [none] at member
    cases member

end ElmWrap
