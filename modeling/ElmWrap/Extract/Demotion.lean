import ElmWrap.Build.Attribution
import ElmWrap.Publish.Prepublish
import ElmWrap.Remove.Needed

/-!
# Direct dependencies that nothing imports

At its end `package extract` takes the direct dependencies that no source imports any
more out of the application's `elm.json`. The first part is that function of
`extract_cmd.c`, the second what an application needs of it: that it stays closed.
-/

namespace ElmWrap.Extract

open Lib (Json)
open Publish (Entries RealPath collectAllElmFiles)

/-! ## The application on the disk -/

/-- What the command finds. -/
structure AppDisk where
  /-- `elm_json_read` of the application. -/
  elmJson : Option ElmJson
  /-- `cJSON_Parse` of the same file. -/
  root : Option Json
  realpath : String → Option String
  fileExists : String → Bool
  /-- A directory that can be opened. -/
  opendir : String → Entries
  skeletonParse : RealPath → Option SkeletonModule
  /-- `cache_config_init` works. -/
  cacheConfig : Bool
  /-- The `elm.json` files of the cache. -/
  packageFiles : PackageFiles
  /-- `elm_json_write` works. -/
  saves : Bool

/-- `elm_parse_source_directories`, given what `cJSON_Parse` returns. -/
def elmParseSourceDirectories (root : Option Json) : Option (List String) :=
  root.map fun root =>
    match getObjectItem root "source-directories" with
    | some (.array items) => items.filterMap Json.text?
    | _ => []

/-- `get_app_source_dirs_abs`. -/
def getAppSourceDirsAbs (disk : AppDisk) (appRootDir : String) : Option (List String) :=
  let sourceDirs := match elmParseSourceDirectories disk.root with
    | none | some [] => ["src"]
    | some dirs => dirs
  let root := if appRootDir = "" then "." else appRootDir
  sourceDirs.mapM fun dir =>
    let fullPath := root ++ "/" ++ dir
    if maxPathLength ≤ fullPath.utf8ByteSize then none
    else some ((disk.realpath fullPath).getD fullPath)

/-- `elm_module_name_to_path`. -/
def elmModuleNameToPath (moduleName srcDir : String) : Option String :=
  if maxPathLength < srcDir.utf8ByteSize + 1 + moduleName.utf8ByteSize + 4 + 1 then none
  else some (srcDir ++ "/" ++ moduleName.map (fun c => if c = '.' then '/' else c) ++ ".elm")

/-- `resolve_local_import_to_file`. -/
def resolveLocalImportToFile (disk : AppDisk) (moduleName : String) :
    List String → Option String
  | [] => none
  | srcDir :: srcDirs =>
    match elmModuleNameToPath moduleName srcDir with
    | none => resolveLocalImportToFile disk moduleName srcDirs
    | some candidate =>
      if disk.fileExists candidate then disk.realpath candidate
      else resolveLocalImportToFile disk moduleName srcDirs

/-! ## The modules of the packages -/

/-- `collect_packages_from_map`. -/
def collectPackagesFromMap (pkgs : List Package) (map : PackageMap) : List Package :=
  map.packages.foldl (fun pkgs p =>
    if p.name ∈ pkgs.map Package.name then pkgs else pkgs ++ [p]) pkgs

/-- `external_module_owner_map_add`. -/
def externalModuleOwnerMapAdd (map : List (String × PackageName)) (moduleName : String)
    (packageName : PackageName) : List (String × PackageName) :=
  if moduleName ∈ map.map Prod.fst then map else map ++ [(moduleName, packageName)]

/-- `build_external_module_owner_map_from_app`. -/
def buildExternalModuleOwnerMapFromApp (disk : AppDisk) (appJson : ElmJson) :
    Option (List (String × PackageName)) :=
  if appJson.type ≠ .application || !disk.cacheConfig then none
  else
    let pkgs := ElmProjectType.application.maps.foldl (fun pkgs field =>
      collectPackagesFromMap pkgs (appJson.maps field)) []
    let map := (Lib.Keyed.sortBy Package.key pkgs).foldl (fun map p =>
      let root := disk.packageFiles p.name.author p.name.project p.version
      ((elmParseExposedModules root).getD []).foldl
        (fun map moduleName => externalModuleOwnerMapAdd map moduleName p.name) map) []
    some (Lib.Keyed.sortBy Prod.fst map)

/-- `external_module_owner_map_find`: no module is there twice. -/
def externalModuleOwnerMapFind (map : List (String × PackageName)) (moduleName : String) :
    Option PackageName :=
  (Lib.Keyed.lookup Prod.fst moduleName map).map Prod.snd

/-! ## The packages that are used -/

/-- `string_set_add`. -/
def stringSetAdd (set : List String) (s : String) : List String :=
  if s ∈ set then set else set ++ [s]

/-- The package whose use an import shows. -/
def importOwner (disk : AppDisk) (srcDirs : List String)
    (externalMap : List (String × PackageName)) (importName : String) : Option PackageName :=
  match resolveLocalImportToFile disk importName srcDirs with
  | some _ => none
  | none => externalModuleOwnerMapFind externalMap importName

/-- The source files; `elm_collect_elm_files` is the walk of `collect_all_elm_files`. -/
def sourceFiles (disk : AppDisk) (srcDirs : List String) : List RealPath :=
  srcDirs.flatMap fun dir => collectAllElmFiles (disk.opendir dir)

/-- `used_direct_pkgs`. -/
def usedDirectPkgs (disk : AppDisk) (srcDirs : List String)
    (externalMap : List (String × PackageName)) : List String :=
  (sourceFiles disk srcDirs).foldl (fun used file =>
    match disk.skeletonParse file with
    | none => used
    | some mod =>
      mod.imports.foldl (fun used importName =>
        match importOwner disk srcDirs externalMap importName with
        | some owner => stringSetAdd used owner.full
        | none => used) used) []

/-! ## The loop -/

/-- `elm/core`, and the package that has been extracted. -/
def keepsPlace (keep : Option PackageName) (name : PackageName) : Bool :=
  (name.author = "elm" && name.project = "core") || keep = some name

/-- The loop over the direct dependencies, from an index on: the map and `removed_count`. A name
that has been accepted fits in `key`. Each step leaves one entry less to look at. -/
def demoteFrom (keep : Option PackageName) (used : List String) :
    Nat → Nat → PackageMap → Nat → PackageMap × Nat
  | 0, _, map, removed => (map, removed)
  | remaining + 1, i, map, removed =>
    match map.packages[i]? with
    | none => (map, removed)
    | some p =>
      if keepsPlace keep p.name then demoteFrom keep used remaining (i + 1) map removed
      else if used.contains p.name.full then demoteFrom keep used remaining (i + 1) map removed
      else demoteFrom keep used remaining i (packageMapRemove map p.name) (removed + 1)

/-- What is returned, and what the file lists then. -/
structure DemotionResult where
  ok : Bool
  file : Option ElmJson

/-- `demote_unused_app_direct_dependencies`. -/
def demoteUnusedAppDirectDependencies (disk : AppDisk) (appRootDir : String)
    (keep : Option PackageName) : DemotionResult :=
  match disk.elmJson with
  | none => ⟨false, disk.elmJson⟩
  | some appJson =>
    if appJson.type ≠ .application then ⟨false, disk.elmJson⟩
    else
      match getAppSourceDirsAbs disk appRootDir with
      | none => ⟨false, disk.elmJson⟩
      | some srcDirs =>
        match buildExternalModuleOwnerMapFromApp disk appJson with
        | none => ⟨false, disk.elmJson⟩
        | some externalMap =>
          let used := usedDirectPkgs disk srcDirs externalMap
          let direct := appJson.maps .dependenciesDirect
          let (direct, removed) := demoteFrom keep used direct.packages.length 0 direct 0
          if 0 < removed then
            -- `elm_json_write` sorts the maps
            if disk.saves then
              ⟨true, some (appJson.setMap .dependenciesDirect direct).sortMaps⟩
            else ⟨false, disk.elmJson⟩
          else ⟨true, disk.elmJson⟩

/-! ## What the loop leaves -/

section Loop

variable {keep : Option PackageName} {used : List String}

/-- The package stays a direct dependency. -/
def staysDirect (keep : Option PackageName) (used : List String) (name : PackageName) : Bool :=
  keepsPlace keep name || used.contains name.full

theorem demoteFrom_stays {remaining i : Nat} {map : PackageMap} {removed : Nat} {p : Package}
    (here : map.packages[i]? = some p) (stays : staysDirect keep used p.name = true) :
    demoteFrom keep used (remaining + 1) i map removed =
      demoteFrom keep used remaining (i + 1) map removed := by
  rw [demoteFrom, here]
  dsimp only
  rcases Bool.or_eq_true_iff.mp stays with kept | imported
  · rw [if_pos kept]
  · rw [if_pos imported, ite_self]

theorem demoteFrom_leaves {remaining i : Nat} {map : PackageMap} {removed : Nat} {p : Package}
    (here : map.packages[i]? = some p) (leaves : staysDirect keep used p.name = false) :
    demoteFrom keep used (remaining + 1) i map removed =
      demoteFrom keep used remaining i (packageMapRemove map p.name) (removed + 1) := by
  obtain ⟨place, unused⟩ := Bool.or_eq_false_iff.mp leaves
  rw [demoteFrom, here]
  dsimp only
  rw [place, unused]
  rfl

/-- What the loop leaves of a map whose entries in front of the index stay. -/
structure LeavesUsed (keep : Option PackageName) (used : List String) (map : PackageMap)
    (removed : Nat) (result : PackageMap × Nat) : Prop where
  entries : ∀ p, p ∈ result.1.packages ↔ p ∈ map.packages ∧ staysDirect keep used p.name = true
  counted : removed ≤ result.2
  untouched : result.2 = removed → ∀ p ∈ map.packages, staysDirect keep used p.name = true

theorem demoteFrom_leavesUsed (keep : Option PackageName) (used : List String)
    (remaining i : Nat) (map : PackageMap) (removed : Nat)
    (left : i + remaining = map.packages.length)
    (front : ∀ p ∈ map.packages.take i, staysDirect keep used p.name = true) :
    LeavesUsed keep used map removed (demoteFrom keep used remaining i map removed) := by
  induction remaining generalizing i map removed with
  | zero =>
    rw [List.take_of_length_le (by omega)] at front
    exact ⟨fun p => ⟨fun member => ⟨member, front p member⟩, And.left⟩, Nat.le_refl _,
      fun _ => front⟩
  | succ remaining ih =>
    have inside : i < map.packages.length := by omega
    have here := List.getElem?_eq_getElem inside
    generalize map.packages[i] = p at here
    cases stays : staysDirect keep used p.name with
    | true =>
      rw [demoteFrom_stays here stays]
      apply ih (i + 1) map removed (by omega)
      intro q member
      rw [List.take_add_one, here, List.mem_append] at member
      rcases member with before | this
      · exact front q before
      · rw [List.mem_singleton.mp this, stays]
    | false =>
      rw [demoteFrom_leaves here stays]
      have on : p ∈ map.packages := List.mem_of_getElem? here
      have rest := ih i (packageMapRemove map p.name) (removed + 1)
        (by
          have shorter : (packageMapRemove map p.name).packages.length =
            map.packages.length - 1 := Lib.Keyed.length_swapRemove on
          omega)
        (by
          have same : (packageMapRemove map p.name).packages.take i = map.packages.take i :=
            Lib.Keyed.take_swapRemove map.nodup here
          rwa [same])
      refine ⟨?_, by have := rest.counted; omega, ?_⟩
      · intro q
        rw [rest.entries, mem_packageMapRemove, and_assoc]
        refine and_congr_right fun _ => and_iff_right_of_imp ?_
        intro used same
        rw [same, stays] at used
        cases used
      · intro none
        have := rest.counted
        omega

end Loop

/-! ## What the scan finds -/

/-- A source file imports a module of the package that no source file provides. -/
def Imports (disk : AppDisk) (srcDirs : List String) (externalMap : List (String × PackageName))
    (name : PackageName) : Prop :=
  ∃ file ∈ sourceFiles disk srcDirs, ∃ mod, disk.skeletonParse file = some mod ∧
    ∃ importName ∈ mod.imports, importOwner disk srcDirs externalMap importName = some name

theorem mem_stringSetAdd {set : List String} {s t : String} :
    t ∈ stringSetAdd set s ↔ t ∈ set ∨ t = s := by
  unfold stringSetAdd
  split
  · rename_i there
    exact ⟨Or.inl, fun which => which.elim id fun same => same ▸ there⟩
  · rw [List.mem_append, List.mem_singleton]

theorem mem_usedImports {disk : AppDisk} {srcDirs : List String}
    {externalMap : List (String × PackageName)} (imports : List String) (used : List String)
    (t : String) :
    t ∈ imports.foldl (fun used importName =>
        match importOwner disk srcDirs externalMap importName with
        | some owner => stringSetAdd used owner.full
        | none => used) used ↔
      t ∈ used ∨ ∃ importName ∈ imports, ∃ owner,
        importOwner disk srcDirs externalMap importName = some owner ∧ owner.full = t := by
  induction imports generalizing used with
  | nil => simp
  | cons importName imports ih =>
    rw [List.foldl_cons, ih, List.exists_mem_cons_iff, ← or_assoc]
    refine or_congr_left ?_
    cases importOwner disk srcDirs externalMap importName with
    | none => simp
    | some owner => simp [mem_stringSetAdd, eq_comm]

/-- The names in `used_direct_pkgs` are those of the packages that are imported. -/
theorem mem_usedDirectPkgs (disk : AppDisk) (srcDirs : List String)
    (externalMap : List (String × PackageName)) (name : PackageName) :
    name.full ∈ usedDirectPkgs disk srcDirs externalMap ↔
      Imports disk srcDirs externalMap name := by
  have files : ∀ (files : List RealPath) (used : List String),
      name.full ∈ files.foldl (fun used file =>
          match disk.skeletonParse file with
          | none => used
          | some mod =>
            mod.imports.foldl (fun used importName =>
              match importOwner disk srcDirs externalMap importName with
              | some owner => stringSetAdd used owner.full
              | none => used) used) used ↔
        name.full ∈ used ∨ ∃ file ∈ files, ∃ mod, disk.skeletonParse file = some mod ∧
          ∃ importName ∈ mod.imports,
            importOwner disk srcDirs externalMap importName = some name := by
    intro files
    induction files with
    | nil => simp
    | cons file files ih =>
      intro used
      rw [List.foldl_cons, ih, List.exists_mem_cons_iff, ← or_assoc]
      refine or_congr_left ?_
      cases disk.skeletonParse file with
      | none => simp
      | some mod =>
        dsimp only
        rw [mem_usedImports]
        refine or_congr_right ?_
        constructor
        · intro ⟨importName, member, owner, found, same⟩
          rw [PackageName.full_injective same] at found
          exact ⟨mod, rfl, importName, member, found⟩
        · intro ⟨other, same, importName, member, found⟩
          cases same
          exact ⟨importName, member, name, found, rfl⟩
  unfold usedDirectPkgs Imports
  rw [files]
  simp

/-- The package leaves the direct dependencies: the scan comes to its end, no source file imports
the package, nothing else keeps it, and the file is written. -/
structure Leaves (disk : AppDisk) (appRootDir : String) (keep : Option PackageName)
    (appJson : ElmJson) (name : PackageName) : Prop where
  saves : disk.saves = true
  scan : ∃ srcDirs externalMap, getAppSourceDirsAbs disk appRootDir = some srcDirs ∧
    buildExternalModuleOwnerMapFromApp disk appJson = some externalMap ∧
    ¬ Imports disk srcDirs externalMap name
  place : keepsPlace keep name = false

theorem staysDirect_iff (keep : Option PackageName) {disk : AppDisk} {appRootDir : String}
    {appJson : ElmJson} {srcDirs : List String} {externalMap : List (String × PackageName)}
    (dirs : getAppSourceDirsAbs disk appRootDir = some srcDirs)
    (owners : buildExternalModuleOwnerMapFromApp disk appJson = some externalMap)
    (saves : disk.saves = true) (name : PackageName) :
    staysDirect keep (usedDirectPkgs disk srcDirs externalMap) name = true ↔
      ¬ Leaves disk appRootDir keep appJson name := by
  unfold staysDirect
  rw [Bool.or_eq_true, List.contains_iff_mem, mem_usedDirectPkgs]
  constructor
  · rintro which ⟨-, ⟨_, _, dirs', owners', unused⟩, place⟩
    rw [dirs] at dirs'
    rw [owners] at owners'
    cases dirs'
    cases owners'
    rcases which with kept | imported
    · rw [place] at kept
      cases kept
    · exact unused imported
  · intro remains
    by_contra neither
    obtain ⟨place, unused⟩ := not_or.mp neither
    exact remains ⟨saves, ⟨_, _, dirs, owners, unused⟩, Bool.eq_false_iff.mpr place⟩

/-- What the file lists: all that was there, but for the direct dependencies that leave. -/
structure LeavesListed (disk : AppDisk) (appRootDir : String) (keep : Option PackageName)
    (before after : ElmJson) : Prop where
  type : after.type = .application
  direct : ∀ p, p ∈ (after.maps .dependenciesDirect).packages ↔
    p ∈ (before.maps .dependenciesDirect).packages ∧
      ¬ Leaves disk appRootDir keep before p.name
  others : ∀ field, field ≠ .dependenciesDirect → ∀ p,
    p ∈ (after.maps field).packages ↔ p ∈ (before.maps field).packages

theorem LeavesListed.unchanged {disk : AppDisk} {appRootDir : String} {keep : Option PackageName}
    {appJson : ElmJson} (application : appJson.type = .application)
    (nobody : ∀ p ∈ (appJson.maps .dependenciesDirect).packages,
      ¬ Leaves disk appRootDir keep appJson p.name) :
    LeavesListed disk appRootDir keep appJson appJson where
  type := application
  direct p := ⟨fun member => ⟨member, nobody p member⟩, And.left⟩
  others _ _ _ := Iff.rfl

theorem demoteUnused_listed (disk : AppDisk) (appRootDir : String) (keep : Option PackageName)
    {appJson : ElmJson} (read : disk.elmJson = some appJson)
    (application : appJson.type = .application) :
    ∃ after, (demoteUnusedAppDirectDependencies disk appRootDir keep).file = some after ∧
      LeavesListed disk appRootDir keep appJson after := by
  unfold demoteUnusedAppDirectDependencies
  rw [read]
  dsimp only
  rw [if_neg (not_not.mpr application)]
  cases dirs : getAppSourceDirsAbs disk appRootDir with
  | none =>
    refine ⟨_, rfl, .unchanged application ?_⟩
    rintro p - ⟨-, ⟨srcDirs, _, found, -⟩, -⟩
    rw [dirs] at found
    cases found
  | some srcDirs =>
    cases owners : buildExternalModuleOwnerMapFromApp disk appJson with
    | none =>
      refine ⟨_, rfl, .unchanged application ?_⟩
      rintro p - ⟨-, ⟨_, externalMap, -, found, -⟩, -⟩
      rw [owners] at found
      cases found
    | some externalMap =>
      dsimp only
      have loop := demoteFrom_leavesUsed keep (usedDirectPkgs disk srcDirs externalMap)
        (appJson.maps .dependenciesDirect).packages.length 0
        (appJson.maps .dependenciesDirect) 0 (Nat.zero_add _) (by simp)
      generalize demoteFrom keep (usedDirectPkgs disk srcDirs externalMap) _ _ _ _ = result
        at loop
      cases saves : disk.saves with
      | false =>
        refine ⟨appJson, by split <;> rfl, .unchanged application ?_⟩
        intro p _ leaves
        have written := leaves.saves
        rw [saves] at written
        cases written
      | true =>
        have stays := staysDirect_iff keep dirs owners saves
        by_cases changed : 0 < result.2
        · rw [if_pos changed, if_pos rfl]
          refine ⟨_, rfl, application, ?_, ?_⟩
          · intro p
            rw [ElmJson.mem_sortMaps, ElmJson.setMap_maps, if_pos rfl, loop.entries, stays]
          · intro field other p
            rw [ElmJson.mem_sortMaps, ElmJson.setMap_maps, if_neg other]
        · rw [if_neg changed]
          refine ⟨_, rfl, .unchanged application ?_⟩
          intro p member
          exact (stays p.name).mp (loop.untouched (by omega) p member)

/-! ## What an application needs -/

/-- The `elm.json` of a package has the dependency. -/
def DependsOn (cache : PackageCache) (q : Package) (d : PackageName) : Prop :=
  ∃ m, cache.metadata q = some m ∧ d ∈ m.elmJson.dependencyEntries.map Package.name

/-- Another package that is listed has the dependency. -/
def NeededIn (cache : PackageCache) (lists : Package → Prop) (name : PackageName) : Prop :=
  ∃ q, lists q ∧ q.name ≠ name ∧ DependsOn cache q name

/-- The application is closed as before, and what another package needs is only demoted. -/
structure DemotesUnused (cache : PackageCache) (before after : ElmJson) : Prop where
  closed : after.ClosedIn cache
  remains : ∀ p ∈ (before.maps .dependenciesDirect).packages, NeededIn cache after.Lists p.name →
    p ∈ (after.maps .dependenciesDirect).packages ∨ p ∈ (after.maps .dependenciesIndirect).packages
  indirect : ∀ p ∈ (before.maps .dependenciesIndirect).packages,
    p ∈ (after.maps .dependenciesIndirect).packages
  others : ∀ field, field ≠ .dependenciesDirect → field ≠ .dependenciesIndirect → ∀ p,
    p ∈ (after.maps field).packages ↔ p ∈ (before.maps field).packages

/-- The package has a place that it does not leave. -/
def StaysListed (disk : AppDisk) (appRootDir : String) (keep : Option PackageName)
    (appJson : ElmJson) (q : Package) : Prop :=
  (q ∈ (appJson.maps .dependenciesDirect).packages ∧ ¬ Leaves disk appRootDir keep appJson q.name) ∨
    ∃ field ∈ ElmProjectType.application.maps, field ≠ .dependenciesDirect ∧
      q ∈ (appJson.maps field).packages

section Needed

variable {disk : AppDisk} {appRootDir : String} {keep : Option PackageName}
  {before after : ElmJson}

theorem LeavesListed.lists (listed : LeavesListed disk appRootDir keep before after)
    (q : Package) : after.Lists q ↔ StaysListed disk appRootDir keep before q := by
  unfold ElmJson.Lists StaysListed
  rw [listed.type]
  constructor
  · intro ⟨field, used, member⟩
    by_cases direct : field = .dependenciesDirect
    · subst direct
      exact Or.inl ((listed.direct q).mp member)
    · exact Or.inr ⟨field, used, direct, (listed.others field direct q).mp member⟩
  · intro stays
    rcases stays with direct | ⟨field, used, other, member⟩
    · exact ⟨.dependenciesDirect, by decide, (listed.direct q).mpr direct⟩
    · exact ⟨field, used, (listed.others field other q).mpr member⟩

theorem StaysListed.lists (application : before.type = .application) {q : Package}
    (stays : StaysListed disk appRootDir keep before q) : before.Lists q := by
  unfold ElmJson.Lists
  rw [application]
  rcases stays with ⟨member, -⟩ | ⟨field, used, -, member⟩
  · exact ⟨.dependenciesDirect, by decide, member⟩
  · exact ⟨field, used, member⟩

/-- With the packages that are needed elsewhere the application stays closed. -/
theorem LeavesListed.closed (listed : LeavesListed disk appRootDir keep before after)
    (application : before.type = .application) {cache : PackageCache}
    (closed : before.ClosedIn cache)
    (elsewhere : ∀ p ∈ (before.maps .dependenciesDirect).packages,
      Leaves disk appRootDir keep before p.name →
      NeededIn cache (StaysListed disk appRootDir keep before) p.name →
      p ∈ (before.maps .dependenciesIndirect).packages) : after.ClosedIn cache := by
  intro q _ d depends
  obtain ⟨r, here, same, m, found, member⟩ := depends
  have stays := (listed.lists r).mp here
  obtain ⟨p, there, rfl⟩ := closed r (stays.lists application) d
    ⟨r, stays.lists application, rfl, m, found, member⟩
  by_cases itself : r.name = p.name
  · exact ⟨r, here, itself⟩
  · obtain ⟨field, used, on⟩ := there
    rw [application] at used
    refine ⟨p, (listed.lists p).mpr ?_, rfl⟩
    by_cases direct : field = .dependenciesDirect
    · subst direct
      by_cases leaves : Leaves disk appRootDir keep before p.name
      · exact Or.inr ⟨.dependenciesIndirect, by decide, by decide,
          elsewhere p on leaves ⟨r, stays, itself, m, found, member⟩⟩
      · exact Or.inl ⟨on, leaves⟩
    · exact Or.inr ⟨field, used, direct, on⟩

end Needed

/-- The function demotes exactly when the direct dependencies that leave and that another package
needs are listed as indirect ones already: nothing puts them there. -/
theorem demoteUnused_iff {disk : AppDisk} {appRootDir : String} {keep : Option PackageName}
    {cache : PackageCache} {before : ElmJson} (read : disk.elmJson = some before)
    (application : before.type = .application) (closed : before.ClosedIn cache) :
    (∃ after, (demoteUnusedAppDirectDependencies disk appRootDir keep).file = some after ∧
        DemotesUnused cache before after) ↔
      ∀ p ∈ (before.maps .dependenciesDirect).packages,
        Leaves disk appRootDir keep before p.name →
        NeededIn cache (StaysListed disk appRootDir keep before) p.name →
        p ∈ (before.maps .dependenciesIndirect).packages := by
  obtain ⟨after, file, listed⟩ := demoteUnused_listed disk appRootDir keep read application
  have lists : after.Lists = StaysListed disk appRootDir keep before :=
    funext fun q => propext (listed.lists q)
  constructor
  · rintro ⟨other, same, demotes⟩ p member leaves needed
    rw [file] at same
    cases same
    rw [← lists] at needed
    rcases demotes.remains p member needed with direct | indirect
    · exact absurd leaves ((listed.direct p).mp direct).2
    · exact (listed.others _ (by decide) p).mp indirect
  · intro elsewhere
    refine ⟨after, file, listed.closed application closed elsewhere, ?_, ?_, ?_⟩
    · intro p member needed
      rw [lists] at needed
      by_cases leaves : Leaves disk appRootDir keep before p.name
      · exact Or.inr ((listed.others _ (by decide) p).mpr (elsewhere p member leaves needed))
      · exact Or.inl ((listed.direct p).mpr ⟨member, leaves⟩)
    · exact fun p => (listed.others _ (by decide) p).mpr
    · exact fun field direct _ => listed.others field direct

/-! ## Applications with `elm/browser` -/

/-- The application on the disk, with one module in `src` that imports these. -/
def browserDisk (appJson : ElmJson) (imports : List String) : AppDisk where
  elmJson := some appJson
  root := none
  realpath := some
  fileExists _ := false
  opendir _ := .file "Main.elm" (some ⟨"/app/src/Main.elm".toList, rfl⟩) .done
  skeletonParse _ := some ⟨some "Main", imports, []⟩
  cacheConfig := true
  packageFiles author name _ :=
    if author = "elm" ∧ name = "browser" then
      some (.object [("exposed-modules", .array [.string "Browser"])])
    else none
  saves := true

theorem browserCache_dependsOn {q : Package} {d : PackageName}
    (depends : DependsOn browserCache q d) :
    q = ⟨elmBrowserPackage, "1.0.2"⟩ ∧ d = elmVirtualDomPackage := by
  obtain ⟨m, found, member⟩ := depends
  obtain ⟨rfl, rfl⟩ := browserCache_metadata found
  exact ⟨rfl, List.mem_singleton.mp member⟩

theorem closedIn_browserCache {elmJson : ElmJson}
    (lists : elmJson.Lists ⟨elmVirtualDomPackage, "1.0.3"⟩) : elmJson.ClosedIn browserCache := by
  intro q _ d depends
  obtain ⟨r, -, -, depends⟩ := depends
  exact ⟨_, lists, (browserCache_dependsOn depends).2.symm⟩

/-- `elm/browser`, which is imported, `elm/json`, which is not, and `elm/virtual-dom`. -/
def partlyUsed : ElmJson where
  type := .application
  maps
    | .dependenciesDirect => ⟨[⟨elmBrowserPackage, "1.0.2"⟩, ⟨elmJsonPackage, "1.1.3"⟩], by decide⟩
    | .dependenciesIndirect => singlePackage ⟨elmVirtualDomPackage, "1.0.3"⟩
    | _ => packageMapCreate

theorem demoteUnused_json :
    ∃ after, (demoteUnusedAppDirectDependencies (browserDisk partlyUsed ["Browser"]) "/app"
        none).file = some after ∧ DemotesUnused browserCache partlyUsed after := by
  have closed : partlyUsed.ClosedIn browserCache :=
    closedIn_browserCache ⟨.dependenciesIndirect, by decide, List.mem_singleton_self _⟩
  refine (demoteUnused_iff rfl rfl closed).mpr ?_
  intro p member _ needed
  obtain ⟨q, -, -, depends⟩ := needed
  have virtualDom := (browserCache_dependsOn depends).2
  rcases List.mem_pair.mp member with rfl | rfl
  · exact absurd virtualDom (by decide)
  · exact absurd virtualDom (by decide)

/-- `elm/browser` and the `elm/virtual-dom` it needs, both direct. -/
def twoDirect : ElmJson where
  type := .application
  maps
    | .dependenciesDirect =>
      ⟨[⟨elmBrowserPackage, "1.0.2"⟩, ⟨elmVirtualDomPackage, "1.0.3"⟩], by decide⟩
    | _ => packageMapCreate

theorem twoDirect_closed : twoDirect.ClosedIn browserCache :=
  closedIn_browserCache
    ⟨.dependenciesDirect, by decide, List.mem_cons_of_mem _ (List.mem_singleton_self _)⟩

/-- A package that is imported only by another one is lost. -/
theorem demoteUnused_loses : twoDirect.ClosedIn browserCache ∧
    ¬ ∃ after, (demoteUnusedAppDirectDependencies (browserDisk twoDirect ["Browser"]) "/app"
        none).file = some after ∧ DemotesUnused browserCache twoDirect after := by
  refine ⟨twoDirect_closed, ?_⟩
  rintro ⟨after, file, demotes⟩
  obtain ⟨other, same, listed⟩ := demoteUnused_listed (browserDisk twoDirect ["Browser"]) "/app"
    none rfl rfl
  rw [file] at same
  cases same
  have dirs : getAppSourceDirsAbs (browserDisk twoDirect ["Browser"]) "/app" =
      some ["/app/src"] := by decide
  have owners : buildExternalModuleOwnerMapFromApp (browserDisk twoDirect ["Browser"]) twoDirect =
      some [("Browser", elmBrowserPackage)] := by decide
  have used : usedDirectPkgs (browserDisk twoDirect ["Browser"]) ["/app/src"]
      [("Browser", elmBrowserPackage)] = ["elm/browser"] := by decide
  have stays := staysDirect_iff none dirs owners rfl
  rw [used] at stays
  have browser := (listed.direct ⟨elmBrowserPackage, "1.0.2"⟩).mpr
    ⟨List.mem_cons_self, (stays elmBrowserPackage).mp (by decide)⟩
  have needed : NeededIn browserCache after.Lists elmVirtualDomPackage := by
    refine ⟨⟨elmBrowserPackage, "1.0.2"⟩, ⟨.dependenciesDirect, ?_, browser⟩, by decide, ?_⟩
    · rw [listed.type]
      decide
    · exact ⟨_, rfl, List.mem_singleton_self _⟩
  rcases demotes.remains ⟨elmVirtualDomPackage, "1.0.3"⟩
    (List.mem_cons_of_mem _ (List.mem_singleton_self _)) needed with direct | indirect
  · have left := (stays elmVirtualDomPackage).mpr ((listed.direct _).mp direct).2
    exact absurd left (by decide)
  · exact absurd ((listed.others _ (by decide) _).mp indirect) List.not_mem_nil

end ElmWrap.Extract
