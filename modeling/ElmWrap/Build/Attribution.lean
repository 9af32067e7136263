import ElmWrap.Build.Discovery
import ElmWrap.Build.PackageOrder
import ElmWrap.ExposedModules

/-!
# The packages of foreign modules

The plan names a package for every import that is not local. The module map of
`build_driver.c` knows the modules that the packages of the set expose; for the
others a package is guessed, and the implicit imports are taken to be modules of
`elm/core`.
-/

namespace ElmWrap

open Lib (Json)

/-! ## `build_driver.c` -/

/-- The parsed `elm.json` of a package in the cache, by author, name and version. -/
abbrev PackageFiles := String → String → String → Option Json

/-- The modules that `build_module_package_map` reads for a package. -/
def packageModules (files : PackageFiles) (pkg : BuildPackage) : List String :=
  match cutAt '/' pkg.name.toList with
  | none => []
  | some (author, name) =>
    match files (String.ofList author) (String.ofList name) pkg.version with
    | none => []
    | some root => exposedModulesOf root

/-- `build_module_package_map`: the module names, each with its package. -/
def buildModulePackageMap (files : PackageFiles) (packages : List BuildPackage) :
    List (String × String) :=
  packages.flatMap fun pkg => (packageModules files pkg).map fun name => (name, pkg.name)

/-- `common_mappings`. -/
def commonMappings : List (String × String) :=
  [("Array", "elm/core"), ("Basics", "elm/core"), ("Bitwise", "elm/core"), ("Char", "elm/core"),
    ("Debug", "elm/core"), ("Dict", "elm/core"), ("List", "elm/core"), ("Maybe", "elm/core"),
    ("Platform", "elm/core"), ("Process", "elm/core"), ("Result", "elm/core"),
    ("Set", "elm/core"), ("String", "elm/core"), ("Task", "elm/core"), ("Tuple", "elm/core"),
    ("Json", "elm/json"), ("Html", "elm/html"), ("Svg", "elm/svg"), ("Browser", "elm/browser"),
    ("Http", "elm/http"), ("Url", "elm/url"), ("File", "elm/file"), ("Bytes", "elm/bytes"),
    ("Parser", "elm/parser"), ("Regex", "elm/regex"), ("Time", "elm/time"),
    ("Random", "elm/random")]

/-- The first component of a module name, in a buffer of 256 bytes. -/
def firstComponent (moduleName : String) : String :=
  String.ofList ((moduleName.toList.take 255).takeWhile (· ≠ '.'))

/-- `strstr`: a text occurs in another one. -/
def occursIn (needle hay : String) : Bool := hay.toList.tails.any needle.toList.isPrefixOf

/-- `find_package_for_module`. -/
def findPackageForModule (map : List (String × String)) (packages : List BuildPackage)
    (moduleName : String) : Option String :=
  match map.find? (·.1 = moduleName) with
  | some mapping => some mapping.2
  | none =>
    match commonMappings.find? (·.1 = firstComponent moduleName) with
    | some mapping => some mapping.2
    | none =>
      (packages.find? fun pkg => occursIn (firstComponent moduleName) pkg.name).map
        BuildPackage.name

/-- The project, with the package set that its foreign imports are looked up in. -/
def BuildProject.withPackages (project : BuildProject) (files : PackageFiles)
    (packages : List BuildPackage) : BuildProject :=
  { project with
    findPackageForModule :=
      ElmWrap.findPackageForModule (buildModulePackageMap files packages) packages }

/-! ## Foreign imports -/

/-- A module imports one that is not local. -/
def BuildProject.ImportsForeign (project : BuildProject) (name imported : String) : Prop :=
  ∃ path skeleton, project.moduleNameToPath name = some path ∧
    project.skeletonParse path = some skeleton ∧ imported ∈ skeleton.imports ∧
      project.moduleNameToPath imported = none

/-- A module that is reached imports one that is not local. -/
def BuildProject.ForeignImport (project : BuildProject) (imported : String) : Prop :=
  ∃ name, project.Reached name ∧ project.ImportsForeign name imported

/-- The package that a foreign import is attributed to. -/
def BuildProject.attribution (project : BuildProject) (imported : String) : String :=
  (project.findPackageForModule imported).getD "unknown"

/-- The foreign modules that have been found are the foreign imports of the modules. -/
structure CrawlState.Attributes (project : BuildProject) (state : CrawlState) : Prop where
  sound : ∀ entry ∈ state.foreignModules, entry.package = project.attribution entry.name ∧
    ∃ mod ∈ state.modules, project.ImportsForeign mod.name entry.name
  complete : ∀ mod ∈ state.modules, ∀ imported, project.ImportsForeign mod.name imported →
    ∃ entry ∈ state.foreignModules, entry.name = imported

theorem addForeignModule_mem {foreignModules : List BuildForeignModule} {name package : String}
    {entry : BuildForeignModule} :
    entry ∈ addForeignModule foreignModules name package ↔ entry ∈ foreignModules ∨
      entry = ⟨name, package⟩ ∧ ∀ other ∈ foreignModules, other.name ≠ name := by
  unfold addForeignModule
  split
  · rename_i known
    simp only [List.any_eq_true, decide_eq_true_eq] at known
    obtain ⟨other, on, same⟩ := known
    exact ⟨Or.inl, fun either => either.resolve_right fun new => new.2 other on same⟩
  · rename_i new
    simp only [List.any_eq_true, decide_eq_true_eq, not_exists, not_and] at new
    rw [List.mem_append, List.mem_singleton]
    exact ⟨fun either => either.imp id fun same => ⟨same, new⟩,
      fun either => either.imp id fun both => both.1⟩

theorem addForeignModule_name (foreignModules : List BuildForeignModule) (name package : String) :
    ∃ entry ∈ addForeignModule foreignModules name package, entry.name = name := by
  by_cases known : ∃ entry ∈ foreignModules, entry.name = name
  · obtain ⟨entry, on, same⟩ := known
    exact ⟨entry, addForeignModule_mem.mpr (Or.inl on), same⟩
  · exact ⟨⟨name, package⟩,
      addForeignModule_mem.mpr (Or.inr ⟨rfl, fun other on same => known ⟨other, on, same⟩⟩), rfl⟩

/-- What the loop over the imports of a module leaves. -/
structure ForeignAdded (project : BuildProject) (imports : List String)
    (state later : CrawlState) : Prop where
  modules : later.modules = state.modules
  kept : ∀ entry ∈ state.foreignModules, entry ∈ later.foreignModules
  added : ∀ entry ∈ later.foreignModules, entry ∈ state.foreignModules ∨
    entry.package = project.attribution entry.name ∧ entry.name ∈ imports ∧
      project.moduleNameToPath entry.name = none
  found : ∀ imported ∈ imports, project.moduleNameToPath imported = none →
    ∃ entry ∈ later.foreignModules, entry.name = imported

theorem crawlImport_foreign (project : BuildProject) (state : CrawlState) (name : String) :
    ForeignAdded project [name] state (crawlImport project state name) := by
  unfold crawlImport
  split
  · rename_i path there
    have same : (state.discover name).modules = state.modules ∧
        (state.discover name).foreignModules = state.foreignModules := by
      unfold CrawlState.discover
      split <;> exact ⟨rfl, rfl⟩
    refine ⟨same.1, ?_, ?_, ?_⟩
    · rw [same.2]
      exact fun _ on => on
    · rw [same.2]
      exact fun _ on => Or.inl on
    · intro imported on foreign
      rw [List.mem_singleton.mp on, there] at foreign
      cases foreign
  · rename_i foreign
    refine ⟨rfl, fun entry on => addForeignModule_mem.mpr (Or.inl on), ?_, ?_⟩
    · intro entry on
      rcases addForeignModule_mem.mp on with old | ⟨rfl, -⟩
      · exact Or.inl old
      · exact Or.inr ⟨rfl, List.mem_singleton_self name, foreign⟩
    · intro imported on _
      rw [List.mem_singleton.mp on]
      exact addForeignModule_name _ _ _

theorem crawlImports_foreign (project : BuildProject) (imports : List String)
    (state : CrawlState) :
    ForeignAdded project imports state (imports.foldl (crawlImport project) state) := by
  induction imports generalizing state with
  | nil => exact ⟨rfl, fun _ on => on, fun _ on => Or.inl on, fun _ on => nomatch on⟩
  | cons name imports ih =>
    have first := crawlImport_foreign project state name
    have rest := ih (crawlImport project state name)
    refine ⟨rest.modules.trans first.modules, fun entry on => rest.kept entry (first.kept entry on),
      fun entry on => ?_, fun imported on foreign => ?_⟩
    · rcases rest.added entry on with before | ⟨package, later, foreign⟩
      · rcases first.added entry before with old | ⟨package, here, foreign⟩
        · exact Or.inl old
        · exact Or.inr ⟨package, List.mem_cons.mpr (Or.inl (List.mem_singleton.mp here)), foreign⟩
      · exact Or.inr ⟨package, List.mem_cons_of_mem _ later, foreign⟩
    · rcases List.mem_cons.mp on with rfl | later
      · obtain ⟨entry, there, same⟩ := first.found imported (List.mem_singleton_self _) foreign
        exact ⟨entry, rest.kept entry there, same⟩
      · exact rest.found imported later foreign

/-! ## The crawl -/

/-- A module is parsed, and its imports are gone through. -/
theorem CrawlState.Attributes.parse {project : BuildProject} {name path : String}
    {skeleton : SkeletonModule} {queue : List String} {state : CrawlState}
    (attributes : state.Attributes project)
    (there : project.moduleNameToPath name = some path)
    (read : project.skeletonParse path = some skeleton) :
    CrawlState.Attributes project (skeleton.imports.foldl (crawlImport project)
      { state with
        queue := queue
        modules := state.modules ++ [project.buildModule name path skeleton] }) := by
  have added := crawlImports_foreign project skeleton.imports
    { state with
      queue := queue
      modules := state.modules ++ [project.buildModule name path skeleton] }
  have on : project.buildModule name path skeleton ∈
      state.modules ++ [project.buildModule name path skeleton] :=
    List.mem_append_right _ (List.mem_singleton_self _)
  refine ⟨fun entry listed => ?_, fun mod member imported imports => ?_⟩
  · rw [added.modules]
    rcases added.added entry listed with old | ⟨package, import_, foreign⟩
    · obtain ⟨package, mod, member, imports⟩ := attributes.sound entry old
      exact ⟨package, mod, List.mem_append_left _ member, imports⟩
    · exact ⟨package, _, on, path, skeleton, there, read, import_, foreign⟩
  · rw [added.modules] at member
    rcases List.mem_append.mp member with old | new
    · obtain ⟨entry, listed, same⟩ := attributes.complete mod old imported imports
      exact ⟨entry, added.kept entry listed, same⟩
    · rw [List.mem_singleton.mp new] at imports
      obtain ⟨_, _, there', read', import_, foreign⟩ := imports
      cases there.symm.trans there'
      cases read.symm.trans read'
      exact added.found imported import_ foreign

theorem crawlQueue_attributes {project : BuildProject} (fuel : Nat) {state : CrawlState}
    (attributes : state.Attributes project) :
    (crawlQueue project fuel state).Attributes project := by
  induction fuel generalizing state with
  | zero => exact attributes
  | succ fuel ih =>
    unfold crawlQueue
    split
    · exact attributes
    · dsimp only
      split
      · exact ih ⟨attributes.sound, attributes.complete⟩
      · rename_i path there
        split
        · exact ih ⟨attributes.sound, attributes.complete⟩
        · rename_i skeleton read
          exact ih (attributes.parse there read)

theorem crawlEntries_unchanged (project : BuildProject) (entryFiles : List String)
    (state : CrawlState) :
    (entryFiles.foldl (crawlEntry project) state).modules = state.modules ∧
      (entryFiles.foldl (crawlEntry project) state).foreignModules = state.foreignModules := by
  induction entryFiles generalizing state with
  | nil => exact ⟨rfl, rfl⟩
  | cons entryFile entryFiles ih =>
    have step : (crawlEntry project state entryFile).modules = state.modules ∧
        (crawlEntry project state entryFile).foreignModules = state.foreignModules := by
      unfold crawlEntry
      split
      · exact ⟨rfl, rfl⟩
      · unfold CrawlState.discover
        split <;> exact ⟨rfl, rfl⟩
    obtain ⟨modules, foreign⟩ := ih (crawlEntry project state entryFile)
    exact ⟨modules.trans step.1, foreign.trans step.2⟩

/-- The implicit imports that have not been found before are added. -/
theorem mem_addForeignModules {names : List String} {package : String}
    {foreignModules : List BuildForeignModule} {entry : BuildForeignModule} :
    entry ∈ names.foldl (fun found name => addForeignModule found name package) foreignModules ↔
      entry ∈ foreignModules ∨ entry.package = package ∧ entry.name ∈ names ∧
        ∀ other ∈ foreignModules, other.name ≠ entry.name := by
  induction names generalizing foreignModules with
  | nil => simp
  | cons name names ih =>
    rw [List.foldl_cons, ih, addForeignModule_mem]
    constructor
    · rintro ((old | ⟨rfl, new⟩) | ⟨same, later, new⟩)
      · exact Or.inl old
      · exact Or.inr ⟨rfl, List.mem_cons_self, new⟩
      · refine Or.inr ⟨same, List.mem_cons_of_mem _ later, fun other on => ?_⟩
        exact new other (addForeignModule_mem.mpr (Or.inl on))
    · rintro (old | ⟨rfl, member, new⟩)
      · exact Or.inl (Or.inl old)
      · by_cases here : entry.name = name
        · refine Or.inl (Or.inr ⟨?_, here ▸ new⟩)
          rw [← here]
        · refine Or.inr ⟨rfl, (List.mem_cons.mp member).resolve_left here, fun other on => ?_⟩
          rcases addForeignModule_mem.mp on with old | ⟨rfl, -⟩
          · exact new other old
          · exact fun same => here same.symm

/-- The foreign modules of a plan: the foreign imports, and the implicit imports that are none of
them. -/
theorem mem_foreignModules (project : BuildProject) {entry : BuildForeignModule} :
    entry ∈ (crawlModules project BuildPlan.empty).foreignModules ↔
      entry.package = project.attribution entry.name ∧ project.ForeignImport entry.name ∨
      entry.package = "elm/core" ∧ entry.name ∈ implicitImports ∧
        ¬ project.ForeignImport entry.name := by
  obtain ⟨names, -, reached, modules⟩ := crawlModules_modules project BuildPlan.empty rfl
  obtain ⟨noModules, noForeign⟩ := crawlEntries_unchanged project project.entryFiles
    ⟨[], [], [], []⟩
  have start : CrawlState.Attributes project
      (project.entryFiles.foldl (crawlEntry project) ⟨[], [], [], []⟩) := by
    refine ⟨fun entry on => ?_, fun mod on => ?_⟩
    · rw [noForeign] at on
      cases on
    · rw [noModules] at on
      cases on
  have attributes := crawlQueue_attributes project.names.length start
  unfold crawlModules at modules ⊢
  dsimp only [BuildPlan.empty] at modules ⊢
  generalize crawlQueue project project.names.length
    (project.entryFiles.foldl (crawlEntry project) ⟨[], [], [], []⟩) = state
    at attributes modules ⊢
  -- the modules of the plan are those that are reached
  have imports : ∀ imported, project.ForeignImport imported ↔
      ∃ mod ∈ state.modules, project.ImportsForeign mod.name imported := by
    intro imported
    rw [modules]
    constructor
    · rintro ⟨name, on, path, skeleton, there, read, import_⟩
      have found : project.module? name = some (project.buildModule name path skeleton) :=
        BuildProject.module?_some.mpr ⟨path, skeleton, there, read, rfl⟩
      exact ⟨_, List.mem_filterMap.mpr ⟨name, (reached name).mpr on, found⟩, path, skeleton, there,
        read, import_⟩
    · rintro ⟨mod, on, import_⟩
      obtain ⟨name, listed, found⟩ := List.mem_filterMap.mp on
      rw [BuildProject.module?_name found] at import_
      exact ⟨name, (reached name).mp listed, import_⟩
  have named : ∀ imported, project.ForeignImport imported ↔
      ∃ entry ∈ state.foreignModules, entry.name = imported := by
    intro imported
    rw [imports]
    constructor
    · rintro ⟨mod, on, import_⟩
      exact attributes.complete mod on imported import_
    · rintro ⟨entry, on, rfl⟩
      exact (attributes.sound entry on).2
  unfold addImplicitCoreImports
  rw [mem_addForeignModules]
  constructor
  · rintro (found | ⟨package, implicit, new⟩)
    · exact Or.inl ⟨(attributes.sound entry found).1, (named _).mpr ⟨entry, found, rfl⟩⟩
    · refine Or.inr ⟨package, implicit, fun import_ => ?_⟩
      obtain ⟨other, on, same⟩ := (named _).mp import_
      exact new other on same
  · rintro (⟨package, import_⟩ | ⟨package, implicit, none_⟩)
    · obtain ⟨other, on, same⟩ := (named _).mp import_
      have equal : other = entry := by
        have attributed := (attributes.sound other on).1
        rw [same, ← package] at attributed
        cases other
        cases entry
        simp_all
      exact Or.inl (equal ▸ on)
    · exact Or.inr ⟨package, implicit, fun other on same => none_ ((named _).mpr ⟨other, on, same⟩)⟩

/-! ## Which attributions are right -/

/-- A package of the set exposes a module. -/
def Exposes (files : PackageFiles) (packages : List BuildPackage) (package moduleName : String) :
    Prop :=
  ∃ pkg ∈ packages, pkg.name = package ∧ moduleName ∈ packageModules files pkg

/-- Some package of the set exposes a module. -/
def ExposedInSet (files : PackageFiles) (packages : List BuildPackage) (moduleName : String) :
    Prop :=
  ∃ package, Exposes files packages package moduleName

/-- The attribution of a foreign module: a package of the set that exposes it, or `unknown` where
there is none. -/
def Attributed (files : PackageFiles) (packages : List BuildPackage) (entry : BuildForeignModule) :
    Prop :=
  Exposes files packages entry.package entry.name ∨
    entry.package = "unknown" ∧ ¬ ExposedInSet files packages entry.name

/-- A package is guessed from the first component of a module name: by the table, or as one whose
name contains the component. -/
def Guessed (packages : List BuildPackage) (moduleName : String) : Prop :=
  firstComponent moduleName ∈ commonMappings.map Prod.fst ∨
    ∃ pkg ∈ packages, occursIn (firstComponent moduleName) pkg.name = true

theorem mem_buildModulePackageMap {files : PackageFiles} {packages : List BuildPackage}
    {moduleName package : String} :
    (moduleName, package) ∈ buildModulePackageMap files packages ↔
      Exposes files packages package moduleName := by
  unfold buildModulePackageMap Exposes
  rw [List.mem_flatMap]
  constructor
  · rintro ⟨pkg, on, member⟩
    obtain ⟨name, listed, same⟩ := List.mem_map.mp member
    cases same
    exact ⟨pkg, on, rfl, listed⟩
  · rintro ⟨pkg, on, rfl, listed⟩
    exact ⟨pkg, on, List.mem_map.mpr ⟨moduleName, listed, rfl⟩⟩

/-- A module that is exposed is found in the map. -/
theorem findPackageForModule_exposed {files : PackageFiles} {packages : List BuildPackage}
    {moduleName : String} (exposed : ExposedInSet files packages moduleName) :
    ∃ package, findPackageForModule (buildModulePackageMap files packages) packages moduleName =
      some package ∧ Exposes files packages package moduleName := by
  obtain ⟨package, exposes⟩ := exposed
  unfold findPackageForModule
  cases found : (buildModulePackageMap files packages).find? (·.1 = moduleName) with
  | none =>
    have none_ := List.find?_eq_none.mp found _ (mem_buildModulePackageMap.mpr exposes)
    simp at none_
  | some mapping =>
    obtain ⟨name, first⟩ := mapping
    have same : name = moduleName := by simpa using List.find?_some found
    subst same
    exact ⟨first, rfl, mem_buildModulePackageMap.mp (List.mem_of_find?_eq_some found)⟩

/-- For any other module a package is guessed. -/
theorem findPackageForModule_unexposed {files : PackageFiles} {packages : List BuildPackage}
    {moduleName : String} (unexposed : ¬ ExposedInSet files packages moduleName) :
    findPackageForModule (buildModulePackageMap files packages) packages moduleName =
      match commonMappings.find? (·.1 = firstComponent moduleName) with
      | some mapping => some mapping.2
      | none =>
        (packages.find? fun pkg => occursIn (firstComponent moduleName) pkg.name).map
          BuildPackage.name := by
  have missing : (buildModulePackageMap files packages).find? (·.1 = moduleName) = none := by
    rw [List.find?_eq_none]
    rintro ⟨name, package⟩ on same
    simp only [decide_eq_true_eq] at same
    subst same
    exact unexposed ⟨package, mem_buildModulePackageMap.mp on⟩
  unfold findPackageForModule
  rw [missing]

theorem guess_none {packages : List BuildPackage} {moduleName : String}
    (unguessed : ¬ Guessed packages moduleName) :
    commonMappings.find? (·.1 = firstComponent moduleName) = none ∧
      packages.find? (fun pkg => occursIn (firstComponent moduleName) pkg.name) = none := by
  unfold Guessed at unguessed
  simp only [not_or, not_exists, not_and] at unguessed
  refine ⟨List.find?_eq_none.mpr fun mapping on same => ?_,
    List.find?_eq_none.mpr unguessed.2⟩
  simp only [decide_eq_true_eq] at same
  exact unguessed.1 (same ▸ List.mem_map_of_mem on)

/-- A guess names a package. -/
theorem guess_some {packages : List BuildPackage} {moduleName : String}
    (named : ∀ pkg ∈ packages, '/' ∈ pkg.name.toList) (guessed : Guessed packages moduleName) :
    ∃ package, (match commonMappings.find? (·.1 = firstComponent moduleName) with
      | some mapping => some mapping.2
      | none =>
        (packages.find? fun pkg => occursIn (firstComponent moduleName) pkg.name).map
          BuildPackage.name) = some package ∧ '/' ∈ package.toList := by
  cases common : commonMappings.find? (·.1 = firstComponent moduleName) with
  | some mapping =>
    have all : ∀ mapping ∈ commonMappings, '/' ∈ mapping.2.toList := by decide
    exact ⟨mapping.2, rfl, all mapping (List.mem_of_find?_eq_some common)⟩
  | none =>
    rcases guessed with table | ⟨pkg, on, occurs⟩
    · obtain ⟨mapping, listed, same⟩ := List.mem_map.mp table
      have none_ := List.find?_eq_none.mp common mapping listed
      simp [same] at none_
    · cases found : packages.find? fun pkg => occursIn (firstComponent moduleName) pkg.name with
      | none => exact absurd occurs (List.find?_eq_none.mp found pkg on)
      | some first =>
        exact ⟨first.name, rfl, named first (List.mem_of_find?_eq_some found)⟩

/-- A foreign import is attributed rightly when its module is exposed or nothing is guessed. -/
theorem attribution_iff {files : PackageFiles} {packages : List BuildPackage}
    (named : ∀ pkg ∈ packages, '/' ∈ pkg.name.toList) (project : BuildProject)
    (imported : String) :
    Attributed files packages
        ⟨imported, (project.withPackages files packages).attribution imported⟩ ↔
      ExposedInSet files packages imported ∨ ¬ Guessed packages imported := by
  unfold BuildProject.attribution BuildProject.withPackages Attributed
  dsimp only
  by_cases exposed : ExposedInSet files packages imported
  · obtain ⟨package, found, exposes⟩ := findPackageForModule_exposed exposed
    rw [found]
    exact ⟨fun _ => Or.inl exposed, fun _ => Or.inl exposes⟩
  · rw [findPackageForModule_unexposed exposed]
    by_cases guessed : Guessed packages imported
    · obtain ⟨package, guess, slash⟩ := guess_some named guessed
      rw [guess, Option.getD_some]
      constructor
      · rintro (exposes | ⟨rfl, -⟩)
        · exact Or.inl ⟨package, exposes⟩
        · exact absurd slash (by decide)
      · rintro (on | none_)
        · exact absurd on exposed
        · exact absurd guessed none_
    · obtain ⟨table, search⟩ := guess_none guessed
      rw [table, search]
      exact ⟨fun _ => Or.inr guessed, fun _ => Or.inr ⟨rfl, exposed⟩⟩

/-- The foreign modules of a plan are attributed rightly when every foreign import is exposed by a
package of the set or leads to no guess, and `elm/core` is in the set and exposes the implicit
imports that are not imported explicitly. -/
theorem foreignModules_attributed (files : PackageFiles) (packages : List BuildPackage)
    (named : ∀ pkg ∈ packages, '/' ∈ pkg.name.toList) (project : BuildProject) :
    (∀ entry ∈ (crawlModules (project.withPackages files packages) BuildPlan.empty).foreignModules,
        Attributed files packages entry) ↔
      (∀ imported, (project.withPackages files packages).ForeignImport imported →
        ExposedInSet files packages imported ∨ ¬ Guessed packages imported) ∧
      ∀ imported ∈ implicitImports, ¬ (project.withPackages files packages).ForeignImport imported →
        Exposes files packages "elm/core" imported := by
  constructor
  · intro all
    refine ⟨fun imported import_ => ?_, fun imported implicit none_ => ?_⟩
    · exact (attribution_iff named project imported).mp
        (all _ ((mem_foreignModules _).mpr (Or.inl ⟨rfl, import_⟩)))
    · rcases all ⟨imported, "elm/core"⟩
        ((mem_foreignModules _).mpr (Or.inr ⟨rfl, implicit, none_⟩)) with exposes | ⟨same, -⟩
      · exact exposes
      · have literal : "elm/core" = "unknown" := same
        exact absurd literal (by decide)
  · rintro ⟨explicit, implicit⟩ ⟨imported, package⟩ on
    rcases (mem_foreignModules _).mp on with ⟨same, import_⟩ | ⟨same, listed, none_⟩
    · dsimp only at same import_
      rw [same]
      exact (attribution_iff named project imported).mpr (explicit imported import_)
    · dsimp only at same listed none_
      rw [same]
      exact Or.inl (implicit imported listed none_)

/-! ## A project without `elm/http` -/

/-- A project with one module, which imports `Http`. -/
def requestProject : BuildProject where
  projectRoot := "/p"
  sourceDirectories := []
  files := [("/p/src/Main.elm", some ⟨some "Main", ["Http"], ["main"]⟩)]
  entryFiles := ["/p/src/Main.elm"]
  resolvesPackages := true
  ordersPackages := true
  findPackageForModule := fun _ => none

/-- The modules of `elm/core` that are imported implicitly. -/
def coreFiles : PackageFiles := fun _ name _ =>
  if name = "core" then
    some (.object [("exposed-modules", .array (implicitImports.map Json.string))])
  else none

def corePackages : List BuildPackage := [⟨"elm/core", "1.0.5", "", []⟩]

theorem foreignModules_attributed_core :
    (∀ entry ∈ (crawlModules (requestProject.withPackages coreFiles corePackages)
        BuildPlan.empty).foreignModules, Attributed coreFiles corePackages entry) ↔
      (∀ imported, (requestProject.withPackages coreFiles corePackages).ForeignImport imported →
        ExposedInSet coreFiles corePackages imported ∨ ¬ Guessed corePackages imported) ∧
      ∀ imported ∈ implicitImports,
        ¬ (requestProject.withPackages coreFiles corePackages).ForeignImport imported →
          Exposes coreFiles corePackages "elm/core" imported :=
  foreignModules_attributed coreFiles corePackages (by decide) requestProject

/-- `Http` is attributed to `elm/http`, which is not in the set. -/
theorem foreignModules_attributed_fails :
    (⟨"Http", "elm/http"⟩ : BuildForeignModule) ∈
        (crawlModules (requestProject.withPackages coreFiles corePackages)
          BuildPlan.empty).foreignModules ∧
      ¬ Attributed coreFiles corePackages ⟨"Http", "elm/http"⟩ := by
  refine ⟨by decide +kernel, ?_⟩
  rintro (⟨pkg, on, named, -⟩ | ⟨same, -⟩)
  · have core : ∀ pkg ∈ corePackages, pkg.name ≠ "elm/http" := by decide
    exact core pkg on named
  · exact absurd same (by decide)

end ElmWrap
