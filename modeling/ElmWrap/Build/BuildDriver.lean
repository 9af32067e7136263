import Mathlib.Data.String.Basic
import ElmWrap.Lib.LeastFirst
import ElmWrap.Lib.PostOrder

/-!
# The build driver

`build_generate_plan` of `build/build_driver.c` from the module crawl on: discovery,
build order, levels and batches of the local modules. The files of a project are
given by what `skeleton_parse` makes of them. The characters of a text stand for its
bytes.
-/

namespace ElmWrap

open Lib

/-! ## Projects -/

/-- What the driver reads of a `SkeletonModule`. -/
structure SkeletonModule where
  moduleName : Option String
  imports : List String
  typeAnnotations : List String
deriving DecidableEq

/-- What a build plan is generated from. -/
structure BuildProject where
  projectRoot : String
  /-- `source-directories`; empty where there are none. -/
  sourceDirectories : List String
  /-- The files that can be opened, and what `skeleton_parse` returns for them. -/
  files : List (String × Option SkeletonModule)
  entryFiles : List String
  /-- `resolve_packages_v2` works. -/
  resolvesPackages : Bool
  /-- `compute_package_build_order` works. -/
  ordersPackages : Bool
  /-- `find_package_for_module`. -/
  findPackageForModule : String → Option String

/-- `src_dirs`, with the default. -/
def BuildProject.srcDirs (project : BuildProject) : List String :=
  if project.sourceDirectories.isEmpty then ["src"] else project.sourceDirectories

/-- `skeleton_parse`. -/
def BuildProject.skeletonParse (project : BuildProject) (path : String) : Option SkeletonModule :=
  (project.files.lookup path).join

/-- `MAX_PATH_LENGTH`. -/
def maxPathLength : Nat := 4096

/-- `rel_path` of `module_name_to_path`. -/
def moduleRelPath (moduleName : String) : String :=
  String.ofList ((moduleName.toList.take (maxPathLength - 5)).map fun c =>
    if c = '.' then '/' else c) ++ ".elm"

/-- `full_path` of `module_name_to_path`. -/
def moduleFullPath (projectRoot srcDir relPath : String) : String :=
  String.ofList ((if srcDir.startsWith "/" then srcDir ++ "/" ++ relPath
    else projectRoot ++ "/" ++ srcDir ++ "/" ++ relPath).toList.take (maxPathLength - 1))

/-- `module_name_to_path`. -/
def BuildProject.moduleNameToPath (project : BuildProject) (moduleName : String) :
    Option String :=
  (project.srcDirs.map (moduleFullPath project.projectRoot · (moduleRelPath moduleName))).find?
    fun path => (project.files.lookup path).isSome

/-- `make_relative_path`. -/
def makeRelativePath (absPath basePath : String) : String :=
  if basePath.toList.isPrefixOf absPath.toList then
    match absPath.toList.drop basePath.toList.length with
    | '/' :: rest => String.ofList rest
    | rest => String.ofList rest
  else absPath

/-! ## Plans -/

structure BuildForeignModule where
  name : String
  package : String
deriving DecidableEq

structure BuildModule where
  name : String
  path : String
  deps : List String
  hasMain : Bool
  /-- `none` for -1. -/
  level : Option Nat
deriving DecidableEq

structure BuildBatch where
  level : Nat
  modules : List BuildModule
deriving DecidableEq

structure BuildProblem where
  moduleName : Option String
  message : String
deriving DecidableEq

structure BuildPlan where
  foreignModules : List BuildForeignModule
  modules : List BuildModule
  batches : List BuildBatch
  problems : List BuildProblem
deriving DecidableEq

def BuildPlan.empty : BuildPlan := ⟨[], [], [], []⟩

/-- `build_add_problem`. -/
def buildAddProblem (plan : BuildPlan) (moduleName : Option String) (message : String) :
    BuildPlan :=
  { plan with problems := plan.problems ++ [⟨moduleName, message⟩] }

/-! ## Discovery -/

/-- Where the crawl stands: the modules still in the queue, all that have been in it, and what it
has found. -/
structure CrawlState where
  queue : List String
  discovered : List String
  modules : List BuildModule
  foreignModules : List BuildForeignModule
deriving DecidableEq

/-- Put a module into the queue that has not been in it. -/
def CrawlState.discover (state : CrawlState) (name : String) : CrawlState :=
  if name ∈ state.discovered then state
  else { state with queue := state.queue ++ [name], discovered := state.discovered ++ [name] }

/-- The body of the loop over the entry files. An entry that cannot be parsed is only logged. -/
def crawlEntry (project : BuildProject) (state : CrawlState) (entryFile : String) : CrawlState :=
  match (project.skeletonParse entryFile).bind SkeletonModule.moduleName with
  | none => state
  | some name => state.discover name

/-- Add a foreign module that is not in the list. -/
def addForeignModule (foreignModules : List BuildForeignModule) (name package : String) :
    List BuildForeignModule :=
  if foreignModules.any (·.name = name) then foreignModules
  else foreignModules ++ [⟨name, package⟩]

/-- The body of the loop over the imports of a module. -/
def crawlImport (project : BuildProject) (state : CrawlState) (importName : String) :
    CrawlState :=
  match project.moduleNameToPath importName with
  | some _ => state.discover importName
  | none =>
    { state with
      foreignModules := addForeignModule state.foreignModules importName
        ((project.findPackageForModule importName).getD "unknown") }

/-- The imports of a module that are local modules. -/
def BuildProject.localImports (project : BuildProject) (skeleton : SkeletonModule) : List String :=
  skeleton.imports.filter fun name => (project.moduleNameToPath name).isSome

/-- The module that the crawl adds for a file. -/
def BuildProject.buildModule (project : BuildProject) (name path : String)
    (skeleton : SkeletonModule) : BuildModule where
  name := name
  path := makeRelativePath path project.projectRoot
  deps := project.localImports skeleton
  hasMain := skeleton.typeAnnotations.contains "main"
  level := none

/-- The loop over the queue. A module that is not local or cannot be parsed is passed over. -/
def crawlQueue (project : BuildProject) : Nat → CrawlState → CrawlState
  | 0, state => state
  | fuel + 1, state =>
    match state.queue with
    | [] => state
    | name :: queue =>
      let state := { state with queue }
      match project.moduleNameToPath name with
      | none => crawlQueue project fuel state
      | some path =>
        match project.skeletonParse path with
        | none => crawlQueue project fuel state
        | some skeleton =>
          let state :=
            { state with modules := state.modules ++ [project.buildModule name path skeleton] }
          crawlQueue project fuel (skeleton.imports.foldl (crawlImport project) state)

/-- The modules of `add_implicit_core_imports`. -/
def implicitImports : List String :=
  ["Basics", "Char", "Debug", "Maybe", "Platform", "Platform.Cmd", "Platform.Sub", "Tuple"]

/-- `add_implicit_core_imports`. -/
def addImplicitCoreImports (foreignModules : List BuildForeignModule) : List BuildForeignModule :=
  implicitImports.foldl (fun found name => addForeignModule found name "elm/core") foreignModules

/-- Every module name that is read from a file. -/
def BuildProject.names (project : BuildProject) : List String :=
  project.files.flatMap fun file =>
    match file.2 with
    | none => []
    | some skeleton => skeleton.moduleName.toList ++ skeleton.imports

/-- `crawl_modules`, which never fails. A name is in the queue at most once. -/
def crawlModules (project : BuildProject) (plan : BuildPlan) : BuildPlan :=
  let state := project.entryFiles.foldl (crawlEntry project)
    ⟨[], [], plan.modules, plan.foreignModules⟩
  let state := crawlQueue project project.names.length state
  { plan with
    modules := state.modules
    foreignModules := addImplicitCoreImports state.foreignModules }

/-! ## Build order -/

/-- `find_module_index`. -/
def findModuleIndex (modules : List BuildModule) (name : String) : Option Nat :=
  modules.findIdx? (·.name = name)

/-- The module with its dependencies in alphabetical order. -/
def BuildModule.sortDeps (mod : BuildModule) : BuildModule :=
  { mod with deps := mod.deps.mergeSort (· ≤ ·) }

/-- The modules that `dfs_topo_visit` goes on to. -/
def depIndices (modules : List BuildModule) (idx : Nat) : List Nat :=
  (modules[idx]?.elim [] fun mod => mod.sortDeps.deps).filterMap (findModuleIndex modules)

/-- `dfs_topo_visit`, to a depth; the search carries `visited` and `order`. -/
def dfsTopoVisit (modules : List BuildModule) : Nat → Nat → PostOrder.Search Nat →
    PostOrder.Search Nat :=
  PostOrder.visit (depIndices modules)

/-- `compute_module_build_order`; `none` where it returns false. A visit sorts the dependencies of
its module, and every module is visited once. -/
def computeModuleBuildOrder (plan : BuildPlan) : Option BuildPlan :=
  if plan.modules.isEmpty then some plan
  else
    let modules := LeastFirst.exchangeSort BuildModule.name plan.modules.length plan.modules
    let search := (List.range modules.length).foldl
      (fun search idx => dfsTopoVisit modules modules.length idx search) ⟨[], []⟩
    if search.order.length ≠ modules.length then none
    else
      some { plan with
        modules := search.order.filterMap fun idx => modules[idx]?.map BuildModule.sortDeps }

/-! ## Batches -/

/-- The level of the module with this name. -/
def depLevel (modules : List BuildModule) (dep : String) : Option Nat :=
  (modules.find? (·.name = dep)).bind BuildModule.level

/-- `new_level`, from the dependencies of a module; `none` where not all of them have levels. -/
def newLevel (modules : List BuildModule) : List String → Option Nat
  | [] => some 0
  | dep :: rest =>
    match depLevel modules dep, newLevel modules rest with
    | some level, some above => some (max (level + 1) above)
    | _, _ => none

/-- A round of `compute_parallel_levels` over the modules behind those that it has passed, and
whether it has changed one. -/
def levelRound (passed : List BuildModule) : List BuildModule → List BuildModule × Bool
  | [] => (passed, false)
  | mod :: rest =>
    match newLevel (passed ++ mod :: rest) mod.deps with
    | none => levelRound (passed ++ [mod]) rest
    | some level =>
      if mod.level = some level then levelRound (passed ++ [mod]) rest
      else ((levelRound (passed ++ [{ mod with level := some level }]) rest).1, true)

/-- The rounds of `compute_parallel_levels`. -/
def levelRounds : Nat → List BuildModule → List BuildModule
  | 0, modules => modules
  | n + 1, modules =>
    let (modules, changed) := levelRound [] modules
    if changed then levelRounds n modules else modules

/-- `compute_parallel_levels`. -/
def computeParallelLevels (plan : BuildPlan) : BuildPlan :=
  { plan with
    modules := levelRounds (plan.modules.length + 1)
      (plan.modules.map fun mod => { mod with level := none }) }

/-- `max_level`. -/
def maxLevel (modules : List BuildModule) : Nat :=
  modules.foldl (fun level mod => max level (mod.level.getD 0)) 0

/-- `group_into_batches`. -/
def groupIntoBatches (plan : BuildPlan) : BuildPlan :=
  { plan with
    batches := (List.range (maxLevel plan.modules + 1)).map fun level =>
      ⟨level, plan.modules.filter (·.level = some level)⟩ }

/-! ## The plan -/

/-- `build_generate_plan`. -/
def buildGeneratePlan (project : BuildProject) : BuildPlan :=
  if !project.resolvesPackages then
    buildAddProblem .empty none "Failed to resolve package dependencies"
  else if !project.ordersPackages then
    buildAddProblem .empty none "Failed to compute package build order"
  else
    let plan := crawlModules project .empty
    match computeModuleBuildOrder plan with
    | none => buildAddProblem plan none "Failed to compute module build order"
    | some plan => groupIntoBatches (computeParallelLevels plan)

end ElmWrap
