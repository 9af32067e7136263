import Mathlib.Data.List.Perm.Subperm
import ElmWrap.Build.BuildDriver
import ElmWrap.Lib.Closure

/-!
# The modules that a crawl finds

Each name that is reached from the entry files comes into the queue once; the
modules of the plan are those of these names that are local and can be parsed.
-/

namespace ElmWrap

open Lib

/-! ## The import graph -/

/-- The module of a name, where it is local and can be parsed. -/
def BuildProject.module? (project : BuildProject) (name : String) : Option BuildModule :=
  (project.moduleNameToPath name).bind fun path =>
    (project.skeletonParse path).map (project.buildModule name path)

/-- A module imports a local module. -/
def BuildProject.LocalImport (project : BuildProject) (name imported : String) : Prop :=
  ∃ mod, project.module? name = some mod ∧ imported ∈ mod.deps

/-- The module that an entry file declares. -/
def BuildProject.Declares (project : BuildProject) (entryFile name : String) : Prop :=
  ∃ skeleton, project.skeletonParse entryFile = some skeleton ∧ skeleton.moduleName = some name

/-- The module of an entry file. -/
def BuildProject.EntryModule (project : BuildProject) (name : String) : Prop :=
  ∃ entryFile ∈ project.entryFiles, project.Declares entryFile name

/-- A name that is reached from the entry files through imports. -/
def BuildProject.Reached (project : BuildProject) (name : String) : Prop :=
  Closure.Reached project.LocalImport project.EntryModule name

/-- A local module that is reached from the entry files through imports. -/
def BuildProject.Reachable (project : BuildProject) (name : String) : Prop :=
  project.Reached name ∧ (project.moduleNameToPath name).isSome = true

variable {project : BuildProject} {name : String} {state : CrawlState}

theorem BuildProject.module?_some {mod : BuildModule} :
    project.module? name = some mod ↔ ∃ path skeleton, project.moduleNameToPath name = some path ∧
      project.skeletonParse path = some skeleton ∧
        mod = project.buildModule name path skeleton := by
  unfold module?
  constructor
  · intro found
    obtain ⟨path, there, parsed⟩ := Option.bind_eq_some_iff.mp found
    obtain ⟨skeleton, read, rfl⟩ := Option.map_eq_some_iff.mp parsed
    exact ⟨path, skeleton, there, read, rfl⟩
  · intro ⟨path, skeleton, there, read, same⟩
    rw [there, Option.bind_some, read, same]
    rfl

theorem BuildProject.module?_name {mod : BuildModule} (found : project.module? name = some mod) :
    mod.name = name := by
  obtain ⟨path, skeleton, -, -, rfl⟩ := module?_some.mp found
  rfl

theorem BuildProject.mem_localImports {skeleton : SkeletonModule} :
    name ∈ project.localImports skeleton ↔
      name ∈ skeleton.imports ∧ (project.moduleNameToPath name).isSome = true :=
  List.mem_filter

theorem BuildProject.LocalImport.isLocal {name imported : String}
    (import_ : project.LocalImport name imported) :
    (project.moduleNameToPath imported).isSome = true := by
  obtain ⟨mod, found, member⟩ := import_
  obtain ⟨path, skeleton, -, -, rfl⟩ := module?_some.mp found
  exact (mem_localImports.mp member).2

theorem BuildProject.skeletonParse_mem {path : String} {skeleton : SkeletonModule}
    (read : project.skeletonParse path = some skeleton) :
    (path, some skeleton) ∈ project.files := by
  unfold skeletonParse at read
  have found := Option.join_eq_some_iff.mp read
  obtain ⟨before, after, split, -⟩ := List.lookup_eq_some_iff.mp found
  rw [split]
  exact List.mem_append_right _ List.mem_cons_self

theorem BuildProject.mem_names {path : String} {skeleton : SkeletonModule}
    (read : project.skeletonParse path = some skeleton)
    (named : skeleton.moduleName = some name ∨ name ∈ skeleton.imports) : name ∈ project.names := by
  unfold names
  rw [List.mem_flatMap]
  refine ⟨_, skeletonParse_mem read, ?_⟩
  rcases named with declared | imported
  · exact List.mem_append_left _ (Option.mem_toList.mpr declared)
  · exact List.mem_append_right _ imported

/-! ## The queue -/

/-- The names that have been passed and those in the queue are the names found. -/
structure CrawlState.Tracks (project : BuildProject) (passed : List String)
    (state : CrawlState) : Prop where
  discovered : state.discovered = passed ++ state.queue
  nodup : state.discovered.Nodup
  reached : ∀ name ∈ state.discovered, project.Reached name
  named : ∀ name ∈ state.discovered, name ∈ project.names

/-- What putting names into the queue leaves. -/
structure CrawlState.Extends (state later : CrawlState) : Prop where
  modules : later.modules = state.modules
  discovered : ∀ name ∈ state.discovered, name ∈ later.discovered

theorem CrawlState.Extends.refl (state : CrawlState) : state.Extends state :=
  ⟨rfl, fun _ member => member⟩

theorem CrawlState.Extends.trans {first second third : CrawlState} (left : first.Extends second)
    (right : second.Extends third) : first.Extends third where
  modules := right.modules.trans left.modules
  discovered name member := right.discovered name (left.discovered name member)

theorem CrawlState.discover_extends (state : CrawlState) (name : String) :
    state.Extends (state.discover name) ∧ name ∈ (state.discover name).discovered := by
  unfold discover
  split
  · rename_i old
    exact ⟨.refl state, old⟩
  · exact ⟨⟨rfl, fun _ member => List.mem_append_left _ member⟩,
      List.mem_append_right _ (List.mem_singleton.mpr rfl)⟩

theorem CrawlState.Tracks.discover {passed : List String} (tracks : state.Tracks project passed)
    (reached : project.Reached name) (named : name ∈ project.names) :
    (state.discover name).Tracks project passed := by
  unfold CrawlState.discover
  split
  · exact tracks
  · rename_i new
    refine ⟨?_, ?_, ?_, ?_⟩
    · dsimp only
      rw [tracks.discovered, List.append_assoc]
    · apply List.nodup_append.mpr
      refine ⟨tracks.nodup, List.nodup_cons.mpr ⟨List.not_mem_nil, List.nodup_nil⟩, ?_⟩
      intro other on last member same
      rw [List.mem_singleton.mp member] at same
      exact new (same ▸ on)
    · intro other member
      rcases List.mem_append.mp member with old | last
      · exact tracks.reached other old
      · rw [List.mem_singleton.mp last]
        exact reached
    · intro other member
      rcases List.mem_append.mp member with old | last
      · exact tracks.named other old
      · rw [List.mem_singleton.mp last]
        exact named

/-- The loop over the entry files. -/
theorem crawlEntries_tracks (entryFiles : List String)
    (given : ∀ entryFile ∈ entryFiles, entryFile ∈ project.entryFiles)
    (tracks : state.Tracks project []) :
    (entryFiles.foldl (crawlEntry project) state).Tracks project [] ∧
      state.Extends (entryFiles.foldl (crawlEntry project) state) ∧
      ∀ entryFile ∈ entryFiles, ∀ name, project.Declares entryFile name →
        name ∈ (entryFiles.foldl (crawlEntry project) state).discovered := by
  induction entryFiles generalizing state with
  | nil => exact ⟨tracks, .refl state, fun _ member => absurd member List.not_mem_nil⟩
  | cons entryFile rest ih =>
    obtain ⟨here, later⟩ := List.forall_mem_cons.mp given
    have step : (crawlEntry project state entryFile).Tracks project [] ∧
        state.Extends (crawlEntry project state entryFile) ∧
        ∀ name, project.Declares entryFile name →
          name ∈ (crawlEntry project state entryFile).discovered := by
      unfold crawlEntry
      split
      · rename_i nothing
        refine ⟨tracks, .refl state, ?_⟩
        intro name ⟨skeleton, read, declared⟩
        rw [read, Option.bind_some, declared] at nothing
        cases nothing
      · rename_i name found
        obtain ⟨skeleton, read, declared⟩ := Option.bind_eq_some_iff.mp found
        obtain ⟨extends_, member⟩ := state.discover_extends name
        refine ⟨tracks.discover ?_ (BuildProject.mem_names read (.inl declared)), extends_, ?_⟩
        · exact Closure.Reached.start ⟨entryFile, here, skeleton, read, declared⟩
        · intro other ⟨skeleton_, read_, declared_⟩
          cases read.symm.trans read_
          cases declared.symm.trans declared_
          exact member
    obtain ⟨tracks', extends_, found⟩ := ih later step.1
    refine ⟨tracks', step.2.1.trans extends_, List.forall_mem_cons.mpr ⟨?_, found⟩⟩
    exact fun name declares => extends_.discovered name (step.2.2 name declares)

/-- The loop over the imports of a module. -/
theorem crawlImports_tracks {passed : List String} (imports : List String)
    (tracks : state.Tracks project passed)
    (reached : ∀ name ∈ imports, (project.moduleNameToPath name).isSome = true →
      project.Reached name) (named : ∀ name ∈ imports, name ∈ project.names) :
    (imports.foldl (crawlImport project) state).Tracks project passed ∧
      state.Extends (imports.foldl (crawlImport project) state) ∧
      ∀ name ∈ imports, (project.moduleNameToPath name).isSome = true →
        name ∈ (imports.foldl (crawlImport project) state).discovered := by
  induction imports generalizing state with
  | nil => exact ⟨tracks, .refl state, fun _ member => absurd member List.not_mem_nil⟩
  | cons name rest ih =>
    obtain ⟨reachedHere, reached⟩ := List.forall_mem_cons.mp reached
    obtain ⟨namedHere, named⟩ := List.forall_mem_cons.mp named
    have step : (crawlImport project state name).Tracks project passed ∧
        state.Extends (crawlImport project state name) ∧
        ((project.moduleNameToPath name).isSome = true →
          name ∈ (crawlImport project state name).discovered) := by
      unfold crawlImport
      split
      · rename_i path there
        have isLocal : (project.moduleNameToPath name).isSome = true := by
          rw [there]
          rfl
        obtain ⟨extends_, member⟩ := state.discover_extends name
        exact ⟨tracks.discover (reachedHere isLocal) namedHere, extends_, fun _ => member⟩
      · rename_i foreign
        refine ⟨⟨tracks.discovered, tracks.nodup, tracks.reached, tracks.named⟩,
          ⟨rfl, fun _ member => member⟩, ?_⟩
        intro isLocal
        rw [foreign] at isLocal
        cases isLocal
    obtain ⟨tracks', extends_, found⟩ := ih step.1 reached named
    refine ⟨tracks', step.2.1.trans extends_, List.forall_mem_cons.mpr ⟨?_, found⟩⟩
    exact fun isLocal => extends_.discovered name (step.2.2 isLocal)

/-! ## The crawl -/

/-- The queue so far: the modules are those of the passed names, whose imports are found. -/
structure CrawlState.Crawled (project : BuildProject) (passed : List String)
    (state : CrawlState) : Prop extends state.Tracks project passed where
  modules : state.modules = passed.filterMap project.module?
  closed : ∀ name ∈ passed, ∀ imported, project.LocalImport name imported →
    imported ∈ state.discovered

theorem CrawlState.Crawled.pass {passed : List String} {queue : List String}
    (crawled : state.Crawled project passed) (next : state.queue = name :: queue)
    (missing : project.module? name = none) :
    CrawlState.Crawled project (passed ++ [name]) { state with queue } where
  discovered := by
    dsimp only
    rw [crawled.discovered, next, List.append_assoc]
    rfl
  nodup := crawled.nodup
  reached := crawled.reached
  named := crawled.named
  modules := by
    rw [List.filterMap_append, List.filterMap_cons_none missing, List.filterMap_nil,
      List.append_nil]
    exact crawled.modules
  closed := by
    intro other member imported import_
    rcases List.mem_append.mp member with old | last
    · exact crawled.closed other old imported import_
    · rw [List.mem_singleton.mp last] at import_
      obtain ⟨mod, found, -⟩ := import_
      rw [missing] at found
      cases found

theorem CrawlState.Crawled.parse {passed : List String} {name path : String}
    {skeleton : SkeletonModule} {queue : List String} (crawled : state.Crawled project passed)
    (next : state.queue = name :: queue) (there : project.moduleNameToPath name = some path)
    (read : project.skeletonParse path = some skeleton) :
    let later := skeleton.imports.foldl (crawlImport project)
      { state with
        queue := queue
        modules := state.modules ++ [project.buildModule name path skeleton] }
    later.Crawled project (passed ++ [name]) ∧
      ∀ other ∈ state.discovered, other ∈ later.discovered := by
  have found : project.module? name = some (project.buildModule name path skeleton) :=
    BuildProject.module?_some.mpr ⟨path, skeleton, there, read, rfl⟩
  have on : name ∈ state.discovered := by
    rw [crawled.discovered, next]
    exact List.mem_append_right _ List.mem_cons_self
  have tracks : CrawlState.Tracks project (passed ++ [name])
      { state with
        queue := queue
        modules := state.modules ++ [project.buildModule name path skeleton] } := by
    refine ⟨?_, crawled.nodup, crawled.reached, crawled.named⟩
    dsimp only
    rw [crawled.discovered, next, List.append_assoc]
    rfl
  obtain ⟨tracks', extends_, imported⟩ := crawlImports_tracks skeleton.imports tracks
    (by
      intro import_ member isLocal
      apply (crawled.reached name on).tail
      exact ⟨_, found, BuildProject.mem_localImports.mpr ⟨member, isLocal⟩⟩)
    (fun import_ member => BuildProject.mem_names read (.inr member))
  refine ⟨⟨tracks', ?_, ?_⟩, extends_.discovered⟩
  · rw [extends_.modules, List.filterMap_append, List.filterMap_cons_some found, crawled.modules,
      List.filterMap_nil]
  · intro other member import_ leads
    rcases List.mem_append.mp member with old | last
    · exact extends_.discovered import_ (crawled.closed other old import_ leads)
    · rw [List.mem_singleton.mp last] at leads
      obtain ⟨mod, same, dep⟩ := leads
      cases found.symm.trans same
      obtain ⟨listed, isLocal⟩ := BuildProject.mem_localImports.mp dep
      exact imported import_ listed isLocal

/-- There are as many rounds as names can come into the queue. -/
theorem crawlQueue_crawled (fuel : Nat) {passed : List String}
    (crawled : state.Crawled project passed)
    (enough : project.names.length ≤ fuel + passed.length) :
    ∃ names, (crawlQueue project fuel state).Crawled project names ∧
      (crawlQueue project fuel state).queue = [] ∧
      ∀ name ∈ state.discovered, name ∈ (crawlQueue project fuel state).discovered := by
  induction fuel generalizing passed state with
  | zero =>
    refine ⟨passed, crawled, ?_, fun _ member => member⟩
    have bounded := (List.Nodup.subperm crawled.nodup crawled.named).length_le
    rw [crawled.discovered, List.length_append] at bounded
    have empty : state.queue.length = 0 := by omega
    exact List.length_eq_zero_iff.mp empty
  | succ fuel ih =>
    have enough' : ∀ name, project.names.length ≤ fuel + (passed ++ [name]).length := by
      intro name
      rw [List.length_append, List.length_singleton]
      omega
    unfold crawlQueue
    split
    · rename_i done
      exact ⟨passed, crawled, done, fun _ member => member⟩
    · rename_i name queue next
      dsimp only
      split
      · rename_i foreign
        apply ih (crawled.pass next _) (enough' name)
        unfold BuildProject.module?
        rw [foreign]
        rfl
      · rename_i path there
        split
        · rename_i unread
          apply ih (crawled.pass next _) (enough' name)
          unfold BuildProject.module?
          rw [there, Option.bind_some, unread]
          rfl
        · rename_i skeleton read
          obtain ⟨crawled', kept⟩ := crawled.parse next there read
          obtain ⟨names, after, empty, more⟩ := ih crawled' (enough' name)
          exact ⟨names, after, empty, fun other member => more other (kept other member)⟩

/-- The modules of a crawl are those of the names that are reached. -/
theorem crawlModules_modules (project : BuildProject) (plan : BuildPlan) (new : plan.modules = []) :
    ∃ names : List String, names.Nodup ∧ (∀ name, name ∈ names ↔ project.Reached name) ∧
      (crawlModules project plan).modules = names.filterMap project.module? := by
  have tracks : CrawlState.Tracks project [] ⟨[], [], plan.modules, plan.foreignModules⟩ :=
    ⟨rfl, List.nodup_nil, fun _ member => absurd member List.not_mem_nil,
      fun _ member => absurd member List.not_mem_nil⟩
  obtain ⟨tracks', extends_, entries⟩ :=
    crawlEntries_tracks project.entryFiles (fun _ member => member) tracks
  unfold crawlModules
  dsimp only at extends_ ⊢
  generalize project.entryFiles.foldl (crawlEntry project)
    ⟨[], [], plan.modules, plan.foreignModules⟩ = state at tracks' extends_ entries ⊢
  have start : state.Crawled project [] :=
    ⟨tracks', extends_.modules.trans new, fun _ member => absurd member List.not_mem_nil⟩
  obtain ⟨names, crawled, empty, more⟩ := crawlQueue_crawled project.names.length start (by simp)
  have all := crawled.discovered
  rw [empty, List.append_nil] at all
  refine ⟨names, all ▸ crawled.nodup, ?_, crawled.modules⟩
  intro name
  rw [← all]
  refine ⟨crawled.reached name, ?_⟩
  intro ⟨entry, declared, path⟩
  induction path with
  | refl =>
    obtain ⟨entryFile, given, declares⟩ := declared
    exact more entry (entries entryFile given entry declares)
  | tail _ import_ ih => exact crawled.closed _ (all ▸ ih) _ import_

end ElmWrap
