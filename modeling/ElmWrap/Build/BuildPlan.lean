import Mathlib.Data.List.Induction
import ElmWrap.Build.BuildOrder
import ElmWrap.Lib.Keyed

/-!
# What a build plan holds

A build plan without problems holds the modules of the project exactly if each entry
file and each module that is reached can be parsed and the imports have no cycle.
-/

namespace ElmWrap

open Lib

/-! ## Batches -/

/-- The parts of a list by a number are a permutation of it. -/
theorem flatMap_filter_perm {α : Type} (key : α → Option Nat) (n : Nat) (items : List α) :
    ((List.range n).flatMap fun level => items.filter (key · = some level)).Perm
      (items.filter fun a => (key a).any (· < n)) := by
  induction n with
  | zero => simp
  | succ n ih =>
    have below : (items.filter fun a => (key a).any (· < n + 1)).filter
        (fun a => (key a).any (· < n)) = items.filter fun a => (key a).any (· < n) := by
      rw [List.filter_filter]
      apply List.filter_congr
      intro a _
      cases key a with
      | none => rfl
      | some level =>
        rw [Bool.eq_iff_iff]
        simp
        omega
    have here : (items.filter fun a => (key a).any (· < n + 1)).filter
        (fun a => !(key a).any (· < n)) = items.filter (key · = some n) := by
      rw [List.filter_filter]
      apply List.filter_congr
      intro a _
      cases key a with
      | none => rfl
      | some level =>
        rw [Bool.eq_iff_iff]
        simp
        omega
    have parts := List.filter_append_perm (fun a => (key a).any (· < n))
      (items.filter fun a => (key a).any (· < n + 1))
    rw [below, here] at parts
    rw [List.range_succ, List.flatMap_append, List.flatMap_singleton]
    exact (ih.append_right _).trans parts

theorem le_maxLevel {modules : List BuildModule} {mod : BuildModule} (member : mod ∈ modules)
    {level : Nat} (has : mod.level = some level) : level ≤ maxLevel modules := by
  have grows : ∀ (items : List BuildModule) (start : Nat),
      start ≤ items.foldl (fun level mod => max level (mod.level.getD 0)) start ∧
        ∀ mod ∈ items, mod.level.getD 0 ≤
          items.foldl (fun level mod => max level (mod.level.getD 0)) start := by
    intro items
    induction items with
    | nil => exact fun start => ⟨le_rfl, fun mod member => absurd member List.not_mem_nil⟩
    | cons first rest ih =>
      intro start
      obtain ⟨least, others⟩ := ih (max start (first.level.getD 0))
      rw [List.foldl_cons, List.forall_mem_cons]
      exact ⟨by omega, by omega, others⟩
  have bound := (grows modules 0).2 mod member
  rw [has] at bound
  exact bound

/-- Modules that all have levels are in the batches once. -/
theorem groupIntoBatches_perm {plan : BuildPlan}
    (levelled : ∀ mod ∈ plan.modules, mod.level.isSome = true) :
    ((groupIntoBatches plan).batches.flatMap BuildBatch.modules).Perm plan.modules := by
  have all : (plan.modules.filter fun mod => mod.level.any (· < maxLevel plan.modules + 1)) =
      plan.modules := by
    rw [List.filter_eq_self]
    intro mod member
    obtain ⟨level, has⟩ := Option.isSome_iff_exists.mp (levelled mod member)
    have bound := le_maxLevel member has
    rw [has]
    simp
    omega
  have perm := flatMap_filter_perm BuildModule.level (maxLevel plan.modules + 1) plan.modules
  rw [all] at perm
  unfold groupIntoBatches
  rw [List.flatMap_map]
  exact perm

/-- A module with a level is in the batch of its level. -/
theorem groupIntoBatches_at {plan : BuildPlan} {mod : BuildModule} (member : mod ∈ plan.modules)
    {level : Nat} (has : mod.level = some level) :
    ∃ batch, (groupIntoBatches plan).batches[level]? = some batch ∧ mod ∈ batch.modules := by
  have bound := le_maxLevel member has
  refine ⟨⟨level, plan.modules.filter (·.level = some level)⟩, ?_, ?_⟩
  · unfold groupIntoBatches
    rw [List.getElem?_map, List.getElem?_range (by omega)]
    rfl
  · exact List.mem_filter.mpr ⟨member, by simpa using has⟩

/-! ## Levels of ordered modules -/

/-- Where every module stands behind its dependencies, all of them get levels. -/
theorem Settled.all {modules : List BuildModule} (settled : Settled modules)
    (distinct : Keyed.Distinct BuildModule.name modules)
    (behind : ∀ mod ∈ modules, ∀ dep ∈ mod.deps,
      PostOrder.Before (modules.map BuildModule.name) dep mod.name) :
    ∀ mod ∈ modules, mod.level.isSome = true := by
  have front : ∀ passed rest, modules = passed ++ rest →
      ∀ mod ∈ passed, mod.level.isSome = true := by
    intro passed
    induction passed using List.reverseRecOn with
    | nil => exact fun _ _ mod member => absurd member List.not_mem_nil
    | append_singleton passed mod ih =>
      intro rest split
      rw [List.append_assoc, List.singleton_append] at split
      have before := ih (mod :: rest) split
      have on : mod ∈ modules := by
        rw [split]
        exact List.mem_append_right _ List.mem_cons_self
      intro other member
      rcases List.mem_append.mp member with old | last
      · exact before other old
      · rw [List.mem_singleton.mp last]
        have ready : ∀ dep ∈ mod.deps, (depLevel modules dep).isSome = true := by
          intro dep listed
          have ahead := behind mod on dep listed
          have nodup : (modules.map BuildModule.name).Nodup := distinct
          rw [split, List.map_append, List.map_cons] at ahead nodup
          obtain ⟨target, found, named⟩ := List.mem_map.mp (ahead.mem_front nodup)
          have there : target ∈ modules := by
            rw [split]
            exact List.mem_append_left _ found
          have same : modules.find? (·.name = dep) = some target := by
            rw [← named]
            exact Keyed.lookup_mem distinct there
          unfold depLevel
          rw [same]
          exact before target found
        obtain ⟨level, above⟩ := newLevel_ready ready
        rw [settled.settled mod on level above]
        rfl
  exact front modules [] (List.append_nil _).symm

/-! ## Plans without problems -/

/-- The names of modules. -/
def moduleNames (modules : List BuildModule) : List String := modules.map BuildModule.name

/-- What a build plan is for: each entry file has a module, each module that is reached is in the
build order and in a batch once, and what it imports comes before it in both. -/
structure BuildPlan.Complete (project : BuildProject) (plan : BuildPlan) : Prop where
  entries : ∀ entryFile ∈ project.entryFiles, ∃ name, project.Declares entryFile name
  modules : ∀ name, project.Reachable name → (moduleNames plan.modules).count name = 1
  batches : ∀ name, project.Reachable name →
    (moduleNames (plan.batches.flatMap BuildBatch.modules)).count name = 1
  order : ∀ name ∈ moduleNames plan.modules, ∀ imported, project.LocalImport name imported →
    PostOrder.Before (moduleNames plan.modules) imported name
  levels : ∀ name ∈ moduleNames plan.modules, ∀ imported, project.LocalImport name imported →
    ∃ (earlier later : Nat) (first second : BuildBatch), earlier < later ∧
      plan.batches[earlier]? = some first ∧ plan.batches[later]? = some second ∧
      imported ∈ moduleNames first.modules ∧ name ∈ moduleNames second.modules

/-- The entry files and the modules that are reached can be parsed, and no module is reached from
its own imports. -/
structure BuildProject.Buildable (project : BuildProject) : Prop where
  entries : ∀ entryFile ∈ project.entryFiles, ∃ name, project.Declares entryFile name
  parses : ∀ name, project.Reachable name → (project.module? name).isSome = true
  acyclic : ∀ name, project.Reachable name → ¬ Relation.TransGen project.LocalImport name name

/-- The modules of a plan: those that the crawl has found, behind their imports. -/
structure PlanFrom (project : BuildProject) (plan : BuildPlan) : Prop where
  problems : plan.problems = []
  distinct : Keyed.Distinct BuildModule.name plan.modules
  found : ∀ name, name ∈ moduleNames plan.modules ↔
    project.Reached name ∧ (project.module? name).isSome = true
  deps : ∀ mod ∈ plan.modules, ∀ imported,
    imported ∈ mod.deps ↔ project.LocalImport mod.name imported
  behind : ∀ mod ∈ plan.modules, ∀ dep ∈ mod.deps, dep ∈ moduleNames plan.modules →
    PostOrder.Before (moduleNames plan.modules) dep mod.name ∨
      Relation.TransGen project.LocalImport dep mod.name
  settled : Settled plan.modules
  batches : plan.batches = (groupIntoBatches plan).batches

theorem moduleNames_filterMap (project : BuildProject) (names : List String) :
    moduleNames (names.filterMap project.module?) =
      names.filter fun name => (project.module? name).isSome := by
  induction names with
  | nil => rfl
  | cons name rest ih =>
    cases found : project.module? name with
    | none =>
      rw [List.filterMap_cons_none found, List.filter_cons_of_neg (by rw [found]; simp)]
      exact ih
    | some mod =>
      rw [List.filterMap_cons_some found, List.filter_cons_of_pos (by rw [found]; rfl),
        ← ih, ← BuildProject.module?_name found]
      rfl

theorem moduleNames_sortDeps (modules : List BuildModule) :
    moduleNames (modules.map BuildModule.sortDeps) = moduleNames modules :=
  List.map_map

theorem moduleNames_unlevelled (modules : List BuildModule) :
    moduleNames (unlevelled modules) = moduleNames modules :=
  List.map_map

theorem mem_of_unlevelled {modules other : List BuildModule}
    (same : unlevelled modules = unlevelled other) {mod : BuildModule} (member : mod ∈ modules) :
    ∃ original ∈ other, original.name = mod.name ∧ original.deps = mod.deps := by
  have on : { mod with level := none } ∈ unlevelled other := by
    rw [← same]
    exact List.mem_map.mpr ⟨mod, member, rfl⟩
  obtain ⟨original, there, equal⟩ := List.mem_map.mp on
  exact ⟨original, there, (congrArg BuildModule.name equal :), (congrArg BuildModule.deps equal :)⟩

/-- The steps after the crawl, for what the crawl has found. -/
theorem planFrom_of_crawl {project : BuildProject} {crawl : BuildPlan} {names : List String}
    (problems : crawl.problems = []) (nodup : names.Nodup)
    (reached : ∀ name, name ∈ names ↔ project.Reached name)
    (crawled : crawl.modules = names.filterMap project.module?) {ordered : List BuildModule}
    (order : Ordered crawl.modules ordered) :
    PlanFrom project
      (groupIntoBatches (computeParallelLevels { crawl with modules := ordered })) := by
  obtain ⟨settled, same⟩ := computeParallelLevels_settled { crawl with modules := ordered }
  dsimp only at same
  have orderedNames : (moduleNames ordered).Perm (moduleNames crawl.modules) := by
    rw [← moduleNames_sortDeps crawl.modules]
    exact order.perm.map _
  have allNames : moduleNames (computeParallelLevels { crawl with modules := ordered }).modules =
      moduleNames ordered := by
    rw [← moduleNames_unlevelled, same, moduleNames_unlevelled]
  have original : ∀ mod ∈ ordered, ∃ found, project.module? mod.name = some found ∧
      ∀ dep, dep ∈ mod.deps ↔ dep ∈ found.deps := by
    intro mod member
    obtain ⟨found, there, rfl⟩ := List.mem_map.mp (order.perm.mem_iff.mp member)
    rw [crawled] at there
    obtain ⟨name, -, here⟩ := List.mem_filterMap.mp there
    have named := BuildProject.module?_name here
    refine ⟨found, ?_, fun dep => mem_sortDeps⟩
    rw [← named] at here
    exact here
  have imports : ∀ mod ∈ ordered, ∀ imported,
      imported ∈ mod.deps ↔ project.LocalImport mod.name imported := by
    intro mod member imported
    obtain ⟨found, here, deps⟩ := original mod member
    rw [deps]
    constructor
    · exact fun dep => ⟨found, here, dep⟩
    · intro ⟨other, also, dep⟩
      cases here.symm.trans also
      exact dep
  have among : ∀ mod ∈ crawl.modules, ∀ dep ∈ mod.deps, project.LocalImport mod.name dep := by
    intro mod member dep listed
    rw [crawled] at member
    obtain ⟨name, -, here⟩ := List.mem_filterMap.mp member
    have named := BuildProject.module?_name here
    rw [← named] at here
    exact ⟨mod, here, listed⟩
  refine ⟨problems, ?_, ?_, ?_, ?_, settled, rfl⟩
  · have distinct : (moduleNames ordered).Nodup := by
      rw [orderedNames.nodup_iff, crawled, moduleNames_filterMap]
      exact nodup.filter _
    rw [← allNames] at distinct
    exact distinct
  · intro name
    have member : name ∈ moduleNames ordered ↔
        project.Reached name ∧ (project.module? name).isSome = true := by
      rw [orderedNames.mem_iff, crawled, moduleNames_filterMap, List.mem_filter, reached]
    rw [← allNames] at member
    exact member
  · intro mod member imported
    obtain ⟨found, there, named, deps⟩ := mem_of_unlevelled same member
    rw [← named, ← deps]
    exact imports found there imported
  · intro mod member dep listed on
    obtain ⟨found, there, named, deps⟩ := mem_of_unlevelled same member
    have onOrdered : dep ∈ moduleNames ordered := by
      rw [← allNames]
      exact on
    rw [← deps] at listed
    rcases order.behind found there dep listed (orderedNames.mem_iff.mp onOrdered) with
      before | back
    · left
      have placed : PostOrder.Before (moduleNames ordered) dep found.name := before
      rw [← allNames, named] at placed
      exact placed
    · right
      rw [← named]
      refine Relation.TransGen.mono ?_ _ _ back
      intro name other ⟨mod, on, named, listed⟩
      rw [← named]
      exact among mod on other listed

theorem buildGeneratePlan_from {project : BuildProject} (resolves : project.resolvesPackages = true)
    (orders : project.ordersPackages = true) : PlanFrom project (buildGeneratePlan project) := by
  obtain ⟨names, nodup, reached, crawled⟩ := crawlModules_modules project .empty rfl
  obtain ⟨ordered, built, order⟩ := computeModuleBuildOrder_ordered (crawlModules project .empty)
  unfold buildGeneratePlan
  rw [resolves, orders]
  dsimp only
  rw [built]
  exact planFrom_of_crawl rfl nodup reached crawled order

theorem BuildProject.Reachable.import_ {project : BuildProject} {name imported : String}
    (reached : project.Reached name) (leads : project.LocalImport name imported) :
    project.Reachable imported :=
  ⟨Closure.Reached.tail reached leads, leads.isLocal⟩

theorem PlanFrom.reachable {project : BuildProject} {plan : BuildPlan}
    (from_ : PlanFrom project plan) {name : String} (member : name ∈ moduleNames plan.modules) :
    project.Reachable name := by
  obtain ⟨reached, parses⟩ := (from_.found name).mp member
  obtain ⟨mod, found⟩ := Option.isSome_iff_exists.mp parses
  obtain ⟨path, skeleton, there, -, -⟩ := BuildProject.module?_some.mp found
  exact ⟨reached, by rw [there]; rfl⟩

theorem PlanFrom.complete {project : BuildProject} {plan : BuildPlan}
    (from_ : PlanFrom project plan) (buildable : project.Buildable) : plan.Complete project := by
  have listed : ∀ name, project.Reachable name → name ∈ moduleNames plan.modules :=
    fun name reachable => (from_.found name).mpr ⟨reachable.1, buildable.parses name reachable⟩
  have order : ∀ name ∈ moduleNames plan.modules, ∀ imported,
      project.LocalImport name imported →
        PostOrder.Before (moduleNames plan.modules) imported name := by
    intro name member imported leads
    have reachable := from_.reachable member
    obtain ⟨mod, on, rfl⟩ := List.mem_map.mp member
    have dep := (from_.deps mod on imported).mpr leads
    rcases from_.behind mod on imported dep
      (listed imported (BuildProject.Reachable.import_ reachable.1 leads)) with before | back
    · exact before
    · exact absurd (Relation.TransGen.head leads back) (buildable.acyclic mod.name reachable)
  have levelled : ∀ mod ∈ plan.modules, mod.level.isSome = true := by
    apply from_.settled.all from_.distinct
    intro mod member dep dependency
    exact order mod.name (List.mem_map_of_mem member) dep
      ((from_.deps mod member dep).mp dependency)
  refine ⟨buildable.entries, ?_, ?_, order, ?_⟩
  · intro name reachable
    exact List.count_eq_one_of_mem from_.distinct (listed name reachable)
  · intro name reachable
    have perm := groupIntoBatches_perm levelled
    rw [← from_.batches] at perm
    unfold moduleNames
    rw [(perm.map BuildModule.name).count_eq]
    exact List.count_eq_one_of_mem from_.distinct (listed name reachable)
  · intro name member imported leads
    obtain ⟨mod, on, rfl⟩ := List.mem_map.mp member
    obtain ⟨level, has⟩ := Option.isSome_iff_exists.mp (levelled mod on)
    have above := from_.settled.levelled mod on level has
    obtain ⟨below, lower, less⟩ :=
      newLevel_some above imported ((from_.deps mod on imported).mpr leads)
    obtain ⟨target, found, level_⟩ := Option.bind_eq_some_iff.mp lower
    obtain ⟨there, named⟩ := @Keyed.lookup_some _ _ _ BuildModule.name _ _ _ found
    obtain ⟨second, at_, inside⟩ := groupIntoBatches_at on has
    obtain ⟨first, at__, inside_⟩ := groupIntoBatches_at there level_
    rw [← from_.batches] at at_ at__
    refine ⟨below, level, first, second, less, at__, at_, ?_, List.mem_map_of_mem inside⟩
    rw [← named]
    exact List.mem_map_of_mem inside_

theorem PlanFrom.buildable {project : BuildProject} {plan : BuildPlan}
    (from_ : PlanFrom project plan) (complete : plan.Complete project) : project.Buildable := by
  have listed : ∀ name, project.Reachable name → name ∈ moduleNames plan.modules := by
    intro name reachable
    apply List.count_pos_iff.mp
    rw [complete.modules name reachable]
    omega
  refine ⟨complete.entries, ?_, ?_⟩
  · exact fun name reachable => ((from_.found name).mp (listed name reachable)).2
  · intro name reachable cycle
    -- the place in the build order goes down along the imports
    have lower : ∀ other, Relation.TransGen project.LocalImport name other →
        project.Reachable other ∧ (moduleNames plan.modules).idxOf other <
          (moduleNames plan.modules).idxOf name := by
      intro other path
      induction path with
      | single leads =>
        refine ⟨BuildProject.Reachable.import_ reachable.1 leads, ?_⟩
        exact (complete.order name (listed name reachable) _ leads).idxOf_lt from_.distinct
      | tail _ leads ih =>
        refine ⟨BuildProject.Reachable.import_ ih.1.1 leads, ?_⟩
        have step := (complete.order _ (listed _ ih.1) _ leads).idxOf_lt from_.distinct
        exact Nat.lt_trans step ih.2
    exact Nat.lt_irrefl _ (lower name cycle).2

/-- A plan that comes back without problems is complete exactly if the packages are the problem, or
the project can be built. -/
theorem buildGeneratePlan_complete (project : BuildProject) :
    ((buildGeneratePlan project).problems = [] →
        (buildGeneratePlan project).Complete project) ↔
      (project.resolvesPackages = false ∨ project.ordersPackages = false ∨ project.Buildable) := by
  cases resolves : project.resolvesPackages with
  | false =>
    refine iff_of_true ?_ (.inl rfl)
    unfold buildGeneratePlan
    rw [resolves]
    exact fun none_ => nomatch none_
  | true =>
    cases orders : project.ordersPackages with
    | false =>
      refine iff_of_true ?_ (.inr (.inl rfl))
      unfold buildGeneratePlan
      rw [resolves, orders]
      exact fun none_ => nomatch none_
    | true =>
      have from_ := buildGeneratePlan_from resolves orders
      constructor
      · exact fun complete => .inr (.inr (from_.buildable (complete from_.problems)))
      · intro condition _
        rcases condition with unresolved | unordered | buildable
        · cases unresolved
        · cases unordered
        · exact from_.complete buildable

/-- Two modules that import each other. -/
def cyclicProject : BuildProject where
  projectRoot := "/app"
  sourceDirectories := ["src"]
  files :=
    [("/app/src/Main.elm", some ⟨some "Main", ["Page"], ["main"]⟩),
      ("/app/src/Page.elm", some ⟨some "Page", ["Route"], []⟩),
      ("/app/src/Route.elm", some ⟨some "Route", ["Page"], []⟩)]
  entryFiles := ["/app/src/Main.elm"]
  resolvesPackages := true
  ordersPackages := true
  findPackageForModule _ := none

/-- The cycle is no problem, and no module is in a batch. -/
theorem buildGeneratePlan_complete_fails :
    (buildGeneratePlan cyclicProject).problems = [] ∧
      ¬ (buildGeneratePlan cyclicProject).Complete cyclicProject := by
  refine ⟨by decide +kernel, ?_⟩
  intro complete
  have reachable : cyclicProject.Reachable "Main" := by
    refine ⟨.start ⟨"/app/src/Main.elm", List.mem_cons_self, ?_⟩, by decide +kernel⟩
    exact ⟨⟨some "Main", ["Page"], ["main"]⟩, by decide, rfl⟩
  have once := complete.batches "Main" reachable
  have none_ : (moduleNames ((buildGeneratePlan cyclicProject).batches.flatMap
      BuildBatch.modules)).count "Main" = 0 := by decide +kernel
  omega

end ElmWrap
