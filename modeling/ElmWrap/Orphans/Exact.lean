import ElmWrap.Orphans.Graph
import ElmWrap.ElmJson.Maps

/-!
# Which packages are orphaned

An indirect package is needed when the kept packages reach it through the
dependencies that are recorded for the installed versions. What
`find_orphaned_packages` goes by are the dependencies in the `elm.json` files it
can read, so it returns the packages that are not needed exactly when these
files lead to all indirect packages that are needed.
-/

namespace ElmWrap

open Lib

/-! ## Needed packages -/

/-- The installed version of a package has the dependency. -/
def RecordedDependency (elmJson : ElmJson) (cache : PackageCache) (p d : PackageName) : Prop :=
  ∃ q, elmJson.Lists q ∧ q.name = p ∧
    ∃ m, cache.metadata q = some m ∧ d ∈ m.elmJson.dependencyEntries.map Package.name

/-- The package is kept. -/
def Kept (elmJson : ElmJson) (exclude : List PackageName) (name : PackageName) : Prop :=
  name ∈ (keptPackages elmJson exclude).map Package.name

/-- The kept packages need the package. -/
def Needed (elmJson : ElmJson) (cache : PackageCache) (exclude : List PackageName) :
    PackageName → Prop :=
  Closure.Reached (RecordedDependency elmJson cache) (Kept elmJson exclude)

/-- The map has the indirect packages that are not needed, and no remaining package depends on
one of them. -/
structure FindsOrphans (elmJson : ElmJson) (cache : PackageCache) (exclude : List PackageName)
    (orphaned : PackageMap) : Prop where
  exactly : ∀ name, name ∈ orphaned.packages.map Package.name ↔
    name ∈ (indirectPackages elmJson).map Package.name ∧ ¬ Needed elmJson cache exclude name
  remaining : ∀ q, elmJson.Lists q → q.name ∉ exclude →
    q.name ∉ orphaned.packages.map Package.name →
      ∀ d, RecordedDependency elmJson cache q.name d → d ∉ orphaned.packages.map Package.name

/-! ## The dependencies that are followed -/

/-- A dependency in a file that is read. -/
def FollowedDependency (elmJson : ElmJson) (cache : PackageCache) (exclude : List PackageName)
    (p d : PackageName) : Prop :=
  ∃ q ∈ readPackages elmJson cache exclude, q.name = p ∧
    ∃ json, cache.elmJsonRead q = some json ∧ d ∈ json.dependencyEntries.map Package.name

/-- A dependency in the file of a kept or indirect package that can be read. -/
def ReadableDependency (elmJson : ElmJson) (cache : PackageCache) (exclude : List PackageName)
    (p d : PackageName) : Prop :=
  ∃ q ∈ graphRoots elmJson exclude, q.exact = true ∧ q.name = p ∧
    ∃ json, cache.elmJsonRead q = some json ∧ d ∈ json.dependencyEntries.map Package.name

theorem VersionsAgree.followed {elmJson : ElmJson} {cache : PackageCache}
    {exclude : List PackageName} (agree : VersionsAgree elmJson cache exclude) :
    FollowedDependency elmJson cache exclude = ReadableDependency elmJson cache exclude := by
  funext p d
  apply propext
  constructor
  · intro followed
    obtain ⟨q, member, rest⟩ := followed
    obtain ⟨root, exact_⟩ := agree.mem_readPackages.mp member
    exact ⟨q, root, exact_, rest⟩
  · intro readable
    obtain ⟨q, root, exact_, rest⟩ := readable
    exact ⟨q, agree.mem_readPackages.mpr ⟨root, exact_⟩, rest⟩

theorem edge_eq (elmJson : ElmJson) (cache : PackageCache) (exclude : List PackageName) :
    Closure.Edge (dependencyFacts elmJson cache exclude).packageDependency =
      FollowedDependency elmJson cache exclude := by
  funext p d
  exact propext mem_dependencyFacts

theorem graphRoots_listed {elmJson : ElmJson} (application : elmJson.type = .application)
    {exclude : List PackageName} {p : Package} (root : p ∈ graphRoots elmJson exclude) :
    elmJson.Lists p := by
  unfold ElmJson.Lists
  rw [application]
  rcases List.mem_append.mp root with kept | indirect
  · rcases List.mem_append.mp (List.mem_filter.mp kept).1 with direct | test
    · exact ⟨.dependenciesDirect, by decide, direct⟩
    · exact ⟨.dependenciesTestDirect, by decide, test⟩
  · rcases List.mem_append.mp indirect with plain | test
    · exact ⟨.dependenciesIndirect, by decide, plain⟩
    · exact ⟨.dependenciesTestIndirect, by decide, test⟩

/-- What can be read is recorded. -/
theorem ReadableDependency.recorded {elmJson : ElmJson}
    (application : elmJson.type = .application) {cache : PackageCache}
    {exclude : List PackageName} {p d : PackageName}
    (readable : ReadableDependency elmJson cache exclude p d) :
    RecordedDependency elmJson cache p d := by
  obtain ⟨q, root, _, same, json, read, member⟩ := readable
  refine ⟨q, graphRoots_listed application root, same, ?_⟩
  unfold PackageCache.elmJsonRead at read
  cases found : cache.metadata q with
  | none =>
    rw [found] at read
    cases read
  | some m =>
    rw [found] at read
    dsimp only at read
    split at read
    · cases read
      exact ⟨m, rfl, member⟩
    · cases read

/-! ## The map that is returned -/

/-- The packages that are returned. -/
theorem findOrphanedPackages_names {elmJson : ElmJson}
    (application : elmJson.type = .application) (cache : PackageCache)
    (exclude : List PackageName) :
    ∃ orphaned, findOrphanedPackages true elmJson cache exclude = some orphaned ∧
      ∀ name, name ∈ orphaned.packages.map Package.name ↔
        name ∈ (indirectPackages elmJson).map Package.name ∧
          ¬ Closure.Reached (FollowedDependency elmJson cache exclude) (Kept elmJson exclude)
            name := by
  unfold findOrphanedPackages
  rw [if_neg (by simp [application])]
  refine ⟨_, rfl, ?_⟩
  intro name
  have filled := PackageMap.mem_names_foldl_add (orphanVersion elmJson)
    (orphanedTuples ((keptPackages elmJson exclude).map Package.name)
      ((indirectPackages elmJson).map Package.name)
      (dependencyFacts elmJson cache exclude).packageDependency) packageMapCreate name
  apply filled.trans
  have empty : name ∉ packageMapCreate.names := List.not_mem_nil
  unfold orphanedTuples
  rw [List.mem_filter, ← edge_eq]
  constructor
  · intro which
    rcases which with old | ⟨listed, free⟩
    · exact absurd old empty
    · refine ⟨listed, ?_⟩
      intro reached
      have member := Closure.mem_closure.mpr reached
      simp [member] at free
  · intro both
    obtain ⟨listed, free⟩ := both
    refine Or.inr ⟨listed, ?_⟩
    have outside := fun member => free (Closure.mem_closure.mp member)
    simpa using outside

/-- Who returns exactly the packages that are not needed leaves no remaining package without
one it depends on. -/
theorem findsOrphans_of_exactly {elmJson : ElmJson} (application : elmJson.type = .application)
    {cache : PackageCache} {exclude : List PackageName} {orphaned : PackageMap}
    (exactly : ∀ name, name ∈ orphaned.packages.map Package.name ↔
      name ∈ (indirectPackages elmJson).map Package.name ∧ ¬ Needed elmJson cache exclude name) :
    FindsOrphans elmJson cache exclude orphaned where
  exactly := exactly
  remaining q listed kept_ stays d depends orphan := by
    have needed : Needed elmJson cache exclude q.name := by
      unfold ElmJson.Lists at listed
      rw [application] at listed
      obtain ⟨field, map, member⟩ := listed
      have direct : ∀ l : List Package, q ∈ l → l = (elmJson.maps .dependenciesDirect).packages ++
          (elmJson.maps .dependenciesTestDirect).packages →
            Needed elmJson cache exclude q.name := by
        intro l on same
        apply Closure.Reached.start
        apply List.mem_map_of_mem
        apply List.mem_filter.mpr
        exact ⟨same ▸ on, by simpa using kept_⟩
      have indirect : q ∈ indirectPackages elmJson → Needed elmJson cache exclude q.name := by
        intro on
        by_contra free
        exact stays ((exactly q.name).mpr ⟨List.mem_map_of_mem on, free⟩)
      cases field with
      | dependenciesDirect => exact direct _ (List.mem_append_left _ member) rfl
      | dependenciesTestDirect => exact direct _ (List.mem_append_right _ member) rfl
      | dependenciesIndirect => exact indirect (List.mem_append_left _ member)
      | dependenciesTestIndirect => exact indirect (List.mem_append_right _ member)
      | packageDependencies => exact absurd map (by decide)
      | packageTestDependencies => exact absurd map (by decide)
    exact ((exactly d).mp orphan).2 (needed.tail depends)

/-- The packages that are returned are those that are not needed if and only if the followed
dependencies lead to the same indirect packages. -/
theorem findsOrphans_iff {elmJson : ElmJson} (application : elmJson.type = .application)
    (cache : PackageCache) (exclude : List PackageName) :
    (∃ orphaned, findOrphanedPackages true elmJson cache exclude = some orphaned ∧
        FindsOrphans elmJson cache exclude orphaned) ↔
      ∀ name ∈ (indirectPackages elmJson).map Package.name,
        (Closure.Reached (FollowedDependency elmJson cache exclude) (Kept elmJson exclude) name ↔
          Needed elmJson cache exclude name) := by
  obtain ⟨orphaned, result, names⟩ := findOrphanedPackages_names application cache exclude
  constructor
  · intro found name listed
    obtain ⟨other, same, finds⟩ := found
    rw [result] at same
    cases same
    have both := (names name).symm.trans (finds.exactly name)
    simp only [listed, true_and] at both
    exact not_iff_not.mp both
  · intro same
    refine ⟨orphaned, result, findsOrphans_of_exactly application ?_⟩
    intro name
    rw [names]
    apply and_congr_right
    intro listed
    exact not_congr (same name listed)

/-- `find_orphaned_packages` returns the indirect packages that are not needed if and only if
the files it reads lead to the same indirect packages; where the versions agree, if and only if
the files that can be read lead to every indirect package that is needed. -/
theorem findOrphanedPackages_exact_iff {elmJson : ElmJson}
    (application : elmJson.type = .application) (cache : PackageCache)
    (exclude : List PackageName) :
    ((∃ orphaned, findOrphanedPackages true elmJson cache exclude = some orphaned ∧
        FindsOrphans elmJson cache exclude orphaned) ↔
      ∀ name ∈ (indirectPackages elmJson).map Package.name,
        (Closure.Reached (FollowedDependency elmJson cache exclude) (Kept elmJson exclude) name ↔
          Needed elmJson cache exclude name)) ∧
    (VersionsAgree elmJson cache exclude →
      ((∃ orphaned, findOrphanedPackages true elmJson cache exclude = some orphaned ∧
          FindsOrphans elmJson cache exclude orphaned) ↔
        ∀ name ∈ (indirectPackages elmJson).map Package.name,
          Needed elmJson cache exclude name →
            Closure.Reached (ReadableDependency elmJson cache exclude) (Kept elmJson exclude)
              name)) := by
  have whole := findsOrphans_iff application cache exclude
  apply And.intro whole
  intro agree
  rw [whole, agree.followed]
  constructor
  · intro same name listed
    exact (same name listed).mpr
  · intro covered name listed
    constructor
    · intro reached
      exact reached.mono fun _ _ readable => readable.recorded application
    · exact covered name listed

/-! ## A file that is missing -/

def elmBrowserPackage : PackageName where
  author := "elm"
  project := "browser"
  validAuthor := by decide
  validProject := by decide
  short := by decide

def elmVirtualDomPackage : PackageName where
  author := "elm"
  project := "virtual-dom"
  validAuthor := by decide
  validProject := by decide
  short := by decide

/-- A map with one entry. -/
def singlePackage (p : Package) : PackageMap := ⟨[p], List.nodup_singleton _⟩

/-- An application with `elm/browser` and the `elm/virtual-dom` it needs. -/
def browserApplication : ElmJson where
  type := .application
  maps
    | .dependenciesDirect => singlePackage ⟨elmBrowserPackage, "1.0.2"⟩
    | .dependenciesIndirect => singlePackage ⟨elmVirtualDomPackage, "1.0.3"⟩
    | _ => packageMapCreate

/-- The `elm.json` of `elm/browser`. -/
def browserElmJson : ElmJson where
  type := .package
  maps
    | .packageDependencies => singlePackage ⟨elmVirtualDomPackage, "1.0.0 <= v < 2.0.0"⟩
    | _ => packageMapCreate

/-- It is not in the cache. -/
def emptyCache : PackageCache := [⟨⟨elmBrowserPackage, "1.0.2"⟩, browserElmJson, false⟩]

/-- The package it depends on is returned as orphaned. -/
theorem findOrphanedPackages_exact_fails :
    ¬ ∀ elmJson : ElmJson, elmJson.type = .application → ∀ cache exclude,
      ∃ orphaned, findOrphanedPackages true elmJson cache exclude = some orphaned ∧
        FindsOrphans elmJson cache exclude orphaned := by
  intro claim
  obtain ⟨orphaned, result, finds⟩ := claim browserApplication rfl emptyCache []
  have returned : findOrphanedPackages true browserApplication emptyCache [] =
      some (singlePackage ⟨elmVirtualDomPackage, "1.0.3"⟩) := by decide
  rw [returned] at result
  cases result
  have browser : browserApplication.Lists ⟨elmBrowserPackage, "1.0.2"⟩ :=
    ⟨.dependenciesDirect, by decide, List.mem_singleton.mpr rfl⟩
  have depends : RecordedDependency browserApplication emptyCache elmBrowserPackage
      elmVirtualDomPackage :=
    ⟨_, browser, rfl, _, List.find?_cons_of_pos (decide_eq_true rfl), by decide⟩
  exact finds.remaining _ browser (by decide) (by decide) _ depends (by decide)

theorem findOrphanedPackages_exact_iff_browser :
    browserApplication.type = .application ∧
    ((∃ orphaned, findOrphanedPackages true browserApplication emptyCache [] = some orphaned ∧
        FindsOrphans browserApplication emptyCache [] orphaned) ↔
      ∀ name ∈ (indirectPackages browserApplication).map Package.name,
        (Closure.Reached (FollowedDependency browserApplication emptyCache [])
            (Kept browserApplication []) name ↔
          Needed browserApplication emptyCache [] name)) :=
  ⟨rfl, (findOrphanedPackages_exact_iff rfl emptyCache []).1⟩

/-! ## The model of the rule -/

/-- The packages that are returned are the orphaned ones of the rule's stratified model, over the
facts that are inserted with any bound on the recursion that the cache cannot exhaust. -/
theorem findOrphanedPackages_model {elmJson : ElmJson} (application : elmJson.type = .application)
    {cache : PackageCache} (exclude : List PackageName) {depth : Nat}
    (enough : cache.length < depth) :
    ∃ orphaned, findOrphanedPackages true elmJson cache exclude = some orphaned ∧
      ∀ symbols, noOrphanedPackages.model (OrphanFact
          ((keptPackages elmJson exclude).map Package.name)
          ((indirectPackages elmJson).map Package.name)
          ((graphRoots elmJson exclude).foldl (insertPackageDependenciesRecursive cache depth)
            ⟨[], packageMapCreate⟩).packageDependency) .orphaned symbols ↔
        ∃ name ∈ orphaned.names, symbols = name.symbols := by
  rw [dependencyFacts_depth elmJson cache exclude enough]
  unfold findOrphanedPackages
  rw [if_neg (by simp [application])]
  refine ⟨_, rfl, fun symbols => ?_⟩
  have filled := PackageMap.mem_names_foldl_add (orphanVersion elmJson)
    (orphanedTuples ((keptPackages elmJson exclude).map Package.name)
      ((indirectPackages elmJson).map Package.name)
      (dependencyFacts elmJson cache exclude).packageDependency) packageMapCreate
  constructor
  · intro derived
    obtain ⟨name, same, -⟩ := orphaned_iff.mp derived
    rw [same] at derived
    exact ⟨name, (filled name).mpr (Or.inr (mem_orphanedTuples.mpr derived)), same⟩
  · rintro ⟨name, listed, rfl⟩
    rcases (filled name).mp listed with none_ | orphaned
    · cases none_
    · exact mem_orphanedTuples.mp orphaned

theorem findOrphanedPackages_model_browser :
    ∃ orphaned, findOrphanedPackages true browserApplication emptyCache [] = some orphaned ∧
      ∀ symbols, noOrphanedPackages.model (OrphanFact
          ((keptPackages browserApplication []).map Package.name)
          ((indirectPackages browserApplication).map Package.name)
          ((graphRoots browserApplication []).foldl
            (insertPackageDependenciesRecursive emptyCache 2)
            ⟨[], packageMapCreate⟩).packageDependency) .orphaned symbols ↔
        ∃ name ∈ orphaned.names, symbols = name.symbols :=
  findOrphanedPackages_model rfl [] (by decide)

end ElmWrap
