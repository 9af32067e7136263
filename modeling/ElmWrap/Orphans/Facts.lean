import ElmWrap.ElmJson.Maps
import ElmWrap.Lib.Closure
import ElmWrap.Lib.Datalog

/-!
# `find_orphaned_packages`

The facts that are collected about an application and the cached `elm.json`
files of its packages, the rule `no_orphaned_packages`, and the map of orphaned
packages that is built from its answer.
-/

namespace ElmWrap

open Lib

/-! ## The cache -/

/-- The `elm.json` of a package version, and whether it can be read from the cache. -/
structure PackageMetadata where
  package : Package
  elmJson : ElmJson
  readable : Bool

/-- The metadata there is for packages. -/
abbrev PackageCache := List PackageMetadata

/-- The `elm.json` of a package. -/
def PackageCache.metadata (cache : PackageCache) (p : Package) : Option PackageMetadata :=
  cache.find? fun m => m.package = p

/-- `cache_get_package_path` and `elm_json_read`. -/
def PackageCache.elmJsonRead (cache : PackageCache) (p : Package) : Option ElmJson :=
  match cache.metadata p with
  | some m => if m.readable then some m.elmJson else none
  | none => none

/-- The entries the two loops over an `elm.json` go through. -/
def ElmJson.dependencyEntries (elmJson : ElmJson) : List Package :=
  match elmJson.type with
  | .package => (elmJson.maps .packageDependencies).packages
  | .application =>
    (elmJson.maps .dependenciesDirect).packages ++ (elmJson.maps .dependenciesIndirect).packages

/-! ## The dependency graph -/

/-- The `package_dependency` facts so far, and the map of visited packages. -/
structure DependencyFacts where
  packageDependency : List (PackageName × PackageName)
  visited : PackageMap

/-- No constraint, so that the text can be a directory of the cache. -/
def Package.exact (p : Package) : Bool :=
  !p.version.toList.contains '<' && !p.version.toList.contains '>'

/-- `rulr_insert_fact_4s` of a `package_dependency`. -/
def DependencyFacts.insertFact (facts : DependencyFacts) (p dep : PackageName) : DependencyFacts :=
  { facts with packageDependency := facts.packageDependency ++ [(p, dep)] }

/-- `package_map_add` to the visited packages. -/
def DependencyFacts.visit (facts : DependencyFacts) (p : Package) : DependencyFacts :=
  { facts with visited := facts.visited.add p.name p.version }

/-- `insert_package_dependencies_recursive`. The first argument bounds the depth of the
recursion. -/
def insertPackageDependenciesRecursive (cache : PackageCache) :
    Nat → DependencyFacts → Package → DependencyFacts
  | 0, facts, _ => facts
  | depth + 1, facts, p =>
    if (packageMapFind facts.visited p.name).isSome then facts
    else if !p.exact then facts
    else
      match cache.elmJsonRead p with
      | none => facts.visit p
      | some elmJson =>
        elmJson.dependencyEntries.foldl (fun facts dep =>
          insertPackageDependenciesRecursive cache depth (facts.insertFact p.name dep.name) dep)
          (facts.visit p)

/-! ## The facts about the application -/

/-- The direct and test dependencies that are not excluded. -/
def keptPackages (elmJson : ElmJson) (exclude : List PackageName) : List Package :=
  ((elmJson.maps .dependenciesDirect).packages ++
    (elmJson.maps .dependenciesTestDirect).packages).filter fun p => !exclude.contains p.name

/-- The indirect packages. -/
def indirectPackages (elmJson : ElmJson) : List Package :=
  (elmJson.maps .dependenciesIndirect).packages ++
    (elmJson.maps .dependenciesTestIndirect).packages

/-- The packages from which the graph is built. -/
def graphRoots (elmJson : ElmJson) (exclude : List PackageName) : List Package :=
  keptPackages elmJson exclude ++ indirectPackages elmJson

/-- The `package_dependency` facts. A cache of that many files cannot be followed deeper. -/
def dependencyFacts (elmJson : ElmJson) (cache : PackageCache) (exclude : List PackageName) :
    DependencyFacts :=
  (graphRoots elmJson exclude).foldl
    (insertPackageDependenciesRecursive cache (cache.length + 1)) ⟨[], packageMapCreate⟩

/-! ## The rule -/

/-- The predicates of `no_orphaned_packages.dl`. -/
inductive OrphanPred
  | directDependency
  | indirectDependency
  | packageDependency
  | reachable
  | orphaned
deriving DecidableEq

/-- `reachable(Author, Package) :- direct_dependency(Author, Package).` -/
def reachableDirect : Datalog.Rule OrphanPred String where
  head := ⟨.reachable, [.var "Author", .var "Package"]⟩
  body := [⟨.directDependency, [.var "Author", .var "Package"]⟩]
  negated := []

/-- The rule that follows a dependency. -/
def reachableStep : Datalog.Rule OrphanPred String where
  head := ⟨.reachable, [.var "ToAuthor", .var "ToPackage"]⟩
  body := [⟨.reachable, [.var "FromAuthor", .var "FromPackage"]⟩,
    ⟨.packageDependency,
      [.var "FromAuthor", .var "FromPackage", .var "ToAuthor", .var "ToPackage"]⟩]
  negated := []

/-- `orphaned(Author, Package) :- indirect_dependency(Author, Package), not reachable(..).` -/
def orphanedIndirect : Datalog.Rule OrphanPred String where
  head := ⟨.orphaned, [.var "Author", .var "Package"]⟩
  body := [⟨.indirectDependency, [.var "Author", .var "Package"]⟩]
  negated := [⟨.reachable, [.var "Author", .var "Package"]⟩]

/-- `no_orphaned_packages.dl`. -/
def noOrphanedPackages : Datalog.Program OrphanPred String where
  rules := [reachableDirect, reachableStep, orphanedIndirect]
  stratum
    | .orphaned => 1
    | _ => 0
  positive := by simp [reachableDirect, reachableStep, orphanedIndirect]
  negative := by simp [reachableDirect, reachableStep, orphanedIndirect]

/-- The two symbols of a package name. -/
def PackageName.symbols (name : PackageName) : List String := [name.author, name.project]

/-- The inserted facts. -/
inductive OrphanFact (kept indirect : List PackageName) (edges : List (PackageName × PackageName)) :
    OrphanPred → List String → Prop
  | direct {name : PackageName} :
    name ∈ kept → OrphanFact kept indirect edges .directDependency name.symbols
  | indirect {name : PackageName} :
    name ∈ indirect → OrphanFact kept indirect edges .indirectDependency name.symbols
  | package {p dep : PackageName} :
    (p, dep) ∈ edges →
    OrphanFact kept indirect edges .packageDependency (p.symbols ++ dep.symbols)

/-- The `orphaned` tuples of the rule's model. -/
def orphanedTuples (kept indirect : List PackageName) (edges : List (PackageName × PackageName)) :
    List PackageName :=
  indirect.filter fun name => !(Closure.closure edges kept).contains name

/-- The version with which a package is returned. -/
def orphanVersion (elmJson : ElmJson) (name : PackageName) : String :=
  match packageMapFind (elmJson.maps .dependenciesIndirect) name with
  | some p => p.version
  | none =>
    match packageMapFind (elmJson.maps .dependenciesTestIndirect) name with
    | some p => p.version
    | none => "0.0.0"

/-- `find_orphaned_packages`; `none` when it returns `false`, which it does only if the rule
cannot be loaded or evaluated. -/
def findOrphanedPackages (rule_works : Bool) (elmJson : ElmJson) (cache : PackageCache)
    (exclude : List PackageName) : Option PackageMap :=
  if elmJson.type ≠ .application then some packageMapCreate
  else if !rule_works then none
  else
    let kept := (keptPackages elmJson exclude).map Package.name
    let indirect := (indirectPackages elmJson).map Package.name
    let edges := (dependencyFacts elmJson cache exclude).packageDependency
    some ((orphanedTuples kept indirect edges).foldl (fun orphaned name =>
      orphaned.add name (orphanVersion elmJson name)) packageMapCreate)

/-! ## The rule's model -/

theorem PackageName.symbols_injective {p q : PackageName} (same : p.symbols = q.symbols) :
    p = q := by
  unfold symbols at same
  injection same with author rest
  injection rest with project _
  exact PackageName.ext_parts author project

section Model

variable {kept indirect : List PackageName} {edges : List (PackageName × PackageName)}

/-- What the first stratum derives. -/
abbrev FirstStratum (kept indirect : List PackageName)
    (edges : List (PackageName × PackageName)) : Datalog.Interp OrphanPred String :=
  Datalog.Derives (OrphanFact kept indirect edges) (noOrphanedPackages.layer 0) fun _ _ => False

theorem layer_zero {r : Datalog.Rule OrphanPred String} :
    r ∈ noOrphanedPackages.layer 0 ↔ r = reachableDirect ∨ r = reachableStep := by
  rw [Datalog.Program.mem_layer]
  simp only [noOrphanedPackages, List.mem_cons, List.not_mem_nil, or_false]
  constructor
  · intro both
    obtain ⟨rule | rule | rule, stratum⟩ := both
    · exact Or.inl rule
    · exact Or.inr rule
    · rw [rule] at stratum
      cases stratum
  · intro which
    rcases which with rule | rule
    · exact ⟨Or.inl rule, by rw [rule]; rfl⟩
    · exact ⟨Or.inr (Or.inl rule), by rw [rule]; rfl⟩

theorem layer_one {r : Datalog.Rule OrphanPred String} :
    r ∈ noOrphanedPackages.layer 1 ↔ r = orphanedIndirect := by
  rw [Datalog.Program.mem_layer]
  simp only [noOrphanedPackages, List.mem_cons, List.not_mem_nil, or_false]
  constructor
  · intro both
    obtain ⟨rule | rule | rule, stratum⟩ := both
    · rw [rule] at stratum
      cases stratum
    · rw [rule] at stratum
      cases stratum
    · exact rule
  · intro rule
    exact ⟨Or.inr (Or.inr rule), by rw [rule]; rfl⟩

/-- The predicates that only have facts. -/
theorem given_iff {pred : OrphanPred} (given : pred ≠ .reachable) {tuple : List String} :
    FirstStratum kept indirect edges pred tuple ↔ OrphanFact kept indirect edges pred tuple := by
  apply Datalog.Derives.of_no_head
  intro r member same
  rcases layer_zero.mp member with rule | rule
  · rw [rule] at same
    exact given same.symm
  · rw [rule] at same
    exact given same.symm

theorem reachable_reached {pred : OrphanPred} {tuple : List String}
    (derived : FirstStratum kept indirect edges pred tuple) (reachable : pred = .reachable) :
    ∃ name : PackageName, tuple = name.symbols ∧
      Closure.Reached (Closure.Edge edges) (· ∈ kept) name := by
  induction derived with
  | fact given =>
    rw [reachable] at given
    cases given
  | rule σ member body negated ih =>
    rcases layer_zero.mp member with rfl | rfl
    · have direct := (given_iff (by decide)).mp (body _ List.mem_cons_self)
      generalize tuple : Datalog.Atom.tuple σ _ = symbols at direct
      cases direct with
      | direct kept => exact ⟨_, tuple, Closure.Reached.start kept⟩
    · obtain ⟨source, from_, reached⟩ := ih _ List.mem_cons_self rfl
      have edge := (given_iff (by decide)).mp
        (body _ (List.mem_cons_of_mem _ List.mem_cons_self))
      generalize tuple : Datalog.Atom.tuple σ _ = symbols at edge
      cases edge with
      | @package p dep edge =>
        -- the first two symbols are those of the source, the others those of the target
        have first : p.symbols = source.symbols := by
          rw [← from_]
          exact (congrArg (List.take 2) tuple).symm
        have second : reachableStep.head.tuple σ = dep.symbols :=
          congrArg (List.drop 2) tuple
        have here : Closure.Edge edges source dep := PackageName.symbols_injective first ▸ edge
        exact ⟨dep, second, reached.tail here⟩

theorem reached_reachable {name : PackageName}
    (reached : Closure.Reached (Closure.Edge edges) (· ∈ kept) name) :
    FirstStratum kept indirect edges .reachable name.symbols := by
  obtain ⟨first, direct, path⟩ := reached
  induction path with
  | refl =>
    let σ : String → String := fun v => if v = "Author" then first.author else first.project
    apply @Datalog.Derives.rule _ _ _ _ _ reachableDirect σ (layer_zero.mpr (Or.inl rfl))
    · intro a member
      rw [List.mem_singleton.mp member]
      exact (given_iff (by decide)).mpr (OrphanFact.direct direct)
    · intro a member
      cases member
  | @tail source target _ step ih =>
    let σ : String → String := fun v =>
      if v = "FromAuthor" then source.author
      else if v = "FromPackage" then source.project
      else if v = "ToAuthor" then target.author
      else target.project
    apply @Datalog.Derives.rule _ _ _ _ _ reachableStep σ (layer_zero.mpr (Or.inr rfl))
    · intro a member
      rcases List.mem_cons.mp member with here | rest
      · rw [here]
        exact ih
      · rw [List.mem_singleton.mp rest]
        exact (given_iff (by decide)).mpr (OrphanFact.package step)
    · intro a member
      cases member

/-- `reachable` is reachability. -/
theorem reachable_iff {name : PackageName} :
    FirstStratum kept indirect edges .reachable name.symbols ↔
      Closure.Reached (Closure.Edge edges) (· ∈ kept) name := by
  constructor
  · intro derived
    obtain ⟨other, same, reached⟩ := reachable_reached derived rfl
    rw [PackageName.symbols_injective same]
    exact reached
  · exact reached_reachable

/-- `orphaned` holds of the indirect packages that are not reached. -/
theorem orphaned_iff {tuple : List String} :
    noOrphanedPackages.model (OrphanFact kept indirect edges) .orphaned tuple ↔
      ∃ name : PackageName, tuple = name.symbols ∧ name ∈ indirect ∧
        ¬ Closure.Reached (Closure.Edge edges) (· ∈ kept) name := by
  constructor
  · intro derived
    rcases Datalog.Derives.inversion derived with below | ⟨r, member, σ, _, same, body, negated⟩
    · have none : ∀ r ∈ noOrphanedPackages.layer 0, r.head.pred ≠ OrphanPred.orphaned := by
        intro r member
        rcases layer_zero.mp member with rfl | rfl
        · decide
        · decide
      cases (Datalog.Derives.of_no_head none).mp below
    · cases layer_one.mp member
      have listed := body _ List.mem_cons_self
      have none : ∀ r ∈ noOrphanedPackages.layer 1,
          r.head.pred ≠ OrphanPred.indirectDependency := by
        intro r member
        rw [layer_one.mp member]
        decide
      have fact := (given_iff (by decide)).mp ((Datalog.Derives.of_no_head none).mp listed)
      generalize symbols : Datalog.Atom.tuple σ _ = given at fact
      cases fact with
      | @indirect name on =>
        refine ⟨name, same.symm.trans symbols, on, ?_⟩
        intro reached
        have derives : FirstStratum kept indirect edges .reachable name.symbols :=
          reached_reachable reached
        rw [← symbols] at derives
        exact negated _ List.mem_cons_self derives
  · intro found
    obtain ⟨name, same, listed, free⟩ := found
    let σ : String → String := fun v => if v = "Author" then name.author else name.project
    rw [same]
    apply @Datalog.Derives.rule _ _ _ _ _ orphanedIndirect σ (layer_one.mpr rfl)
    · intro a member
      rw [List.mem_singleton.mp member]
      exact Datalog.Derives.fact ((given_iff (by decide)).mpr (OrphanFact.indirect listed))
    · intro a member
      rw [List.mem_singleton.mp member]
      exact fun reachable => free (reachable_iff.mp reachable)

/-- The tuples are those of the rule's stratified model. -/
theorem mem_orphanedTuples {name : PackageName} :
    name ∈ orphanedTuples kept indirect edges ↔
      noOrphanedPackages.model (OrphanFact kept indirect edges) .orphaned name.symbols := by
  rw [orphaned_iff]
  unfold orphanedTuples
  rw [List.mem_filter]
  constructor
  · intro both
    obtain ⟨listed, free⟩ := both
    refine ⟨name, rfl, listed, ?_⟩
    intro reached
    have member := Closure.mem_closure.mpr reached
    simp [member] at free
  · intro found
    obtain ⟨other, same, listed, free⟩ := found
    cases PackageName.symbols_injective same
    refine ⟨listed, ?_⟩
    have outside : name ∉ Closure.closure edges kept :=
      fun member => free (Closure.mem_closure.mp member)
    simpa using outside

end Model

end ElmWrap
