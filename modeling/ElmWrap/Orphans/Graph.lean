import ElmWrap.Orphans.Facts

/-!
# The dependency graph that is built

What `insert_package_dependencies_recursive` leaves behind: the edges are the
dependencies in the `elm.json` files of the visited packages, and every package it
is called with is visited. The bound on its depth is never reached.
-/

namespace ElmWrap

open Lib

variable {cache : PackageCache}

/-! ## One call -/

theorem visit_packages {facts : DependencyFacts} {p : Package}
    (new : packageMapFind facts.visited p.name = none) :
    (facts.visit p).visited.packages = facts.visited.packages ++ [p] := by
  exact PackageMap.packages_add_new new p.version

/-- What a call does. -/
theorem insert_cases (cache : PackageCache) (depth : Nat) (facts : DependencyFacts)
    (p : Package) :
    (insertPackageDependenciesRecursive cache (depth + 1) facts p = facts ∧
        ((packageMapFind facts.visited p.name).isSome = true ∨ p.exact = false)) ∨
      (packageMapFind facts.visited p.name = none ∧ p.exact = true ∧
        ((cache.elmJsonRead p = none ∧
            insertPackageDependenciesRecursive cache (depth + 1) facts p = facts.visit p) ∨
          ∃ elmJson, cache.elmJsonRead p = some elmJson ∧
            insertPackageDependenciesRecursive cache (depth + 1) facts p =
              elmJson.dependencyEntries.foldl (fun facts dep =>
                insertPackageDependenciesRecursive cache depth
                  (facts.insertFact p.name dep.name) dep) (facts.visit p))) := by
  rw [insertPackageDependenciesRecursive]
  cases known : packageMapFind facts.visited p.name with
  | some q => exact Or.inl ⟨rfl, Or.inl rfl⟩
  | none =>
    cases exact_ : p.exact with
    | false => exact Or.inl ⟨rfl, Or.inr rfl⟩
    | true =>
      refine Or.inr ⟨rfl, rfl, ?_⟩
      cases read : cache.elmJsonRead p with
      | none => exact Or.inl ⟨rfl, rfl⟩
      | some elmJson => exact Or.inr ⟨elmJson, rfl, rfl⟩

/-! ## Growth -/

/-- Nothing is taken back. -/
structure DependencyFacts.Grows (facts more : DependencyFacts) : Prop where
  visited : facts.visited.packages ⊆ more.visited.packages
  edges : facts.packageDependency ⊆ more.packageDependency

theorem DependencyFacts.Grows.refl (facts : DependencyFacts) : facts.Grows facts :=
  ⟨List.Subset.refl _, List.Subset.refl _⟩

theorem DependencyFacts.Grows.trans {first second third : DependencyFacts}
    (one : first.Grows second) (two : second.Grows third) : first.Grows third :=
  ⟨List.Subset.trans one.visited two.visited, List.Subset.trans one.edges two.edges⟩

theorem DependencyFacts.grows_insertFact (facts : DependencyFacts) (p dep : PackageName) :
    facts.Grows (facts.insertFact p dep) :=
  ⟨List.Subset.refl _, List.subset_append_left _ _⟩

theorem DependencyFacts.grows_visit {facts : DependencyFacts} {p : Package}
    (new : packageMapFind facts.visited p.name = none) : facts.Grows (facts.visit p) := by
  constructor
  · rw [visit_packages new]
    exact List.subset_append_left _ _
  · exact List.Subset.refl _

theorem insert_grows (depth : Nat) (facts : DependencyFacts) (p : Package) :
    facts.Grows (insertPackageDependenciesRecursive cache depth facts p) := by
  induction depth generalizing facts p with
  | zero => exact DependencyFacts.Grows.refl facts
  | succ depth ih =>
    rcases insert_cases cache depth facts p with
      ⟨same, _⟩ | ⟨new, _, ⟨_, same⟩ | ⟨elmJson, _, same⟩⟩
    · rw [same]
      exact DependencyFacts.Grows.refl facts
    · rw [same]
      exact DependencyFacts.grows_visit new
    · rw [same]
      apply List.foldlRecOn
      · exact DependencyFacts.grows_visit new
      · intro next grown dep _
        exact (grown.trans (next.grows_insertFact p.name dep.name)).trans (ih _ dep)

/-! ## Invariants -/

/-- What holds on the way of the traversal: `Q` holds of the packages that are visited. -/
theorem insert_invariant {I : DependencyFacts → Prop} {Q : Package → Prop}
    (closed : ∀ q elmJson, Q q → q.exact = true → cache.elmJsonRead q = some elmJson →
      ∀ d ∈ elmJson.dependencyEntries, Q d)
    (visit : ∀ facts q, I facts → Q q → q.exact = true →
      packageMapFind facts.visited q.name = none → I (facts.visit q))
    (fact : ∀ facts q elmJson d, I facts → q ∈ facts.visited.packages →
      cache.elmJsonRead q = some elmJson → d ∈ elmJson.dependencyEntries →
        I (facts.insertFact q.name d.name))
    (depth : Nat) {facts : DependencyFacts} {p : Package} (holds : I facts) (allowed : Q p) :
    I (insertPackageDependenciesRecursive cache depth facts p) := by
  induction depth generalizing facts p with
  | zero => exact holds
  | succ depth ih =>
    rcases insert_cases cache depth facts p with
      ⟨same, _⟩ | ⟨new, exact_, ⟨_, same⟩ | ⟨elmJson, read, same⟩⟩
    · rw [same]
      exact holds
    · rw [same]
      exact visit facts p holds allowed exact_ new
    · rw [same]
      have there : p ∈ (facts.visit p).visited.packages := by
        rw [visit_packages new]
        exact List.mem_append_right _ (List.mem_singleton.mpr rfl)
      -- the package stays visited while its dependencies are followed
      suffices both : I (elmJson.dependencyEntries.foldl (fun facts dep =>
          insertPackageDependenciesRecursive cache depth (facts.insertFact p.name dep.name) dep)
            (facts.visit p)) ∧
          p ∈ (elmJson.dependencyEntries.foldl (fun facts dep =>
            insertPackageDependenciesRecursive cache depth (facts.insertFact p.name dep.name) dep)
              (facts.visit p)).visited.packages from both.1
      apply List.foldlRecOn
        (motive := fun next : DependencyFacts => I next ∧ p ∈ next.visited.packages)
      · exact ⟨visit facts p holds allowed exact_ new, there⟩
      · intro next both dep member
        obtain ⟨holds, on⟩ := both
        have inserted := fact next p elmJson dep holds on read member
        apply And.intro
        · exact ih inserted (closed p elmJson allowed exact_ read dep member)
        · exact (insert_grows depth _ dep).visited on

/-- Every edge comes from the `elm.json` of a visited package. -/
def DependencyFacts.Sound (cache : PackageCache) (facts : DependencyFacts) : Prop :=
  ∀ e ∈ facts.packageDependency, ∃ q ∈ facts.visited.packages, q.name = e.1 ∧
    ∃ elmJson, cache.elmJsonRead q = some elmJson ∧ e.2 ∈ elmJson.dependencyEntries.map Package.name

theorem insert_sound (depth : Nat) {facts : DependencyFacts} (sound : facts.Sound cache)
    (p : Package) : (insertPackageDependenciesRecursive cache depth facts p).Sound cache := by
  apply insert_invariant (Q := fun _ => True) (fun _ _ _ _ _ _ _ => trivial) _ _ depth sound trivial
  · intro facts q sound _ _ new e member
    obtain ⟨source, on, rest⟩ := sound e member
    exact ⟨source, (DependencyFacts.grows_visit new).visited on, rest⟩
  · intro facts q elmJson d sound visited read member e edge
    rcases List.mem_append.mp edge with old | new
    · exact sound e old
    · rw [List.mem_singleton.mp new]
      exact ⟨q, visited, rfl, elmJson, read, List.mem_map_of_mem member⟩

/-- All visited packages are exact and satisfy a property that the exact dependencies inherit. -/
theorem insert_visited {Q : Package → Prop}
    (closed : ∀ q elmJson, Q q → q.exact = true → cache.elmJsonRead q = some elmJson →
      ∀ d ∈ elmJson.dependencyEntries, Q d)
    (depth : Nat) {facts : DependencyFacts} {p : Package}
    (holds : ∀ q ∈ facts.visited.packages, Q q ∧ q.exact = true) (allowed : Q p) :
    ∀ q ∈ (insertPackageDependenciesRecursive cache depth facts p).visited.packages,
      Q q ∧ q.exact = true := by
  apply insert_invariant
    (I := fun facts => ∀ q ∈ facts.visited.packages, Q q ∧ q.exact = true) closed _ _ depth holds
    allowed
  · intro facts q holds good exact_ new r member
    rw [visit_packages new] at member
    rcases List.mem_append.mp member with old | here
    · exact holds r old
    · rw [List.mem_singleton.mp here]
      exact ⟨good, exact_⟩
  · intro facts q elmJson d holds _ _ _
    exact holds

/-! ## Completeness -/

/-- The dependencies of the visited packages are there, except for those that are still being
worked on. -/
def DependencyFacts.Complete (cache : PackageCache) (pending : List Package)
    (facts : DependencyFacts) : Prop :=
  ∀ q ∈ facts.visited.packages, q ∉ pending → ∀ elmJson, cache.elmJsonRead q = some elmJson →
    ∀ d ∈ elmJson.dependencyEntries, (q.name, d.name) ∈ facts.packageDependency

/-- The loop over the dependencies of a package inserts all of them. -/
theorem insert_loop (depth : Nat) (p : PackageName) (deps : List Package)
    (facts : DependencyFacts) :
    ∀ d ∈ deps, (p, d.name) ∈ (deps.foldl (fun facts dep =>
      insertPackageDependenciesRecursive cache depth (facts.insertFact p dep.name) dep)
        facts).packageDependency := by
  have kept : ∀ (deps : List Package) (facts : DependencyFacts), facts.Grows
      (deps.foldl (fun facts dep => insertPackageDependenciesRecursive cache depth
        (facts.insertFact p dep.name) dep) facts) := by
    intro deps facts
    apply List.foldlRecOn
    · exact DependencyFacts.Grows.refl facts
    · intro next grown dep _
      exact (grown.trans (next.grows_insertFact p dep.name)).trans (insert_grows depth _ dep)
  induction deps generalizing facts with
  | nil =>
    intro d member
    cases member
  | cons dep deps ih =>
    intro d member
    rw [List.foldl_cons]
    rcases List.mem_cons.mp member with here | on
    · apply (kept deps _).edges
      apply (insert_grows depth _ dep).edges
      rw [here]
      exact List.mem_append_right _ (List.mem_singleton.mpr rfl)
    · exact ih _ d on

theorem insert_complete (depth : Nat) {facts : DependencyFacts} {pending : List Package}
    (complete : facts.Complete cache pending) (p : Package) :
    (insertPackageDependenciesRecursive cache depth facts p).Complete cache pending := by
  induction depth generalizing facts pending p with
  | zero => exact complete
  | succ depth ih =>
    rcases insert_cases cache depth facts p with
      ⟨same, _⟩ | ⟨new, _, ⟨unread, same⟩ | ⟨elmJson, read, same⟩⟩
    · rw [same]
      exact complete
    · rw [same]
      intro q member free found there d inside
      rw [visit_packages new] at member
      rcases List.mem_append.mp member with old | here
      · exact complete q old free found there d inside
      · rw [List.mem_singleton.mp here, unread] at there
        cases there
    · rw [same]
      have started : (facts.visit p).Complete cache (p :: pending) := by
        intro q member free found there d inside
        rw [visit_packages new] at member
        rcases List.mem_append.mp member with old | here
        · exact complete q old (fun on => free (List.mem_cons_of_mem p on)) found there d inside
        · exact absurd (List.mem_singleton.mp here ▸ List.mem_cons_self) free
      have done := @insert_loop cache depth p.name elmJson.dependencyEntries
        (facts.visit p)
      have rest : (elmJson.dependencyEntries.foldl (fun facts dep =>
          insertPackageDependenciesRecursive cache depth (facts.insertFact p.name dep.name) dep)
            (facts.visit p)).Complete cache (p :: pending) := by
        apply List.foldlRecOn (motive := fun next : DependencyFacts =>
          next.Complete cache (p :: pending))
        · exact started
        · intro next before dep _
          apply ih
          intro q member free found there d inside
          exact List.mem_append_left _ (before q member free found there d inside)
      intro q member free found there d inside
      by_cases here : q = p
      · rw [here, read] at there
        cases there
        rw [here]
        exact done d inside
      · apply rest q member _ found there d inside
        intro on
        rcases List.mem_cons.mp on with same | old
        · exact here same
        · exact free old

/-- A package that is no constraint is visited. -/
theorem insert_marks (depth : Nat) (facts : DependencyFacts) {p : Package}
    (exact_ : p.exact = true) :
    ∃ q ∈ (insertPackageDependenciesRecursive cache (depth + 1) facts p).visited.packages,
      q.name = p.name := by
  rcases insert_cases cache depth facts p with
    ⟨same, known | constraint⟩ | ⟨new, _, ⟨_, same⟩ | ⟨elmJson, _, same⟩⟩
  · obtain ⟨q, found⟩ := Option.isSome_iff_exists.mp known
    rw [same]
    exact ⟨q, packageMapFind_some found⟩
  · rw [exact_] at constraint
    cases constraint
  · rw [same, visit_packages new]
    exact ⟨p, List.mem_append_right _ (List.mem_singleton.mpr rfl), rfl⟩
  · rw [same]
    have there : p ∈ (facts.visit p).visited.packages := by
      rw [visit_packages new]
      exact List.mem_append_right _ (List.mem_singleton.mpr rfl)
    refine ⟨p, ?_, rfl⟩
    apply List.foldlRecOn (motive := fun next : DependencyFacts => p ∈ next.visited.packages)
    · exact there
    · intro next on dep _
      exact (insert_grows depth _ dep).visited on

/-! ## The depth -/

/-- The files of the cache whose package is not visited yet. -/
def DependencyFacts.unread (cache : PackageCache) (facts : DependencyFacts) : PackageCache :=
  cache.filter fun m => m.package.name ∉ facts.visited.packages.map Package.name

theorem DependencyFacts.Grows.unread {facts more : DependencyFacts} (grows : facts.Grows more) :
    (more.unread cache).length ≤ (facts.unread cache).length := by
  unfold DependencyFacts.unread
  rw [← List.countP_eq_length_filter, ← List.countP_eq_length_filter]
  apply List.countP_mono_left
  intro m _ outside
  simp only [decide_eq_true_eq] at outside ⊢
  intro inside
  obtain ⟨q, member, same⟩ := List.mem_map.mp inside
  exact outside (List.mem_map.mpr ⟨q, grows.visited member, same⟩)

/-- Reading a file makes the rest smaller. -/
theorem unread_visit {facts : DependencyFacts} {p : Package} {elmJson : ElmJson}
    (new : packageMapFind facts.visited p.name = none)
    (read : cache.elmJsonRead p = some elmJson) :
    ((facts.visit p).unread cache).length < (facts.unread cache).length := by
  have there : ∃ m ∈ cache, m.package = p := by
    unfold PackageCache.elmJsonRead at read
    cases found : cache.metadata p with
    | none =>
      rw [found] at read
      cases read
    | some m => exact ⟨m, List.mem_of_find?_eq_some found, by simpa using List.find?_some found⟩
  obtain ⟨m, member, same⟩ := there
  have split : (facts.visit p).unread cache =
      (facts.unread cache).filter fun m => m.package.name ≠ p.name := by
    have names : (facts.visit p).visited.packages.map Package.name =
        facts.visited.packages.map Package.name ++ [p.name] := by
      rw [visit_packages new, List.map_append]
      rfl
    unfold DependencyFacts.unread
    rw [List.filter_filter, names]
    apply List.filter_congr
    intro m _
    simp [or_comm]
  rw [split]
  apply List.length_filter_lt_length_iff_exists.mpr
  refine ⟨m, List.mem_filter.mpr ⟨member, ?_⟩, by simp [same]⟩
  rw [same]
  simpa using packageMapFind_none new

/-- With a greater depth than there are files to read, one more changes nothing. -/
theorem insert_depth {depth : Nat} {facts : DependencyFacts}
    (enough : (facts.unread cache).length < depth) (p : Package) :
    insertPackageDependenciesRecursive cache (depth + 1) facts p =
      insertPackageDependenciesRecursive cache depth facts p := by
  induction depth generalizing facts p with
  | zero => omega
  | succ depth ih =>
    have loop : ∀ (deps : List Package) (next : DependencyFacts),
        (next.unread cache).length < depth →
          deps.foldl (fun facts dep => insertPackageDependenciesRecursive cache (depth + 1)
              (facts.insertFact p.name dep.name) dep) next =
            deps.foldl (fun facts dep => insertPackageDependenciesRecursive cache depth
              (facts.insertFact p.name dep.name) dep) next := by
      intro deps
      induction deps with
      | nil =>
        intro next _
        rfl
      | cons dep deps rest =>
        intro next small
        have inserted : ((next.insertFact p.name dep.name).unread cache).length < depth := small
        rw [List.foldl_cons, List.foldl_cons, ih inserted dep]
        apply rest
        have grows := @insert_grows cache depth (next.insertFact p.name dep.name) dep
        have fewer := @DependencyFacts.Grows.unread cache _ _ grows
        omega
    rw [insertPackageDependenciesRecursive, insertPackageDependenciesRecursive]
    cases new : packageMapFind facts.visited p.name with
    | some q => rfl
    | none =>
      cases p.exact with
      | false => rfl
      | true =>
        cases read : cache.elmJsonRead p with
        | none => rfl
        | some elmJson =>
          have fewer := unread_visit new read
          exact loop elmJson.dependencyEntries (facts.visit p) (by omega)

/-- The depth of `dependencyFacts` is never exhausted. -/
theorem dependencyFacts_depth (elmJson : ElmJson) (cache : PackageCache)
    (exclude : List PackageName) {depth : Nat} (enough : cache.length < depth) :
    (graphRoots elmJson exclude).foldl (insertPackageDependenciesRecursive cache depth)
        ⟨[], packageMapCreate⟩ = dependencyFacts elmJson cache exclude := by
  have one : ∀ (facts : DependencyFacts) (p : Package) (n : Nat),
      insertPackageDependenciesRecursive cache (cache.length + 1 + n) facts p =
        insertPackageDependenciesRecursive cache (cache.length + 1) facts p := by
    intro facts p n
    induction n with
    | zero => rfl
    | succ n ih =>
      rw [← ih, ← Nat.add_assoc]
      apply insert_depth
      have fewer : (facts.unread cache).length ≤ cache.length := List.length_filter_le _ _
      omega
  obtain ⟨n, same⟩ := Nat.exists_eq_add_of_lt enough
  unfold dependencyFacts
  congr 1
  funext facts p
  rw [show depth = cache.length + 1 + n by omega]
  exact one facts p n

/-! ## The whole graph -/

/-- The packages whose `elm.json` is looked for in the cache. -/
def readPackages (elmJson : ElmJson) (cache : PackageCache) (exclude : List PackageName) :
    List Package :=
  (dependencyFacts elmJson cache exclude).visited.packages

/-- The edges are the dependencies in the files that are read. -/
theorem mem_dependencyFacts {elmJson : ElmJson} {exclude : List PackageName}
    {p d : PackageName} :
    (p, d) ∈ (dependencyFacts elmJson cache exclude).packageDependency ↔
      ∃ q ∈ readPackages elmJson cache exclude, q.name = p ∧
        ∃ json, cache.elmJsonRead q = some json ∧ d ∈ json.dependencyEntries.map Package.name := by
  constructor
  · have sound : (dependencyFacts elmJson cache exclude).Sound cache := by
      apply List.foldlRecOn (motive := fun facts : DependencyFacts => facts.Sound cache)
      · intro e member
        cases member
      · intro facts sound p _
        exact insert_sound _ sound p
    exact sound (p, d)
  · intro found
    obtain ⟨q, visited, same, json, read, member⟩ := found
    have complete : (dependencyFacts elmJson cache exclude).Complete cache [] := by
      apply List.foldlRecOn (motive := fun facts : DependencyFacts => facts.Complete cache [])
      · intro q member
        cases member
      · intro facts complete p _
        exact insert_complete _ complete p
    obtain ⟨dep, inside, name⟩ := List.mem_map.mp member
    rw [← same, ← name]
    exact complete q visited (List.not_mem_nil) json read dep inside

theorem roots_grow (depth : Nat) (roots : List Package) (start : DependencyFacts) :
    start.Grows (roots.foldl (insertPackageDependenciesRecursive cache depth) start) := by
  apply List.foldlRecOn
  · exact DependencyFacts.Grows.refl start
  · intro facts grown p _
    exact grown.trans (insert_grows depth facts p)

/-- Every package from which the graph is built is visited, unless its version is a
constraint. -/
theorem roots_marked (depth : Nat) {roots : List Package} {p : Package} (root : p ∈ roots)
    (exact_ : p.exact = true) (start : DependencyFacts) :
    ∃ q ∈ (roots.foldl (insertPackageDependenciesRecursive cache (depth + 1))
      start).visited.packages, q.name = p.name := by
  induction roots generalizing start with
  | nil => cases root
  | cons first roots ih =>
    rw [List.foldl_cons]
    rcases List.mem_cons.mp root with here | on
    · obtain ⟨q, member, same⟩ := @insert_marks cache depth start _ exact_
      rw [here] at member same
      exact ⟨q, (roots_grow _ roots _).visited member, by rw [same, here]⟩
    · exact ih on _

/-- Every package has one version, and the exact versions in the cached files are those the
application lists. -/
structure VersionsAgree (elmJson : ElmJson) (cache : PackageCache) (exclude : List PackageName) :
    Prop where
  single : ∀ p ∈ graphRoots elmJson exclude, ∀ q ∈ graphRoots elmJson exclude,
    p.exact = true → q.exact = true → p.name = q.name → p = q
  listed : ∀ p ∈ graphRoots elmJson exclude, p.exact = true → ∀ json,
    cache.elmJsonRead p = some json → ∀ d ∈ json.dependencyEntries, d.exact = true →
      d ∈ graphRoots elmJson exclude

/-- Then the files that are looked for are those of the kept and the indirect packages. -/
theorem VersionsAgree.mem_readPackages {elmJson : ElmJson} {exclude : List PackageName}
    (agree : VersionsAgree elmJson cache exclude) {p : Package} :
    p ∈ readPackages elmJson cache exclude ↔
      p ∈ graphRoots elmJson exclude ∧ p.exact = true := by
  have only : ∀ q ∈ readPackages elmJson cache exclude,
      (q.exact = true → q ∈ graphRoots elmJson exclude) ∧ q.exact = true := by
    apply List.foldlRecOn (motive := fun facts : DependencyFacts =>
      ∀ q ∈ facts.visited.packages,
        (q.exact = true → q ∈ graphRoots elmJson exclude) ∧ q.exact = true)
    · intro q member
      cases member
    · intro facts holds q member
      apply insert_visited _ _ holds fun _ => member
      intro p json allowed exact_ read d inside constant
      exact agree.listed p (allowed exact_) exact_ json read d inside constant
  constructor
  · intro member
    obtain ⟨root, exact_⟩ := only p member
    exact ⟨root exact_, exact_⟩
  · intro both
    obtain ⟨root, exact_⟩ := both
    obtain ⟨q, member, same⟩ := roots_marked cache.length root exact_ ⟨[], packageMapCreate⟩
    obtain ⟨other, constant⟩ := only q member
    rw [agree.single p root q (other constant) exact_ constant same.symm]
    exact member

end ElmWrap
