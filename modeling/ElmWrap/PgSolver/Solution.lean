import ElmWrap.PgSolver.TermState
import ElmWrap.PgSolver.Search
import ElmWrap.Lib.Nogood

/-!
# Solutions

What a run of the solver is about: a *problem* is what the provider lists, the
root package with its version, and the root requirements; a *solution* assigns
listed versions to packages so that the requirements and every dependency of an
assigned version hold. An incompatibility is valid when its terms are a nogood
of the solutions.
-/

namespace ElmWrap

open Lib

/-- What a deterministic provider answers; `none` where its callback fails. -/
structure PgListing where
  versions : PgPackageId → Option (List PgVersion)
  dependencies : PgPackageId → PgVersion → Option (List PgDependency)

/-- The provider answers from the listing, whatever its context. -/
structure PgListing.Answers {γ : Type} (L : PgListing) (P : PgDependencyProvider γ) : Prop where
  versions : ∀ ctx pkg, P.getVersions ctx pkg pgDecisionVersionBuffer = L.versions pkg
  dependencies : ∀ ctx pkg v,
    (P.getDependencies ctx pkg v pgDependencyBuffer).2 = L.dependencies pkg v

/-- A problem posed to the solver. -/
structure PgProblem where
  listing : PgListing
  rootPkg : PgPackageId
  rootVersion : PgVersion
  roots : List PgDependency

/-- A choice of versions meets a requirement. -/
def PgMeets (σ : PgPackageId → Option PgVersion) (dep : PgDependency) : Prop :=
  ∃ v, σ dep.1 = some v ∧ pgRangeContains dep.2 v = true

/-- An assignment of listed versions that satisfies all root requirements
together with every dependency of every assigned version. -/
structure PgProblem.Solution (Q : PgProblem) (σ : PgPackageId → Option PgVersion) : Prop where
  root : σ Q.rootPkg = some Q.rootVersion
  listed : ∀ pkg v, pkg ≠ Q.rootPkg → σ pkg = some v →
    ∃ vs, Q.listing.versions pkg = some vs ∧ v ∈ vs
  required : ∀ dep ∈ Q.roots, PgMeets σ dep
  closed : ∀ pkg v deps, σ pkg = some v → Q.listing.dependencies pkg v = some deps →
    ∀ dep ∈ deps, PgMeets σ dep

/-- All solutions of a problem. -/
def PgProblem.solutions (Q : PgProblem) : Set (PgPackageId → Option PgVersion) :=
  { σ | Q.Solution σ }

/-! ## Incompatibilities as nogoods -/

/-- A term as a restriction on the choice for its package. -/
def PgTerm.lit (t : PgTerm) : Lit PgPackageId (Option PgVersion) := ⟨t.pkg, t.Admits⟩

/-- The terms of an incompatibility. -/
def pgClause (terms : List PgTerm) : List (Lit PgPackageId (Option PgVersion)) :=
  terms.map PgTerm.lit

/-- No solution satisfies all the terms at once. -/
def PgProblem.Valid (Q : PgProblem) (terms : List PgTerm) : Prop :=
  Nogood Q.solutions (pgClause terms)

theorem PgProblem.valid_iff {Q : PgProblem} {terms : List PgTerm} :
    Q.Valid terms ↔ ∀ σ, Q.Solution σ → ¬ ∀ t ∈ terms, t.Admits (σ t.pkg) := by
  simp [PgProblem.Valid, Nogood, pgClause, PgTerm.lit, Lit.Holds, PgProblem.solutions]

/-- The dependency of a version is a nogood. -/
theorem PgProblem.valid_dependency {Q : PgProblem} {pkg : PgPackageId} {v : PgVersion}
    {deps : List PgDependency} {dep : PgDependency}
    (answer : Q.listing.dependencies pkg v = some deps) (member : dep ∈ deps) :
    Q.Valid (pgDependencyTerms pkg (pgRangeExact v) dep) := by
  rw [PgProblem.valid_iff]
  intro σ solution admits
  obtain ⟨chosen, excluded⟩ : _ ∧ _ := by simpa [pgDependencyTerms] using admits
  obtain ⟨w, same, inside⟩ := pgAdmits_positive.mp chosen
  rw [pgRangeContains_exact] at inside
  subst inside
  obtain ⟨u, same', inside'⟩ := solution.closed pkg _ deps same answer dep member
  rw [pgAdmits_negative.mp excluded u same'] at inside'
  cases inside'

/-- The range required of a package is a nogood when every listed version in it
is ruled out in every solution. -/
theorem PgProblem.valid_noVersions {Q : PgProblem} {pkg : PgPackageId} {range : PgVersionRange}
    {vs : List PgVersion} (other : pkg ≠ Q.rootPkg) (answer : Q.listing.versions pkg = some vs)
    (out : ∀ v ∈ vs, pgRangeContains range v = true →
      ∀ σ, Q.Solution σ → σ pkg ≠ some v) :
    Q.Valid [{ pkg := pkg, range := range, positive := true }] := by
  rw [PgProblem.valid_iff]
  intro σ solution admits
  obtain ⟨v, same, inside⟩ := pgAdmits_positive.mp (admits _ List.mem_cons_self)
  obtain ⟨vs', answer', listed⟩ := solution.listed pkg v other same
  rw [answer] at answer'
  cases answer'
  exact out v listed inside σ solution same

/-- Resolution on a package, if every choice for it satisfies all terms that one
of the two sides has on it. -/
theorem PgProblem.valid_resolve {Q : PgProblem} {left right : List PgTerm} {pkg : PgPackageId}
    (validLeft : Q.Valid left) (validRight : Q.Valid right)
    (cover : ∀ x : Option PgVersion, (∀ t ∈ left, t.pkg = pkg → t.Admits x) ∨
      (∀ t ∈ right, t.pkg = pkg → t.Admits x)) :
    Q.Valid (pgResolveTerms left right pkg) := by
  refine Nogood.resolve (i := pkg) validLeft validRight (fun x => ?_) (fun l hl => ?_)
    (fun l hl => ?_)
  · rcases cover x with all | all
    · refine Or.inl fun l hl => ?_
      obtain ⟨t, member, rfl⟩ := List.mem_map.mp hl
      exact all t member
    · refine Or.inr fun l hl => ?_
      obtain ⟨t, member, rfl⟩ := List.mem_map.mp hl
      exact all t member
  · obtain ⟨t, member, rfl⟩ := List.mem_map.mp hl
    refine or_iff_not_imp_left.mpr fun other => List.mem_map.mpr ⟨t, ?_, rfl⟩
    exact List.mem_append_left _ (List.mem_filter.mpr ⟨member, decide_eq_true other⟩)
  · obtain ⟨t, member, rfl⟩ := List.mem_map.mp hl
    refine or_iff_not_imp_left.mpr fun other => List.mem_map.mpr ⟨t, ?_, rfl⟩
    exact List.mem_append_right _ (List.mem_filter.mpr ⟨member, decide_eq_true other⟩)

/-- All terms of a valid incompatibility but one refute the remaining one. -/
theorem PgProblem.Valid.unit {Q : PgProblem} {terms : List PgTerm} (valid : Q.Valid terms)
    {σ : PgPackageId → Option PgVersion} (solution : Q.Solution σ) {term : PgTerm}
    (others : ∀ t ∈ terms, t = term ∨ t.Admits (σ t.pkg)) : ¬ term.Admits (σ term.pkg) := by
  refine Nogood.unit (l := term.lit) valid (show σ ∈ Q.solutions from solution) fun k hk => ?_
  obtain ⟨t, member, rfl⟩ := List.mem_map.mp hk
  rcases others t member with rfl | admits
  · exact Or.inl rfl
  · exact Or.inr admits

/-! ## Listings given by tables -/

/-- A listing given by its two tables; a package or version that a table lacks
has no versions and no dependencies. -/
def PgListing.ofTables (versions : List (PgPackageId × List PgVersion))
    (dependencies : List ((PgPackageId × PgVersion) × List PgDependency)) : PgListing where
  versions pkg := some ((versions.lookup pkg).getD [])
  dependencies pkg v := some ((dependencies.lookup (pkg, v)).getD [])

/-- The provider that answers from a listing, up to the capacity it is given. -/
def PgListing.provider (L : PgListing) : PgDependencyProvider Unit where
  getVersions _ pkg cap := (L.versions pkg).map (List.take cap)
  getDependencies ctx pkg v cap := (ctx, (L.dependencies pkg v).map (List.take cap))
  getVersions_length := by
    intro ctx pkg cap vs answer
    obtain ⟨all, -, rfl⟩ := Option.map_eq_some_iff.mp answer
    exact List.length_take_le cap all
  getDependencies_length := by
    intro ctx pkg v cap ds answer
    obtain ⟨all, -, rfl⟩ := Option.map_eq_some_iff.mp answer
    exact List.length_take_le cap all

/-- A listing whose answers fit the core's buffers. -/
structure PgListing.Fits (L : PgListing) : Prop where
  versions : ∀ pkg vs, L.versions pkg = some vs → vs.length ≤ pgDecisionVersionBuffer
  dependencies : ∀ pkg v ds, L.dependencies pkg v = some ds → ds.length ≤ pgDependencyBuffer

theorem PgListing.answers_provider {L : PgListing} (fits : L.Fits) : L.Answers L.provider where
  versions ctx pkg := by
    cases answer : L.versions pkg with
    | none => simp [PgListing.provider, answer]
    | some vs =>
      simp [PgListing.provider, answer, List.take_of_length_le (fits.versions pkg vs answer)]
  dependencies ctx pkg v := by
    cases answer : L.dependencies pkg v with
    | none => simp [PgListing.provider, answer]
    | some ds =>
      simp [PgListing.provider, answer, List.take_of_length_le (fits.dependencies pkg v ds answer)]

theorem lookup_length_le {α β : Type} [BEq α] {cap : Nat} (table : List (α × List β))
    (small : ∀ row ∈ table, row.2.length ≤ cap) (key : α) :
    ((table.lookup key).getD []).length ≤ cap := by
  induction table with
  | nil => exact Nat.zero_le cap
  | cons row table ih =>
    rw [List.lookup_cons]
    split
    · exact small row List.mem_cons_self
    · exact ih fun r member => small r (List.mem_cons_of_mem _ member)

/-- Tables with short rows fit. -/
theorem PgListing.fits_ofTables {versions : List (PgPackageId × List PgVersion)}
    {dependencies : List ((PgPackageId × PgVersion) × List PgDependency)}
    (few : ∀ row ∈ versions, row.2.length ≤ pgDecisionVersionBuffer)
    (short : ∀ row ∈ dependencies, row.2.length ≤ pgDependencyBuffer) :
    (PgListing.ofTables versions dependencies).Fits where
  versions pkg vs answer := by
    cases answer
    exact lookup_length_le versions few pkg
  dependencies pkg v ds answer := by
    cases answer
    exact lookup_length_le dependencies short (pkg, v)

/-- The requirement is met by the choices listed in `pairs`. -/
def pgMeetsIn (pairs : List (PgPackageId × PgVersion)) (dep : PgDependency) : Bool :=
  match pairs.lookup dep.1 with
  | some v => pgRangeContains dep.2 v
  | none => false

theorem pgMeetsIn_meets {pairs : List (PgPackageId × PgVersion)} {dep : PgDependency}
    (meets : pgMeetsIn pairs dep = true) : PgMeets (fun pkg => pairs.lookup pkg) dep := by
  unfold pgMeetsIn at meets
  split at meets
  · rename_i v same
    exact ⟨v, same, meets⟩
  · cases meets

theorem mem_of_lookup {α β : Type} [BEq α] [LawfulBEq α] {pairs : List (α × β)} {a : α} {b : β}
    (found : pairs.lookup a = some b) : (a, b) ∈ pairs := by
  obtain ⟨pre, post, rfl, -⟩ := List.lookup_eq_some_iff.mp found
  simp

/-- A list of choices that passes its checks is a solution of a problem given by
tables. -/
theorem PgProblem.solution_ofTables {versions : List (PgPackageId × List PgVersion)}
    {dependencies : List ((PgPackageId × PgVersion) × List PgDependency)}
    {rootPkg : PgPackageId} {rootVersion : PgVersion} {roots : List PgDependency}
    {pairs : List (PgPackageId × PgVersion)}
    (root : pairs.lookup rootPkg = some rootVersion)
    (listed : ∀ row ∈ pairs, row.1 = rootPkg ∨ row.2 ∈ (versions.lookup row.1).getD [])
    (required : ∀ dep ∈ roots, pgMeetsIn pairs dep = true)
    (closed : ∀ row ∈ pairs, ∀ dep ∈ (dependencies.lookup row).getD [],
      pgMeetsIn pairs dep = true) :
    PgProblem.Solution ⟨PgListing.ofTables versions dependencies, rootPkg, rootVersion, roots⟩
      fun pkg => pairs.lookup pkg where
  root := root
  listed pkg v other found :=
    ⟨_, rfl, (listed (pkg, v) (mem_of_lookup found)).resolve_left other⟩
  required dep member := pgMeetsIn_meets (required dep member)
  closed pkg v deps found answer dep member := by
    cases answer
    exact pgMeetsIn_meets (closed (pkg, v) (mem_of_lookup found) dep member)

end ElmWrap
