import ElmWrap.PgSolver.PkgStates
import ElmWrap.PgSolver.Watch
import ElmWrap.PgSolver.Solution

/-!
# What a successful run selects

When `pg_solver_solve` succeeds, every package with a requirement has been
decided, the decision lies in every range required of the package, and the
dependencies of every decision have been registered and hold. What the provider
said is what it said in the contexts the run went through, so that nothing is
assumed of how it answers.
-/

namespace ElmWrap

open Lib

variable {γ : Type} {P : PgDependencyProvider γ}

/-! ## What the provider said -/

/-- The contexts a provider gets into by answering. -/
def PgCtxReach (P : PgDependencyProvider γ) : γ → γ → Prop :=
  Relation.ReflTransGen fun ctx ctx' =>
    ∃ pkg v, (P.getDependencies ctx pkg v pgDependencyBuffer).1 = ctx'

/-- Between two contexts the provider listed these versions for the package. -/
def PgListed (P : PgDependencyProvider γ) (first last : γ) (pkg : PgPackageId)
    (vs : List PgVersion) : Prop :=
  ∃ ctx, PgCtxReach P first ctx ∧ PgCtxReach P ctx last ∧
    P.getVersions ctx pkg pgDecisionVersionBuffer = some vs

/-- Between two contexts the provider reported these dependencies for the version,
which is the root's or one the provider had listed by then. -/
def PgDepends (P : PgDependencyProvider γ) (rootPkg : PgPackageId) (first last : γ)
    (pkg : PgPackageId) (v : PgVersion) (deps : List PgDependency) : Prop :=
  ∃ ctx ctx', PgCtxReach P first ctx ∧ PgCtxReach P ctx' last ∧
    P.getDependencies ctx pkg v pgDependencyBuffer = (ctx', some deps) ∧
    (pkg ≠ rootPkg → ∃ vs, PgListed P first ctx pkg vs ∧ v ∈ vs)

theorem PgListed.later {first ctx last : γ} {pkg : PgPackageId} {vs : List PgVersion}
    (listed : PgListed P first ctx pkg vs) (reach : PgCtxReach P ctx last) :
    PgListed P first last pkg vs := by
  obtain ⟨at_, before, after, answer⟩ := listed
  exact ⟨at_, before, Relation.ReflTransGen.trans after reach, answer⟩

theorem PgDepends.later {rootPkg : PgPackageId} {first ctx last : γ} {pkg : PgPackageId}
    {v : PgVersion} {deps : List PgDependency} (depends : PgDepends P rootPkg first ctx pkg v deps)
    (reach : PgCtxReach P ctx last) : PgDepends P rootPkg first last pkg v deps := by
  obtain ⟨at_, next, before, after, answer⟩ := depends
  exact ⟨at_, next, before, Relation.ReflTransGen.trans after reach, answer⟩

theorem pgCtxReach_step (ctx : γ) (pkg : PgPackageId) (v : PgVersion) :
    PgCtxReach P ctx (P.getDependencies ctx pkg v pgDependencyBuffer).1 :=
  Relation.ReflTransGen.single ⟨pkg, v, rfl⟩

variable {pkg : PgPackageId} {v : PgVersion} {trail : List PgAssignment}

/-- A version other than the root's is listed when its dependencies are known. -/
theorem PgDepends.listed {rootPkg : PgPackageId} {first last : γ} {deps : List PgDependency}
    (depends : PgDepends P rootPkg first last pkg v deps) (other : pkg ≠ rootPkg) :
    ∃ vs, PgListed P first last pkg vs ∧ v ∈ vs := by
  obtain ⟨ctx, ctx', -, after, answer, listed⟩ := depends
  obtain ⟨vs, at_, member⟩ := listed other
  have step : PgCtxReach P ctx ctx' := by
    have step := pgCtxReach_step (P := P) ctx pkg v
    rw [answer] at step
    exact step
  exact ⟨vs, at_.later (Relation.ReflTransGen.trans step after), member⟩

/-- The selection is consistent with what the provider said between two
contexts: the root has its version, every other choice was listed, and the root
requirements and the dependencies reported for every choice are met. -/
structure PgConsistent (P : PgDependencyProvider γ) (first last : γ) (rootPkg : PgPackageId)
    (rootVersion : PgVersion) (roots : List PgDependency)
    (σ : PgPackageId → Option PgVersion) : Prop where
  root : σ rootPkg = some rootVersion
  required : ∀ dep ∈ roots, PgMeets σ dep
  closed : ∀ pkg v, σ pkg = some v →
    ∃ deps, PgDepends P rootPkg first last pkg v deps ∧ ∀ dep ∈ deps, PgMeets σ dep

/-- For a deterministic provider a consistent selection is a solution. -/
theorem PgConsistent.solution {Q : PgProblem} {first last : γ}
    {σ : PgPackageId → Option PgVersion} (answers : Q.listing.Answers P)
    (consistent : PgConsistent P first last Q.rootPkg Q.rootVersion Q.roots σ) :
    Q.Solution σ where
  root := consistent.root
  listed pkg v other chosen := by
    obtain ⟨deps, depends, -⟩ := consistent.closed pkg v chosen
    obtain ⟨vs, ⟨ctx, -, -, answer⟩, member⟩ := depends.listed other
    exact ⟨vs, by rw [← answers.versions ctx pkg, answer], member⟩
  required := consistent.required
  closed pkg v deps chosen answer dep member := by
    obtain ⟨deps', ⟨ctx, ctx', -, -, answer', -⟩, meets⟩ := consistent.closed pkg v chosen
    rw [← answers.dependencies ctx, answer'] at answer
    cases answer
    exact meets dep member

/-! ## Decisions -/

/-- The decision on the trail for a package. -/
def PgDecided (trail : List PgAssignment) (pkg : PgPackageId) (v : PgVersion) : Prop :=
  ∃ level, pgDecisionAssignment pkg v level ∈ trail

theorem PgDecided.positive (decided : PgDecided trail pkg v) :
    ∃ a, PgPositiveOn trail pkg a ∧ a.range = pgRangeExact v := by
  obtain ⟨level, member⟩ := decided
  exact ⟨_, ⟨member, rfl, rfl⟩, rfl⟩

theorem PgEntry.decided {roots : List PgDependency} {s : PgSolver γ} {a : PgAssignment}
    (entry : PgEntry roots s a) (member : a ∈ s.trail) (decided : a.decided = true) :
    ∃ v, PgDecided s.trail a.pkg v := by
  cases entry with
  | required => cases decided
  | root => exact ⟨_, _, member⟩
  | decision => exact ⟨_, _, member⟩
  | derived => cases decided

/-- Everything required of a decided package admits the decision. -/
def PgPinned (trail : List PgAssignment) : Prop :=
  ∀ pkg v, PgDecided trail pkg v → ∀ a, PgPositiveOn trail pkg a →
    pgRangeContains a.range v = true

/-- A term on a decided package is never undetermined. -/
theorem PgPinned.conclusive (pinned : PgPinned trail) {term : PgTerm}
    (decided : PgDecided trail term.pkg v) :
    pgTermState trail term ≠ .inconclusive := by
  obtain ⟨a, on, exact_⟩ := decided.positive
  exact pgTermState_pinned on exact_ (pinned term.pkg v decided)

/-- A derivation is about a package that has not been decided. -/
theorem PgPinned.derived {trail : List PgAssignment} (pinned : PgPinned trail) {term : PgTerm}
    (open_ : pgTermState trail term = .inconclusive) (id : PgIncompatId) (level : Nat) :
    PgPinned (trail ++ [pgAssignmentFromTermNegation term id level]) := by
  intro pkg v decided a on
  have before : PgDecided trail pkg v := by
    obtain ⟨l, member⟩ := decided
    rcases List.mem_append.mp member with old | new
    · exact ⟨l, old⟩
    · have flags := congrArg PgAssignment.decided (List.mem_singleton.mp new)
      cases flags
  rcases pgPositiveOn_append.mp on with old | ⟨-, same, -⟩
  · exact pinned pkg v before a old
  · have here : term.pkg = pkg := same
    subst here
    exact absurd open_ (pinned.conclusive before)

/-- A decision is for a package without one, and lies in everything required of it. -/
theorem PgPinned.decided {trail : List PgAssignment} (pinned : PgPinned trail)
    {pkg : PgPackageId} {version : PgVersion} (level : Nat)
    (undecided : ∀ v, ¬ PgDecided trail pkg v)
    (inside : ∀ a, PgPositiveOn trail pkg a → pgRangeContains a.range version = true) :
    PgPinned (trail ++ [pgDecisionAssignment pkg version level]) := by
  intro p v decided a on
  by_cases same : pkg = p
  · subst same
    have v_eq : v = version := by
      obtain ⟨l, member⟩ := decided
      rcases List.mem_append.mp member with old | new
      · exact absurd ⟨l, old⟩ (undecided v)
      · have ranges := congrArg PgAssignment.range (List.mem_singleton.mp new)
        have contains : pgRangeContains (pgRangeExact version) v = true := by
          rw [← show pgRangeExact v = pgRangeExact version from ranges]
          exact pgRangeContains_exact.mpr rfl
        exact pgRangeContains_exact.mp contains
    subst v_eq
    rcases pgPositiveOn_append.mp on with old | ⟨rfl, -, -⟩
    · exact inside a old
    · exact pgRangeContains_exact.mpr rfl
  · have before : PgDecided trail p v := by
      obtain ⟨l, member⟩ := decided
      rcases List.mem_append.mp member with old | new
      · exact ⟨l, old⟩
      · have pkgs := congrArg PgAssignment.pkg (List.mem_singleton.mp new)
        exact absurd pkgs.symm same
    rcases pgPositiveOn_append.mp on with old | ⟨-, here, -⟩
    · exact pinned p v before a old
    · exact absurd here same

theorem PgPinned.cut {trail : List PgAssignment} (pinned : PgPinned trail) (level : Nat) :
    PgPinned (pgTrailCut level trail) := by
  intro pkg v decided a on
  obtain ⟨l, member⟩ := decided
  exact pinned pkg v ⟨l, mem_of_mem_pgTrailCut member⟩ a
    ⟨mem_of_mem_pgTrailCut on.1, on.2.1, on.2.2⟩

/-! ## Reading the selection -/

/-- The test of `pg_solver_get_selected_version` on one assignment. -/
theorem pgSelected_step (pkg : PgPackageId) (a : PgAssignment) :
    (if a.pkg ≠ pkg || !a.positive then none
      else if a.range.lower.unbounded || a.range.upper.unbounded then none
      else if pgVersionCmpInternal a.range.lower.v a.range.upper.v = 0 &&
          a.range.lower.inclusive && a.range.upper.inclusive then some a.range.lower.v
      else none) =
      if a.pkg = pkg ∧ a.positive = true then pgRangeIsExact a.range else none := by
  unfold pgRangeIsExact
  cases a.positive <;> cases a.range.lower.inclusive <;> cases a.range.upper.inclusive <;>
    by_cases same : a.pkg = pkg <;> simp [same]

/-- A decided package is selected in the version decided. -/
theorem PgPinned.selected {s : PgSolver γ} (pinned : PgPinned s.trail)
    (decided : PgDecided s.trail pkg v) :
    pgSolverGetSelectedVersion s pkg = some v := by
  unfold pgSolverGetSelectedVersion
  simp only [pgSelected_step]
  obtain ⟨a, on, exact_⟩ := decided.positive
  cases found : s.trail.findSome? fun a =>
      if a.pkg = pkg ∧ a.positive = true then pgRangeIsExact a.range else none with
  | none =>
    have missed := List.findSome?_eq_none_iff.mp found a on.1
    rw [if_pos on.2, exact_, pgRangeIsExact_exact] at missed
    cases missed
  | some w =>
    obtain ⟨b, member, chosen⟩ := List.exists_of_findSome?_eq_some found
    split at chosen
    · rename_i here
      rw [pgRangeIsExact_contains chosen (pinned pkg v decided b ⟨member, here⟩)]
    · cases chosen

/-- A selected package has a positive assignment. -/
theorem pgSelected_positive {s : PgSolver γ}
    (selected : pgSolverGetSelectedVersion s pkg = some v) :
    ∃ a, PgPositiveOn s.trail pkg a := by
  unfold pgSolverGetSelectedVersion at selected
  simp only [pgSelected_step] at selected
  obtain ⟨a, member, chosen⟩ := List.exists_of_findSome?_eq_some selected
  split at chosen
  · rename_i here
    exact ⟨a, member, here⟩
  · cases chosen

/-! ## What was registered -/

/-- The trail a run starts with. -/
def pgSeed (rootPkg : PgPackageId) (rootVersion : PgVersion) (roots : List PgDependency) :
    List PgAssignment :=
  roots.map pgRootAssignment ++ [pgDecisionAssignment rootPkg rootVersion 1]

/-- Backtracking to level 1 or above keeps the initial trail. -/
theorem pgSeed_cut {rootPkg : PgPackageId} {rootVersion : PgVersion} {roots : List PgDependency}
    {level : Nat} (started : 1 ≤ level) (seeded : pgSeed rootPkg rootVersion roots <+: trail) :
    pgSeed rootPkg rootVersion roots <+: pgTrailCut level trail := by
  induction trail using List.reverseRecOn with
  | nil => exact seeded
  | append_singleton trail b ih =>
    rw [pgTrailCut, List.rdropWhile_concat]
    split
    · rename_i high
      rcases List.prefix_concat_iff.mp seeded with whole | earlier
      · have last : pgDecisionAssignment rootPkg rootVersion 1 = b := by
          have ends := List.append_inj' whole rfl
          exact List.singleton_inj.mp ends.2
        rw [← last] at high
        exact absurd (of_decide_eq_true high) (Nat.not_lt_of_le started)
      · exact ih earlier
    · exact seeded

/-- The dependencies of the version are known, and attached as incompatibilities. -/
def PgRegistered (P : PgDependencyProvider γ) (first : γ) (s : PgSolver γ) (pkg : PgPackageId)
    (v : PgVersion) : Prop :=
  ∃ deps, PgDepends P s.rootPkg first s.providerCtx pkg v deps ∧
    ∀ dep ∈ deps, ∃ id, s.Attached id ∧ s.terms id = pgDependencyTerms pkg (pgRangeExact v) dep

/-- The cache and the decisions rest on what the provider said. -/
structure PgRecorded (P : PgDependencyProvider γ) (first : γ) (c : PgConfig γ) : Prop where
  reach : PgCtxReach P first c.solver.providerCtx
  cache : ∀ pkg vs, c.solver.cached pkg = some vs →
    PgListed P first c.solver.providerCtx pkg vs
  decisions : c.Live → ∀ pkg v, PgDecided c.solver.trail pkg v →
    PgRegistered P first c.solver pkg v

theorem PgRegistered.mono {first : γ} {s s' : PgSolver γ}
    (registered : PgRegistered P first s pkg v) (extends_ : PgExtends s s')
    (root : s'.rootPkg = s.rootPkg) (reach : PgCtxReach P s.providerCtx s'.providerCtx) :
    PgRegistered P first s' pkg v := by
  obtain ⟨deps, depends, all⟩ := registered
  refine ⟨deps, by rw [root]; exact depends.later reach, fun dep member => ?_⟩
  obtain ⟨id, attached, terms⟩ := all dep member
  exact ⟨id, extends_.attached attached, by rw [extends_.terms attached.1, terms]⟩

theorem PgTransition.ctx {c c' : PgConfig γ} (step : PgTransition P c c') :
    PgCtxReach P c.solver.providerCtx c'.solver.providerCtx := by
  cases step with
  | decideError outcome =>
    cases outcome with
    | stuck => exact Relation.ReflTransGen.refl
    | failed choice context => rw [← context]; exact pgCtxReach_step _ _ _
  | noVersions outcome =>
    cases outcome
    simp only [add_providerCtx]
    exact Relation.ReflTransGen.refl
  | finished outcome => cases outcome; exact Relation.ReflTransGen.refl
  | @decided s s' outcome =>
    cases outcome with
    | @made cv pkg version ctx deps choice answer =>
      have step := pgCtxReach_step (P := P) s.providerCtx pkg version
      rw [answer] at step
      simpa using step
  | giveUp outcome => cases outcome <;> exact Relation.ReflTransGen.refl
  | resolved outcome => cases outcome; exact Relation.ReflTransGen.refl
  | learned outcome =>
    cases outcome
    simp only [backtrack_providerCtx, attach_providerCtx]
    exact Relation.ReflTransGen.refl
  | _ => exact Relation.ReflTransGen.refl

theorem PgRecorded.filled {first : γ} {c : PgConfig γ} (holds : PgRecorded P first c)
    {cv : List (Option (List PgVersion))} (filled : PgCacheFilled P c.solver cv)
    {vs : List PgVersion} (cell : cv.getD pkg none = some vs) :
    PgListed P first c.solver.providerCtx pkg vs := by
  rcases filled pkg with same | ⟨-, asked⟩
  · exact holds.cache pkg vs (same ▸ cell)
  · exact ⟨_, holds.reach, Relation.ReflTransGen.refl, by rw [← asked]; exact cell⟩

/-- What was decided after a step was decided before, or is the choice the step
made. -/
theorem PgTransition.newDecision {c c' : PgConfig γ} (step : PgTransition P c c') (live : c'.Live)
    (decided : PgDecided c'.solver.trail pkg v) :
    PgDecided c.solver.trail pkg v ∨
      ∃ cv ctx deps, PgChoice P c.solver cv pkg v ∧
        P.getDependencies c.solver.providerCtx pkg v pgDependencyBuffer = (ctx, some deps) ∧
        c'.solver.providerCtx = ctx ∧
        ∀ dep ∈ deps, ∃ id, c'.solver.Attached id ∧
          c'.solver.terms id = pgDependencyTerms pkg (pgRangeExact v) dep := by
  cases step with
  | @derive s id rest t run =>
    obtain ⟨l, member⟩ := decided
    rcases List.mem_append.mp member with old | new
    · exact Or.inl ⟨l, old⟩
    · have flags := congrArg PgAssignment.decided (List.mem_singleton.mp new)
      cases flags
  | decideError => exact absurd rfl (live _)
  | noVersions outcome => cases outcome; exact Or.inl (by simpa using decided)
  | finished => exact absurd rfl (live _)
  | @decided s s' outcome =>
    cases outcome with
    | @made cv p version ctx deps choice answer =>
      obtain ⟨l, member⟩ := decided
      simp only [pgAddDependencies_trail] at member
      rcases List.mem_append.mp member with old | new
      · exact Or.inl ⟨l, old⟩
      · have new := List.mem_singleton.mp new
        have pkgs : pkg = p := congrArg PgAssignment.pkg new
        have ranges : pgRangeExact v = pgRangeExact version := congrArg PgAssignment.range new
        have versions : v = version := congrArg (fun r => r.lower.v) ranges
        subst pkgs versions
        refine Or.inr ⟨cv, ctx, deps, choice, answer, by simp, fun dep listed => ?_⟩
        exact pgAddDependencies_registered _ _ _ listed
  | giveUp => exact absurd rfl (live _)
  | resolved outcome => cases outcome; exact Or.inl decided
  | learned outcome =>
    cases outcome
    obtain ⟨l, member⟩ := decided
    simp only [backtrack_trail, attach_trail] at member
    exact Or.inl ⟨l, mem_of_mem_pgTrailCut member⟩
  | _ => exact Or.inl decided

theorem PgRecorded.step {first : γ} {roots : List PgDependency} {c : PgConfig γ}
    (holds : PgRecorded P first c) (well : PgWellFormed roots c) :
    PgRecorded P first (pgStep P c) := by
  have step := pgStep_transition P c
  have extends_ : PgExtends c.solver (pgStep P c).solver :=
    step.extends fun current phase => by have h := well.refers; rw [phase] at h; exact h
  refine ⟨Relation.ReflTransGen.trans holds.reach step.ctx, fun pkg vs cell => ?_,
    fun live pkg v decided => ?_⟩
  · exact (holds.filled step.filled cell).later step.ctx
  · rcases step.newDecision live decided with old | ⟨cv, ctx, deps, choice, answer, same, all⟩
    · exact (holds.decisions (step.live live) pkg v old).mono extends_ step.root.1 step.ctx
    · refine ⟨deps, ⟨_, ctx, holds.reach, ?_, answer, fun _ => ?_⟩, all⟩
      · rw [same]
        exact Relation.ReflTransGen.refl
      · obtain ⟨vs, cell, member⟩ := choice.listed
        exact ⟨vs, holds.filled choice.filled cell, member⟩

/-! ## The end of a successful run -/

/-- A settled dependency of a decided version: the range asked for admits
everything that is still allowed for the package. -/
theorem pgSettled_dependency {dep : PgDependency} (decided : PgDecided trail pkg v)
    (settled : PgSettled trail (pgDependencyTerms pkg (pgRangeExact v) dep)) :
    (∃ a, PgPositiveOn trail dep.1 a) ∧
      ∀ w, (∀ a, PgPositiveOn trail dep.1 a → pgRangeContains a.range w = true) →
        pgRangeContains dep.2 w = true := by
  obtain ⟨a, on, exact_⟩ := decided.positive
  unfold PgSettled pgDependencyTerms at settled
  rw [pgExamineTerms_cons, pgTermState_exact on exact_, pgExamineTerms_cons] at settled
  dsimp only at settled
  split at settled
  · cases settled
  · exact pgTermState_contradicted_negative (by assumption)
  · cases settled

/-- What holds along every run; the last two parts only when no root requirement
on the root package excludes the root version. -/
structure PgSearch (P : PgDependencyProvider γ) (first : γ) (rootPkg : PgPackageId)
    (rootVersion : PgVersion) (roots : List PgDependency) (c : PgConfig γ) : Prop where
  well : PgWellFormed roots c
  root : c.solver.rootPkg = rootPkg ∧ c.solver.rootVersion = rootVersion
  states : PgPkgStates c.solver
  propagates : PgPropagates c
  recorded : PgRecorded P first c
  seeded : pgSeed rootPkg rootVersion roots <+: c.solver.trail
  pinned : PgPinned c.solver.trail
  outcome : c.phase = .done .ok →
    PgConsistent P first c.solver.providerCtx rootPkg rootVersion roots
      (pgSolverGetSelectedVersion c.solver)

section Finished

variable {first : γ} {rootPkg : PgPackageId} {rootVersion : PgVersion}
  {roots : List PgDependency} {s : PgSolver γ}

theorem PgSearch.rootDecided
    (holds : PgSearch P first rootPkg rootVersion roots ⟨.decide, s⟩) :
    PgDecided s.trail rootPkg rootVersion := by
  refine ⟨1, holds.seeded.subset ?_⟩
  simp [pgSeed]

/-- With no candidate left, every package with a requirement is decided. -/
theorem PgSearch.decided (holds : PgSearch P first rootPkg rootVersion roots ⟨.decide, s⟩)
    (all : ∀ pkg < s.pkgStateCapacity, PgSkipped s pkg) {pkg : PgPackageId}
    {a : PgAssignment} (on : PgPositiveOn s.trail pkg a) : ∃ v, PgDecided s.trail pkg v := by
  have same : a.pkg = pkg := on.2.1
  have room : pkg < s.pkgStateCapacity := by
    rw [← same]
    exact holds.states.inside a on.1
  rcases all pkg room with root | unused | decided | unconstrained
  · have same : s.rootPkg = rootPkg := holds.root.1
    rw [root, same]
    exact ⟨_, holds.rootDecided⟩
  · rw [holds.states.states pkg, ← same, pgPkgStateOf_used on.1] at unused
    cases unused
  · rw [holds.states.states pkg] at decided
    obtain ⟨b, member, here, flag⟩ := pgPkgStateOf_hasDecision decided
    have entry := (holds.well.entries b member).decided member flag
    rw [here] at entry
    exact entry
  · exact absurd on (pgSolverComputePositiveRange_none unconstrained a)

/-- A requirement that admits whatever the trail still allows is met. -/
theorem PgSearch.meets (holds : PgSearch P first rootPkg rootVersion roots ⟨.decide, s⟩)
    (all : ∀ pkg < s.pkgStateCapacity, PgSkipped s pkg) {dep : PgDependency}
    (on : ∃ a, PgPositiveOn s.trail dep.1 a)
    (admits : ∀ w, (∀ a, PgPositiveOn s.trail dep.1 a → pgRangeContains a.range w = true) →
      pgRangeContains dep.2 w = true) :
    PgMeets (pgSolverGetSelectedVersion s) dep := by
  obtain ⟨a, positive⟩ := on
  obtain ⟨v, decided⟩ := holds.decided all positive
  exact ⟨v, holds.pinned.selected decided, admits v (holds.pinned dep.1 v decided)⟩

theorem PgSearch.consistent (holds : PgSearch P first rootPkg rootVersion roots ⟨.decide, s⟩)
    (all : ∀ pkg < s.pkgStateCapacity, PgSkipped s pkg) :
    PgConsistent P first s.providerCtx rootPkg rootVersion roots
      (pgSolverGetSelectedVersion s) := by
  have live : PgConfig.Live (⟨.decide, s⟩ : PgConfig γ) := by intro status same; cases same
  have chosen : ∀ pkg v, pgSolverGetSelectedVersion s pkg = some v → PgDecided s.trail pkg v := by
    intro pkg v selected
    obtain ⟨a, on⟩ := pgSelected_positive selected
    obtain ⟨w, decided⟩ := holds.decided all on
    rw [holds.pinned.selected decided] at selected
    cases selected
    exact decided
  refine ⟨holds.pinned.selected holds.rootDecided, ?_, ?_⟩
  · intro dep member
    have positive : PgPositiveOn s.trail dep.1 (pgRootAssignment dep) := by
      refine ⟨holds.seeded.subset ?_, rfl, rfl⟩
      exact List.mem_append_left _ (List.mem_map.mpr ⟨dep, member, rfl⟩)
    exact holds.meets all ⟨_, positive⟩ fun w allowed => allowed _ positive
  · intro pkg v selected
    have decided := chosen pkg v selected
    obtain ⟨deps, depends, registered⟩ := holds.recorded.decisions live pkg v decided
    rw [show s.rootPkg = rootPkg from holds.root.1] at depends
    refine ⟨deps, depends, fun dep member => ?_⟩
    obtain ⟨id, attached, terms⟩ := registered dep member
    have touched : PgTouched s.trail (s.terms id) := by
      obtain ⟨l, on⟩ := decided
      rw [terms]
      exact ⟨_, List.mem_cons_self, _, on, rfl⟩
    have settled : PgSettled s.trail (s.terms id) := by
      rcases holds.propagates.covered rfl id attached touched with settled | pending | waiting
      · exact settled
      · obtain ⟨t, _, on⟩ := pending
        rw [holds.propagates.drained rfl] at on
        cases on
      · cases waiting
    rw [terms] at settled
    obtain ⟨on, admits⟩ := pgSettled_dependency decided settled
    exact holds.meets all on admits

end Finished

/-! ## Runs -/

section Runs

variable {first : γ} {rootPkg : PgPackageId} {rootVersion : PgVersion}
  {roots : List PgDependency}

theorem PgSearch.pinned_step {c : PgConfig γ}
    (holds : PgSearch P first rootPkg rootVersion roots c) :
    PgPinned (pgStep P c).solver.trail := by
  have change := (pgStep_transition P c).trail
  generalize (pgStep P c).solver.trail = trail at change
  cases change with
  | same => exact holds.pinned
  | derived unit =>
    obtain ⟨pre, post, -, open_, -⟩ := unit
    exact holds.pinned.derived open_ _ _
  | @decided s cv pkg version choice =>
    obtain ⟨required, candidate, available⟩ := choice.candidate
    apply holds.pinned.decided
    · intro v decided
      obtain ⟨l, member⟩ := decided
      have taken := candidate.undecided
      rw [holds.states.states pkg, pgPkgStateOf_decision member] at taken
      cases taken
    · intro a on
      have inside : pgRangeContains required version = true := by
        unfold pgVersionAvailable at available
        rw [Bool.and_eq_true, Bool.and_eq_true] at available
        exact available.1.1
      exact ((pgSolverComputePositiveRange_some candidate.range).2 version).mp inside a on
  | cut => exact holds.pinned.cut _

theorem PgSearch.seeded_step {c : PgConfig γ}
    (holds : PgSearch P first rootPkg rootVersion roots c) :
    pgSeed rootPkg rootVersion roots <+: (pgStep P c).solver.trail := by
  have change := (pgStep_transition P c).trail
  generalize (pgStep P c).solver.trail = trail at change
  cases change with
  | same => exact holds.seeded
  | derived => exact List.IsPrefix.trans holds.seeded (List.prefix_append _ _)
  | decided => exact List.IsPrefix.trans holds.seeded (List.prefix_append _ _)
  | cut _ started => exact pgSeed_cut started holds.seeded

theorem PgSearch.step {c : PgConfig γ}
    (holds : PgSearch P first rootPkg rootVersion roots c) :
    PgSearch P first rootPkg rootVersion roots (pgStep P c) where
  well := holds.well.step
  root := by
    have root := (pgStep_transition P c).root
    exact ⟨root.1.trans holds.root.1, root.2.trans holds.root.2⟩
  states := (pgStep_transition P c).pkgStates holds.states
  propagates := (pgStep_transition P c).propagates holds.well.watches holds.propagates
  recorded := holds.recorded.step holds.well
  seeded := holds.seeded_step
  pinned := holds.pinned_step
  outcome := by
    have step := pgStep_transition P c
    generalize pgStep P c = c' at step
    intro phase
    cases step with
    | finished outcome =>
      cases outcome with
      | nothing cv filled all => exact holds.consistent all
    | halted => exact holds.outcome phase
    | _ => cases phase

theorem PgSearch.start {c : PgConfig γ}
    (started : PgStarted P first rootPkg rootVersion roots c)
    (self : ∀ dep ∈ roots, dep.1 = rootPkg → pgRangeContains dep.2 rootVersion = true) :
    PgSearch P first rootPkg rootVersion roots c := by
  have root := pgRootDecided_root first rootPkg rootVersion roots
  have trail : c.solver.trail = pgSeed rootPkg rootVersion roots := by
    have seed := pgRootDecided_trail first rootPkg rootVersion roots
    cases started with
    | failed => exact seed
    | registered => simpa [pgSeed] using seed
  have decisions : ∀ pkg v, PgDecided (pgSeed rootPkg rootVersion roots) pkg v →
      pkg = rootPkg ∧ v = rootVersion := by
    intro pkg v decided
    obtain ⟨l, member⟩ := decided
    rcases List.mem_append.mp member with required | decision
    · obtain ⟨dep, -, same⟩ := List.mem_map.mp required
      cases congrArg PgAssignment.decided same
    · have same := List.mem_singleton.mp decision
      have ranges : pgRangeExact v = pgRangeExact rootVersion := congrArg PgAssignment.range same
      exact ⟨congrArg PgAssignment.pkg same, congrArg (fun r => r.lower.v) ranges⟩
  refine {
    well := PgWellFormed.start started
    root := ?_
    states := PgPkgStates.start started
    propagates := PgPropagates.start started
    recorded := ?_
    seeded := ⟨[], by rw [List.append_nil, trail]⟩
    pinned := ?_
    outcome := ?_ }
  · cases started with
    | failed => exact root
    | registered => simpa using root
  · have empty : ∀ pkg vs, c.solver.cached pkg = some vs →
        PgListed P first c.solver.providerCtx pkg vs := by
      intro pkg vs cell
      have cached := pgRootDecided_cached first rootPkg rootVersion roots pkg
      have none_ : c.solver.cached pkg = none := by
        cases started with
        | failed => exact cached
        | registered => simpa [PgSolver.cached] using cached
      rw [none_] at cell
      cases cell
    cases started with
    | failed context =>
      refine ⟨?_, empty, fun live => absurd rfl (live _)⟩
      rw [← context]
      exact pgCtxReach_step _ _ _
    | @registered ctx' deps answer =>
      have reach : PgCtxReach P first ctx' := by
        have step := pgCtxReach_step (P := P) first rootPkg rootVersion
        rw [answer] at step
        exact step
      refine ⟨by simpa using reach, empty, fun _ pkg v decided => ?_⟩
      rw [trail] at decided
      obtain ⟨rfl, rfl⟩ := decisions pkg v decided
      refine ⟨deps, ⟨first, ctx', Relation.ReflTransGen.refl, ?_, answer, fun other => ?_⟩, ?_⟩
      · simp only [pgAddDependencies_providerCtx]
        exact Relation.ReflTransGen.refl
      · exact absurd (by simpa using root.1.symm) other
      · intro dep member
        exact pgAddDependencies_registered _ _ _ member
  · rw [trail]
    intro pkg v decided a on
    obtain ⟨rfl, rfl⟩ := decisions pkg v decided
    rcases List.mem_append.mp on.1 with required | decision
    · obtain ⟨dep, member, rfl⟩ := List.mem_map.mp required
      exact self dep member on.2.1
    · rw [List.mem_singleton.mp decision]
      exact pgRangeContains_exact.mpr rfl
  · cases started with
    | failed => intro phase; cases phase
    | registered => intro phase; cases phase

/-- The selection of a run that returns `PG_SOLVER_OK` is consistent with what
the provider said, if no root requirement on the root package excludes the root
version. -/
theorem pgSolverSolve_ok_consistent {s s' : PgSolver γ} {fuel : Nat}
    (prepared : pgSolverAddRootDependencies (pgSolverNew first rootPkg rootVersion) roots = some s)
    (self : ∀ dep ∈ roots, dep.1 = rootPkg → pgRangeContains dep.2 rootVersion = true)
    (returned : pgSolverSolve P fuel s = some (.ok, s')) :
    PgConsistent P first s'.providerCtx rootPkg rootVersion roots
      (pgSolverGetSelectedVersion s') := by
  have started : PgStart P first rootPkg rootVersion roots (pgSolverStart P s) :=
    ⟨s, prepared, rfl⟩
  have search : PgSearch P first rootPkg rootVersion roots (pgRun P fuel (pgSolverStart P s)) :=
    Reaches.invariant (reaches_iterate fuel (pgSolverStart P s))
      (PgSearch.start started.started self) fun _ holds => holds.step
  unfold pgSolverSolve at returned
  split at returned
  · rename_i status s₁ here
    cases returned
    rw [here] at search
    exact search.outcome rfl
  · cases returned

end Runs

/-- If `pg_solver_solve` succeeds, the versions read back are a solution exactly
when every root requirement on the root package admits the root version. -/
theorem pgSolverSolve_ok {Q : PgProblem} {ctx : γ} {s s' : PgSolver γ} {fuel : Nat}
    (answers : Q.listing.Answers P)
    (prepared : pgSolverAddRootDependencies (pgSolverNew ctx Q.rootPkg Q.rootVersion) Q.roots =
      some s)
    (returned : pgSolverSolve P fuel s = some (.ok, s')) :
    Q.Solution (pgSolverGetSelectedVersion s') ↔
      ∀ dep ∈ Q.roots, dep.1 = Q.rootPkg → pgRangeContains dep.2 Q.rootVersion = true := by
  constructor
  · intro solution dep member self
    obtain ⟨v, chosen, inside⟩ := solution.required dep member
    rw [self, solution.root] at chosen
    cases chosen
    exact inside
  · intro self
    exact (pgSolverSolve_ok_consistent prepared self returned).solution answers

/-- A package with one version, which needs another one. -/
def pgChain : PgProblem where
  listing := .ofTables [(1, [⟨1, 0, 0⟩]), (2, [⟨1, 0, 0⟩])]
    [((1, ⟨1, 0, 0⟩), [(2, pgRangeAny)])]
  rootPkg := 0
  rootVersion := ⟨1, 0, 0⟩
  roots := [(1, pgRangeAny)]

theorem pgSolverSolve_ok_chain : ∃ s' : PgSolver Unit, pgChain.Solution
    (pgSolverGetSelectedVersion s') := by
  have answers : pgChain.listing.Answers pgChain.listing.provider :=
    PgListing.answers_provider (PgListing.fits_ofTables (by decide) (by decide))
  have status : (pgSolverSolve pgChain.listing.provider 60
      (pgRootsPushed (pgSolverNew () pgChain.rootPkg pgChain.rootVersion)
        pgChain.roots)).map Prod.fst = some .ok := by decide
  obtain ⟨⟨st, s'⟩, returned, rfl⟩ := Option.map_eq_some_iff.mp status
  exact ⟨s', (pgSolverSolve_ok answers rfl returned).mpr (by decide)⟩

/-! ## A requirement on the root itself -/

/-- The root package is required in a range its version is not in. -/
def pgSelfRequired : PgProblem where
  listing := .ofTables [] []
  rootPkg := 0
  rootVersion := ⟨1, 0, 0⟩
  roots := [(0, pgRangeUntilNextMajor ⟨2, 0, 0⟩)]

/-- The root decision is pushed without a look at the requirements. -/
theorem pgSolverSolve_ok_self_required :
    ¬ ∀ (Q : PgProblem) (P : PgDependencyProvider Unit), Q.listing.Answers P →
      ∀ (s s' : PgSolver Unit) (fuel : Nat),
        pgSolverAddRootDependencies (pgSolverNew () Q.rootPkg Q.rootVersion) Q.roots = some s →
        pgSolverSolve P fuel s = some (.ok, s') →
        ∀ dep ∈ Q.roots, PgMeets (pgSolverGetSelectedVersion s') dep := by
  intro claim
  have answers : pgSelfRequired.listing.Answers pgSelfRequired.listing.provider :=
    PgListing.answers_provider (PgListing.fits_ofTables (by decide) (by decide))
  have facts : (pgSolverSolve pgSelfRequired.listing.provider 20
      (pgRootsPushed (pgSolverNew () pgSelfRequired.rootPkg pgSelfRequired.rootVersion)
        pgSelfRequired.roots)).map (fun r => (r.1, pgSolverGetSelectedVersion r.2 0)) =
          some (.ok, some ⟨1, 0, 0⟩) := by decide
  obtain ⟨⟨st, s'⟩, returned, same⟩ := Option.map_eq_some_iff.mp facts
  cases congrArg Prod.fst same
  obtain ⟨v, chosen, inside⟩ := claim pgSelfRequired _ answers _ s' 20 rfl returned _
    List.mem_cons_self
  have selected : pgSolverGetSelectedVersion s' 0 = some ⟨1, 0, 0⟩ := congrArg Prod.snd same
  rw [show (0, pgRangeUntilNextMajor ⟨2, 0, 0⟩).1 = 0 from rfl, selected] at chosen
  cases chosen
  exact absurd inside (by decide)

end ElmWrap
