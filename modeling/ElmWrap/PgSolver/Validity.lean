import ElmWrap.PgSolver.Invariants
import ElmWrap.PgSolver.Solution

/-!
# Validity of the incompatibilities

Every incompatibility in the store is a nogood of the solutions, as long as the
two steps that can break this go right. A `NO_VERSIONS` incompatibility has to
rest on what holds at decision levels 0 and 1, and a resolution has to be on a
package whose every choice satisfies what one of the two sides says about it.
The invariant that carries the proof also says that assignments at these two
levels hold in every solution.
-/

namespace ElmWrap

open Lib

variable {γ : Type} {P : PgDependencyProvider γ} {Q : PgProblem}

/-! ## When a step is sound -/

/-- The part of the trail that was there before any decision of the search. -/
def PgSolver.groundTrail (s : PgSolver γ) : List PgAssignment := pgTrailCut 1 s.trail

/-- The version is forbidden, or would complete an incompatibility, on the ground
trail already. -/
def pgVersionGrounded (s : PgSolver γ) (pkg : PgPackageId) (version : PgVersion) : Bool :=
  pgSolverVersionIsForbidden s.groundTrail pkg version ||
    pgSolverVersionWouldConflict { s with trail := s.groundTrail } pkg version

/-- The candidate has no available version. -/
def PgExhausted (L : PgListing) (s : PgSolver γ) (pkg : PgPackageId)
    (required : PgVersionRange) : Prop :=
  PgCandidateFor s pkg required ∧ ∃ vs, L.versions pkg = some vs ∧
    ∀ v ∈ vs, pgVersionAvailable s pkg required v = false

/-- If `pg_make_decision` runs out of versions for a package, those in the range
required of it are out for reasons that do not depend on a decision, and the
range is not flagged as empty. -/
def PgNoVersionsGrounded (L : PgListing) (s : PgSolver γ) : Prop :=
  ∀ pkg required, PgExhausted L s pkg required →
    (∀ p < pkg, ∀ r, ¬ PgExhausted L s p r) →
    required.isEmpty = false ∧ ∀ vs, L.versions pkg = some vs →
      ∀ v ∈ vs, pgRangeContains required v = true → pgVersionGrounded s pkg v = true

/-- If `pg_resolve_conflict` resolves the incompatibility, every choice for the
package it eliminates satisfies all the terms on it of the one side or of the
other. -/
def PgResolutionCovers (s : PgSolver γ) (current : PgIncompatId) : Prop :=
  ∀ index termIndex satisfier term cause, PgSatisfierAt s current index termIndex satisfier term →
    satisfier.decided = false → pgPreviousLevelAt s current satisfier ≠ satisfier.decisionLevel →
    satisfier.cause = some cause →
    ∀ x : Option PgVersion,
      (∀ t ∈ s.terms current, t.pkg = term.pkg → t.Admits x) ∨
        (∀ t ∈ s.terms cause, t.pkg = term.pkg → t.Admits x)

/-- The next step adds no incompatibility for a reason that is not sound. -/
def PgSoundStep (L : PgListing) (c : PgConfig γ) : Prop :=
  match c.phase with
  | .decide => PgNoVersionsGrounded L c.solver
  | .resolve current => PgResolutionCovers c.solver current
  | _ => True

/-! ## The invariant -/

/-- Assignments at levels 0 and 1 hold in every solution. -/
def PgGrounded (Q : PgProblem) (trail : List PgAssignment) : Prop :=
  ∀ a ∈ trail, a.decisionLevel ≤ 1 → ∀ σ, Q.Solution σ → a.Admits (σ a.pkg)

structure PgValidState (Q : PgProblem) (s : PgSolver γ) : Prop where
  rootPkg : s.rootPkg = Q.rootPkg
  rootVersion : s.rootVersion = Q.rootVersion
  store : ∀ id, s.Tracked id → Q.Valid (s.terms id)
  unflagged : ∀ id, s.Tracked id → ∀ t ∈ s.terms id, t.positive = true → t.range.isEmpty = false
  rootTerms : ∀ id, s.Tracked id → ∀ t ∈ s.terms id, t.positive = true → t.pkg = Q.rootPkg →
    pgRangeContains t.range Q.rootVersion = true
  grounded : PgGrounded Q s.trail
  cache : ∀ pkg vs, s.cached pkg = some vs → Q.listing.versions pkg = some vs

/-- A term that is satisfied by grounded assignments holds in every solution. -/
theorem PgGrounded.admits {trail : List PgAssignment} (grounded : PgGrounded Q trail)
    (low : ∀ a ∈ trail, a.decisionLevel ≤ 1) {term : PgTerm}
    (satisfied : pgTermState trail term = .satisfied)
    (unflagged : term.positive = true → term.range.isEmpty = false)
    {σ : PgPackageId → Option PgVersion} (solution : Q.Solution σ) :
    term.Admits (σ term.pkg) :=
  pgTermState_sound satisfied unflagged fun a member same => by
    rw [← same]
    exact grounded a member (low a member) σ solution

theorem pgTermsWouldSatisfy_spec {trail : List PgAssignment} {pkg : PgPackageId}
    {version : PgVersion} {found : Bool} {terms : List PgTerm}
    (run : pgTermsWouldSatisfy trail pkg version found terms = true) :
    ∀ t ∈ terms, (t.pkg = pkg ∧ t.Admits (some version)) ∨
      (t.pkg ≠ pkg ∧ pgTermState trail t = .satisfied) := by
  induction terms generalizing found with
  | nil => simp
  | cons term rest ih =>
    rw [pgTermsWouldSatisfy] at run
    split at run
    · rename_i same
      split at run
      · rename_i positive
        split at run
        · cases run
        · rename_i inside
          refine List.forall_mem_cons.mpr ⟨Or.inl ⟨same, ?_⟩, ih run⟩
          rw [PgTerm.Admits, positive]
          exact pgAdmits_positive.mpr ⟨version, rfl, by simpa using inside⟩
      · rename_i negative
        split at run
        · cases run
        · rename_i outside
          refine List.forall_mem_cons.mpr ⟨Or.inl ⟨same, ?_⟩, ih run⟩
          rw [PgTerm.Admits, Bool.eq_false_iff.mpr negative]
          refine pgAdmits_negative.mpr fun v v_eq => ?_
          cases v_eq
          exact Bool.eq_false_iff.mpr outside
    · rename_i other
      split at run
      · cases run
      · rename_i satisfied
        exact List.forall_mem_cons.mpr ⟨Or.inr ⟨other, not_not.mp satisfied⟩, ih run⟩

/-- A version that is out on the ground trail is out in every solution. -/
theorem PgValidState.grounded_out {s : PgSolver γ} (valid : PgValidState Q s)
    (watches : PgWatches s) (levels : PgLevels s) {pkg : PgPackageId} {version : PgVersion}
    (out : pgVersionGrounded s pkg version = true) {σ : PgPackageId → Option PgVersion}
    (solution : Q.Solution σ) : σ pkg ≠ some version := by
  intro chosen
  have low : ∀ a ∈ s.groundTrail, a.decisionLevel ≤ 1 := fun a =>
    level_le_of_mem_pgTrailCut levels.sorted
  have grounded : PgGrounded Q s.groundTrail := fun a member =>
    valid.grounded a (mem_of_mem_pgTrailCut member)
  rcases (Bool.or_eq_true _ _).mp out with forbidden | conflict
  · obtain ⟨a, member, tests⟩ := List.any_eq_true.mp forbidden
    obtain ⟨⟨same, negative⟩, inside⟩ : (a.pkg = pkg ∧ a.positive = false) ∧
        pgRangeContains a.range version = true := by simpa using tests
    have holds := grounded a member (low a member) σ solution
    rw [PgAssignment.Admits, negative, same] at holds
    rw [pgAdmits_negative.mp holds version chosen] at inside
    cases inside
  · obtain ⟨id, listed, satisfied⟩ := List.any_eq_true.mp conflict
    obtain ⟨⟨tracked, -⟩, -⟩ := (watches pkg id).mp listed
    refine PgProblem.valid_iff.mp (valid.store id tracked) σ solution fun t member => ?_
    rcases pgTermsWouldSatisfy_spec satisfied t member with ⟨same, admits⟩ | ⟨-, on⟩
    · rw [same, chosen]; exact admits
    · exact grounded.admits low on (valid.unflagged id tracked t member) solution

/-! ## What a step adds is valid -/

theorem PgValidState.filled {s : PgSolver γ} (valid : PgValidState Q s)
    (answers : Q.listing.Answers P) {cv : List (Option (List PgVersion))}
    (filled : PgCacheFilled P s cv) {pkg : PgPackageId} {vs : List PgVersion}
    (cell : cv.getD pkg none = some vs) : Q.listing.versions pkg = some vs := by
  rcases filled pkg with same | ⟨-, asked⟩
  · exact valid.cache pkg vs (same ▸ cell)
  · rw [← answers.versions s.providerCtx pkg, ← asked]
    exact cell

/-- A supplied package is not exhausted. -/
theorem PgValidState.supplied {s : PgSolver γ} (valid : PgValidState Q s)
    (answers : Q.listing.Answers P) {pkg : PgPackageId} (supplied : PgSupplied P s pkg)
    (required : PgVersionRange) : ¬ PgExhausted Q.listing s pkg required := by
  rintro ⟨candidate, vs, answer, none⟩
  obtain ⟨cv, vs', filled, cell, v, listed, available⟩ := supplied required candidate
  rw [valid.filled answers filled cell] at answer
  cases answer
  rw [none v listed] at available
  cases available

/-- The terms of a new incompatibility, as an entry of the store. -/
structure PgValidTerms (Q : PgProblem) (terms : List PgTerm) : Prop where
  valid : Q.Valid terms
  unflagged : ∀ t ∈ terms, t.positive = true → t.range.isEmpty = false
  rootTerms : ∀ t ∈ terms, t.positive = true → t.pkg = Q.rootPkg →
    pgRangeContains t.range Q.rootVersion = true

theorem PgValidTerms.dependency {pkg : PgPackageId} {v : PgVersion} {deps : List PgDependency}
    {dep : PgDependency} (answer : Q.listing.dependencies pkg v = some deps)
    (member : dep ∈ deps) (root : pkg = Q.rootPkg → v = Q.rootVersion) :
    PgValidTerms Q (pgDependencyTerms pkg (pgRangeExact v) dep) where
  valid := PgProblem.valid_dependency answer member
  unflagged t term positive := by
    rcases List.mem_cons.mp term with rfl | other
    · rfl
    · rw [List.mem_singleton.mp other] at positive
      cases positive
  rootTerms t term positive same := by
    rcases List.mem_cons.mp term with rfl | other
    · rw [← root same]
      exact pgRangeContains_exact.mpr rfl
    · rw [List.mem_singleton.mp other] at positive
      cases positive

theorem PgValidState.terms {s : PgSolver γ} (valid : PgValidState Q s) {id : PgIncompatId}
    (tracked : s.Tracked id) : PgValidTerms Q (s.terms id) :=
  ⟨valid.store id tracked, valid.unflagged id tracked, valid.rootTerms id tracked⟩

theorem PgValidTerms.resolve {left right : List PgTerm} {pkg : PgPackageId}
    (validLeft : PgValidTerms Q left) (validRight : PgValidTerms Q right)
    (cover : ∀ x : Option PgVersion, (∀ t ∈ left, t.pkg = pkg → t.Admits x) ∨
      (∀ t ∈ right, t.pkg = pkg → t.Admits x)) :
    PgValidTerms Q (pgResolveTerms left right pkg) := by
  have origin : ∀ t ∈ pgResolveTerms left right pkg, t ∈ left ∨ t ∈ right := by
    intro t member
    rcases List.mem_append.mp member with h | h
    · exact Or.inl (List.mem_filter.mp h).1
    · exact Or.inr (List.mem_filter.mp h).1
  refine ⟨PgProblem.valid_resolve validLeft.valid validRight.valid cover, fun t member => ?_,
    fun t member => ?_⟩
  · rcases origin t member with h | h
    · exact validLeft.unflagged t h
    · exact validRight.unflagged t h
  · rcases origin t member with h | h
    · exact validLeft.rootTerms t h
    · exact validRight.rootTerms t h

/-- What a sound step adds to the store is valid. -/
theorem PgNewClause.valid {c : PgConfig γ} {terms : List PgTerm}
    (clause : PgNewClause P c terms) (answers : Q.listing.Answers P)
    (well : PgWellFormed Q.roots c) (valid : PgValidState Q c.solver)
    (sound : PgSoundStep Q.listing c) : PgValidTerms Q terms := by
  cases clause with
  | @dependency s cv pkg version ctx deps dep choice answer member =>
    obtain ⟨required, candidate, -⟩ := choice.candidate
    have listed : Q.listing.dependencies pkg version = some deps := by
      rw [← answers.dependencies s.providerCtx pkg version, answer]
    refine PgValidTerms.dependency listed member fun same => ?_
    exact absurd (same.trans valid.rootPkg.symm) candidate.notRoot
  | @noVersions s cv pkg required vs filled cell candidate none earlier =>
    have answer := valid.filled answers filled cell
    have other : pkg ≠ Q.rootPkg := by rw [← valid.rootPkg]; exact candidate.notRoot
    obtain ⟨unflagged, out⟩ := sound pkg required ⟨candidate, vs, answer, none⟩
      fun p lt r => valid.supplied answers (earlier p lt) r
    refine ⟨PgProblem.valid_noVersions other answer fun v listed inside σ solution => ?_, ?_, ?_⟩
    · exact valid.grounded_out well.watches (well.levels (by intro status same; cases same))
        (out vs answer v listed inside) solution
    · intro t member _
      rw [List.mem_singleton.mp member]
      exact unflagged
    · intro t member _ same
      rw [List.mem_singleton.mp member] at same
      exact absurd same other
  | @resolvent s current cause index termIndex satisfier term at_ undecided differs hasCause =>
    have current_tracked : s.Tracked current := well.refers
    have cause_tracked : s.Tracked cause := by
      have entry : PgEntry Q.roots s satisfier := by
        rw [at_.satisfier_eq, List.getD_eq_getElem?_getD]
        cases found : s.trail[index]? with
        | none =>
          have default_cause := hasCause
          rw [at_.satisfier_eq, List.getD_eq_getElem?_getD, found] at default_cause
          cases default_cause
        | some a => exact well.entries a (List.mem_of_getElem? found)
      cases entry with
      | required => cases hasCause
      | root => cases hasCause
      | decision => cases hasCause
      | derived attached => cases hasCause; exact attached.1
    exact PgValidTerms.resolve (valid.terms current_tracked) (valid.terms cause_tracked)
      (sound index termIndex satisfier term cause at_ undecided differs hasCause)

/-! ## Preservation -/

/-- A derivation at a ground level holds in every solution. -/
theorem PgValidState.derived {s : PgSolver γ} (valid : PgValidState Q s) (levels : PgLevels s)
    {id : PgIncompatId} (tracked : s.Tracked id) {term : PgTerm}
    (unit : PgUnit s.trail (s.terms id) term) (low : s.currentDecisionLevel ≤ 1)
    {σ : PgPackageId → Option PgVersion} (solution : Q.Solution σ) :
    ¬ term.Admits (σ term.pkg) := by
  refine (valid.store id tracked).unit solution fun t member => ?_
  rcases unit.others t member with same | satisfied
  · exact Or.inl same
  · exact Or.inr (valid.grounded.admits (fun a on => Nat.le_trans (levels.bounded a on) low)
      satisfied (valid.unflagged id tracked t member) solution)

theorem PgTransition.grounded {c c' : PgConfig γ} (step : PgTransition P c c')
    (well : PgWellFormed Q.roots c) (valid : PgValidState Q c.solver) :
    PgGrounded Q c'.solver.trail := by
  have change := step.trail
  generalize c'.solver.trail = trail at change
  cases change with
  | same => exact valid.grounded
  | @derived s id rest term unit =>
    intro a member low σ solution
    rcases List.mem_append.mp member with old | new
    · exact valid.grounded a old low σ solution
    · rw [List.mem_singleton.mp new] at low ⊢
      exact pgAdmits_not.mpr (valid.derived (well.levels (by intro status same; cases same))
        (well.refers id List.mem_cons_self).1 unit low solution)
  | @decided s cv pkg version choice =>
    intro a member low σ solution
    rcases List.mem_append.mp member with old | new
    · exact valid.grounded a old low σ solution
    · rw [List.mem_singleton.mp new] at low
      have started := (well.levels (by intro status same; cases same)).started
      exact absurd (Nat.le_of_succ_le_succ low) (Nat.not_le_of_lt started)
  | cut => exact fun a member => valid.grounded a (mem_of_mem_pgTrailCut member)

theorem PgValidState.step {c : PgConfig γ} (answers : Q.listing.Answers P)
    (well : PgWellFormed Q.roots c) (valid : PgValidState Q c.solver)
    (sound : PgSoundStep Q.listing c) : PgValidState Q (pgStep P c).solver := by
  have step := pgStep_transition P c
  have extends_ : PgExtends c.solver (pgStep P c).solver :=
    step.extends fun current phase => by have h := well.refers; rw [phase] at h; exact h
  have entry : ∀ id, (pgStep P c).solver.Tracked id →
      PgValidTerms Q ((pgStep P c).solver.terms id) := by
    intro id tracked
    rcases step.clause tracked with old | new
    · rw [extends_.terms old]
      exact valid.terms old
    · exact new.valid answers well valid sound
  exact {
    rootPkg := step.root.1.trans valid.rootPkg
    rootVersion := step.root.2.trans valid.rootVersion
    store := fun id tracked => (entry id tracked).valid
    unflagged := fun id tracked => (entry id tracked).unflagged
    rootTerms := fun id tracked => (entry id tracked).rootTerms
    grounded := step.grounded well valid
    cache := fun pkg vs cell => valid.filled answers step.filled cell }

theorem PgValidState.start {ctx : γ} {c : PgConfig γ} (answers : Q.listing.Answers P)
    (started : PgStarted P ctx Q.rootPkg Q.rootVersion Q.roots c) : PgValidState Q c.solver := by
  have root := pgRootDecided_root ctx Q.rootPkg Q.rootVersion Q.roots
  have untracked := pgRootDecided_untracked ctx Q.rootPkg Q.rootVersion Q.roots
  have trail := pgRootDecided_trail ctx Q.rootPkg Q.rootVersion Q.roots
  have cached := pgRootDecided_cached ctx Q.rootPkg Q.rootVersion Q.roots
  have grounded : PgGrounded Q (pgRootDecided ctx Q.rootPkg Q.rootVersion Q.roots).trail := by
    intro a member _ σ solution
    rw [trail] at member
    rcases List.mem_append.mp member with required | decided
    · obtain ⟨dep, listed, rfl⟩ := List.mem_map.mp required
      exact pgAdmits_positive.mpr (solution.required dep listed)
    · rw [List.mem_singleton.mp decided]
      exact pgAdmits_positive.mpr
        ⟨Q.rootVersion, solution.root, pgRangeContains_exact.mpr rfl⟩
  cases started with
  | failed =>
    refine ⟨root.1, root.2, fun id tracked => absurd tracked (untracked id),
      fun id tracked => absurd tracked (untracked id),
      fun id tracked => absurd tracked (untracked id), grounded, fun pkg vs cell => ?_⟩
    have empty : none = some vs := (cached pkg).symm.trans cell
    cases empty
  | @registered ctx' deps answer =>
    have listed : Q.listing.dependencies Q.rootPkg Q.rootVersion = some deps := by
      rw [← answers.dependencies ctx, answer]
    have entry : ∀ id, (pgAddDependencies
        { pgRootDecided ctx Q.rootPkg Q.rootVersion Q.roots with providerCtx := ctx' }
        Q.rootPkg (pgRangeExact Q.rootVersion) deps).Tracked id →
        PgValidTerms Q ((pgAddDependencies
          { pgRootDecided ctx Q.rootPkg Q.rootVersion Q.roots with providerCtx := ctx' }
          Q.rootPkg (pgRangeExact Q.rootVersion) deps).terms id) := by
      intro id tracked
      rcases pgAddDependencies_tracked _ _ _ tracked with old | ⟨dep, member, terms⟩
      · exact absurd old (untracked id)
      · rw [terms]
        exact PgValidTerms.dependency listed member fun _ => rfl
    refine ⟨by simpa using root.1, by simpa using root.2,
      fun id tracked => (entry id tracked).valid, fun id tracked => (entry id tracked).unflagged,
      fun id tracked => (entry id tracked).rootTerms, ?_, fun pkg vs cell => ?_⟩
    · simpa using grounded
    · have empty : none = some vs := by
        rw [← cached pkg, ← cell]
        simp [PgSolver.cached]
      cases empty

/-- Along a run whose steps are sound the state stays well formed and valid. -/
theorem PgValidState.run {ctx : γ} {start c : PgConfig γ} (answers : Q.listing.Answers P)
    (started : PgStart P ctx Q.rootPkg Q.rootVersion Q.roots start)
    (run : Guarded (pgStep P) (PgSoundStep Q.listing) start c) :
    PgWellFormed Q.roots c ∧ PgValidState Q c.solver := by
  refine Guarded.invariant (I := fun d => PgWellFormed Q.roots d ∧ PgValidState Q d.solver) run
    ⟨PgWellFormed.start started.started, PgValidState.start answers started.started⟩ ?_
  rintro d sound ⟨well, valid⟩
  exact ⟨well.step, valid.step answers well sound⟩

/-- In every run whose steps are sound, every incompatibility of the store is
valid in every state reached. -/
theorem pgSolver_store_valid {ctx : γ} {start c : PgConfig γ} (answers : Q.listing.Answers P)
    (started : PgStart P ctx Q.rootPkg Q.rootVersion Q.roots start)
    (run : Guarded (pgStep P) (PgSoundStep Q.listing) start c) :
    ∀ id, c.solver.Tracked id → Q.Valid (c.solver.terms id) :=
  (PgValidState.run answers started run).2.store

/-! ## An executable test -/

/-- Each package of the trail has an available version, or those in its range are out on the
ground trail already. -/
def pgNoVersionsTest (L : PgListing) (s : PgSolver γ) : Bool :=
  s.trail.all fun a =>
    match pgSolverComputePositiveRange s.trail a.pkg, L.versions a.pkg with
    | some (some required), some vs =>
      vs.any (pgVersionAvailable s a.pkg required) ||
        !required.isEmpty &&
          vs.all fun v => !pgRangeContains required v || pgVersionGrounded s a.pkg v
    | _, _ => true

theorem PgNoVersionsGrounded.of_test {L : PgListing} {s : PgSolver γ}
    (test : pgNoVersionsTest L s = true) : PgNoVersionsGrounded L s := by
  intro pkg required exhausted _
  obtain ⟨candidate, vs, listed, unavailable⟩ := exhausted
  obtain ⟨⟨a, member, same, -⟩, -⟩ := pgSolverComputePositiveRange_some candidate.range
  have here := List.all_eq_true.mp test a member
  rw [same, candidate.range, listed] at here
  have none : vs.any (pgVersionAvailable s pkg required) = false :=
    List.any_eq_false.mpr fun v on => by simp [unavailable v on]
  simp only [none, Bool.false_or, Bool.and_eq_true, Bool.not_eq_true', List.all_eq_true,
    Bool.or_eq_true] at here
  refine ⟨here.1, fun vs' answer v on inside => ?_⟩
  cases listed.symm.trans answer
  exact (here.2 v on).resolve_left (by simp [inside])

/-- If the incompatibility is resolved, then on a term and its negation. -/
def pgResolutionTest (s : PgSolver γ) (current : PgIncompatId) : Bool :=
  match pgIncompatibilityFindSatisfier s.trail (s.incompat current).terms with
  | none => true
  | some (index, termIndex) =>
    match (s.trail.getD index pgNoAssignment).cause with
    | none => true
    | some cause =>
      let term := (s.incompat current).terms.getD termIndex pgNoTerm
      ((s.terms current).all fun t => t.pkg ≠ term.pkg || t = term) &&
        (s.terms cause).all fun t =>
          t.pkg ≠ term.pkg || t = { term with positive := !term.positive }

theorem PgResolutionCovers.of_test {s : PgSolver γ} {current : PgIncompatId}
    (test : pgResolutionTest s current = true) : PgResolutionCovers s current := by
  intro index termIndex satisfier term cause at_ _ _ hasCause x
  unfold pgResolutionTest at test
  rw [at_.found] at test
  dsimp only at test
  rw [← at_.satisfier_eq, ← at_.term_eq, hasCause] at test
  simp only [Bool.and_eq_true, List.all_eq_true, Bool.or_eq_true, decide_eq_true_eq] at test
  obtain ⟨own, other⟩ := test
  by_cases admits : term.Admits x
  · exact .inl fun t on same => (own t on).resolve_left (not_not.mpr same) ▸ admits
  · refine .inr fun t on same => ?_
    rw [(other t on).resolve_left (not_not.mpr same)]
    exact pgAdmits_not.mpr admits

def pgSoundStepTest (L : PgListing) (c : PgConfig γ) : Bool :=
  match c.phase with
  | .decide => pgNoVersionsTest L c.solver
  | .resolve current => pgResolutionTest c.solver current
  | _ => true

theorem PgSoundStep.of_test {L : PgListing} {c : PgConfig γ} (test : pgSoundStepTest L c = true) :
    PgSoundStep L c := by
  unfold pgSoundStepTest at test
  unfold PgSoundStep
  cases phase : c.phase with
  | decide =>
    rw [phase] at test
    exact .of_test test
  | resolve current =>
    rw [phase] at test
    exact .of_test test
  | _ => trivial

/-- The version `major.0.0`. -/
def pgMajor (major : UInt16) : PgVersion := ⟨major, 0, 0⟩

/-- The version of package 1 that is required needs a version of package 2 that is not listed. -/
def pgUnmet : PgProblem where
  listing := .ofTables [(1, [pgMajor 2, pgMajor 1]), (2, [pgMajor 1])]
    [((1, pgMajor 2), [(2, pgRangeExact (pgMajor 2))])]
  rootPkg := 0
  rootVersion := pgMajor 1
  roots := [(1, pgRangeExact (pgMajor 2))]

/-- The first configuration of its run. -/
def pgUnmetStart : PgConfig Unit :=
  pgSolverStart pgUnmet.listing.provider
    (pgRootsPushed (pgSolverNew () pgUnmet.rootPkg pgUnmet.rootVersion) pgUnmet.roots)

theorem pgUnmet_sound : ∀ n < 24, PgSoundStep pgUnmet.listing
    (pgRun pgUnmet.listing.provider n pgUnmetStart) := by
  have tests : ∀ n < 24, pgSoundStepTest pgUnmet.listing
      (pgRun pgUnmet.listing.provider n pgUnmetStart) = true := by decide
  exact fun n lt => .of_test (tests n lt)

theorem pgUnmet_answers : pgUnmet.listing.Answers pgUnmet.listing.provider :=
  PgListing.answers_provider (PgListing.fits_ofTables (by decide) (by decide))

theorem pgUnmet_started : PgStart pgUnmet.listing.provider () pgUnmet.rootPkg
    pgUnmet.rootVersion pgUnmet.roots pgUnmetStart := ⟨_, rfl, rfl⟩

/-- Package 1 is decided on, package 2 has no version, and a resolution gives the
incompatibility 2, on package 1 alone. -/
theorem pgSolver_store_valid_unmet :
    pgUnmet.Valid ((pgRun pgUnmet.listing.provider 24 pgUnmetStart).solver.terms 2) := by
  have stored : (2 : Nat) <
      (pgRun pgUnmet.listing.provider 24 pgUnmetStart).solver.incompatibilities.length := by
    decide
  exact pgSolver_store_valid pgUnmet_answers pgUnmet_started (guarded_iterate pgUnmet_sound) 2
    stored

/-! ## Where a step is not sound -/

/-- Package 1 needs package 2 in its newer version only; package 2 goes with the
older one only. -/
def pgCircular : PgProblem where
  listing := .ofTables
    [(1, [pgMajor 2, pgMajor 1]), (2, [pgMajor 1])]
    [((1, pgMajor 2), [(2, pgRangeAny)]), ((2, pgMajor 1), [(1, pgRangeExact (pgMajor 1))])]
  rootPkg := 0
  rootVersion := pgMajor 1
  roots := [(1, pgRangeAny)]

/-- The first configuration of its run. -/
def pgCircularStart : PgConfig Unit :=
  pgSolverStart pgCircular.listing.provider
    (pgRootsPushed (pgSolverNew () pgCircular.rootPkg pgCircular.rootVersion) pgCircular.roots)

set_option maxRecDepth 4000 in
/-- Choosing package 1 in version 2 forbids the only version of package 2; the
`NO_VERSIONS` incompatibility that follows forgets about the choice. -/
theorem pgSolver_store_invalid :
    ¬ ∀ (Q : PgProblem) (P : PgDependencyProvider Unit), Q.listing.Answers P →
      ∀ c, PgReachable P () Q.rootPkg Q.rootVersion Q.roots c →
        ∀ id, c.solver.Tracked id → Q.Valid (c.solver.terms id) := by
  intro claim
  have answers : pgCircular.listing.Answers pgCircular.listing.provider :=
    PgListing.answers_provider (PgListing.fits_ofTables (by decide) (by decide))
  have solution : pgCircular.Solution fun pkg =>
      [(0, pgMajor 1), (1, pgMajor 1), (2, pgMajor 1)].lookup pkg :=
    PgProblem.solution_ofTables (by decide) (by decide) (by decide) (by decide)
  have started : PgStart pgCircular.listing.provider () pgCircular.rootPkg
      pgCircular.rootVersion pgCircular.roots pgCircularStart := ⟨_, rfl, rfl⟩
  have stored : (2 : Nat) <
        (pgRun pgCircular.listing.provider 47 pgCircularStart).solver.incompatibilities.length ∧
      (pgRun pgCircular.listing.provider 47 pgCircularStart).solver.terms 2 =
        [{ pkg := 2, range := pgRangeAny, positive := true }] := by
    decide
  have valid := claim pgCircular _ answers _ ⟨_, started, reaches_iterate 47 _⟩ 2 stored.1
  rw [← pgRun, stored.2] at valid
  refine PgProblem.valid_iff.mp valid _ solution fun t member => ?_
  rw [List.mem_singleton.mp member]
  exact pgAdmits_positive.mpr ⟨pgMajor 1, rfl, pgRangeContains_any _⟩

end ElmWrap
