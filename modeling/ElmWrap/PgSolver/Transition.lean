import ElmWrap.PgSolver.Search
import ElmWrap.PgSolver.StateLemmas
import ElmWrap.Lib.Guarded

/-!
# The transitions of the solver

`PgTransition` lists what one step of the machine can do, one constructor for
each way through a loop body of the source, with the tests the step has passed.
`pgStep_transition` is the one place where the step function is unfolded: every
invariant is a case analysis on a transition. The specifications of
`pg_make_decision` and of what it calls come first.
-/

namespace ElmWrap

open Lib

variable {γ : Type} {P : PgDependencyProvider γ}

/-! ## The version cache -/

/-- A cell of the version cache. -/
def PgSolver.cached (s : PgSolver γ) (pkg : PgPackageId) : Option (List PgVersion) :=
  s.cachedVersions.getD pkg none

/-- The version cache of `cv` extends the one of `s` by answers of the provider
in the context of `s`. -/
def PgCacheFilled (P : PgDependencyProvider γ) (s : PgSolver γ)
    (cv : List (Option (List PgVersion))) : Prop :=
  ∀ pkg, cv.getD pkg none = s.cached pkg ∨
    (s.cached pkg = none ∧
      cv.getD pkg none = P.getVersions s.providerCtx pkg pgDecisionVersionBuffer)

theorem PgCacheFilled.refl (s : PgSolver γ) : PgCacheFilled P s s.cachedVersions :=
  fun _ => Or.inl rfl

theorem PgCacheFilled.trans {s : PgSolver γ} {cv cv' : List (Option (List PgVersion))}
    (first : PgCacheFilled P s cv)
    (second : PgCacheFilled P { s with cachedVersions := cv } cv') :
    PgCacheFilled P s cv' := by
  intro pkg
  rcases second pkg with same | ⟨empty, asked⟩
  · rcases first pkg with same' | ⟨empty', asked'⟩
    · exact Or.inl (same.trans same')
    · exact Or.inr ⟨empty', same.trans asked'⟩
  · rcases first pkg with same' | ⟨empty', -⟩
    · exact Or.inr ⟨same'.symm.trans empty, asked⟩
    · exact Or.inr ⟨empty', asked⟩

/-- The cache lookup only fills the cache, and answers from it. -/
theorem pgSolverVersions_spec {s s' : PgSolver γ} {pkg : PgPackageId} {vs : List PgVersion}
    (run : pgSolverVersions P s pkg = some (s', vs)) :
    ∃ cv, s' = { s with cachedVersions := cv } ∧ PgCacheFilled P s cv ∧
      cv.getD pkg none = some vs := by
  unfold pgSolverVersions at run
  split at run
  · rename_i versions hit
    cases run
    exact ⟨s.cachedVersions, rfl, PgCacheFilled.refl s, hit⟩
  · rename_i miss
    split at run
    · cases run
    · rename_i versions answer
      cases run
      refine ⟨_, rfl, fun p => ?_, Table.getD_put_self _ _ _ _⟩
      rw [Table.getD_put]
      split
      · subst p; exact Or.inr ⟨miss, answer.symm⟩
      · exact Or.inl rfl

/-! ## Candidates -/

/-- The incompatibility added when a package has no available version. -/
def pgNoVersionsTerms (pkg : PgPackageId) (required : PgVersionRange) : List PgTerm :=
  [{ pkg := pkg, range := required, positive := true }]

theorem pgSolverEvaluateCandidate_spec {s s' : PgSolver γ} {pkg : PgPackageId}
    {required : PgVersionRange} {result : PgCandidate}
    (run : pgSolverEvaluateCandidate P s pkg required = (s', result)) :
    (result = .error ∧ s' = s) ∨
      ∃ cv vs, PgCacheFilled P s cv ∧ cv.getD pkg none = some vs ∧
        ((∃ id, result = .conflict id ∧
            (∀ v ∈ vs, pgVersionAvailable s pkg required v = false) ∧
            (s', id) = pgSolverAddIncompatibility { s with cachedVersions := cv }
              (pgNoVersionsTerms pkg required) .noVersions) ∨
          (∃ eval, result = .found eval ∧ s' = { s with cachedVersions := cv } ∧
            eval.newest ∈ vs ∧ pgVersionAvailable s pkg required eval.newest = true)) := by
  unfold pgSolverEvaluateCandidate at run
  split at run
  · cases run
    exact Or.inl ⟨rfl, rfl⟩
  · rename_i s₁ vs lookup
    obtain ⟨cv, rfl, filled, cell⟩ := pgSolverVersions_spec lookup
    refine Or.inr ⟨cv, vs, filled, cell, ?_⟩
    split at run
    · rename_i none
      cases run
      refine Or.inl ⟨_, rfl, fun v hv => ?_, rfl⟩
      exact Bool.eq_false_iff.mpr (List.filter_eq_nil_iff.mp none v hv)
    · rename_i chosen others some
      cases run
      have member : chosen ∈ vs.filter (pgVersionAvailable { s with cachedVersions := cv } pkg
          required) := by rw [some]; exact List.mem_cons_self
      obtain ⟨listed, available⟩ := List.mem_filter.mp member
      exact Or.inr ⟨_, rfl, rfl, listed, available⟩

/-- The package was skipped by the loop of `pg_make_decision`. -/
def PgSkipped (s : PgSolver γ) (pkg : PgPackageId) : Prop :=
  pkg = s.rootPkg ∨ (s.pkgState pkg).used = false ∨ (s.pkgState pkg).hasDecision = true ∨
    pgSolverComputePositiveRange s.trail pkg = some none

/-- The package is a candidate of `pg_make_decision`, with its required range. -/
structure PgCandidateFor (s : PgSolver γ) (pkg : PgPackageId) (required : PgVersionRange) :
    Prop where
  notRoot : pkg ≠ s.rootPkg
  used : (s.pkgState pkg).used = true
  undecided : (s.pkgState pkg).hasDecision = false
  range : pgSolverComputePositiveRange s.trail pkg = some (some required)

/-- If the package is a candidate, the loop found an available version of it. -/
def PgSupplied (P : PgDependencyProvider γ) (s : PgSolver γ) (pkg : PgPackageId) : Prop :=
  ∀ required, PgCandidateFor s pkg required →
    ∃ cv vs, PgCacheFilled P s cv ∧ cv.getD pkg none = some vs ∧
      ∃ v ∈ vs, pgVersionAvailable s pkg required v = true

theorem PgSkipped.supplied {s : PgSolver γ} {pkg : PgPackageId} (skipped : PgSkipped s pkg) :
    PgSupplied P s pkg := by
  intro required candidate
  exfalso
  rcases skipped with root | unused | decided | unconstrained
  · exact candidate.notRoot root
  · rw [candidate.used] at unused; cases unused
  · rw [candidate.undecided] at decided; cases decided
  · rw [candidate.range] at unconstrained; cases unconstrained

/-- A filled cell stays filled. -/
theorem PgCacheFilled.cell {s : PgSolver γ} {cv cv' : List (Option (List PgVersion))}
    (filled : PgCacheFilled P { s with cachedVersions := cv } cv') {pkg : PgPackageId}
    {vs : List PgVersion} (cell : cv.getD pkg none = some vs) :
    cv'.getD pkg none = some vs := by
  rcases filled pkg with same | ⟨empty, -⟩
  · exact same.trans cell
  · rw [PgSolver.cached] at empty
    rw [cell] at empty
    cases empty

/-- What a choice made by `pg_make_decision` rests on. -/
structure PgChoice (P : PgDependencyProvider γ) (s : PgSolver γ)
    (cv : List (Option (List PgVersion))) (pkg : PgPackageId) (version : PgVersion) : Prop where
  filled : PgCacheFilled P s cv
  candidate : ∃ required, PgCandidateFor s pkg required ∧
    pgVersionAvailable s pkg required version = true
  listed : ∃ vs, cv.getD pkg none = some vs ∧ version ∈ vs

theorem PgChoice.extend {s : PgSolver γ} {cv cv' : List (Option (List PgVersion))}
    {pkg : PgPackageId} {version : PgVersion} (choice : PgChoice P s cv pkg version)
    (filled : PgCacheFilled P { s with cachedVersions := cv } cv') :
    PgChoice P s cv' pkg version := by
  refine ⟨choice.filled.trans filled, choice.candidate, ?_⟩
  obtain ⟨vs, cell, member⟩ := choice.listed
  exact ⟨vs, filled.cell cell, member⟩

/-- The outcomes of the loop of `pg_make_decision` over `pkgs`. -/
inductive PgBestOutcome (P : PgDependencyProvider γ) (s : PgSolver γ) (pkgs : List PgPackageId)
    (best : Option (PgPackageId × PgDecisionEval)) : PgSolver γ → PgBest → Prop
  | stuck {cv : List (Option (List PgVersion))} :
    PgCacheFilled P s cv →
    PgBestOutcome P s pkgs best { s with cachedVersions := cv } .error
  | noVersions {id : PgIncompatId} {pkg : PgPackageId} {required : PgVersionRange}
      {vs : List PgVersion} {cv : List (Option (List PgVersion))} {s' : PgSolver γ} :
    PgCacheFilled P s cv → cv.getD pkg none = some vs → PgCandidateFor s pkg required →
    (∀ v ∈ vs, pgVersionAvailable s pkg required v = false) →
    (∃ pre post, pkgs = pre ++ pkg :: post ∧ ∀ p ∈ pre, PgSupplied P s p) →
    (s', id) = pgSolverAddIncompatibility { s with cachedVersions := cv }
      (pgNoVersionsTerms pkg required) .noVersions →
    PgBestOutcome P s pkgs best s' (.conflict id)
  | nothing {cv : List (Option (List PgVersion))} :
    PgCacheFilled P s cv → best = none → (∀ pkg ∈ pkgs, PgSkipped s pkg) →
    PgBestOutcome P s pkgs best { s with cachedVersions := cv } (.best none)
  | found {cv : List (Option (List PgVersion))} {b : PgPackageId × PgDecisionEval} :
    PgCacheFilled P s cv → PgChoice P s cv b.1 b.2.newest →
    PgBestOutcome P s pkgs best { s with cachedVersions := cv } (.best (some b))

theorem PgBestOutcome.skipping {s s' : PgSolver γ} {pkg : PgPackageId}
    {rest : List PgPackageId} {best : Option (PgPackageId × PgDecisionEval)} {result : PgBest}
    (skipped : PgSkipped s pkg) (outcome : PgBestOutcome P s rest best s' result) :
    PgBestOutcome P s (pkg :: rest) best s' result := by
  cases outcome with
  | stuck filled => exact .stuck filled
  | noVersions filled cell candidate none earlier added =>
    obtain ⟨pre, post, split, supplied⟩ := earlier
    refine .noVersions filled cell candidate none ⟨pkg :: pre, post, by rw [split]; rfl, ?_⟩
      added
    exact List.forall_mem_cons.mpr ⟨skipped.supplied, supplied⟩
  | nothing filled empty all =>
    exact .nothing filled empty (List.forall_mem_cons.mpr ⟨skipped, all⟩)
  | found filled choice => exact .found filled choice

/-- The loop of `pg_make_decision` over packages, for a state whose cache has
already been filled to `cv`. -/
theorem pgBestCandidate_outcome {s : PgSolver γ} :
    ∀ (pkgs : List PgPackageId) (cv : List (Option (List PgVersion)))
      (best : Option (PgPackageId × PgDecisionEval)) {s' : PgSolver γ} {result : PgBest},
      PgCacheFilled P s cv →
      (∀ b, best = some b → PgChoice P s cv b.1 b.2.newest) →
      pgBestCandidate P pkgs { s with cachedVersions := cv } best = (s', result) →
      PgBestOutcome P s pkgs best s' result := by
  intro pkgs
  induction pkgs with
  | nil =>
    intro cv best s' result filled choice run
    cases run
    cases best with
    | none => exact .nothing filled rfl (by simp)
    | some b => exact .found filled (choice b rfl)
  | cons pkg rest ih =>
    intro cv best s' result filled choice run
    simp only [pgBestCandidate] at run
    split at run
    · exact (ih cv best filled choice run).skipping (Or.inl (by assumption))
    · rename_i notRoot
      split at run
      · rename_i idle
        refine (ih cv best filled choice run).skipping ?_
        rw [Bool.or_eq_true] at idle
        rcases idle with unused | decided
        · exact Or.inr (Or.inl ((Bool.not_eq_true' _).mp unused))
        · exact Or.inr (Or.inr (Or.inl decided))
      · rename_i active
        rw [Bool.or_eq_true, not_or] at active
        have used : (s.pkgState pkg).used = true := by
          by_contra unused
          exact active.1 ((Bool.not_eq_true' _).mpr (Bool.eq_false_iff.mpr unused))
        have undecided : (s.pkgState pkg).hasDecision = false :=
          Bool.eq_false_iff.mpr active.2
        split at run
        · cases run
          exact .stuck filled
        · exact (ih cv best filled choice run).skipping
            (Or.inr (Or.inr (Or.inr (by assumption))))
        · rename_i required range
          have candidate : PgCandidateFor s pkg required :=
            ⟨notRoot, used, undecided, range⟩
          split at run
          · rename_i s₁ evaluated
            cases run
            rcases pgSolverEvaluateCandidate_spec evaluated with ⟨-, rfl⟩ | ⟨_, _, _, _, found⟩
            · exact .stuck filled
            · rcases found with ⟨id, h, -⟩ | ⟨eval, h, -⟩ <;> cases h
          · rename_i s₁ id evaluated
            cases run
            rcases pgSolverEvaluateCandidate_spec evaluated with
              ⟨h, -⟩ | ⟨cv', vs, filled', cell, found⟩
            · cases h
            · rcases found with ⟨id', h, none, added⟩ | ⟨eval, h, -⟩
              · cases h
                exact .noVersions (filled.trans filled') cell candidate none
                  ⟨[], rest, rfl, by simp⟩ added
              · cases h
          · rename_i s₁ eval evaluated
            rcases pgSolverEvaluateCandidate_spec evaluated with
              ⟨h, -⟩ | ⟨cv', vs, filled', cell, found⟩
            · cases h
            · rcases found with ⟨id', h, -⟩ | ⟨eval', h, same, listed, available⟩
              · cases h
              · cases h
                rw [same] at run
                have here : PgChoice P s cv' pkg eval.newest :=
                  ⟨filled.trans filled', ⟨required, candidate, available⟩, vs, cell, listed⟩
                have better : ∀ b,
                    (if pgBetterCandidate pkg eval best = true then some (pkg, eval)
                      else best) = some b → PgChoice P s cv' b.1 b.2.newest := by
                  intro b hb
                  split at hb
                  · cases hb; exact here
                  · exact (choice b hb).extend filled'
                have supplied : PgSupplied P s pkg := by
                  intro required' candidate'
                  have same := candidate'.range
                  rw [candidate.range] at same
                  cases same
                  exact ⟨cv', vs, filled.trans filled', cell, eval.newest, listed, available⟩
                cases ih cv' _ (filled.trans filled') better run with
                | stuck filled => exact .stuck filled
                | noVersions filled'' cell' candidate' none earlier added =>
                  obtain ⟨pre, post, split, all⟩ := earlier
                  refine .noVersions filled'' cell' candidate' none
                    ⟨pkg :: pre, post, by rw [split]; rfl, ?_⟩ added
                  exact List.forall_mem_cons.mpr ⟨supplied, all⟩
                | nothing _ empty _ =>
                  exfalso
                  split at empty
                  · cases empty
                  · rename_i worse
                    rw [empty] at worse
                    exact worse rfl
                | found filled choice => exact .found filled choice

/-! ## Registering dependencies -/

/-- The state `pg_solver_register_dependencies` leaves for a list of dependencies. -/
def pgAddDependencies (s : PgSolver γ) (pkg : PgPackageId) (decisionRange : PgVersionRange)
    (deps : List PgDependency) : PgSolver γ :=
  deps.foldl (fun s dep =>
    (pgSolverAddIncompatibility s (pgDependencyTerms pkg decisionRange dep) .dependency).1) s

theorem pgSolverRegisterDependencies_spec {s s' : PgSolver γ} {pkg : PgPackageId}
    {decisionRange : PgVersionRange} {version : PgVersion} {ok : Bool}
    (run : pgSolverRegisterDependencies P s pkg decisionRange version = (s', ok)) :
    ∃ ctx, ((P.getDependencies s.providerCtx pkg version pgDependencyBuffer).1 = ctx) ∧
      ((ok = false ∧ s' = { s with providerCtx := ctx }) ∨
        ∃ deps, ok = true ∧
          P.getDependencies s.providerCtx pkg version pgDependencyBuffer = (ctx, some deps) ∧
          s' = pgAddDependencies { s with providerCtx := ctx } pkg decisionRange deps) := by
  refine ⟨_, rfl, ?_⟩
  simp only [pgSolverRegisterDependencies] at run
  split at run
  · cases run
    exact Or.inl ⟨rfl, rfl⟩
  · rename_i deps answer
    cases run
    refine Or.inr ⟨deps, rfl, ?_, rfl⟩
    rw [← answer]

/-! ## Decisions -/

/-- The state after the decision assignment has been pushed. -/
def pgDecided (s : PgSolver γ) (pkg : PgPackageId) (version : PgVersion) : PgSolver γ :=
  pgSolverPushAssignment { s with currentDecisionLevel := s.currentDecisionLevel + 1 }
    (pgDecisionAssignment pkg version (s.currentDecisionLevel + 1))

/-- The outcomes of `pg_make_decision`. -/
inductive PgDecisionOutcome (P : PgDependencyProvider γ) (s : PgSolver γ) :
    PgSolver γ → PgDecision → Prop
  | stuck (cv : List (Option (List PgVersion))) :
    PgCacheFilled P s cv →
    PgDecisionOutcome P s { s with cachedVersions := cv } .error
  | noVersions {cv : List (Option (List PgVersion))} {pkg : PgPackageId}
      {required : PgVersionRange} {vs : List PgVersion} :
    PgCacheFilled P s cv → cv.getD pkg none = some vs → PgCandidateFor s pkg required →
    (∀ v ∈ vs, pgVersionAvailable s pkg required v = false) →
    (∀ p < pkg, PgSupplied P s p) →
    PgDecisionOutcome P s
      (pgSolverAddIncompatibility { s with cachedVersions := cv }
        (pgNoVersionsTerms pkg required) .noVersions).1
      (.conflict s.incompatibilities.length)
  | nothing (cv : List (Option (List PgVersion))) :
    PgCacheFilled P s cv → (∀ pkg < s.pkgStateCapacity, PgSkipped s pkg) →
    PgDecisionOutcome P s { s with cachedVersions := cv } .nothing
  | failed {cv : List (Option (List PgVersion))} {pkg : PgPackageId} {version : PgVersion}
      {ctx : γ} :
    PgChoice P s cv pkg version →
    (P.getDependencies s.providerCtx pkg version pgDependencyBuffer).1 = ctx →
    PgDecisionOutcome P s
      { pgDecided { s with cachedVersions := cv } pkg version with
        providerCtx := ctx, currentDecisionLevel := s.currentDecisionLevel } .error
  | made {cv : List (Option (List PgVersion))} {pkg : PgPackageId} {version : PgVersion}
      {ctx : γ} {deps : List PgDependency} :
    PgChoice P s cv pkg version →
    P.getDependencies s.providerCtx pkg version pgDependencyBuffer = (ctx, some deps) →
    PgDecisionOutcome P s
      (pgAddDependencies { pgDecided { s with cachedVersions := cv } pkg version with
        providerCtx := ctx } pkg (pgRangeExact version) deps) .made

/-- Whatever is below an element of `List.range n` stands before it. -/
theorem mem_of_range_split {n i j : Nat} {pre post : List Nat}
    (split : List.range n = pre ++ i :: post) (lt : j < i) : j ∈ pre := by
  have sorted := List.pairwise_lt_range (n := n)
  have inside : i ∈ List.range n := by rw [split]; simp
  have here : j ∈ List.range n :=
    List.mem_range.mpr (Nat.lt_trans lt (List.mem_range.mp inside))
  rw [split] at here sorted
  rcases List.mem_append.mp here with before | after
  · exact before
  · rcases List.mem_cons.mp after with same | later
    · exact absurd same (Nat.ne_of_lt lt)
    · have above := (List.pairwise_cons.mp (List.pairwise_append.mp sorted).2.1).1 j later
      exact absurd above (Nat.lt_asymm lt)

theorem pgMakeDecision_outcome {s s' : PgSolver γ} {result : PgDecision}
    (run : pgMakeDecision P s = (s', result)) : PgDecisionOutcome P s s' result := by
  unfold pgMakeDecision at run
  have outcome : ∀ {s' : PgSolver γ} {result : PgBest},
      pgBestCandidate P (List.range s.pkgStateCapacity) s none = (s', result) →
      PgBestOutcome P s (List.range s.pkgStateCapacity) none s' result :=
    pgBestCandidate_outcome _ s.cachedVersions none (PgCacheFilled.refl s) (by simp)
  split at run
  · rename_i s₁ best
    cases run
    cases outcome best with
    | stuck filled => exact .stuck _ filled
  · rename_i s₁ id best
    cases run
    cases outcome best with
    | noVersions filled cell candidate none earlier added =>
      rw [Prod.ext_iff] at added
      obtain ⟨rfl, rfl⟩ := added
      obtain ⟨pre, post, split, supplied⟩ := earlier
      exact .noVersions filled cell candidate none fun p lt =>
        supplied p (mem_of_range_split split lt)
  · rename_i s₁ best
    cases run
    cases outcome best with
    | nothing filled _ all =>
      exact .nothing _ filled fun pkg lt => all pkg (List.mem_range.mpr lt)
  · rename_i s₁ pkg eval best
    cases outcome best with
    | found _ choice =>
      dsimp only at run
      split at run
      · rename_i s₂ registered
        cases run
        obtain ⟨ctx, -, ⟨h, -⟩ | ⟨deps, -, answer, same⟩⟩ :=
          pgSolverRegisterDependencies_spec registered
        · cases h
        · rw [same]
          exact .made choice answer
      · rename_i s₂ registered
        cases run
        obtain ⟨ctx, context, ⟨-, same⟩ | ⟨_, h, -⟩⟩ :=
          pgSolverRegisterDependencies_spec registered
        · rw [same]
          exact .failed choice context
        · cases h

/-! ## Conflict resolution -/

/-- The assignment and the term an iteration of `pg_resolve_conflict` works on. -/
structure PgSatisfierAt (s : PgSolver γ) (current : PgIncompatId) (index termIndex : Nat)
    (satisfier : PgAssignment) (term : PgTerm) : Prop where
  found : pgIncompatibilityFindSatisfier s.trail (s.incompat current).terms =
    some (index, termIndex)
  satisfier_eq : satisfier = s.trail.getD index pgNoAssignment
  term_eq : term = (s.incompat current).terms.getD termIndex pgNoTerm

/-- `pg_incompatibility_previous_level` for a satisfier. -/
def pgPreviousLevelAt (s : PgSolver γ) (current : PgIncompatId) (satisfier : PgAssignment) :
    Nat :=
  pgIncompatibilityPreviousLevel s.trail (s.incompat current).terms satisfier.pkg

/-- The outcomes of one iteration of `pg_resolve_conflict`. -/
inductive PgResolveOutcome (s : PgSolver γ) (current : PgIncompatId) :
    PgSolver γ → PgResolved → Prop
  | rootFailure :
    pgIncompatibilityIsRootFailure s.rootPkg (s.incompat current) = true →
    PgResolveOutcome s current
      { s with rootIncompatibility := some (s.incompat current) } (.giveUp .rootFailure)
  | noSatisfier :
    pgIncompatibilityIsRootFailure s.rootPkg (s.incompat current) = false →
    pgIncompatibilityFindSatisfier s.trail (s.incompat current).terms = none →
    PgResolveOutcome s current s (.giveUp .noSatisfier)
  | rootLevel {index termIndex : Nat} {satisfier : PgAssignment} {term : PgTerm} :
    PgSatisfierAt s current index termIndex satisfier term →
    (satisfier.decided = true ∨
      pgPreviousLevelAt s current satisfier = satisfier.decisionLevel) →
    pgPreviousLevelAt s current satisfier < 1 →
    PgResolveOutcome s current
      { s with rootIncompatibility := some (s.incompat current) } (.giveUp .rootLevel)
  | learned {index termIndex : Nat} {satisfier : PgAssignment} {term : PgTerm} :
    pgIncompatibilityIsRootFailure s.rootPkg (s.incompat current) = false →
    PgSatisfierAt s current index termIndex satisfier term →
    (satisfier.decided = true ∨
      pgPreviousLevelAt s current satisfier = satisfier.decisionLevel) →
    ¬ pgPreviousLevelAt s current satisfier < 1 →
    PgResolveOutcome s current s (.learned (pgPreviousLevelAt s current satisfier))
  | noCause {index termIndex : Nat} {satisfier : PgAssignment} {term : PgTerm}
      {inc : PgIncompatibility} :
    PgSatisfierAt s current index termIndex satisfier term →
    satisfier.decided = false → satisfier.cause = none →
    PgResolveOutcome s current
      { s with rootIncompatibility := some inc } (.giveUp .noCause)
  | resolved {index termIndex : Nat} {satisfier : PgAssignment} {term : PgTerm}
      {cause : PgIncompatId} :
    PgSatisfierAt s current index termIndex satisfier term →
    satisfier.decided = false →
    pgPreviousLevelAt s current satisfier ≠ satisfier.decisionLevel →
    satisfier.cause = some cause →
    PgResolveOutcome s current
      (pgIncompatibilityResolveWith s current cause term.pkg).1
      (.resolved s.incompatibilities.length)

theorem pgResolveConflictIteration_outcome {s s' : PgSolver γ} {current : PgIncompatId}
    {result : PgResolved} (run : pgResolveConflictIteration s current = (s', result)) :
    PgResolveOutcome s current s' result := by
  simp only [pgResolveConflictIteration] at run
  split at run
  · cases run
    exact .rootFailure (by assumption)
  · rename_i notRoot
    have notRoot' : pgIncompatibilityIsRootFailure s.rootPkg (s.incompat current) = false := by
      simpa using notRoot
    split at run
    · cases run
      exact .noSatisfier notRoot' (by assumption)
    · rename_i index termIndex found
      have here : PgSatisfierAt s current index termIndex _ _ := ⟨found, rfl, rfl⟩
      split at run
      · rename_i stop
        rw [Bool.or_eq_true, decide_eq_true_eq] at stop
        split at run
        · cases run
          exact .rootLevel here stop (by assumption)
        · cases run
          exact .learned notRoot' here stop (by assumption)
      · rename_i go
        rw [Bool.or_eq_true, decide_eq_true_eq, not_or] at go
        have undecided := go.1
        split at run
        · rename_i causeless
          split at run
          · cases run
            exact .noCause here (by simpa using undecided) causeless
          · cases run
            exact .noCause here (by simpa using undecided) causeless
        · rename_i cause hasCause
          cases run
          exact .resolved here (by simpa using undecided) go.2 hasCause

/-! ## Steps -/

/-- What one step of the machine can do. -/
inductive PgTransition (P : PgDependencyProvider γ) : PgConfig γ → PgConfig γ → Prop
  | budget {s : PgSolver γ} {reason : String} :
    pgSolverBudgetCheck s = some reason →
    PgTransition P ⟨.loop, s⟩ ⟨.done .budgetExceeded,
      { s with budgetExceeded := true, budgetReason := some reason }⟩
  | enter {s : PgSolver γ} :
    pgSolverBudgetCheck s = none → PgTransition P ⟨.loop, s⟩ ⟨.propagate, s⟩
  | settled {s : PgSolver γ} :
    s.changedPkgs = [] →
    PgTransition P ⟨.propagate, s⟩
      ⟨.decide, { s with statsPropagations := s.statsPropagations + 1 }⟩
  | pop {s : PgSolver γ} {pkg : PgPackageId} {changed : List PgPackageId} :
    s.changedPkgs = pkg :: changed →
    PgTransition P ⟨.propagate, s⟩
      ⟨.examine (s.pkgIncompatList pkg).reverse, { s with changedPkgs := changed }⟩
  | swept {s : PgSolver γ} : PgTransition P ⟨.examine [], s⟩ ⟨.propagate, s⟩
  | conflict {s : PgSolver γ} {id : PgIncompatId} {rest : List PgIncompatId} :
    pgExamineTerms s.trail 0 none (s.incompat id).terms = .conflict →
    PgTransition P ⟨.examine (id :: rest), s⟩ ⟨.resolve id,
      { s with statsPropagations := s.statsPropagations + 1
               statsConflicts := s.statsConflicts + 1 }⟩
  | skip {s : PgSolver γ} {id : PgIncompatId} {rest : List PgIncompatId} :
    pgExamineTerms s.trail 0 none (s.incompat id).terms = .skip →
    PgTransition P ⟨.examine (id :: rest), s⟩ ⟨.examine rest, s⟩
  | derive {s : PgSolver γ} {id : PgIncompatId} {rest : List PgIncompatId} {t : Nat} :
    pgExamineTerms s.trail 0 none (s.incompat id).terms = .derive t →
    PgTransition P ⟨.examine (id :: rest), s⟩ ⟨.examine rest, pgSolverPushAssignment s
      (pgAssignmentFromTermNegation ((s.incompat id).terms.getD t pgNoTerm) id
        s.currentDecisionLevel)⟩
  | decideError {s s' : PgSolver γ} :
    PgDecisionOutcome P s s' .error →
    PgTransition P ⟨.decide, s⟩ ⟨.done .internalError, s'⟩
  | noVersions {s s' : PgSolver γ} {id : PgIncompatId} :
    PgDecisionOutcome P s s' (.conflict id) →
    PgTransition P ⟨.decide, s⟩
      ⟨.resolve id, { s' with statsConflicts := s'.statsConflicts + 1 }⟩
  | finished {s s' : PgSolver γ} :
    PgDecisionOutcome P s s' .nothing →
    PgTransition P ⟨.decide, s⟩ ⟨.done .ok, { s' with solved := true }⟩
  | decided {s s' : PgSolver γ} :
    PgDecisionOutcome P s s' .made →
    PgTransition P ⟨.decide, s⟩
      ⟨.loop, { s' with statsDecisions := s'.statsDecisions + 1 }⟩
  | giveUp {s s' : PgSolver γ} {current : PgIncompatId} {branch : PgGiveUp} :
    PgResolveOutcome s current s' (.giveUp branch) →
    PgTransition P ⟨.resolve current, s⟩ ⟨.done .noSolution, s'⟩
  | resolved {s s' : PgSolver γ} {current id : PgIncompatId} :
    PgResolveOutcome s current s' (.resolved id) →
    PgTransition P ⟨.resolve current, s⟩ ⟨.resolve id, s'⟩
  | learned {s s' : PgSolver γ} {current : PgIncompatId} {level : Nat} :
    PgResolveOutcome s current s' (.learned level) →
    PgTransition P ⟨.resolve current, s⟩
      ⟨.loop, pgSolverBacktrackToLevel (pgSolverAttachIncompatibility s' current) level⟩
  | halted {s : PgSolver γ} {status : PgSolverStatus} :
    PgTransition P ⟨.done status, s⟩ ⟨.done status, s⟩

theorem pgStep_transition (P : PgDependencyProvider γ) (c : PgConfig γ) :
    PgTransition P c (pgStep P c) := by
  rcases c with ⟨phase, s⟩
  cases phase with
  | loop =>
    simp only [pgStep]
    split
    · exact .enter (by assumption)
    · exact .budget (by assumption)
  | propagate =>
    simp only [pgStep]
    split
    · exact .settled (by assumption)
    · exact .pop (by assumption)
  | examine rest =>
    cases rest with
    | nil => exact .swept
    | cons id rest =>
      simp only [pgStep]
      split
      · exact .conflict (by assumption)
      · exact .skip (by assumption)
      · exact .derive (by assumption)
  | decide =>
    simp only [pgStep]
    split
    · rename_i s' run; exact .decideError (pgMakeDecision_outcome run)
    · rename_i s' id run; exact .noVersions (pgMakeDecision_outcome run)
    · rename_i s' run; exact .finished (pgMakeDecision_outcome run)
    · rename_i s' run; exact .decided (pgMakeDecision_outcome run)
  | resolve current =>
    simp only [pgStep]
    split
    · rename_i s' branch run; exact .giveUp (pgResolveConflictIteration_outcome run)
    · rename_i s' id run; exact .resolved (pgResolveConflictIteration_outcome run)
    · rename_i s' level run; exact .learned (pgResolveConflictIteration_outcome run)
  | done status => exact .halted

end ElmWrap
