import ElmWrap.PgSolver.Transition

/-!
# The store of incompatibilities

The solver never forgets or rewrites an incompatibility: a step keeps the terms
of those it has and adds at most a dependency of the version just chosen, a
`NO_VERSIONS` incompatibility or a resolvent. `PgExtends` is the first half of
this, `PgNewClause` the second.
-/

namespace ElmWrap

open Lib

variable {γ : Type} {P : PgDependencyProvider γ}

/-- The terms of a tracked incompatibility. -/
def PgSolver.terms (s : PgSolver γ) (id : PgIncompatId) : List PgTerm := (s.incompat id).terms

/-- `id` points to a tracked incompatibility. -/
def PgSolver.Tracked (s : PgSolver γ) (id : PgIncompatId) : Prop :=
  id < s.incompatibilities.length

/-- The incompatibility takes part in unit propagation. -/
def PgSolver.Attached (s : PgSolver γ) (id : PgIncompatId) : Prop :=
  s.Tracked id ∧ (s.incompat id).attached = true

/-- The store of `s'` extends the one of `s`. -/
structure PgExtends (s s' : PgSolver γ) : Prop where
  tracked : ∀ {id}, s.Tracked id → s'.Tracked id
  terms : ∀ {id}, s.Tracked id → s'.terms id = s.terms id
  attached : ∀ {id}, s.Attached id → s'.Attached id

theorem PgExtends.refl (s : PgSolver γ) : PgExtends s s :=
  ⟨fun h => h, fun _ => rfl, fun h => h⟩

theorem PgExtends.trans {a b c : PgSolver γ} (first : PgExtends a b) (second : PgExtends b c) :
    PgExtends a c where
  tracked h := second.tracked (first.tracked h)
  terms h := (second.terms (first.tracked h)).trans (first.terms h)
  attached h := second.attached (first.attached h)

/-- A state that shares its incompatibilities with `s` extends it. -/
theorem PgExtends.of_eq {s s' : PgSolver γ} (same : s'.incompatibilities = s.incompatibilities) :
    PgExtends s s' := by
  constructor <;> intro id h
  · rwa [PgSolver.Tracked, same]
  · rw [PgSolver.terms, PgSolver.terms, PgSolver.incompat, PgSolver.incompat, same]
  · rwa [PgSolver.Attached, PgSolver.Tracked, PgSolver.incompat, same]

theorem PgExtends.attach (s : PgSolver γ) {id : PgIncompatId} (tracked : s.Tracked id) :
    PgExtends s (pgSolverAttachIncompatibility s id) where
  tracked h := by simpa [PgSolver.Tracked] using h
  terms _ := attach_terms s id _
  attached h := ⟨by simpa [PgSolver.Tracked] using h.1,
    (attach_attached_iff s id tracked _).mpr (Or.inr h.2)⟩

theorem PgExtends.track (s : PgSolver γ) (terms : List PgTerm)
    (reason : PgIncompatibilityReason) (causes : List PgIncompatId) :
    PgExtends s (pgSolverTrackIncompatibility s terms reason causes).1 where
  tracked h := by
    rw [PgSolver.Tracked, track_length]
    exact Nat.lt_succ_of_lt h
  terms h := by rw [PgSolver.terms, track_incompat_old s terms reason causes h]; rfl
  attached h := by
    refine ⟨?_, by rw [track_incompat_old s terms reason causes h.1]; exact h.2⟩
    rw [PgSolver.Tracked, track_length]
    exact Nat.lt_succ_of_lt h.1

theorem PgExtends.add (s : PgSolver γ) (terms : List PgTerm)
    (reason : PgIncompatibilityReason) :
    PgExtends s (pgSolverAddIncompatibility s terms reason).1 := by
  rw [add_fst]
  exact (PgExtends.track s terms reason []).trans
    (PgExtends.attach _ (by simp [PgSolver.Tracked]))

/-! ## Adding the dependencies of a version -/

section AddDependencies

variable (s : PgSolver γ) (pkg : PgPackageId) (range : PgVersionRange)

@[simp] theorem pgAddDependencies_nil : pgAddDependencies s pkg range [] = s := rfl

theorem pgAddDependencies_cons (dep : PgDependency) (deps : List PgDependency) :
    pgAddDependencies s pkg range (dep :: deps) =
      pgAddDependencies
        (pgSolverAddIncompatibility s (pgDependencyTerms pkg range dep) .dependency).1
        pkg range deps := rfl

/-- What adding dependencies leaves alone. -/
theorem pgAddDependencies_frame (deps : List PgDependency) :
    let s' := pgAddDependencies s pkg range deps
    s'.providerCtx = s.providerCtx ∧ s'.rootPkg = s.rootPkg ∧
      s'.rootVersion = s.rootVersion ∧ s'.trail = s.trail ∧
      s'.currentDecisionLevel = s.currentDecisionLevel ∧
      s'.cachedVersions = s.cachedVersions ∧ s'.solved = s.solved ∧
      ∀ p, s'.pkgState p = s.pkgState p := by
  induction deps generalizing s with
  | nil => simp
  | cons dep deps ih =>
    rw [pgAddDependencies_cons]
    have rest := ih (pgSolverAddIncompatibility s (pgDependencyTerms pkg range dep)
      .dependency).1
    simpa using rest

variable {deps : List PgDependency}

@[simp] theorem pgAddDependencies_providerCtx :
    (pgAddDependencies s pkg range deps).providerCtx = s.providerCtx :=
  (pgAddDependencies_frame s pkg range deps).1
@[simp] theorem pgAddDependencies_rootPkg :
    (pgAddDependencies s pkg range deps).rootPkg = s.rootPkg :=
  (pgAddDependencies_frame s pkg range deps).2.1
@[simp] theorem pgAddDependencies_rootVersion :
    (pgAddDependencies s pkg range deps).rootVersion = s.rootVersion :=
  (pgAddDependencies_frame s pkg range deps).2.2.1
@[simp] theorem pgAddDependencies_trail :
    (pgAddDependencies s pkg range deps).trail = s.trail :=
  (pgAddDependencies_frame s pkg range deps).2.2.2.1
@[simp] theorem pgAddDependencies_currentDecisionLevel :
    (pgAddDependencies s pkg range deps).currentDecisionLevel = s.currentDecisionLevel :=
  (pgAddDependencies_frame s pkg range deps).2.2.2.2.1
@[simp] theorem pgAddDependencies_cachedVersions :
    (pgAddDependencies s pkg range deps).cachedVersions = s.cachedVersions :=
  (pgAddDependencies_frame s pkg range deps).2.2.2.2.2.1
@[simp] theorem pgAddDependencies_solved :
    (pgAddDependencies s pkg range deps).solved = s.solved :=
  (pgAddDependencies_frame s pkg range deps).2.2.2.2.2.2.1
@[simp] theorem pgAddDependencies_pkgState (p : PgPackageId) :
    (pgAddDependencies s pkg range deps).pkgState p = s.pkgState p :=
  (pgAddDependencies_frame s pkg range deps).2.2.2.2.2.2.2 p

theorem pgAddDependencies_pkgStateCapacity :
    s.pkgStateCapacity ≤ (pgAddDependencies s pkg range deps).pkgStateCapacity := by
  induction deps generalizing s with
  | nil => exact Nat.le_refl _
  | cons dep deps ih =>
    rw [pgAddDependencies_cons]
    exact Nat.le_trans (add_pkgStateCapacity s _ _) (ih _)

theorem PgExtends.addDependencies (deps : List PgDependency) :
    PgExtends s (pgAddDependencies s pkg range deps) := by
  induction deps generalizing s with
  | nil => exact PgExtends.refl s
  | cons dep deps ih =>
    rw [pgAddDependencies_cons]
    exact (PgExtends.add s _ _).trans (ih _)

/-- What is tracked afterwards was tracked before or is one of the dependencies. -/
theorem pgAddDependencies_tracked {id : PgIncompatId}
    (tracked : (pgAddDependencies s pkg range deps).Tracked id) :
    s.Tracked id ∨
      ∃ dep ∈ deps, (pgAddDependencies s pkg range deps).terms id =
        pgDependencyTerms pkg range dep := by
  induction deps generalizing s with
  | nil => exact Or.inl tracked
  | cons dep deps ih =>
    rw [pgAddDependencies_cons] at tracked ⊢
    rcases ih _ tracked with old | ⟨d, member, terms⟩
    · rcases Nat.lt_or_ge id s.incompatibilities.length with lt | ge
      · exact Or.inl lt
      · have same : id = s.incompatibilities.length := by
          rw [PgSolver.Tracked, add_length] at old
          exact Nat.le_antisymm (Nat.le_of_lt_succ old) ge
        refine Or.inr ⟨dep, List.mem_cons_self, ?_⟩
        rw [(PgExtends.addDependencies _ pkg range deps).terms old, same]
        exact add_terms_new s _ _
    · exact Or.inr ⟨d, List.mem_cons_of_mem _ member, terms⟩

/-- Adding dependencies attaches none of the incompatibilities there were. -/
theorem pgAddDependencies_attached_old (deps : List PgDependency) {id : PgIncompatId}
    (tracked : s.Tracked id) (attached : (pgAddDependencies s pkg range deps).Attached id) :
    s.Attached id := by
  induction deps generalizing s with
  | nil => exact attached
  | cons dep deps ih =>
    rw [pgAddDependencies_cons] at attached
    have stored := (PgExtends.add s (pgDependencyTerms pkg range dep) .dependency).tracked tracked
    have before := ih _ stored attached
    rcases (add_attached_iff s _ _ stored).mp before.2 with new | old
    · exact absurd new (Nat.ne_of_lt tracked)
    · exact old

/-- Every dependency gets an incompatibility, which is attached. -/
theorem pgAddDependencies_registered {dep : PgDependency} (member : dep ∈ deps) :
    ∃ id, (pgAddDependencies s pkg range deps).Attached id ∧
      (pgAddDependencies s pkg range deps).terms id = pgDependencyTerms pkg range dep := by
  induction deps generalizing s with
  | nil => cases member
  | cons d deps ih =>
    rw [pgAddDependencies_cons]
    rcases List.mem_cons.mp member with rfl | later
    · have stored : (pgSolverAddIncompatibility s (pgDependencyTerms pkg range dep)
          .dependency).1.Tracked s.incompatibilities.length := by
        simp [PgSolver.Tracked]
      have extended := PgExtends.addDependencies (pgSolverAddIncompatibility s
        (pgDependencyTerms pkg range dep) .dependency).1 pkg range deps
      refine ⟨s.incompatibilities.length, extended.attached ⟨stored, ?_⟩, ?_⟩
      · exact (add_attached_iff s _ _ stored).mpr (Or.inl rfl)
      · rw [extended.terms stored]
        exact add_terms_new s _ _
    · exact ih _ later

end AddDependencies

/-! ## What a step adds -/

/-- The terms of an incompatibility that a step adds to the store. -/
inductive PgNewClause (P : PgDependencyProvider γ) : PgConfig γ → List PgTerm → Prop
  | dependency {s : PgSolver γ} {cv : List (Option (List PgVersion))} {pkg : PgPackageId}
      {version : PgVersion} {ctx : γ} {deps : List PgDependency} {dep : PgDependency} :
    PgChoice P s cv pkg version →
    P.getDependencies s.providerCtx pkg version pgDependencyBuffer = (ctx, some deps) →
    dep ∈ deps →
    PgNewClause P ⟨.decide, s⟩ (pgDependencyTerms pkg (pgRangeExact version) dep)
  | noVersions {s : PgSolver γ} {cv : List (Option (List PgVersion))} {pkg : PgPackageId}
      {required : PgVersionRange} {vs : List PgVersion} :
    PgCacheFilled P s cv → cv.getD pkg none = some vs → PgCandidateFor s pkg required →
    (∀ v ∈ vs, pgVersionAvailable s pkg required v = false) →
    (∀ p < pkg, PgSupplied P s p) →
    PgNewClause P ⟨.decide, s⟩ (pgNoVersionsTerms pkg required)
  | resolvent {s : PgSolver γ} {current cause : PgIncompatId} {index termIndex : Nat}
      {satisfier : PgAssignment} {term : PgTerm} :
    PgSatisfierAt s current index termIndex satisfier term →
    satisfier.decided = false →
    pgPreviousLevelAt s current satisfier ≠ satisfier.decisionLevel →
    satisfier.cause = some cause →
    PgNewClause P ⟨.resolve current, s⟩ (pgResolveTerms (s.terms current) (s.terms cause) term.pkg)

theorem PgDecisionOutcome.extends {s s' : PgSolver γ} {result : PgDecision}
    (outcome : PgDecisionOutcome P s s' result) : PgExtends s s' := by
  cases outcome with
  | stuck cv filled => exact PgExtends.of_eq rfl
  | noVersions filled cell candidate none earlier =>
    refine PgExtends.trans ?_ (PgExtends.add _ _ _)
    exact PgExtends.of_eq rfl
  | nothing cv filled all => exact PgExtends.of_eq rfl
  | failed choice context => exact PgExtends.of_eq rfl
  | made choice answer =>
    refine PgExtends.trans ?_ (PgExtends.addDependencies _ _ _ _)
    exact PgExtends.of_eq rfl

theorem PgResolveOutcome.extends {s s' : PgSolver γ} {current : PgIncompatId}
    {result : PgResolved} (outcome : PgResolveOutcome s current s' result) :
    PgExtends s s' := by
  cases outcome with
  | resolved => exact PgExtends.track s _ _ _
  | _ => exact PgExtends.of_eq rfl

/-- A step keeps the store, provided the incompatibility under resolution is in it. -/
theorem PgTransition.extends {c c' : PgConfig γ} (step : PgTransition P c c')
    (tracked : ∀ current, c.phase = .resolve current → c.solver.Tracked current) :
    PgExtends c.solver c'.solver := by
  cases step with
  | decideError outcome => exact outcome.extends
  | noVersions outcome => exact outcome.extends.trans (PgExtends.of_eq rfl)
  | finished outcome => exact outcome.extends.trans (PgExtends.of_eq rfl)
  | decided outcome => exact outcome.extends.trans (PgExtends.of_eq rfl)
  | giveUp outcome => exact outcome.extends
  | resolved outcome => exact outcome.extends
  | learned outcome =>
    have here := tracked _ rfl
    exact outcome.extends.trans
      ((PgExtends.attach _ (outcome.extends.tracked here)).trans (PgExtends.of_eq rfl))
  | _ => exact PgExtends.of_eq rfl

/-- What is tracked after a step was tracked before or is a new clause. -/
theorem PgTransition.clause {c c' : PgConfig γ} (step : PgTransition P c c')
    {id : PgIncompatId} (tracked : c'.solver.Tracked id) :
    c.solver.Tracked id ∨ PgNewClause P c (c'.solver.terms id) := by
  cases step with
  | decideError outcome => cases outcome <;> exact Or.inl tracked
  | @noVersions s s' conflict outcome =>
    cases outcome with
    | @noVersions cv pkg required vs filled cell candidate none earlier =>
      rcases Nat.lt_or_ge id s.incompatibilities.length with lt | ge
      · exact Or.inl lt
      · have same : id = s.incompatibilities.length := by
          have stored : id < s.incompatibilities.length + 1 := by
            simpa [PgSolver.Tracked] using tracked
          exact Nat.le_antisymm (Nat.le_of_lt_succ stored) ge
        have terms := add_terms_new { s with cachedVersions := cv }
          (pgNoVersionsTerms pkg required) .noVersions
        have clause := PgNewClause.noVersions (P := P) filled cell candidate none earlier
        rw [← terms] at clause
        subst same
        exact Or.inr clause
  | finished outcome => cases outcome; exact Or.inl tracked
  | @decided s s' outcome =>
    cases outcome with
    | made choice answer =>
      rcases pgAddDependencies_tracked _ _ _ tracked with old | ⟨dep, member, terms⟩
      · exact Or.inl old
      · exact Or.inr (terms ▸ .dependency choice answer member)
  | giveUp outcome => cases outcome <;> exact Or.inl tracked
  | @resolved s s' current new outcome =>
    cases outcome with
    | resolved at_ undecided differs cause =>
      rcases track_incompat_cases s _ _ _ tracked with ⟨lt, -⟩ | ⟨-, new⟩
      · exact Or.inl lt
      · refine Or.inr ?_
        have clause := PgNewClause.resolvent (P := P) at_ undecided differs cause
        rw [PgSolver.terms]
        exact new ▸ clause
  | @learned s s' current level outcome =>
    cases outcome
    exact Or.inl (by simpa [PgSolver.Tracked] using tracked)
  | _ => exact Or.inl tracked

end ElmWrap
