import ElmWrap.PgSolver.Conflict
import ElmWrap.PgSolver.Backjump

/-!
# The shape of the incompatibilities

Dependencies have two terms and `NO_VERSIONS` one, and a resolvent has no more
terms than the larger of its causes: no incompatibility has more than two. A
single term leaves nothing to backjump to, so that a `NO_VERSIONS` conflict ends
the run. While the solver propagates, all its incompatibilities therefore come
from dependencies, and their positive terms pin a version.
-/

namespace ElmWrap

open Lib

variable {γ : Type} {P : PgDependencyProvider γ}

/-- Every positive term pins a version. -/
def PgPinning (terms : List PgTerm) : Prop :=
  ∀ t ∈ terms, t.positive = true → ∃ v, t.range = pgRangeExact v

theorem PgPinning.resolve {left right : List PgTerm} {pkg : PgPackageId}
    (first : PgPinning left) (second : PgPinning right) :
    PgPinning (pgResolveTerms left right pkg) := by
  intro t member
  rcases List.mem_append.mp member with old | new
  · exact first t (List.mem_filter.mp old).1
  · exact second t (List.mem_filter.mp new).1

theorem pgPinning_dependency (pkg : PgPackageId) (version : PgVersion) (dep : PgDependency) :
    PgPinning (pgDependencyTerms pkg (pgRangeExact version) dep) := by
  intro t member positive
  simp only [pgDependencyTerms, List.mem_cons, List.not_mem_nil, or_false] at member
  rcases member with rfl | rfl
  · exact ⟨version, rfl⟩
  · cases positive

/-- A term on the package is lost. -/
theorem length_filter_pkg {terms : List PgTerm} {pkg : PgPackageId} {t : PgTerm}
    (member : t ∈ terms) (on : t.pkg = pkg) :
    (terms.filter fun t => t.pkg ≠ pkg).length + 1 ≤ terms.length :=
  List.length_filter_lt_length_iff_exists.mpr ⟨t, member, by simp [on]⟩

/-- The two sides of a resolution have a term on the package that is eliminated. -/
theorem PgSatisfierAt.sides {roots : List PgDependency} {s : PgSolver γ}
    {current cause : PgIncompatId} {index termIndex : Nat} {satisfier : PgAssignment}
    {term : PgTerm} (at_ : PgSatisfierAt s current index termIndex satisfier term)
    (entries : ∀ a ∈ s.trail, PgEntry roots s a) (hasCause : satisfier.cause = some cause) :
    (term ∈ s.terms current ∧ s.Tracked cause) ∧ satisfier.pkg = term.pkg ∧
      ∃ t ∈ s.terms cause, t.pkg = term.pkg := by
  obtain ⟨pre, post, spec⟩ := at_.spec
  have same := pgAssignmentSatisfiesTerm_pkg spec.satisfies
  have here : term ∈ s.terms current := List.mem_of_getElem? spec.term_at
  have onTrail := spec.member
  cases entries satisfier onTrail with
  | required => cases hasCause
  | root => cases hasCause
  | decision => cases hasCause
  | @derived id t level attached member started =>
    cases hasCause
    exact ⟨⟨here, attached.1⟩, same, t, member, same⟩

theorem pgPreviousLevel_skipped {trail : List PgAssignment} {terms : List PgTerm}
    {skipPkg : PgPackageId} (all : ∀ t ∈ terms, t.pkg = skipPkg) :
    pgIncompatibilityPreviousLevel trail terms skipPkg = 0 := by
  unfold pgIncompatibilityPreviousLevel
  have skipped : ∀ level, terms.foldl (pgPreviousLevelStep trail skipPkg) level = level := by
    induction terms with
    | nil => exact fun level => rfl
    | cons t terms ih =>
      intro level
      rw [List.foldl_cons, pgPreviousLevelStep, if_pos (all t List.mem_cons_self)]
      exact ih (fun u member => all u (List.mem_cons_of_mem _ member)) level
  exact skipped 0

/-- An incompatibility with a single term is never learned. -/
theorem PgResolveOutcome.two_terms {s s' : PgSolver γ} {current : PgIncompatId} {level : Nat}
    (outcome : PgResolveOutcome s current s' (.learned level)) :
    2 ≤ (s.terms current).length := by
  cases outcome with
  | @learned index termIndex satisfier term notRoot at_ stop high =>
    obtain ⟨pre, post, spec⟩ := at_.spec
    have same := pgAssignmentSatisfiesTerm_pkg spec.satisfies
    by_contra short
    apply high
    have none : pgIncompatibilityPreviousLevel s.trail (s.terms current) satisfier.pkg = 0 :=
      pgPreviousLevel_skipped fun t member => by
        obtain ⟨i, lt, rfl⟩ := List.mem_iff_getElem.mp member
        obtain ⟨lt', found⟩ := List.getElem?_eq_some_iff.mp spec.term_at
        have first : i = termIndex := by omega
        subst first
        rw [found, same]
    have zero : pgPreviousLevelAt s current satisfier = 0 := none
    omega

/-! ## Every state of a run -/

/-- How many terms the incompatibilities have, and which of them pin versions. -/
structure PgShapes (c : PgConfig γ) : Prop where
  short : ∀ id, c.solver.Tracked id → (c.solver.terms id).length ≤ 2
  pinning : (∀ id, c.solver.Tracked id → PgPinning (c.solver.terms id)) ∨
    (∃ current, c.phase = .resolve current ∧ (c.solver.terms current).length ≤ 1) ∨
    ∃ status, c.phase = .done status
  causes : ∀ a ∈ c.solver.trail, ∀ id, a.cause = some id → PgPinning (c.solver.terms id)

theorem PgNewClause.short {roots : List PgDependency} {c : PgConfig γ} {terms : List PgTerm}
    (clause : PgNewClause P c terms) (well : PgWellFormed roots c) (shapes : PgShapes c) :
    terms.length ≤ 2 := by
  cases clause with
  | dependency => exact Nat.le_refl 2
  | noVersions => exact Nat.le_succ 1
  | @resolvent s current cause index termIndex satisfier term at_ undecided differs hasCause =>
    obtain ⟨⟨here, tracked⟩, -, t, member, same⟩ := at_.sides well.entries hasCause
    have left := length_filter_pkg here rfl
    have right := length_filter_pkg member same
    have first := shapes.short current well.refers
    have second := shapes.short cause tracked
    rw [pgResolveTerms, List.length_append]
    dsimp only at first second
    omega

/-- Which positive terms pin versions after a step. -/
theorem PgTransition.pinning {roots : List PgDependency} {c c' : PgConfig γ}
    (step : PgTransition P c c') (well : PgWellFormed roots c) (shapes : PgShapes c) :
    (∀ id, c'.solver.Tracked id → PgPinning (c'.solver.terms id)) ∨
      (∃ current, c'.phase = .resolve current ∧ (c'.solver.terms current).length ≤ 1) ∨
      ∃ status, c'.phase = .done status := by
  have pinning := shapes.pinning
  have searching : (∀ current, c.phase ≠ .resolve current) → (∀ status, c.phase ≠ .done status) →
      ∀ id, c.solver.Tracked id → PgPinning (c.solver.terms id) := by
    intro notResolving live
    refine pinning.resolve_right ?_
    rintro (⟨current, phase, -⟩ | ⟨status, phase⟩)
    · exact notResolving current phase
    · exact live status phase
  cases step with
  | budget => exact Or.inr (Or.inr ⟨_, rfl⟩)
  | decideError => exact Or.inr (Or.inr ⟨_, rfl⟩)
  | finished => exact Or.inr (Or.inr ⟨_, rfl⟩)
  | giveUp => exact Or.inr (Or.inr ⟨_, rfl⟩)
  | halted => exact Or.inr (Or.inr ⟨_, rfl⟩)
  | @noVersions s s' id outcome =>
    refine Or.inr (Or.inl ⟨id, rfl, ?_⟩)
    cases outcome with
    | @noVersions cv pkg required vs filled cell candidate none earlier =>
      have terms := add_terms_new { s with cachedVersions := cv }
        (pgNoVersionsTerms pkg required) .noVersions
      have length := congrArg List.length terms
      exact Nat.le_of_eq length
  | @decided s s' outcome =>
    have all := searching (by rintro _ ⟨⟩) (by rintro _ ⟨⟩)
    refine Or.inl fun id tracked => ?_
    cases outcome with
    | @made cv pkg version ctx deps choice answer =>
      rcases pgAddDependencies_tracked _ _ _ tracked with old | ⟨dep, -, terms⟩
      · have same := (PgExtends.addDependencies _ pkg (pgRangeExact version) deps).terms old
        intro t member
        exact all id old t (same ▸ member)
      · intro t member
        exact pgPinning_dependency pkg version dep t (terms ▸ member)
  | @resolved s s' current new outcome =>
    cases outcome with
    | @resolved index termIndex satisfier term cause at_ undecided differs hasCause =>
      obtain ⟨⟨here, stored⟩, same, t, member, on⟩ := at_.sides well.entries hasCause
      have terms := pgResolveWith_terms s current cause term.pkg
      rcases pinning with all | ⟨_, phase, single⟩ | ⟨_, phase⟩
      · refine Or.inl fun id tracked => ?_
        rcases track_incompat_cases s _ _ _ tracked with ⟨lt, old⟩ | ⟨rfl, -⟩
        · rw [PgSolver.terms]
          exact old ▸ all id lt
        · exact terms ▸ (all current well.refers).resolve (all cause stored)
      · cases phase
        refine Or.inr (Or.inl ⟨_, rfl, ?_⟩)
        have left := length_filter_pkg here rfl
        have right := length_filter_pkg member on
        have second := shapes.short cause stored
        dsimp only at single second ⊢
        rw [terms, pgResolveTerms, List.length_append]
        omega
      · cases phase
  | @learned s s' current level outcome =>
    have two := outcome.two_terms
    have same : s' = s := by cases outcome; rfl
    subst same
    rcases pinning with all | ⟨_, phase, single⟩ | ⟨_, phase⟩
    · refine Or.inl fun id tracked => ?_
      have old : s'.Tracked id := by simpa [PgSolver.Tracked] using tracked
      have terms := pgBackjumped_terms s' current level id
      rw [pgBackjumped] at terms
      exact terms ▸ all id old
    · cases phase
      dsimp only at single
      omega
    · cases phase
  | _ => exact Or.inl (searching (by rintro _ ⟨⟩) (by rintro _ ⟨⟩))

theorem PgShapes.step {roots : List PgDependency} {c : PgConfig γ}
    (well : PgWellFormed roots c) (shapes : PgShapes c) : PgShapes (pgStep P c) := by
  have step := pgStep_transition P c
  have extends_ : PgExtends c.solver (pgStep P c).solver :=
    step.extends fun current phase => by have h := well.refers; rw [phase] at h; exact h
  refine ⟨fun id tracked => ?_, step.pinning well shapes, fun a member id hasCause => ?_⟩
  · rcases step.clause tracked with before | clause
    · rw [extends_.terms before]
      exact shapes.short id before
    · exact clause.short well shapes
  · have old : a ∈ c.solver.trail → PgPinning ((pgStep P c).solver.terms id) := by
      intro before
      cases well.entries a before with
      | required => cases hasCause
      | root => cases hasCause
      | decision => cases hasCause
      | derived attached =>
        cases hasCause
        rw [extends_.terms attached.1]
        exact shapes.causes _ before id rfl
    have change := step.trail
    generalize (pgStep P c).solver.trail = trail at change member
    cases change with
    | same => exact old member
    | @derived s cause rest term unit =>
      rcases List.mem_append.mp member with before | new
      · exact old before
      · rw [List.mem_singleton.mp new] at hasCause
        cases hasCause
        have attached : s.Attached id := well.refers id List.mem_cons_self
        rw [extends_.terms attached.1]
        rcases shapes.pinning with all | ⟨_, phase, -⟩ | ⟨_, phase⟩
        · exact all id attached.1
        · cases phase
        · cases phase
    | decided =>
      rcases List.mem_append.mp member with before | new
      · exact old before
      · rw [List.mem_singleton.mp new] at hasCause
        cases hasCause
    | cut => exact old (mem_of_mem_pgTrailCut member)

/-- The incompatibilities a run starts with are the root's dependencies. -/
theorem PgStarted.terms {ctx : γ} {rootPkg : PgPackageId} {rootVersion : PgVersion}
    {roots : List PgDependency} {c : PgConfig γ}
    (started : PgStarted P ctx rootPkg rootVersion roots c) {id : PgIncompatId}
    (tracked : c.solver.Tracked id) :
    ∃ dep, c.solver.terms id = pgDependencyTerms rootPkg (pgRangeExact rootVersion) dep := by
  have untracked := pgRootDecided_untracked ctx rootPkg rootVersion roots
  cases started with
  | failed => exact absurd tracked (untracked id)
  | @registered ctx' deps answer =>
    rcases pgAddDependencies_tracked _ _ _ tracked with old | ⟨dep, -, same⟩
    · exact absurd old (untracked id)
    · exact ⟨dep, same⟩

theorem PgShapes.start {ctx : γ} {rootPkg : PgPackageId} {rootVersion : PgVersion}
    {roots : List PgDependency} {c : PgConfig γ}
    (started : PgStarted P ctx rootPkg rootVersion roots c) : PgShapes c := by
  have entries := (PgWellFormed.start started).entries
  have pinning : ∀ id, c.solver.Tracked id → PgPinning (c.solver.terms id) := by
    intro id tracked
    obtain ⟨dep, same⟩ := started.terms tracked
    rw [same]
    exact pgPinning_dependency _ _ _
  refine ⟨fun id tracked => ?_, Or.inl pinning, fun a member id hasCause => ?_⟩
  · obtain ⟨dep, same⟩ := started.terms tracked
    rw [same]
    exact Nat.le_refl 2
  · cases entries a member with
    | required => cases hasCause
    | root => cases hasCause
    | decision => cases hasCause
    | derived attached =>
      cases hasCause
      exact pinning id attached.1

theorem PgReachable.shapes {ctx : γ} {rootPkg : PgPackageId} {rootVersion : PgVersion}
    {roots : List PgDependency} {c : PgConfig γ}
    (reachable : PgReachable P ctx rootPkg rootVersion roots c) : PgShapes c := by
  obtain ⟨start, started, run⟩ := reachable
  have both := Reaches.invariant (I := fun d => PgWellFormed roots d ∧ PgShapes d) run
    ⟨PgWellFormed.start started.started, PgShapes.start started.started⟩
    fun _ holds => ⟨holds.1.step, holds.2.step holds.1⟩
  exact both.2

end ElmWrap
