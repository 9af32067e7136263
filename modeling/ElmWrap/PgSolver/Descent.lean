import ElmWrap.PgSolver.Propagation
import ElmWrap.PgSolver.TrailStates

/-!
# Satisfiers during conflict resolution

`pg_resolve_conflict` replaces an incompatibility by its resolvent with the cause
of the satisfier. The cause was satisfied, on every other package, by the trail
before the satisfier; the search for the next satisfier asks for single
assignments instead. A negative term is always met by one of the assignments
that meet it together, an exact version need not be. Where the search has to go
past the satisfier, the loop stops with the next iteration, so that it ends in
every case.
-/

namespace ElmWrap

open Lib

variable {γ : Type} {P : PgDependencyProvider γ}

/-! ## Terms that one assignment meets -/

/-- One assignment of the trail satisfies the term by itself. -/
def PgMetAlone (trail : List PgAssignment) (t : PgTerm) : Prop :=
  ∃ b ∈ trail, pgAssignmentSatisfiesTerm b t = true

variable {trail : List PgAssignment} {roots : List PgDependency} {t : PgTerm}
  {rootPkg : PgPackageId} {rootVersion : PgVersion}

theorem PgMetAlone.longer {trail longer : List PgAssignment} (met : PgMetAlone trail t)
    (initial : trail <+: longer) : PgMetAlone longer t := by
  obtain ⟨b, member, satisfies⟩ := met
  exact ⟨b, initial.subset member, satisfies⟩

/-- Of three ranges, two of which meet, some two are disjoint if all three have
nothing in common. -/
theorem pgRangeIntersect_helly {a b c : PgVersionRange}
    (meets : (pgRangeIntersect a b).isEmpty = false)
    (empty : (pgRangeIntersect (pgRangeIntersect a b) c).isEmpty = true) :
    (pgRangeIntersect a c).isEmpty = true ∨ (pgRangeIntersect b c).isEmpty = true := by
  by_cases flag : c.isEmpty = true
  · exact Or.inl (pgRangeIntersect_isEmpty_of_flag (Or.inr flag))
  · have unflagged : c.isEmpty = false := by simpa using flag
    obtain ⟨⟨-, apart⟩, -⟩ := VersionRange.open_of_intersect meets
    obtain ⟨left, right⟩ := pgRangeIntersect_flags meets
    obtain ⟨low, high, -⟩ := pgRangeIntersect_cuts left right
    rw [(pgRangeIntersect_cuts meets unflagged).2.2, low, high] at empty
    rw [low, high] at apart
    rw [(pgRangeIntersect_cuts left unflagged).2.2, (pgRangeIntersect_cuts right unflagged).2.2]
    omega

/-- A range disjoint from what the positive assignments have in common is
disjoint from the range of one of them. -/
theorem pgPositiveRange_disjoint {pkg : PgPackageId} {other : PgVersionRange} :
    ∀ {range : PgVersionRange},
      pgPositiveRange trail pkg = some range → range.isEmpty = false →
      (pgRangeIntersect range other).isEmpty = true →
      ∃ a, PgPositiveOn trail pkg a ∧ (pgRangeIntersect a.range other).isEmpty = true := by
  induction trail using List.reverseRecOn with
  | nil => intro range common; cases common
  | append_singleton trail a ih =>
    intro range common unflagged disjoint
    have grown : ∀ b, PgPositiveOn trail pkg b → PgPositiveOn (trail ++ [a]) pkg b :=
      fun b on => pgPositiveOn_append.mpr (Or.inl on)
    rw [pgPositiveRange_append] at common
    cases own : pgPositiveFor pkg a with
    | false =>
      rw [own] at common
      obtain ⟨b, on, empty⟩ := ih common unflagged disjoint
      exact ⟨b, grown b on, empty⟩
    | true =>
      rw [own, if_pos rfl] at common
      unfold pgPositiveFor at own
      rw [Bool.and_eq_true, decide_eq_true_eq] at own
      have last : PgPositiveOn (trail ++ [a]) pkg a :=
        pgPositiveOn_append.mpr (Or.inr ⟨rfl, own⟩)
      cases before : pgPositiveRange trail pkg with
      | none =>
        rw [before] at common
        cases common
        exact ⟨a, last, disjoint⟩
      | some old =>
        rw [before] at common
        cases common
        rcases pgRangeIntersect_helly unflagged disjoint with left | right
        · obtain ⟨b, on, empty⟩ := ih before (pgRangeIntersect_flags unflagged).1 left
          exact ⟨b, grown b on, empty⟩
        · exact ⟨a, last, right⟩

/-- A positive assignment whose range is disjoint from a negative term's meets
the term. -/
theorem PgMetAlone.of_disjoint {a : PgAssignment} (on : PgPositiveOn trail t.pkg a)
    (negative : t.positive = false) (disjoint : (pgRangeIntersect a.range t.range).isEmpty = true) :
    PgMetAlone trail t := by
  refine ⟨a, on.1, ?_⟩
  simp [pgAssignmentSatisfiesTerm, on.2.1, on.2.2, negative, disjoint]

/-- What a satisfied term says about the positive assignments of its package. -/
theorem pgTermState_satisfied_range (satisfied : pgTermState trail t = .satisfied) :
    ∃ range, pgPositiveRange trail t.pkg = some range ∧
      (t.positive = true → pgRangeSubset range t.range = true) ∧
      (t.positive = false → (pgRangeIntersect range t.range).isEmpty = true) := by
  rw [pgTermState_eq, pgTermScan_eq] at satisfied
  cases common : pgPositiveRange trail t.pkg with
  | none =>
    rw [common] at satisfied
    dsimp only at satisfied
    split at satisfied <;> cases satisfied
  | some range =>
    rw [common] at satisfied
    refine ⟨range, rfl, fun positive => ?_, fun negative => ?_⟩
    · simp only [positive, if_true] at satisfied
      by_contra apart
      rw [if_neg apart] at satisfied
      split at satisfied <;> cases satisfied
    · simp only [negative, Bool.false_eq_true, if_false] at satisfied
      by_contra meets
      rw [if_neg meets] at satisfied
      split at satisfied <;> cases satisfied

/-- What the positive assignments of an inconclusive term's package have in
common meets the term's range and reaches beyond it. -/
theorem pgTermState_inconclusive_range {w : PgTerm} (open_ : pgTermState trail w = .inconclusive)
    {range : PgVersionRange} (common : pgPositiveRange trail w.pkg = some range) :
    range.Open ∧ (pgRangeIntersect range w.range).isEmpty = false ∧
      pgRangeSubset range w.range = false := by
  rw [pgTermState_eq, pgTermScan_eq, common] at open_
  have both : (pgRangeIntersect range w.range).isEmpty = false ∧
      pgRangeSubset range w.range = false := by
    cases positive : w.positive with
    | true =>
      simp only [positive, if_true] at open_
      split at open_
      · cases open_
      · rename_i beyond
        split at open_
        · cases open_
        · rename_i meets
          rw [Bool.or_eq_true, not_or] at meets
          exact ⟨by simpa using meets.1, by simpa using beyond⟩
    | false =>
      simp only [positive, Bool.false_eq_true, if_false] at open_
      split at open_
      · cases open_
      · rename_i meets
        split at open_
        · cases open_
        · rename_i beyond
          exact ⟨by simpa using meets, by simpa using beyond⟩
  exact ⟨(VersionRange.open_of_intersect both.1).2.1, both⟩

/-- No term is inconclusive on a package that the trail holds to a version. -/
theorem pgTermState_held {t w : PgTerm} {v : PgVersion}
    (satisfied : pgTermState trail t = .satisfied) (positive : t.positive = true)
    (exact_ : t.range = pgRangeExact v) (same : w.pkg = t.pkg) :
    pgTermState trail w ≠ .inconclusive := by
  intro open_
  obtain ⟨range, common, within, -⟩ := pgTermState_satisfied_range satisfied
  obtain ⟨⟨unflagged, apart⟩, meets, beyond⟩ :=
    pgTermState_inconclusive_range open_ (same ▸ common)
  have pinned := within positive
  rw [exact_] at pinned
  have inside : pgRangeContains range v = true := by
    have cuts := pgRangeSubset_iff.mp pinned
    obtain ⟨exactLow, exactHigh⟩ := pgRangeExact_cuts v
    rw [unflagged, exactLow, exactHigh] at cuts
    simp only [Bool.false_eq_true, false_or] at cuts
    refine pgRangeContains_iff.mpr ⟨unflagged, ?_, ?_⟩
    · omega
    · omega
  obtain ⟨subset, empty⟩ := pgRange_pinned (b := w.range) pinned inside
  cases member : pgRangeContains w.range v with
  | true => rw [subset member] at beyond; cases beyond
  | false => rw [empty member] at meets; cases meets

/-- Where a package still has an inconclusive term, a satisfied term on it is
met by one assignment. -/
theorem PgMetAlone.of_open {t w : PgTerm} (satisfied : pgTermState trail t = .satisfied)
    (pinned : t.positive = true → ∃ v, t.range = pgRangeExact v) (same : w.pkg = t.pkg)
    (open_ : pgTermState trail w = .inconclusive) : PgMetAlone trail t := by
  cases positive : t.positive with
  | true =>
    obtain ⟨v, exact_⟩ := pinned positive
    exact absurd open_ (pgTermState_held satisfied positive exact_ same)
  | false =>
    obtain ⟨range, common, -, disjoint⟩ := pgTermState_satisfied_range satisfied
    obtain ⟨⟨unflagged, -⟩, -⟩ := pgTermState_inconclusive_range open_ (same ▸ common)
    obtain ⟨a, on, empty⟩ := pgPositiveRange_disjoint common unflagged (disjoint positive)
    exact PgMetAlone.of_disjoint on positive empty

/-- So is a satisfied negative term on a package whose positive assignments
meet. -/
theorem PgMetAlone.of_meet (satisfied : pgTermState trail t = .satisfied)
    (negative : t.positive = false) (meet : PgPositivesMeet trail t.pkg) : PgMetAlone trail t := by
  obtain ⟨range, common, -, disjoint⟩ := pgTermState_satisfied_range satisfied
  obtain ⟨found, run, spec⟩ := meet
  have scan := pgComputePositiveRangeFrom_scan t trail ⟨none, false⟩ _ run
  have same : found = some range := by
    have eq := pgTermScan_eq trail t
    rw [pgTermScan] at eq
    rw [← scan, eq]
    exact common
  rcases spec range same with open_ | ⟨a, single⟩
  · obtain ⟨a, on, empty⟩ := pgPositiveRange_disjoint common open_.1 (disjoint negative)
    exact PgMetAlone.of_disjoint on negative empty
  · have here : a ∈ trail.filter (pgPositiveFor t.pkg) := by rw [single]; exact List.mem_cons_self
    obtain ⟨member, own⟩ := List.mem_filter.mp here
    unfold pgPositiveFor at own
    rw [Bool.and_eq_true, decide_eq_true_eq] at own
    refine PgMetAlone.of_disjoint ⟨member, own⟩ negative ?_
    have alone : a.range = range := by
      unfold pgPositiveRange at common
      rw [single] at common
      exact Option.some.inj common
    rw [alone]
    exact disjoint negative

/-! ## What the search for a satisfier finds -/

theorem pgFindSatisfierFrom_covered {terms : List PgTerm} (late : List PgAssignment) :
    ∀ (early pre : List PgAssignment),
      (∃ t ∈ terms, ∀ b ∈ pre, pgAssignmentSatisfiesTerm b t = false) →
      (∀ t ∈ terms, PgMetAlone (pre ++ early) t) →
      ∃ index termIndex, pgFindSatisfierFrom terms (early ++ late) pre.length
        (pgFoundIn pre terms) = some (index, termIndex) ∧ index < pre.length + early.length := by
  intro early
  induction early with
  | nil =>
    rintro pre ⟨t, member, unmet⟩ covered
    obtain ⟨b, on, satisfies⟩ := covered t member
    rw [List.append_nil] at on
    rw [unmet b on] at satisfies
    cases satisfies
  | cons a early ih =>
    intro pre missing covered
    rw [List.cons_append, pgFindSatisfierFrom, pgFoundIn_snoc]
    split
    · exact ⟨_, _, rfl, by rw [List.length_cons]; omega⟩
    · rename_i incomplete
      obtain ⟨index, termIndex, run, lt⟩ := ih (pre ++ [a]) (pgFoundIn_incomplete incomplete)
        fun t member => by simpa using covered t member
      rw [List.length_append, List.length_singleton] at run lt
      exact ⟨index, termIndex, run, by rw [List.length_cons]; omega⟩

/-- The satisfier lies before a position of the trail when every term is met
alone before it. -/
theorem pgFindSatisfier_before {trail early late : List PgAssignment} {terms : List PgTerm}
    (split : trail = early ++ late) (nonempty : terms ≠ []) :
    (∃ index termIndex, pgIncompatibilityFindSatisfier trail terms = some (index, termIndex) ∧
        index < early.length) ↔
      ∀ t ∈ terms, PgMetAlone early t := by
  constructor
  · rintro ⟨index, termIndex, found, lt⟩ t member
    obtain ⟨pre, a, post, term, spec⟩ := pgIncompatibilityFindSatisfier_spec found
    obtain ⟨b, on, satisfies⟩ := spec.covered t member
    have whole : pre ++ [a] <+: trail := ⟨post, by rw [spec.split]; simp⟩
    have initial : pre ++ [a] <+: early := by
      refine List.prefix_of_prefix_length_le whole ⟨late, split.symm⟩ ?_
      rw [List.length_append, List.length_singleton, ← spec.index_eq]
      exact lt
    exact ⟨b, initial.subset on, satisfies⟩
  · intro covered
    obtain ⟨t, member⟩ := List.exists_mem_of_ne_nil terms nonempty
    obtain ⟨index, termIndex, run, lt⟩ := pgFindSatisfierFrom_covered late early []
      ⟨t, member, by simp⟩ (by simpa using covered)
    refine ⟨index, termIndex, ?_, by simpa using lt⟩
    unfold pgIncompatibilityFindSatisfier
    rw [if_neg (by simpa using nonempty), split]
    exact run

/-! ## Derivations and their causes -/

/-- The assignment was derived from a unit incompatibility. -/
def PgDerivedBy (pre : List PgAssignment) (a : PgAssignment) (terms : List PgTerm) : Prop :=
  ∃ w, PgUnit pre terms w ∧ a.pkg = w.pkg ∧ a.positive = !w.positive

theorem PgReachable.derivations {ctx : γ} {c : PgConfig γ}
    (reachable : PgReachable P ctx rootPkg rootVersion roots c) :
    PgDerivations PgDerivedBy c.solver := by
  obtain ⟨start, started, run⟩ := reachable
  have both := Reaches.invariant
    (I := fun d => PgWellFormed roots d ∧ PgDerivations PgDerivedBy d.solver) run
    ⟨PgWellFormed.start started.started, PgDerivations.start started.started⟩
    fun d holds => ⟨holds.1.step, (pgStep_transition P d).derivations holds.1
      (fun trail terms term id level unit => ⟨term, unit, rfl, rfl⟩) holds.2⟩
  exact both.2

/-- The resolution an iteration is about to make: the satisfier, its place on
the trail, and the term of the cause it was derived from. -/
structure PgResolution (s : PgSolver γ) (current cause : PgIncompatId) (index : Nat)
    (pre : List PgAssignment) (a : PgAssignment) (post : List PgAssignment) (term w : PgTerm) :
    Prop where
  split : s.trail = pre ++ a :: post
  index_eq : index = pre.length
  on_term : a.pkg = term.pkg
  mem_term : term ∈ s.terms current
  satisfies : pgAssignmentSatisfiesTerm a term = true
  first : ¬ PgMetAlone pre term
  covered : ∀ t ∈ s.terms current, PgMetAlone pre t ∨ pgAssignmentSatisfiesTerm a t = true
  tracked : s.Tracked cause
  unit : PgUnit pre (s.terms cause) w
  on_cause : a.pkg = w.pkg
  polarity : a.positive = !w.positive

theorem PgSatisfierAt.resolution {s : PgSolver γ} {current cause : PgIncompatId}
    {index termIndex : Nat} {satisfier : PgAssignment} {term : PgTerm}
    (at_ : PgSatisfierAt s current index termIndex satisfier term)
    (derivations : PgDerivations PgDerivedBy s) (hasCause : satisfier.cause = some cause) :
    ∃ pre post w, PgResolution s current cause index pre satisfier post term w := by
  obtain ⟨pre, post, spec⟩ := at_.spec
  obtain ⟨tracked, w, unit, on, polarity⟩ :=
    derivations pre satisfier post spec.split cause hasCause
  refine ⟨pre, post, w, ⟨spec.split, spec.index_eq, pgAssignmentSatisfiesTerm_pkg spec.satisfies,
    List.mem_of_getElem? spec.term_at, spec.satisfies, ?_, fun t member => ?_, tracked, unit, on,
    polarity⟩⟩
  · rintro ⟨b, member, satisfies⟩
    rw [spec.first b member] at satisfies
    cases satisfies
  · obtain ⟨b, member, satisfies⟩ := spec.covered t member
    rcases List.mem_append.mp member with old | new
    · exact Or.inl ⟨b, old, satisfies⟩
    · rw [List.mem_singleton.mp new] at satisfies
      exact Or.inr satisfies

/-- A term of the resolvent is met alone before the satisfier, or it is one of
the cause that was satisfied there. -/
theorem PgResolution.kept {s : PgSolver γ} {current cause : PgIncompatId} {index : Nat}
    {pre post : List PgAssignment} {a : PgAssignment} {term w : PgTerm}
    (resolution : PgResolution s current cause index pre a post term w)
    (member : t ∈ pgResolveTerms (s.terms current) (s.terms cause) term.pkg) :
    PgMetAlone pre t ∨
      (t ∈ s.terms cause ∧ t.pkg ≠ a.pkg ∧ pgTermState pre t = .satisfied) := by
  rcases List.mem_append.mp member with left | right
  · obtain ⟨on, other⟩ := List.mem_filter.mp left
    refine Or.inl ((resolution.covered t on).resolve_right fun satisfies => ?_)
    rw [← pgAssignmentSatisfiesTerm_pkg satisfies, resolution.on_term] at other
    simp at other
  · obtain ⟨on, other⟩ := List.mem_filter.mp right
    have apart : t.pkg ≠ a.pkg := by
      rw [resolution.on_term]
      exact of_decide_eq_true other
    refine Or.inr ⟨on, apart, (resolution.unit.others t on).resolve_left ?_⟩
    rintro rfl
    exact apart resolution.on_cause.symm

/-! ## Resolvents are not empty -/

/-- Only a positive assignment satisfies a positive term. -/
theorem pgAssignmentSatisfiesTerm_positive {a : PgAssignment}
    (satisfies : pgAssignmentSatisfiesTerm a t = true) (positive : t.positive = true) :
    a.positive = true := by
  by_contra negative
  simp [pgAssignmentSatisfiesTerm, negative, positive] at satisfies

/-- A positive term remains in the resolvent. -/
theorem PgResolution.positive {s : PgSolver γ} {current cause : PgIncompatId} {index : Nat}
    {pre post : List PgAssignment} {a : PgAssignment} {term w : PgTerm}
    (resolution : PgResolution s current cause index pre a post term w)
    (pinningCause : PgPinning (s.terms cause))
    (pinning : PgPinning (s.terms current) ∨ (s.terms current).length ≤ 1)
    (left : ∃ t ∈ s.terms current, t.positive = true)
    (right : ∃ t ∈ s.terms cause, t.positive = true) :
    ∃ t ∈ pgResolveTerms (s.terms current) (s.terms cause) term.pkg, t.positive = true := by
  obtain ⟨-, -, -, open_, -⟩ := id resolution.unit
  -- the side whose term on the package of the satisfier is negative
  cases polarity : w.positive with
  | false =>
    obtain ⟨t, member, positive⟩ := right
    have differs : t ≠ w := by
      rintro rfl
      rw [polarity] at positive
      cases positive
    have satisfied := (resolution.unit.others t member).resolve_left differs
    have other : t.pkg ≠ term.pkg := by
      intro same
      obtain ⟨v, exact_⟩ := pinningCause t member positive
      refine pgTermState_held satisfied positive exact_ ?_ open_
      rw [← resolution.on_cause, resolution.on_term, same]
    exact ⟨t, List.mem_append_right _ (List.mem_filter.mpr ⟨member, by simpa using other⟩),
      positive⟩
  | true =>
    have negative : a.positive = false := by rw [resolution.polarity, polarity]; rfl
    have opposite : ∀ t : PgTerm, t.positive = true →
        ¬ pgAssignmentSatisfiesTerm a t = true := by
      intro t positive satisfies
      rw [pgAssignmentSatisfiesTerm_positive satisfies positive] at negative
      cases negative
    obtain ⟨t, member, positive⟩ := left
    have termNegative : term.positive = false := by
      rw [Bool.eq_false_iff]
      exact fun own => opposite term own resolution.satisfies
    have other : t.pkg ≠ term.pkg := by
      intro same
      have met := (resolution.covered t member).resolve_right (opposite t positive)
      obtain ⟨b, on, satisfies⟩ := met
      have satisfied := pgTermState_of_satisfies on
        (pgAssignmentSatisfiesTerm_positive satisfies positive) satisfies
      rcases pinning with exact_ | single
      · obtain ⟨v, exact_⟩ := exact_ t member positive
        refine pgTermState_held satisfied positive exact_ ?_ open_
        rw [← resolution.on_cause, resolution.on_term, same]
      · obtain ⟨i, lt, here⟩ := List.mem_iff_getElem.mp member
        obtain ⟨j, lt', there⟩ := List.mem_iff_getElem.mp resolution.mem_term
        have first : i = j := by omega
        subst first
        rw [← here, there, termNegative] at positive
        cases positive
    exact ⟨t, List.mem_append_left _ (List.mem_filter.mpr ⟨member, by simpa using other⟩),
      positive⟩

/-- Every incompatibility has a positive term. -/
def PgAffirms (s : PgSolver γ) : Prop :=
  ∀ id, s.Tracked id → ∃ t ∈ s.terms id, t.positive = true

/-- What the positive terms of both sides of a resolution look like. -/
theorem PgShapes.sides {c : PgConfig γ} (shapes : PgShapes c) {current : PgIncompatId}
    (phase : c.phase = .resolve current) (tracked : c.solver.Tracked current) :
    PgPinning (c.solver.terms current) ∨ (c.solver.terms current).length ≤ 1 := by
  rcases shapes.pinning with all | ⟨id, same, single⟩ | ⟨status, done⟩
  · exact Or.inl (all current tracked)
  · rw [phase] at same
    cases same
    exact Or.inr single
  · rw [phase] at done
    cases done

theorem PgAffirms.step {c : PgConfig γ} (well : PgWellFormed roots c) (shapes : PgShapes c)
    (derivations : PgDerivations PgDerivedBy c.solver) (affirms : PgAffirms c.solver) :
    PgAffirms (pgStep P c).solver := by
  have step := pgStep_transition P c
  have extends_ : PgExtends c.solver (pgStep P c).solver :=
    step.extends fun current phase => by have h := well.refers; rw [phase] at h; exact h
  intro id tracked
  rcases step.clause tracked with before | clause
  · rw [extends_.terms before]
    exact affirms id before
  · generalize (pgStep P c).solver.terms id = terms at clause
    cases clause with
    | dependency => exact ⟨_, List.mem_cons_self, rfl⟩
    | noVersions => exact ⟨_, List.mem_cons_self, rfl⟩
    | @resolvent s current cause index termIndex satisfier term at_ undecided differs hasCause =>
      obtain ⟨pre, post, w, resolution⟩ := at_.resolution derivations hasCause
      have member : satisfier ∈ s.trail := by
        rw [resolution.split]
        simp
      exact resolution.positive (shapes.causes satisfier member cause hasCause)
        (shapes.sides rfl well.refers) (affirms current well.refers)
        (affirms cause resolution.tracked)

theorem PgAffirms.start {ctx : γ} {c : PgConfig γ}
    (started : PgStarted P ctx rootPkg rootVersion roots c) : PgAffirms c.solver := by
  intro id tracked
  obtain ⟨dep, same⟩ := started.terms tracked
  rw [same]
  exact ⟨_, List.mem_cons_self, rfl⟩

theorem PgReachable.affirms {ctx : γ} {c : PgConfig γ}
    (reachable : PgReachable P ctx rootPkg rootVersion roots c) : PgAffirms c.solver := by
  obtain ⟨start, started, run⟩ := reachable
  refine (Guarded.invariant (I := fun d => PgReachable P ctx rootPkg rootVersion roots d ∧
    PgAffirms d.solver) run ⟨⟨start, started, Guarded.refl start⟩,
      PgAffirms.start started.started⟩ fun d _ holds => ?_).2
  have here := holds.1
  exact ⟨here.later (reaches_iterate 1 d),
    holds.2.step here.wellFormed here.shapes here.derivations⟩

/-! ## One iteration after the other -/

/-- The states of the loop of `pg_resolve_conflict`. -/
def PgPhase.resolving : PgPhase → Bool
  | .resolve _ => true
  | _ => false

/-- `pg_resolve_conflict` returns. -/
def PgResolves (P : PgDependencyProvider γ) (c : PgConfig γ) : Prop :=
  ∃ c', Guarded (pgStep P) (fun d => d.phase.resolving = true) c c' ∧ c'.phase.resolving = false

/-- One iteration that resolves: what it has found, and what it tracks. -/
theorem PgResolveOutcome.resolution {s s' : PgSolver γ} {current next : PgIncompatId}
    (outcome : PgResolveOutcome s current s' (.resolved next))
    (derivations : PgDerivations PgDerivedBy s) :
    ∃ index termIndex satisfier term cause pre post w,
      PgSatisfierAt s current index termIndex satisfier term ∧ satisfier.cause = some cause ∧
        PgResolution s current cause index pre satisfier post term w ∧ s'.trail = s.trail ∧
        s'.terms next = pgResolveTerms (s.terms current) (s.terms cause) term.pkg := by
  cases outcome with
  | @resolved index termIndex satisfier term cause at_ undecided differs hasCause =>
    obtain ⟨pre, post, w, resolution⟩ := at_.resolution derivations hasCause
    exact ⟨index, termIndex, satisfier, term, cause, pre, post, w, at_, hasCause, resolution,
      rfl, pgResolveWith_terms s current cause term.pkg⟩

/-- Where the next satisfier is not earlier, the next iteration does not resolve:
the term it would resolve on is held by the assignments before it, so that
nothing more is derived on its package. -/
theorem PgResolution.stops {s s' : PgSolver γ} {current cause next : PgIncompatId} {index : Nat}
    {pre post : List PgAssignment} {a : PgAssignment} {term w : PgTerm}
    (resolution : PgResolution s current cause index pre a post term w)
    (pinning : PgPinning (s.terms cause)) (derivations : PgDerivations PgDerivedBy s')
    (trail : s'.trail = s.trail)
    (terms : s'.terms next = pgResolveTerms (s.terms current) (s.terms cause) term.pkg)
    {later termIndex : Nat} (found : pgIncompatibilityFindSatisfier s'.trail (s'.terms next) =
      some (later, termIndex)) (notBefore : index ≤ later) {s'' : PgSolver γ}
    {last : PgIncompatId} : ¬ PgResolveOutcome s' next s'' (.resolved last) := by
  intro outcome
  obtain ⟨index', termIndex', b, t, cause', pre', post', w', at_, -, again, -, -⟩ :=
    outcome.resolution derivations
  have same : index' = later := by
    have both := at_.found.symm.trans found
    cases both
    rfl
  have initial : pre <+: pre' := by
    have left : pre <+: s.trail := ⟨_, resolution.split.symm⟩
    have right : pre' <+: s.trail := ⟨_, (again.split.symm.trans trail)⟩
    refine List.prefix_of_prefix_length_le left right ?_
    rw [← resolution.index_eq, ← again.index_eq, same]
    exact notBefore
  have member := again.mem_term
  rw [terms] at member
  rcases resolution.kept member with early | ⟨onCause, -, satisfied⟩
  · exact again.first (early.longer initial)
  · obtain ⟨-, -, -, open_, -⟩ := id again.unit
    have held := (pgTermState_longer initial).1 satisfied
    refine again.first (PgMetAlone.of_open held (pinning t onCause) ?_ open_)
    rw [← again.on_cause, again.on_term]

/-- An iteration that does not resolve ends the loop. -/
theorem pgStep_resolving {s : PgSolver γ} {current : PgIncompatId}
    (resolving : (pgStep P ⟨.resolve current, s⟩).phase.resolving = true) :
    ∃ s' next, pgResolveConflictIteration s current = (s', .resolved next) ∧
      pgStep P ⟨.resolve current, s⟩ = ⟨.resolve next, s'⟩ := by
  simp only [pgStep] at resolving ⊢
  split
  · rename_i run
    rw [run] at resolving
    cases resolving
  · rename_i s' next run
    exact ⟨s', next, run, rfl⟩
  · rename_i run
    rw [run] at resolving
    cases resolving

/-- The loop returns, by induction on the position of the satisfier. -/
theorem PgReachable.resolves {ctx : γ} : ∀ (index : Nat) (s : PgSolver γ) (current : PgIncompatId),
      PgReachable P ctx rootPkg rootVersion roots ⟨.resolve current, s⟩ →
      (∀ later termIndex,
        pgIncompatibilityFindSatisfier s.trail (s.terms current) = some (later, termIndex) →
          later < index ∨ ∀ s' next, ¬ PgResolveOutcome s current s' (.resolved next)) →
      PgResolves P ⟨.resolve current, s⟩ := by
  intro index
  induction index using Nat.strong_induction_on with
  | _ index ih =>
    intro s current reachable bounded
    have first : Guarded (pgStep P) (fun d => d.phase.resolving = true)
        ⟨.resolve current, s⟩ (pgStep P ⟨.resolve current, s⟩) := (Guarded.refl _).next rfl
    by_cases resolving : (pgStep P ⟨.resolve current, s⟩).phase.resolving = true
    · obtain ⟨s', next, run, step⟩ := pgStep_resolving resolving
      have outcome := pgResolveConflictIteration_outcome run
      obtain ⟨here, termIndex, satisfier, term, cause, pre, post, w, at_, hasCause, resolution,
        trail, terms⟩ := outcome.resolution reachable.derivations
      have reachable' : PgReachable P ctx rootPkg rootVersion roots ⟨.resolve next, s'⟩ := by
        rw [← step]
        exact reachable.later first
      have member : satisfier ∈ s.trail := by
        rw [resolution.split]
        simp
      have pinning := reachable.shapes.causes satisfier member cause hasCause
      have low : here < index :=
        (bounded here termIndex at_.found).resolve_right fun none => none s' next outcome
      have stops : ∀ later termIndex', pgIncompatibilityFindSatisfier s'.trail (s'.terms next) =
          some (later, termIndex') →
            later < here ∨ ∀ s'' last, ¬ PgResolveOutcome s' next s'' (.resolved last) := by
        intro later termIndex' found
        rcases Nat.lt_or_ge later here with lt | ge
        · exact Or.inl lt
        · exact Or.inr fun s'' last => resolution.stops pinning reachable'.derivations trail terms
            found ge
      obtain ⟨c', rest, out⟩ := ih here low s' next reachable' stops
      rw [step] at first
      exact ⟨c', first.trans rest, out⟩
    · exact ⟨_, first, by simpa using resolving⟩

/-! ## Where the next satisfier is earlier -/

/-- The iteration replaces the incompatibility by one whose satisfier is strictly
earlier on the trail. -/
def PgSatisfierEarlier (s : PgSolver γ) (current : PgIncompatId) (s' : PgSolver γ)
    (next : PgIncompatId) : Prop :=
  ∃ index termIndex later termIndex',
    pgIncompatibilityFindSatisfier s.trail (s.incompat current).terms = some (index, termIndex) ∧
      pgIncompatibilityFindSatisfier s'.trail (s'.incompat next).terms =
        some (later, termIndex') ∧ later < index

/-- What the satisfier's cause says about other packages is met by single
assignments before the satisfier: each exact version it names and, where the root
version does not fit the root requirements, each of its terms on the root
package. -/
def PgCauseMetAlone (rootPkg : PgPackageId) (rootVersion : PgVersion) (roots : List PgDependency)
    (s : PgSolver γ) (current : PgIncompatId) : Prop :=
  ∀ index termIndex cause,
    pgIncompatibilityFindSatisfier s.trail (s.incompat current).terms = some (index, termIndex) →
      (s.trail.getD index pgNoAssignment).cause = some cause →
      ∀ t ∈ (s.incompat cause).terms, t.pkg ≠ (s.trail.getD index pgNoAssignment).pkg →
        (t.positive = true ∨ (t.pkg = rootPkg ∧ ¬ PgRootFits rootPkg rootVersion roots)) →
        PgMetAlone (s.trail.take index) t

/-- The loop of `pg_resolve_conflict` returns from every reachable conflict, and an
iteration moves to an earlier satisfier exactly where the cause is met by single
assignments. -/
theorem pgResolveConflict_descends {ctx : γ} {rootPkg : PgPackageId} {rootVersion : PgVersion}
    {roots : List PgDependency} {s : PgSolver γ} {current : PgIncompatId}
    (reachable : PgReachable P ctx rootPkg rootVersion roots ⟨.resolve current, s⟩) :
    PgResolves P ⟨.resolve current, s⟩ ∧
      ∀ s' next, pgResolveConflictIteration s current = (s', .resolved next) →
        (PgSatisfierEarlier s current s' next ↔
          PgCauseMetAlone rootPkg rootVersion roots s current) := by
  refine ⟨PgReachable.resolves s.trail.length s current reachable fun later termIndex found => ?_,
    fun s' next run => ?_⟩
  · obtain ⟨pre, a, post, term, spec⟩ := pgIncompatibilityFindSatisfier_spec found
    left
    rw [spec.split, spec.index_eq]
    simp
  · obtain ⟨index, termIndex, satisfier, term, cause, pre, post, w, at_, hasCause, resolution,
      trail, terms⟩ := (pgResolveConflictIteration_outcome run).resolution reachable.derivations
    have member : satisfier ∈ s.trail := by
      rw [resolution.split]
      simp
    have before : s.trail.take index = pre := by
      rw [resolution.split, resolution.index_eq, List.take_left]
    have nonempty : s'.terms next ≠ [] := by
      have tracked : s.Tracked current := reachable.wellFormed.refers
      have affirms := reachable.affirms
      obtain ⟨t, on, -⟩ := resolution.positive
        (reachable.shapes.causes satisfier member cause hasCause)
        (reachable.shapes.sides rfl tracked) (affirms current tracked)
        (affirms cause resolution.tracked)
      rw [terms]
      exact List.ne_nil_of_mem on
    have earlier : PgSatisfierEarlier s current s' next ↔
        ∀ t ∈ s'.terms next, PgMetAlone pre t := by
      rw [← pgFindSatisfier_before (trail.trans resolution.split) nonempty, ← resolution.index_eq]
      constructor
      · rintro ⟨i, j, later, termIndex', found, found', lt⟩
        have same := at_.found.symm.trans found
        cases same
        exact ⟨later, termIndex', found', lt⟩
      · rintro ⟨later, termIndex', found', lt⟩
        exact ⟨index, termIndex, later, termIndex', at_.found, found', lt⟩
    rw [earlier]
    constructor
    · intro met i j cause' found hasCause' t on other _
      have same := at_.found.symm.trans found
      cases same
      rw [← at_.satisfier_eq] at hasCause' other
      rw [hasCause] at hasCause'
      cases hasCause'
      rw [before]
      refine met t ?_
      rw [terms]
      refine List.mem_append_right _ (List.mem_filter.mpr ⟨on, ?_⟩)
      rw [← resolution.on_term]
      exact decide_eq_true other
    · intro alone t on
      rw [terms] at on
      rcases resolution.kept on with met | ⟨onCause, other, satisfied⟩
      · exact met
      · by_cases asked : t.positive = true ∨
            (t.pkg = rootPkg ∧ ¬ PgRootFits rootPkg rootVersion roots)
        · rw [← before]
          refine alone index termIndex cause at_.found ?_ t onCause ?_ asked
          · rw [← at_.satisfier_eq]
            exact hasCause
          · rw [← at_.satisfier_eq]
            exact other
        · rw [not_or, not_and, not_not] at asked
          have meet := reachable.trailTracked.meet t.pkg asked.2
          exact PgMetAlone.of_meet satisfied (by simpa using asked.1)
            (meet.initial ⟨_, resolution.split.symm⟩)

/-! ## An exact version that two ranges pin together -/

/-- The versions from one major version to another, both included. -/
def pgMajors (first last : UInt16) : PgVersionRange where
  lower := { v := ⟨first, 0, 0⟩, inclusive := true, unbounded := false }
  upper := { v := ⟨last, 0, 0⟩, inclusive := true, unbounded := false }
  isEmpty := false

/-- Two dependencies of the root leave version 2.0.0 of package 1 only. -/
def pgPinched : PgProblem where
  listing := .ofTables [(1, [⟨2, 0, 0⟩]), (2, [⟨3, 0, 0⟩]), (3, [⟨1, 0, 0⟩])]
    [((0, ⟨1, 0, 0⟩), [(1, pgMajors 1 2), (1, pgMajors 2 3), (3, pgMajors 1 2)]),
      ((1, ⟨2, 0, 0⟩), [(2, pgMajors 3 4)]), ((2, ⟨3, 0, 0⟩), [(3, pgMajors 3 3)])]
  rootPkg := 0
  rootVersion := ⟨1, 0, 0⟩
  roots := []

/-- The first configuration of its run. -/
def pgPinchedStart : PgConfig Unit :=
  pgSolverStart pgPinched.listing.provider
    (pgRootsPushed (pgSolverNew () pgPinched.rootPkg pgPinched.rootVersion) pgPinched.roots)

/-- The solver once its conflict has been resolved with the dependency of
package 2. -/
def pgPinchedSolver : PgSolver Unit := (pgRun pgPinched.listing.provider 98 pgPinchedStart).solver

theorem PgReachable.conflict {ctx : γ} {c : PgConfig γ} {current : PgIncompatId}
    (reachable : PgReachable P ctx rootPkg rootVersion roots c)
    (phase : c.phase = .resolve current) :
    PgReachable P ctx rootPkg rootVersion roots ⟨.resolve current, c.solver⟩ := by
  cases c
  cases phase
  exact reachable

/-- The conflict of its run that is resolved with the dependency of package 2. -/
theorem pgPinched_conflict : PgReachable pgPinched.listing.provider () pgPinched.rootPkg
    pgPinched.rootVersion pgPinched.roots ⟨.resolve 5, pgPinchedSolver⟩ := by
  have phase : (pgRun pgPinched.listing.provider 98 pgPinchedStart).phase = .resolve 5 := by
    decide +kernel
  exact PgReachable.conflict
    ⟨pgPinchedStart, ⟨_, rfl, rfl⟩, reaches_iterate 98 pgPinchedStart⟩ phase

theorem pgPinched_resolved : pgResolveConflictIteration pgPinchedSolver 5 =
    ((pgResolveConflictIteration pgPinchedSolver 5).1, .resolved 6) := by
  have run : (pgResolveConflictIteration pgPinchedSolver 5).2 = .resolved 6 := by
    decide +kernel
  rw [← run]

theorem pgPinched_not_earlier :
    ¬ PgSatisfierEarlier pgPinchedSolver 5 (pgResolveConflictIteration pgPinchedSolver 5).1 6 := by
  rintro ⟨index, termIndex, later, termIndex', -, found, -⟩
  have none : pgIncompatibilityFindSatisfier
      (pgResolveConflictIteration pgPinchedSolver 5).1.trail
      ((pgResolveConflictIteration pgPinchedSolver 5).1.incompat 6).terms = none := by
    decide +kernel
  rw [none] at found
  cases found

/-- The loop returns there, without an earlier satisfier. -/
theorem pgResolveConflict_descends_pinched :
    PgResolves pgPinched.listing.provider ⟨.resolve 5, pgPinchedSolver⟩ ∧
      ¬ PgCauseMetAlone pgPinched.rootPkg pgPinched.rootVersion pgPinched.roots
        pgPinchedSolver 5 :=
  have descends := pgResolveConflict_descends pgPinched_conflict
  ⟨descends.1, fun met => pgPinched_not_earlier ((descends.2 _ _ pgPinched_resolved).mpr met)⟩

/-- The resolvent has no satisfier: no assignment alone leaves version 2.0.0. -/
theorem pgResolveConflict_descends_fails :
    ¬ ∀ s current, PgReachable pgPinched.listing.provider () pgPinched.rootPkg
        pgPinched.rootVersion pgPinched.roots ⟨.resolve current, s⟩ →
      ∀ s' next, pgResolveConflictIteration s current = (s', .resolved next) →
        PgSatisfierEarlier s current s' next := fun claim =>
  pgPinched_not_earlier (claim _ _ pgPinched_conflict _ _ pgPinched_resolved)

end ElmWrap
