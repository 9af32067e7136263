import ElmWrap.PgSolver.Positives
import ElmWrap.PgSolver.Backjump

/-!
# When `pg_term_state` answers by meaning

A trail allows a choice for a package, a version or none, when every assignment
for the package is respected. `pg_term_state` is meant to compare a term with
all choices that are allowed; it works with the bounds of one positive range and
with the mere presence of a negative assignment that overlaps the term. The main
result says exactly where the two agree.
-/

namespace ElmWrap

open Lib

/-! ## The choices a trail allows -/

/-- A choice for the package respects the trail. -/
def PgAllowed (trail : List PgAssignment) (pkg : PgPackageId) (x : Option PgVersion) : Prop :=
  ∀ a ∈ trail, a.pkg = pkg → a.Admits x

/-- The state of a term as the choices that the trail allows have it. -/
structure PgTermMeaning (trail : List PgAssignment) (term : PgTerm) (state : PgTermState) :
    Prop where
  satisfied : state = .satisfied ↔ ∀ x, PgAllowed trail term.pkg x → term.Admits x
  contradicted : state = .contradicted ↔ ∀ x, PgAllowed trail term.pkg x → ¬ term.Admits x
  inconclusive : state = .inconclusive ↔
    (∃ x, PgAllowed trail term.pkg x ∧ term.Admits x) ∧
      ∃ x, PgAllowed trail term.pkg x ∧ ¬ term.Admits x

variable {trail : List PgAssignment} {pkg : PgPackageId} {term : PgTerm} {range : PgVersionRange}

/-- The verdict that fits, by whether an allowed choice meets the term and
whether one does not. -/
theorem pgTermMeaning_iff {state : PgTermState} :
    PgTermMeaning trail term state ↔
      ((∃ x, PgAllowed trail term.pkg x ∧ term.Admits x) ↔ state ≠ .contradicted) ∧
        ((∃ x, PgAllowed trail term.pkg x ∧ ¬ term.Admits x) ↔ state ≠ .satisfied) := by
  have none : (∀ x, PgAllowed trail term.pkg x → ¬ term.Admits x) ↔
      ¬ ∃ x, PgAllowed trail term.pkg x ∧ term.Admits x := by
    simp only [not_exists, not_and]
  have all : (∀ x, PgAllowed trail term.pkg x → term.Admits x) ↔
      ¬ ∃ x, PgAllowed trail term.pkg x ∧ ¬ term.Admits x := by
    simp only [not_exists, not_and, not_not]
  constructor
  · rintro ⟨satisfied, contradicted, -⟩
    rw [all] at satisfied
    rw [none] at contradicted
    exact ⟨by rw [ne_eq, contradicted, not_not], by rw [ne_eq, satisfied, not_not]⟩
  · rintro ⟨meets, misses⟩
    refine ⟨by rw [all, misses, not_not], by rw [none, meets, not_not], ?_⟩
    rw [meets, misses]
    cases state <;> simp

/-! ## The ranges `pg_term_state` works with -/

/-- What the positive assignments of a package have in common. -/
def pgPositiveRange (trail : List PgAssignment) (pkg : PgPackageId) : Option PgVersionRange :=
  (trail.filter (pgPositiveFor pkg)).foldl (fun common a =>
    some (match common with
      | none => a.range
      | some range => pgRangeIntersect range a.range)) none

/-- A negative assignment for the package of a term overlaps its range. -/
def pgOverlapped (trail : List PgAssignment) (term : PgTerm) : Bool :=
  trail.any fun a => a.pkg = term.pkg && !a.positive &&
    !(pgRangeIntersect term.range a.range).isEmpty

theorem pgPositiveRange_append (trail : List PgAssignment) (a : PgAssignment)
    (pkg : PgPackageId) :
    pgPositiveRange (trail ++ [a]) pkg =
      if pgPositiveFor pkg a then
        some (match pgPositiveRange trail pkg with
          | none => a.range
          | some range => pgRangeIntersect range a.range)
      else pgPositiveRange trail pkg := by
  unfold pgPositiveRange
  rw [filter_positive_append, List.foldl_append]
  cases pgPositiveFor pkg a <;> rfl

theorem pgTermScan_eq (trail : List PgAssignment) (term : PgTerm) :
    pgTermScan trail term =
      ⟨pgPositiveRange trail term.pkg, term.positive && pgOverlapped trail term⟩ := by
  induction trail using List.reverseRecOn with
  | nil => simp [pgTermScan, pgPositiveRange, pgOverlapped]
  | append_singleton trail a ih =>
    rw [pgTermScan_append, ih]
    have overlapped : pgOverlapped (trail ++ [a]) term = (pgOverlapped trail term ||
        (a.pkg = term.pkg && !a.positive && !(pgRangeIntersect term.range a.range).isEmpty)) := by
      simp [pgOverlapped]
    rw [pgPositiveRange_append, overlapped]
    unfold pgTermScanStep pgPositiveFor
    by_cases same : a.pkg = term.pkg
    · cases a.positive
      · cases term.positive
        · simp [same]
        · cases (pgRangeIntersect term.range a.range).isEmpty <;> simp [same]
      · cases pgPositiveRange trail term.pkg <;> simp [same]
    · simp [same]

theorem pgPositiveRange_none (none : pgPositiveRange trail pkg = none) (a : PgAssignment) :
    ¬ PgPositiveOn trail pkg a := by
  have scan := pgTermScan_eq trail { pkg := pkg, range := pgRangeAny, positive := true }
  exact pgTermScan_none (by rw [scan]; exact none) a

theorem pgPositiveRange_some (some : pgPositiveRange trail pkg = some range) :
    (∃ a, PgPositiveOn trail pkg a) ∧
      ∀ v, pgRangeContains range v = true ↔
        ∀ a, PgPositiveOn trail pkg a → pgRangeContains a.range v = true := by
  have scan := pgTermScan_eq trail { pkg := pkg, range := pgRangeAny, positive := true }
  have found := congrArg PgTermScan.positiveRange scan
  exact pgTermScan_some (found.trans some)

/-! ## Allowed versions -/

theorem pgSolverVersionIsForbidden_iff {v : PgVersion} :
    pgSolverVersionIsForbidden trail pkg v = true ↔
      ∃ a ∈ trail, a.pkg = pkg ∧ a.positive = false ∧ pgRangeContains a.range v = true := by
  simp [pgSolverVersionIsForbidden, and_assoc]

theorem pgAllowed_some {v : PgVersion} :
    PgAllowed trail pkg (some v) ↔
      (∀ a, PgPositiveOn trail pkg a → pgRangeContains a.range v = true) ∧
        pgSolverVersionIsForbidden trail pkg v = false := by
  rw [Bool.eq_false_iff, ne_eq, pgSolverVersionIsForbidden_iff]
  constructor
  · intro allowed
    constructor
    · rintro a ⟨member, same, positive⟩
      have admits := allowed a member same
      rw [PgAssignment.Admits, positive, pgAdmits_positive] at admits
      obtain ⟨w, here, inside⟩ := admits
      cases here
      exact inside
    · rintro ⟨a, member, same, negative, inside⟩
      have admits := allowed a member same
      rw [PgAssignment.Admits, negative, pgAdmits_negative] at admits
      rw [admits v rfl] at inside
      cases inside
  · rintro ⟨positives, free⟩ a member same
    rw [PgAssignment.Admits]
    cases polarity : a.positive with
    | true => exact pgAdmits_positive.mpr ⟨v, rfl, positives a ⟨member, same, polarity⟩⟩
    | false =>
      refine pgAdmits_negative.mpr fun w here => ?_
      cases here
      by_contra inside
      exact free ⟨a, member, same, polarity, by simpa using inside⟩

theorem pgAllowed_none :
    PgAllowed trail pkg none ↔ ∀ a, ¬ PgPositiveOn trail pkg a := by
  constructor
  · rintro allowed a ⟨member, same, positive⟩
    have admits := allowed a member same
    rw [PgAssignment.Admits, positive, pgAdmits_positive] at admits
    obtain ⟨w, here, -⟩ := admits
    cases here
  · intro none a member same
    rw [PgAssignment.Admits]
    cases polarity : a.positive with
    | true => exact absurd ⟨member, same, polarity⟩ (none a)
    | false => exact pgAdmits_negative.mpr fun w here => by cases here

/-- A version that no negative assignment forbids and all positive assignments
allow, inside or outside of a range. -/
def PgFreeVersion (trail : List PgAssignment) (pkg : PgPackageId) (range : PgVersionRange)
    (inside : Bool) : Prop :=
  ∃ v, (∀ r, pgPositiveRange trail pkg = some r → pgRangeContains r v = true) ∧
    pgSolverVersionIsForbidden trail pkg v = false ∧ pgRangeContains range v = inside

theorem pgAllowed_some_iff {v : PgVersion} :
    PgAllowed trail pkg (some v) ↔
      (∀ r, pgPositiveRange trail pkg = some r → pgRangeContains r v = true) ∧
        pgSolverVersionIsForbidden trail pkg v = false := by
  rw [pgAllowed_some]
  refine and_congr_left fun _ => ?_
  cases range : pgPositiveRange trail pkg with
  | none =>
    constructor
    · intro _ r same
      cases same
    · exact fun _ a on => absurd on (pgPositiveRange_none range a)
  | some found =>
    rw [← (pgPositiveRange_some range).2 v]
    constructor
    · rintro inside r same
      cases same
      exact inside
    · exact fun all => all found rfl

theorem pgAllowed_none_iff :
    PgAllowed trail pkg none ↔ pgPositiveRange trail pkg = none := by
  rw [pgAllowed_none]
  cases range : pgPositiveRange trail pkg with
  | none => exact iff_of_true (pgPositiveRange_none range) rfl
  | some found =>
    obtain ⟨⟨a, on⟩, -⟩ := pgPositiveRange_some range
    exact iff_of_false (fun none => none a on) (by simp)

/-- An allowed choice meets a positive term: a free version inside its range.
For a negative term no choice at all will do as well. -/
theorem pgTerm_met_iff (trail : List PgAssignment) (term : PgTerm) :
    (∃ x, PgAllowed trail term.pkg x ∧ term.Admits x) ↔
      PgFreeVersion trail term.pkg term.range term.positive ∨
        (term.positive = false ∧ pgPositiveRange trail term.pkg = none) := by
  unfold PgTerm.Admits
  constructor
  · rintro ⟨x, allowed, admits⟩
    cases x with
    | none =>
      cases polarity : term.positive with
      | true =>
        rw [polarity, pgAdmits_positive] at admits
        obtain ⟨w, here, -⟩ := admits
        cases here
      | false => exact Or.inr ⟨rfl, pgAllowed_none_iff.mp allowed⟩
    | some v =>
      obtain ⟨inRange, free⟩ := pgAllowed_some_iff.mp allowed
      refine Or.inl ⟨v, inRange, free, ?_⟩
      cases polarity : term.positive with
      | true =>
        rw [polarity, pgAdmits_positive] at admits
        obtain ⟨w, here, inside⟩ := admits
        cases here
        exact inside
      | false =>
        rw [polarity, pgAdmits_negative] at admits
        exact admits v rfl
  · rintro (⟨v, inRange, free, side⟩ | ⟨polarity, unset⟩)
    · refine ⟨some v, pgAllowed_some_iff.mpr ⟨inRange, free⟩, ?_⟩
      cases polarity : term.positive with
      | true => exact pgAdmits_positive.mpr ⟨v, rfl, side.trans polarity⟩
      | false =>
        refine pgAdmits_negative.mpr fun w here => ?_
        cases here
        exact side.trans polarity
    · refine ⟨none, pgAllowed_none_iff.mpr unset, ?_⟩
      rw [polarity]
      exact pgAdmits_negative.mpr fun w here => by cases here

/-- An allowed choice that does not meet a term meets its negation. -/
theorem pgTerm_missed_iff :
    (∃ x, PgAllowed trail term.pkg x ∧ ¬ term.Admits x) ↔
      PgFreeVersion trail term.pkg term.range (!term.positive) ∨
        (term.positive = true ∧ pgPositiveRange trail term.pkg = none) := by
  have negated := pgTerm_met_iff trail { term with positive := !term.positive }
  simp only [PgTerm.Admits, pgAdmits_not, Bool.not_eq_false'] at negated
  exact negated

/-! ## The condition -/

/-- The verdicts that fit, branch by branch. -/
def PgBoundsTell (trail : List PgAssignment) (term : PgTerm) : Prop :=
  match pgPositiveRange trail term.pkg with
  | none =>
    if term.positive && pgOverlapped trail term then
      ¬ PgFreeVersion trail term.pkg term.range true
    else PgFreeVersion trail term.pkg term.range true
  | some range =>
    (PgFreeVersion trail term.pkg term.range true ∨
      PgFreeVersion trail term.pkg term.range false) ∧
    if pgRangeSubset range term.range then term.positive = true → term.range.isEmpty = false
    else if (pgRangeIntersect range term.range).isEmpty then True
    else if term.positive && pgOverlapped trail term then
      ¬ PgFreeVersion trail term.pkg term.range true
    else PgFreeVersion trail term.pkg term.range true ∧
      PgFreeVersion trail term.pkg term.range false

/-- Within a range that misses the positive one no version is free. -/
theorem PgFreeVersion.not_disjoint {range other : PgVersionRange}
    (positive : pgPositiveRange trail pkg = some range)
    (empty : (pgRangeIntersect range other).isEmpty = true) :
    ¬ PgFreeVersion trail pkg other true := by
  rintro ⟨v, inRange, -, inside⟩
  rw [pgRangeIntersect_disjoint empty (inRange range positive)] at inside
  cases inside

/-- Around the positive range no version outside is free. -/
theorem PgFreeVersion.not_subset {range other : PgVersionRange}
    (positive : pgPositiveRange trail pkg = some range) (subset : pgRangeSubset range other = true)
    (unflagged : other.isEmpty = false) :
    ¬ PgFreeVersion trail pkg other false := by
  rintro ⟨v, inRange, -, outside⟩
  rw [pgRangeContains_of_subset subset unflagged (inRange range positive)] at outside
  cases outside

theorem PgFreeVersion.not_flagged (flag : range.isEmpty = true) :
    ¬ PgFreeVersion trail pkg range true := by
  rintro ⟨v, -, -, inside⟩
  rw [(pgRangeContains_iff.mp inside).1] at flag
  cases flag

/-- The package of a term has no positive assignment. -/
theorem pgTermMeaning_unbounded (unset : pgPositiveRange trail term.pkg = none) :
    PgTermMeaning trail term (pgTermState trail term) ↔ PgBoundsTell trail term := by
  rw [pgTermMeaning_iff, pgTerm_met_iff, pgTerm_missed_iff, pgTermState_eq, pgTermScan_eq]
  simp only [PgBoundsTell, unset]
  cases positive : term.positive with
  | true =>
    cases pgOverlapped trail term <;> simp
  | false => simp

/-- A positive term over a positive range. -/
theorem pgTermMeaning_positive (bounded : pgPositiveRange trail term.pkg = some range)
    (positive : term.positive = true) :
    PgTermMeaning trail term (pgTermState trail term) ↔ PgBoundsTell trail term := by
  rw [pgTermMeaning_iff, pgTerm_met_iff, pgTerm_missed_iff, pgTermState_eq, pgTermScan_eq]
  simp only [PgBoundsTell, bounded, positive, Bool.true_and, if_true, Bool.not_true,
    reduceCtorEq, and_false, or_false]
  by_cases subset : pgRangeSubset range term.range = true
  · simp only [subset, if_true]
    cases flag : term.range.isEmpty with
    | true => simp [PgFreeVersion.not_flagged flag]
    | false => simp [PgFreeVersion.not_subset bounded subset flag]
  · simp only [subset, Bool.false_eq_true, if_false]
    cases empty : (pgRangeIntersect range term.range).isEmpty with
    | true => simp [PgFreeVersion.not_disjoint bounded empty]
    | false =>
      cases pgOverlapped trail term with
      | true => simp; tauto
      | false => simp; tauto

/-- A negative term over a positive range. -/
theorem pgTermMeaning_negative (bounded : pgPositiveRange trail term.pkg = some range)
    (negative : term.positive = false) :
    PgTermMeaning trail term (pgTermState trail term) ↔ PgBoundsTell trail term := by
  rw [pgTermMeaning_iff, pgTerm_met_iff, pgTerm_missed_iff, pgTermState_eq, pgTermScan_eq]
  simp only [PgBoundsTell, bounded, negative, Bool.false_and, Bool.false_eq_true, if_false,
    Bool.not_false, reduceCtorEq, and_false, or_false, false_implies]
  cases empty : (pgRangeIntersect range term.range).isEmpty with
  | true => simp [PgFreeVersion.not_disjoint bounded empty]
  | false =>
    have unflagged := (pgRangeIntersect_flags empty).2
    by_cases subset : pgRangeSubset range term.range = true
    · simp [subset, PgFreeVersion.not_subset bounded subset unflagged]
    · simp [subset]
      tauto

theorem pgTermMeaning_branches (trail : List PgAssignment) (term : PgTerm) :
    PgTermMeaning trail term (pgTermState trail term) ↔ PgBoundsTell trail term := by
  cases bounded : pgPositiveRange trail term.pkg with
  | none => exact pgTermMeaning_unbounded bounded
  | some range =>
    cases polarity : term.positive with
    | true => exact pgTermMeaning_positive bounded polarity
    | false => exact pgTermMeaning_negative bounded polarity

/-! ## What the ranges have to be like -/

/-- The positive assignments allow the version, and it is inside or outside of the range. -/
def PgShared (trail : List PgAssignment) (pkg : PgPackageId) (range : PgVersionRange)
    (inside : Bool) (v : PgVersion) : Prop :=
  (∀ r, pgPositiveRange trail pkg = some r → pgRangeContains r v = true) ∧
    pgRangeContains range v = inside

/-- The negative assignments rule out all these versions. -/
def PgRuledOut (trail : List PgAssignment) (pkg : PgPackageId) (range : PgVersionRange)
    (inside : Bool) : Prop :=
  ∀ v, PgShared trail pkg range inside v → pgSolverVersionIsForbidden trail pkg v = true

/-- The bounds of a range and of a term are as exact as their versions. -/
structure PgBoundsExact (range : PgVersionRange) (term : PgTerm) : Prop where
  within : (∀ v, pgRangeContains range v = true → pgRangeContains term.range v = true) →
    pgRangeSubset range term.range = true
  apart : (∀ v, pgRangeContains range v = true → pgRangeContains term.range v = false) →
    (pgRangeIntersect range term.range).isEmpty = true
  unflagged : term.positive = true → pgRangeSubset range term.range = true →
    term.range.isEmpty = false

/-- How the ranges of a package and of a term have to lie: the negative ranges leave a version of
the positive one. Where one of them overlaps a positive term they rule out all that is shared with
it, unless the positive range lies within the term. Where none does, the bounds are exact, and the
negative ranges rule out neither all that is shared with the term nor all that is outside of it. -/
structure PgRangesTell (trail : List PgAssignment) (term : PgTerm) : Prop where
  left : ∀ range, pgPositiveRange trail term.pkg = some range →
    ∃ v, pgRangeContains range v = true ∧ pgSolverVersionIsForbidden trail term.pkg v = false
  overlapped : (term.positive && pgOverlapped trail term) = true →
    (∃ range, pgPositiveRange trail term.pkg = some range ∧
      pgRangeSubset range term.range = true) ∨ PgRuledOut trail term.pkg term.range true
  exact_ : (term.positive && pgOverlapped trail term) = false →
    ∀ range, pgPositiveRange trail term.pkg = some range → PgBoundsExact range term
  inside : (term.positive && pgOverlapped trail term) = false →
    pgPositiveRange trail term.pkg = none ∨ (∃ v, PgShared trail term.pkg term.range true v) →
    ¬ PgRuledOut trail term.pkg term.range true
  outside : (term.positive && pgOverlapped trail term) = false →
    pgPositiveRange trail term.pkg ≠ none → (∃ v, PgShared trail term.pkg term.range false v) →
    ¬ PgRuledOut trail term.pkg term.range false

/-- Where not all versions are ruled out one is free. -/
theorem pgRuledOut_not {inside : Bool} :
    ¬ PgRuledOut trail pkg range inside ↔ PgFreeVersion trail pkg range inside := by
  unfold PgRuledOut PgShared PgFreeVersion
  simp only [not_forall, Bool.not_eq_true]
  exact exists_congr fun v => by tauto

theorem pgOverlapped_unflagged (overlapped : pgOverlapped trail term = true) :
    term.range.isEmpty = false := by
  unfold pgOverlapped at overlapped
  obtain ⟨a, -, meets⟩ := List.any_eq_true.mp overlapped
  rw [Bool.and_eq_true, Bool.not_eq_true'] at meets
  exact (pgRangeIntersect_flags meets.2).1

/-- Without a positive assignment. -/
theorem pgRangesTell_unbounded (unset : pgPositiveRange trail term.pkg = none) :
    PgRangesTell trail term ↔ PgBoundsTell trail term := by
  unfold PgBoundsTell
  rw [unset]
  dsimp only
  cases flag : term.positive && pgOverlapped trail term with
  | true =>
    rw [if_pos rfl, ← pgRuledOut_not, not_not]
    constructor
    · intro tells
      refine (tells.overlapped flag).resolve_left ?_
      rintro ⟨range, same, -⟩
      rw [unset] at same
      cases same
    · intro covered
      refine ⟨?_, fun _ => .inr covered, ?_, ?_, ?_⟩
      all_goals simp [unset, flag]
  | false =>
    rw [if_neg Bool.false_ne_true, ← pgRuledOut_not]
    constructor
    · exact fun tells => tells.inside flag (.inl unset)
    · intro free
      refine ⟨?_, ?_, ?_, fun _ _ => free, ?_⟩
      all_goals simp [unset, flag]

theorem pgShared_iff (bounded : pgPositiveRange trail term.pkg = some range) {inside : Bool}
    {v : PgVersion} : PgShared trail term.pkg term.range inside v ↔
      pgRangeContains range v = true ∧ pgRangeContains term.range v = inside := by
  unfold PgShared
  simp [bounded]

/-- A version is free inside or outside of a range where not all of the positive one are
forbidden. -/
theorem pgFreeVersion_some (bounded : pgPositiveRange trail term.pkg = some range) :
    (PgFreeVersion trail term.pkg term.range true ∨
        PgFreeVersion trail term.pkg term.range false) ↔
      ∃ v, pgRangeContains range v = true ∧
        pgSolverVersionIsForbidden trail term.pkg v = false := by
  unfold PgFreeVersion
  simp only [bounded, Option.some.injEq, forall_eq', ← exists_or]
  refine exists_congr fun v => ?_
  cases pgRangeContains term.range v <;> simp

/-- With positive assignments: what the ranges tell gives the verdict of each branch. -/
theorem PgRangesTell.bounds (bounded : pgPositiveRange trail term.pkg = some range)
    (tells : PgRangesTell trail term) : PgBoundsTell trail term := by
  unfold PgBoundsTell
  rw [bounded]
  dsimp only
  refine ⟨(pgFreeVersion_some bounded).mpr (tells.left range bounded), ?_⟩
  split
  · rename_i subset
    intro positive
    cases flag : term.positive && pgOverlapped trail term with
    | true => exact pgOverlapped_unflagged (Bool.and_eq_true_iff.mp flag).2
    | false => exact (tells.exact_ flag range bounded).unflagged positive subset
  split
  · trivial
  rename_i crosses meets
  split
  · rename_i flag
    rw [← pgRuledOut_not, not_not]
    refine (tells.overlapped flag).resolve_left ?_
    rintro ⟨other, same, subset⟩
    rw [bounded] at same
    cases same
    exact crosses subset
  · rename_i flag
    rw [Bool.not_eq_true] at flag
    have bounds := tells.exact_ flag range bounded
    constructor
    · refine pgRuledOut_not.mp (tells.inside flag (.inr ?_))
      by_contra none_
      refine meets (bounds.apart fun v here => ?_)
      by_contra there
      exact none_ ⟨v, (pgShared_iff bounded).mpr ⟨here, by simpa using there⟩⟩
    · refine pgRuledOut_not.mp (tells.outside flag (by simp [bounded]) ?_)
      by_contra none_
      refine crosses (bounds.within fun v here => ?_)
      by_contra there
      exact none_ ⟨v, (pgShared_iff bounded).mpr ⟨here, by simpa using there⟩⟩

theorem PgBoundsTell.free (bounded : pgPositiveRange trail term.pkg = some range)
    (tells : PgBoundsTell trail term) :
    PgFreeVersion trail term.pkg term.range true ∨
      PgFreeVersion trail term.pkg term.range false := by
  unfold PgBoundsTell at tells
  rw [bounded] at tells
  exact tells.1

/-- Where the ranges cross, versions are free on both sides. -/
theorem PgBoundsTell.crossing (bounded : pgPositiveRange trail term.pkg = some range)
    (tells : PgBoundsTell trail term) (crosses : pgRangeSubset range term.range ≠ true)
    (meets : (pgRangeIntersect range term.range).isEmpty ≠ true)
    (flag : (term.positive && pgOverlapped trail term) = false) :
    PgFreeVersion trail term.pkg term.range true ∧
      PgFreeVersion trail term.pkg term.range false := by
  unfold PgBoundsTell at tells
  simp only [bounded, if_neg crosses, if_neg meets, flag, Bool.false_eq_true, if_false] at tells
  exact tells.2

theorem PgBoundsTell.exact_ (bounded : pgPositiveRange trail term.pkg = some range)
    (tells : PgBoundsTell trail term)
    (flag : (term.positive && pgOverlapped trail term) = false) : PgBoundsExact range term := by
  obtain ⟨v, here, -⟩ := (pgFreeVersion_some bounded).mp (tells.free bounded)
  refine ⟨fun all => ?_, fun none_ => ?_, fun positive subset => ?_⟩
  · by_contra crosses
    by_cases empty : (pgRangeIntersect range term.range).isEmpty = true
    · have outside := pgRangeIntersect_disjoint empty here
      rw [all v here] at outside
      cases outside
    · obtain ⟨-, w, inRange, -, outside⟩ := tells.crossing bounded crosses empty flag
      rw [all w (inRange range bounded)] at outside
      cases outside
  · by_contra meets
    by_cases subset : pgRangeSubset range term.range = true
    · have unflagged := (pgRangeIntersect_flags (by simpa using meets)).2
      have inside := pgRangeContains_of_subset subset unflagged here
      rw [none_ v here] at inside
      cases inside
    · obtain ⟨⟨w, inRange, -, inside⟩, -⟩ := tells.crossing bounded subset meets flag
      rw [none_ w (inRange range bounded)] at inside
      cases inside
  · unfold PgBoundsTell at tells
    simp only [bounded, if_pos subset] at tells
    exact tells.2 positive

/-- The verdicts of the branches show how the ranges lie. -/
theorem PgBoundsTell.ranges (bounded : pgPositiveRange trail term.pkg = some range)
    (tells : PgBoundsTell trail term) : PgRangesTell trail term := by
  have free := tells.free bounded
  refine ⟨?_, fun flag => ?_, fun flag other same => ?_, fun flag shares => ?_,
    fun flag _ shares => ?_⟩
  · intro other same
    rw [bounded] at same
    cases same
    exact (pgFreeVersion_some bounded).mp free
  · by_cases subset : pgRangeSubset range term.range = true
    · exact .inl ⟨range, bounded, subset⟩
    right
    rw [← not_not (a := PgRuledOut _ _ _ _), pgRuledOut_not]
    by_cases empty : (pgRangeIntersect range term.range).isEmpty = true
    · exact PgFreeVersion.not_disjoint bounded empty
    · unfold PgBoundsTell at tells
      simp only [bounded, if_neg subset, if_neg empty, if_pos flag] at tells
      exact tells.2
  · rw [bounded] at same
    cases same
    exact tells.exact_ bounded flag
  · rcases shares with unset | ⟨v, on⟩
    · rw [bounded] at unset
      cases unset
    obtain ⟨here, inside⟩ := (pgShared_iff bounded).mp on
    rw [pgRuledOut_not]
    by_cases subset : pgRangeSubset range term.range = true
    · exact free.resolve_right
        (PgFreeVersion.not_subset bounded subset (pgRangeContains_iff.mp inside).1)
    by_cases empty : (pgRangeIntersect range term.range).isEmpty = true
    · rw [pgRangeIntersect_disjoint empty here] at inside
      cases inside
    · exact (tells.crossing bounded subset empty flag).1
  · obtain ⟨v, on⟩ := shares
    obtain ⟨here, outside⟩ := (pgShared_iff bounded).mp on
    rw [pgRuledOut_not]
    by_cases subset : pgRangeSubset range term.range = true
    · cases flagged : term.range.isEmpty with
      | true => exact free.resolve_left (PgFreeVersion.not_flagged flagged)
      | false =>
        rw [pgRangeContains_of_subset subset flagged here] at outside
        cases outside
    by_cases empty : (pgRangeIntersect range term.range).isEmpty = true
    · exact free.resolve_left (PgFreeVersion.not_disjoint bounded empty)
    · exact (tells.crossing bounded subset empty flag).2

/-- `pg_term_state` answers by meaning exactly where the ranges tell. -/
theorem pgTermState_meaning (trail : List PgAssignment) (term : PgTerm) :
    PgTermMeaning trail term (pgTermState trail term) ↔ PgRangesTell trail term := by
  rw [pgTermMeaning_branches]
  cases bounded : pgPositiveRange trail term.pkg with
  | none => exact (pgRangesTell_unbounded bounded).symm
  | some range => exact ⟨PgBoundsTell.ranges bounded, PgRangesTell.bounds bounded⟩

/-! ## A negated version in the term -/

/-- The state in which the search of `pgNarrow` has ruled out version 2 of
package 1. -/
def pgNarrowLearned : PgConfig Unit := pgRun pgNarrow.listing.provider 21 pgNarrowStart

/-- From version 1 on, below version 3. -/
def pgNarrowTerm : PgTerm :=
  { pkg := 1
    range := {
      lower := { v := ⟨1, 0, 0⟩, inclusive := true, unbounded := false }
      upper := { v := ⟨3, 0, 0⟩, inclusive := false, unbounded := false }
      isEmpty := false }
    positive := true }

/-- The term is reported as contradicted although version 1 is allowed. -/
theorem pgTermState_meaning_fails :
    ¬ ∀ c, PgReachable pgNarrow.listing.provider () pgNarrow.rootPkg pgNarrow.rootVersion
        pgNarrow.roots c →
      ∀ term, PgTermMeaning c.solver.trail term (pgTermState c.solver.trail term) := by
  intro claim
  have reachable : PgReachable pgNarrow.listing.provider () pgNarrow.rootPkg
      pgNarrow.rootVersion pgNarrow.roots pgNarrowLearned :=
    ⟨pgNarrowStart, pgNarrow_started, reaches_iterate 21 pgNarrowStart⟩
  have verdict : pgTermState pgNarrowLearned.solver.trail pgNarrowTerm = .contradicted := by
    decide
  have common : pgPositiveRange pgNarrowLearned.solver.trail 1 = some pgRangeAny := by
    decide
  have allowed : PgAllowed pgNarrowLearned.solver.trail 1 (some ⟨1, 0, 0⟩) := by
    refine pgAllowed_some_iff.mpr ⟨fun r same => ?_, by decide⟩
    rw [common] at same
    cases same
    exact pgRangeContains_any _
  have unmet := (claim _ reachable pgNarrowTerm).contradicted.mp verdict _ allowed
  exact unmet (pgAdmits_positive.mpr ⟨⟨1, 0, 0⟩, rfl, by decide⟩)

end ElmWrap
