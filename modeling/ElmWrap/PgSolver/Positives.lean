import ElmWrap.PgSolver.Conflict
import ElmWrap.RangeAlgebra

/-!
# The positive assignments of a package

What `pg_solver_compute_positive_range` returns as the trail grows. The search
keeps the positive assignments of a package compatible: a second one is pushed
only where it meets what the others have in common, so that the early return on
an empty combination is never taken; only a range that is empty by itself can
stand alone.
-/

namespace ElmWrap

/-! ## Ranges that are not empty -/

/-- The range passes the emptiness test of `pg_range_intersect`. -/
def VersionRange.Open (r : VersionRange) : Prop :=
  r.isEmpty = false ∧ r.lower.lowerCut < r.upper.upperCut

theorem VersionRange.open_of_contains {r : VersionRange} {v : Version}
    (inside : pgRangeContains r v = true) : r.Open := by
  obtain ⟨unflagged, low, high⟩ := pgRangeContains_iff.mp inside
  exact ⟨unflagged, Nat.lt_of_le_of_lt low high⟩

/-- An intersection that is not flagged empty is open, and so are both sides. -/
theorem VersionRange.open_of_intersect {a b : VersionRange}
    (meets : (pgRangeIntersect a b).isEmpty = false) :
    (pgRangeIntersect a b).Open ∧ a.Open ∧ b.Open := by
  obtain ⟨left, right⟩ := pgRangeIntersect_flags meets
  obtain ⟨low, high, empty⟩ := pgRangeIntersect_cuts left right
  have apart : ¬ min a.upper.upperCut b.upper.upperCut ≤ max a.lower.lowerCut b.lower.lowerCut := by
    rw [← empty, meets]
    simp
  refine ⟨⟨meets, ?_⟩, ⟨left, ?_⟩, right, ?_⟩
  · omega
  · omega
  · omega

/-- Over an inclusive lower bound an open range starts with a version. -/
theorem VersionRange.Open.admits {r : VersionRange} (open_ : r.Open)
    (inclusive : r.lower.lowerCut % 2 = 1) : ∃ v, pgRangeContains r v = true := by
  refine (VersionRange.admits_iff open_.1).mp ⟨open_.2, ?_⟩
  omega

/-! ## One more assignment -/

/-- The assignment is a positive one for the package. -/
def pgPositiveFor (pkg : PgPackageId) (a : PgAssignment) : Bool :=
  a.pkg = pkg && a.positive

/-- How a positive assignment for the package changes what the loop of
`pg_solver_compute_positive_range` has found. -/
def pgCombinePositive (range : PgVersionRange) :
    Option (Option PgVersionRange) → Option (Option PgVersionRange)
  | none => none
  | some none => some (some range)
  | some (some found) =>
    if (pgRangeIntersect found range).isEmpty then none
    else some (some (pgRangeIntersect found range))

theorem pgComputePositiveRangeFrom_cons (pkg : PgPackageId) (acc : Option PgVersionRange)
    (b : PgAssignment) (trail : List PgAssignment) :
    pgComputePositiveRangeFrom pkg acc (b :: trail) =
      if pgPositiveFor pkg b then
        (pgCombinePositive b.range (some acc)).bind fun acc =>
          pgComputePositiveRangeFrom pkg acc trail
      else pgComputePositiveRangeFrom pkg acc trail := by
  have skip : (decide (b.pkg ≠ pkg) || !b.positive) = !pgPositiveFor pkg b := by
    simp [pgPositiveFor]
  rw [pgComputePositiveRangeFrom.eq_def]
  dsimp only
  rw [skip]
  cases pgPositiveFor pkg b with
  | false => rfl
  | true =>
    cases acc with
    | none => rfl
    | some found =>
      simp only [pgCombinePositive, Bool.not_true, Bool.false_eq_true, if_false, if_true]
      split <;> rfl

theorem pgComputePositiveRangeFrom_append {pkg : PgPackageId} (a : PgAssignment) :
    ∀ (trail : List PgAssignment) (acc : Option PgVersionRange),
      pgComputePositiveRangeFrom pkg acc (trail ++ [a]) =
        if pgPositiveFor pkg a then
          pgCombinePositive a.range (pgComputePositiveRangeFrom pkg acc trail)
        else pgComputePositiveRangeFrom pkg acc trail := by
  intro trail
  induction trail with
  | nil =>
    intro acc
    rw [List.nil_append, pgComputePositiveRangeFrom_cons]
    have same : ((pgCombinePositive a.range (some acc)).bind fun acc =>
        pgComputePositiveRangeFrom pkg acc []) = pgCombinePositive a.range (some acc) :=
      Option.bind_fun_some _
    rw [same]
    rfl
  | cons b trail ih =>
    intro acc
    rw [List.cons_append, pgComputePositiveRangeFrom_cons, pgComputePositiveRangeFrom_cons]
    cases pgPositiveFor pkg b with
    | false => exact ih acc
    | true =>
      cases pgCombinePositive b.range (some acc) with
      | none => simp [pgCombinePositive]
      | some found => exact ih found

theorem pgSolverComputePositiveRange_append (trail : List PgAssignment) (a : PgAssignment)
    (pkg : PgPackageId) :
    pgSolverComputePositiveRange (trail ++ [a]) pkg =
      if pgPositiveFor pkg a then
        pgCombinePositive a.range (pgSolverComputePositiveRange trail pkg)
      else pgSolverComputePositiveRange trail pkg :=
  pgComputePositiveRangeFrom_append a trail none

/-! ## The positive assignments meet -/

/-- `pg_solver_compute_positive_range` succeeds, and what it finds is open unless
it is the range of a single assignment. -/
def PgPositivesMeet (trail : List PgAssignment) (pkg : PgPackageId) : Prop :=
  ∃ found, pgSolverComputePositiveRange trail pkg = some found ∧
    ∀ range, found = some range →
      range.Open ∨ ∃ a, trail.filter (pgPositiveFor pkg) = [a]

theorem pgPositivesMeet_nil (pkg : PgPackageId) : PgPositivesMeet [] pkg :=
  ⟨none, rfl, fun _ same => by cases same⟩

theorem filter_positive_append (trail : List PgAssignment) (a : PgAssignment)
    (pkg : PgPackageId) :
    (trail ++ [a]).filter (pgPositiveFor pkg) =
      trail.filter (pgPositiveFor pkg) ++ if pgPositiveFor pkg a then [a] else [] := by
  rw [List.filter_append, List.filter_cons, List.filter_nil]

theorem PgPositivesMeet.other {trail : List PgAssignment} {a : PgAssignment}
    {pkg : PgPackageId} (meet : PgPositivesMeet trail pkg) (other : pgPositiveFor pkg a = false) :
    PgPositivesMeet (trail ++ [a]) pkg := by
  obtain ⟨found, run, spec⟩ := meet
  refine ⟨found, ?_, fun range same => ?_⟩
  · rw [pgSolverComputePositiveRange_append, other]
    exact run
  · rw [filter_positive_append, other]
    simpa using spec range same

/-- A first positive assignment stands alone. -/
theorem PgPositivesMeet.first {trail : List PgAssignment} {a : PgAssignment}
    {pkg : PgPackageId} (run : pgSolverComputePositiveRange trail pkg = some none)
    (own : pgPositiveFor pkg a = true) : PgPositivesMeet (trail ++ [a]) pkg := by
  refine ⟨some a.range, ?_, fun range _ => Or.inr ⟨a, ?_⟩⟩
  · rw [pgSolverComputePositiveRange_append, own, run]
    rfl
  · have none : trail.filter (pgPositiveFor pkg) = [] := by
      rw [List.filter_eq_nil_iff]
      intro b member positive
      unfold pgPositiveFor at positive
      rw [Bool.and_eq_true, decide_eq_true_eq] at positive
      exact pgSolverComputePositiveRange_none run b ⟨member, positive⟩
    rw [filter_positive_append, none, own]
    rfl

/-- A further positive assignment meets the range of the others. -/
theorem PgPositivesMeet.next {trail : List PgAssignment} {a : PgAssignment}
    {pkg : PgPackageId} {required : PgVersionRange}
    (run : pgSolverComputePositiveRange trail pkg = some (some required))
    (own : pgPositiveFor pkg a = true)
    (meets : (pgRangeIntersect required a.range).isEmpty = false) :
    PgPositivesMeet (trail ++ [a]) pkg := by
  refine ⟨some (pgRangeIntersect required a.range), ?_, fun range same => Or.inl ?_⟩
  · rw [pgSolverComputePositiveRange_append, own, run]
    simp [pgCombinePositive, meets]
  · cases same
    exact (VersionRange.open_of_intersect meets).1

theorem PgPositivesMeet.shorter {trail : List PgAssignment} {a : PgAssignment}
    {pkg : PgPackageId} (meet : PgPositivesMeet (trail ++ [a]) pkg) :
    PgPositivesMeet trail pkg := by
  obtain ⟨found, run, spec⟩ := meet
  rw [pgSolverComputePositiveRange_append] at run
  cases own : pgPositiveFor pkg a with
  | false =>
    rw [filter_positive_append, own] at spec
    rw [own] at run
    exact ⟨found, run, fun range same => by simpa using spec range same⟩
  | true =>
    rw [own] at run
    cases before : pgSolverComputePositiveRange trail pkg with
    | none =>
      rw [before] at run
      cases run
    | some old =>
      refine ⟨old, before, fun range same => Or.inl ?_⟩
      subst same
      rw [before] at run
      simp only [if_true, pgCombinePositive] at run
      split at run
      · cases run
      · rename_i meets
        exact (VersionRange.open_of_intersect (Bool.eq_false_of_not_eq_true meets)).2.1

theorem PgPositivesMeet.initial {trail longer : List PgAssignment} {pkg : PgPackageId}
    (meet : PgPositivesMeet longer pkg) (initial : trail <+: longer) :
    PgPositivesMeet trail pkg := by
  obtain ⟨rest, rfl⟩ := initial
  induction rest using List.reverseRecOn with
  | nil => simpa using meet
  | append_singleton rest a ih =>
    rw [← List.append_assoc] at meet
    exact ih meet.shorter

/-- The lower cut of the range found is the one of an assignment. -/
theorem pgSolverComputePositiveRange_lower {pkg : PgPackageId} {trail : List PgAssignment}
    {range : PgVersionRange}
    (run : pgSolverComputePositiveRange trail pkg = some (some range)) :
    ∃ a, PgPositiveOn trail pkg a ∧ range.lower.lowerCut = a.range.lower.lowerCut := by
  induction trail using List.reverseRecOn generalizing range with
  | nil => cases run
  | append_singleton trail a ih =>
    have grown : ∀ b, PgPositiveOn trail pkg b → PgPositiveOn (trail ++ [a]) pkg b :=
      fun b on => pgPositiveOn_append.mpr (Or.inl on)
    rw [pgSolverComputePositiveRange_append] at run
    cases own : pgPositiveFor pkg a with
    | false =>
      rw [own] at run
      obtain ⟨b, on, same⟩ := ih run
      exact ⟨b, grown b on, same⟩
    | true =>
      rw [own] at run
      unfold pgPositiveFor at own
      rw [Bool.and_eq_true, decide_eq_true_eq] at own
      have last : PgPositiveOn (trail ++ [a]) pkg a :=
        pgPositiveOn_append.mpr (Or.inr ⟨rfl, own⟩)
      cases before : pgSolverComputePositiveRange trail pkg with
      | none => rw [before] at run; cases run
      | some found =>
        rw [before] at run
        cases found with
        | none =>
          cases run
          exact ⟨a, last, rfl⟩
        | some old =>
          simp only [if_true, pgCombinePositive] at run
          split at run
          · cases run
          · rename_i meets
            cases run
            obtain ⟨left, right⟩ :=
              pgRangeIntersect_flags (Bool.eq_false_of_not_eq_true meets)
            obtain ⟨b, on, same⟩ := ih before
            rw [(pgRangeIntersect_cuts left right).1]
            rcases Nat.le_total old.lower.lowerCut a.range.lower.lowerCut with up | down
            · exact ⟨a, last, by omega⟩
            · exact ⟨b, grown b on, by omega⟩

end ElmWrap
