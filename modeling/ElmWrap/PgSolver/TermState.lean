import ElmWrap.VersionRange
import ElmWrap.PgSolver.State

/-!
# What `pg_term_state` says about a trail

`pgAdmits` gives terms and assignments their meaning on the choice made for one
package: a version, or none. The first section says what the loop of
`pg_term_state` collects; the others are the facts the search rests on. A
verdict `satisfied` is right, and stays when the trail grows; an inconclusive
verdict on a trail was inconclusive on every shorter one; on a package pinned to
one version no verdict is inconclusive.
-/

namespace ElmWrap

/-! ## Meaning -/

/-- The choice `x` for a package satisfies a range of the given polarity. -/
def pgAdmits (range : PgVersionRange) (positive : Bool) (x : Option PgVersion) : Prop :=
  if positive then ∃ v, x = some v ∧ pgRangeContains range v = true
  else ∀ v, x = some v → pgRangeContains range v = false

/-- A term is satisfied by a choice for its package. -/
def PgTerm.Admits (term : PgTerm) (x : Option PgVersion) : Prop :=
  pgAdmits term.range term.positive x

/-- An assignment is respected by a choice for its package. -/
def PgAssignment.Admits (a : PgAssignment) (x : Option PgVersion) : Prop :=
  pgAdmits a.range a.positive x

variable {trail : List PgAssignment} {term : PgTerm} {a : PgAssignment} {range : PgVersionRange}
  {pkg : PgPackageId}

theorem pgAdmits_positive {x : Option PgVersion} :
    pgAdmits range true x ↔ ∃ v, x = some v ∧ pgRangeContains range v = true := by
  simp [pgAdmits]

theorem pgAdmits_negative {x : Option PgVersion} :
    pgAdmits range false x ↔ ∀ v, x = some v → pgRangeContains range v = false := by
  simp [pgAdmits]

/-- The negation of a term is respected exactly when the term is not satisfied. -/
theorem pgAdmits_not {positive : Bool} {x : Option PgVersion} :
    pgAdmits range (!positive) x ↔ ¬ pgAdmits range positive x := by
  cases positive <;> cases x <;> simp [pgAdmits]

/-! ## What the loop collects -/

/-- The positive assignments for a package. -/
def PgPositiveOn (trail : List PgAssignment) (pkg : PgPackageId) (a : PgAssignment) : Prop :=
  a ∈ trail ∧ a.pkg = pkg ∧ a.positive = true

theorem pgTermScan_append (trail : List PgAssignment) (a : PgAssignment) (term : PgTerm) :
    pgTermScan (trail ++ [a]) term = pgTermScanStep term (pgTermScan trail term) a := by
  simp [pgTermScan]

theorem pgTermScanStep_other {scan : PgTermScan} (other : a.pkg ≠ term.pkg) :
    pgTermScanStep term scan a = scan := by
  simp [pgTermScanStep, other]

/-- An assignment for another package leaves a term's state alone. -/
theorem pgTermState_append_other (other : a.pkg ≠ term.pkg) :
    pgTermState (trail ++ [a]) term = pgTermState trail term := by
  rw [pgTermState, pgTermScan_append, pgTermScanStep_other other]
  rfl

theorem pgPositiveOn_append {a b : PgAssignment} :
    PgPositiveOn (trail ++ [a]) pkg b ↔
      PgPositiveOn trail pkg b ∨ (b = a ∧ a.pkg = pkg ∧ a.positive = true) := by
  simp only [PgPositiveOn, List.mem_append, List.mem_singleton]
  constructor
  · rintro ⟨old | rfl, same, pos⟩
    · exact Or.inl ⟨old, same, pos⟩
    · exact Or.inr ⟨rfl, same, pos⟩
  · rintro (⟨old, same, pos⟩ | ⟨rfl, same, pos⟩)
    · exact ⟨Or.inl old, same, pos⟩
    · exact ⟨Or.inr rfl, same, pos⟩

/-- How one assignment changes the positive range the loop has collected. -/
theorem pgTermScanStep_positiveRange (term : PgTerm) (scan : PgTermScan) (a : PgAssignment) :
    (pgTermScanStep term scan a).positiveRange =
      if a.pkg = term.pkg ∧ a.positive = true then
        some (match scan.positiveRange with
          | none => a.range
          | some range => pgRangeIntersect range a.range)
      else scan.positiveRange := by
  unfold pgTermScanStep
  by_cases same : a.pkg = term.pkg
  · cases pos : a.positive
    · cases tpos : term.positive
      · simp [same]
      · simp only [same, ne_eq, not_true, if_false, Bool.false_eq_true, if_true, and_false]
        split <;> rfl
    · cases range : scan.positiveRange <;> simp [same]
  · simp [same]

/-- The collected range is what all positive assignments have in common. -/
theorem pgTermScan_positiveRange (trail : List PgAssignment) (term : PgTerm) :
    (match (pgTermScan trail term).positiveRange with
      | none => ∀ a, ¬ PgPositiveOn trail term.pkg a
      | some range => (∃ a, PgPositiveOn trail term.pkg a) ∧
          ∀ v, pgRangeContains range v = true ↔
            ∀ a, PgPositiveOn trail term.pkg a → pgRangeContains a.range v = true) := by
  induction trail using List.reverseRecOn with
  | nil => rintro a ⟨member, -⟩; cases member
  | append_singleton trail a ih =>
    rw [pgTermScan_append, pgTermScanStep_positiveRange]
    simp only [pgPositiveOn_append]
    by_cases on : a.pkg = term.pkg ∧ a.positive = true
    · rw [if_pos on]
      cases range : (pgTermScan trail term).positiveRange with
      | none =>
        rw [range] at ih
        refine ⟨⟨a, Or.inr ⟨rfl, on⟩⟩, fun v => ⟨?_, fun all => all a (Or.inr ⟨rfl, on⟩)⟩⟩
        rintro inside b (old | ⟨rfl, -⟩)
        · exact absurd old (ih b)
        · exact inside
      | some range' =>
        rw [range] at ih
        refine ⟨⟨a, Or.inr ⟨rfl, on⟩⟩, fun v => ?_⟩
        rw [pgRangeContains_intersect, ih.2]
        constructor
        · rintro ⟨all, last⟩ b (old | ⟨rfl, -⟩)
          · exact all b old
          · exact last
        · intro all
          exact ⟨fun b old => all b (Or.inl old), all a (Or.inr ⟨rfl, on⟩)⟩
    · rw [if_neg on]
      cases range : (pgTermScan trail term).positiveRange with
      | none =>
        rw [range] at ih
        rintro b (old | ⟨rfl, same⟩)
        · exact ih b old
        · exact on same
      | some range' =>
        rw [range] at ih
        obtain ⟨⟨b, hb⟩, all⟩ := ih
        refine ⟨⟨b, Or.inl hb⟩, fun v => ?_⟩
        rw [all]
        constructor
        · rintro every c (old | ⟨rfl, same⟩)
          · exact every c old
          · exact absurd same on
        · exact fun every c old => every c (Or.inl old)

theorem pgTermScan_none (none : (pgTermScan trail term).positiveRange = none) (a : PgAssignment) :
    ¬ PgPositiveOn trail term.pkg a := by
  have spec := pgTermScan_positiveRange trail term
  rw [none] at spec
  exact spec a

theorem pgTermScan_some (some : (pgTermScan trail term).positiveRange = some range) :
    (∃ a, PgPositiveOn trail term.pkg a) ∧
      ∀ v, pgRangeContains range v = true ↔
        ∀ a, PgPositiveOn trail term.pkg a → pgRangeContains a.range v = true := by
  have spec := pgTermScan_positiveRange trail term
  rw [some] at spec
  exact spec

theorem pgTermScan_exists (on : PgPositiveOn trail term.pkg a) :
    ∃ range, (pgTermScan trail term).positiveRange = some range := by
  cases scan : (pgTermScan trail term).positiveRange with
  | none => exact absurd on (pgTermScan_none scan a)
  | some range => exact ⟨range, rfl⟩

/-- Any positive assignment bounds the collected range, for the subset test and
for the emptiness test alike. -/
theorem pgTermScan_bounded (on : PgPositiveOn trail term.pkg a) {range other : PgVersionRange}
    (scan : (pgTermScan trail term).positiveRange = some range) :
    (pgRangeSubset a.range other = true → pgRangeSubset range other = true) ∧
      ((pgRangeIntersect a.range other).isEmpty = true →
        (pgRangeIntersect range other).isEmpty = true) := by
  induction trail using List.reverseRecOn generalizing range with
  | nil => cases on.1
  | append_singleton trail b ih =>
    rw [pgTermScan_append, pgTermScanStep_positiveRange] at scan
    rw [pgPositiveOn_append] at on
    by_cases last : b.pkg = term.pkg ∧ b.positive = true
    · rw [if_pos last] at scan
      cases old : (pgTermScan trail term).positiveRange with
      | none =>
        rw [old] at scan
        cases scan
        rcases on with on | ⟨rfl, -⟩
        · exact absurd on (pgTermScan_none old a)
        · exact ⟨id, id⟩
      | some range' =>
        rw [old] at scan
        cases scan
        rcases on with on | ⟨rfl, -⟩
        · obtain ⟨subset, empty⟩ := ih on old
          exact ⟨fun h => pgRangeSubset_intersect (Or.inl (subset h)),
            fun h => pgRangeIntersect_intersect_isEmpty (empty h)⟩
        · refine ⟨fun h => pgRangeSubset_intersect (Or.inr h), fun h => ?_⟩
          exact pgRangeIntersect_intersect_isEmpty_right h
    · rw [if_neg last] at scan
      rcases on with on | ⟨rfl, same⟩
      · exact ih on scan
      · exact absurd same last

/-- The loop remembers every negative assignment that meets a positive term. -/
theorem pgTermScan_hasNegative_append (negative : (pgTermScan trail term).hasNegative = true) :
    (pgTermScan (trail ++ [a]) term).hasNegative = true := by
  rw [pgTermScan_append]
  unfold pgTermScanStep
  split
  · exact negative
  · split
    · split <;> exact negative
    · split
      · split
        · rfl
        · exact negative
      · exact negative

/-! ## Verdicts -/

/-- The verdicts on a term, by polarity and by whether the package has a positive
assignment. -/
theorem pgTermState_eq (trail : List PgAssignment) (term : PgTerm) :
    pgTermState trail term =
      match (pgTermScan trail term).positiveRange with
      | none =>
        if term.positive && (pgTermScan trail term).hasNegative then .contradicted
        else .inconclusive
      | some range =>
        if term.positive then
          if pgRangeSubset range term.range then .satisfied
          else if (pgRangeIntersect range term.range).isEmpty ||
              (pgTermScan trail term).hasNegative then .contradicted
          else .inconclusive
        else if (pgRangeIntersect range term.range).isEmpty then .satisfied
        else if pgRangeSubset range term.range then .contradicted
        else .inconclusive := by
  unfold pgTermState pgTermVerdict
  cases term.positive <;> cases (pgTermScan trail term).positiveRange <;> simp

/-- A satisfied term holds for every choice that respects the trail. The test
ignores the `is_empty` flag of a positive term, so the flag must be unset. -/
theorem pgTermState_sound {x : Option PgVersion} (satisfied : pgTermState trail term = .satisfied)
    (unflagged : term.positive = true → term.range.isEmpty = false)
    (respects : ∀ a ∈ trail, a.pkg = term.pkg → a.Admits x) : term.Admits x := by
  rw [pgTermState_eq] at satisfied
  cases scan : (pgTermScan trail term).positiveRange with
  | none =>
    rw [scan] at satisfied
    dsimp only at satisfied
    split at satisfied <;> cases satisfied
  | some range =>
    rw [scan] at satisfied
    obtain ⟨⟨a, on⟩, all⟩ := pgTermScan_some scan
    have choice : ∃ v, x = some v := by
      have admits := respects a on.1 on.2.1
      rw [PgAssignment.Admits, on.2.2, pgAdmits_positive] at admits
      obtain ⟨v, here, -⟩ := admits
      exact ⟨v, here⟩
    obtain ⟨v, here⟩ := choice
    have inside : pgRangeContains range v = true := by
      rw [all]
      intro b hb
      have admits := respects b hb.1 hb.2.1
      rw [PgAssignment.Admits, hb.2.2, pgAdmits_positive] at admits
      obtain ⟨w, there, contains⟩ := admits
      rw [here] at there
      cases there
      exact contains
    unfold PgTerm.Admits
    cases positive : term.positive
    · rw [pgAdmits_negative]
      intro w there
      rw [here] at there
      cases there
      simp only [positive, Bool.false_eq_true, if_false] at satisfied
      split at satisfied
      · exact pgRangeIntersect_disjoint (by assumption) inside
      · split at satisfied <;> cases satisfied
    · rw [pgAdmits_positive]
      refine ⟨v, here, ?_⟩
      simp only [positive, if_true] at satisfied
      split at satisfied
      · exact pgRangeContains_of_subset (by assumption) (unflagged positive) inside
      · split at satisfied <;> cases satisfied

/-- An assignment that satisfies a term by itself satisfies it together with the
rest of the trail, provided it is positive. -/
theorem pgTermState_of_satisfies (member : a ∈ trail) (positive : a.positive = true)
    (satisfies : pgAssignmentSatisfiesTerm a term = true) :
    pgTermState trail term = .satisfied := by
  have same : a.pkg = term.pkg := by
    by_contra other
    simp [pgAssignmentSatisfiesTerm, other] at satisfies
  have on : PgPositiveOn trail term.pkg a := ⟨member, same, positive⟩
  obtain ⟨range, scan⟩ := pgTermScan_exists on
  obtain ⟨subset, empty⟩ : (pgRangeSubset a.range term.range = true →
      pgRangeSubset range term.range = true) ∧
      ((pgRangeIntersect a.range term.range).isEmpty = true →
        (pgRangeIntersect range term.range).isEmpty = true) := pgTermScan_bounded on scan
  rw [pgTermState_eq, scan]
  simp only [pgAssignmentSatisfiesTerm, same, ne_eq, not_true, if_false, positive,
    Bool.not_true, Bool.false_eq_true, if_true] at satisfies
  cases polarity : term.positive
  · simp only [polarity, Bool.false_eq_true, if_false] at satisfies
    simp [empty satisfies]
  · simp only [polarity, if_true] at satisfies
    simp [subset satisfies]

/-- What an assignment that satisfies a term by itself says about the choice. -/
theorem pgAssignmentSatisfiesTerm_sound {x : Option PgVersion}
    (satisfies : pgAssignmentSatisfiesTerm a term = true)
    (unflagged : term.positive = true → term.range.isEmpty = false)
    (negative : a.positive = false → a.range.isEmpty = false) (respects : a.Admits x) :
    term.Admits x := by
  have same : a.pkg = term.pkg := by
    by_contra other
    simp [pgAssignmentSatisfiesTerm, other] at satisfies
  simp only [pgAssignmentSatisfiesTerm, same, ne_eq, not_true, if_false] at satisfies
  unfold PgAssignment.Admits at respects
  unfold PgTerm.Admits
  cases polarity : term.positive
  · rw [pgAdmits_negative]
    intro v here
    cases own : a.positive
    · simp only [polarity, own, Bool.false_eq_true, if_false] at satisfies
      rw [own, pgAdmits_negative] at respects
      by_contra inside
      have wider := pgRangeContains_of_subset satisfies (negative own) (by simpa using inside)
      rw [respects v here] at wider
      cases wider
    · simp only [polarity, own, Bool.false_eq_true, if_false, if_true] at satisfies
      rw [own, pgAdmits_positive] at respects
      obtain ⟨w, there, inside⟩ := respects
      rw [here] at there
      cases there
      exact pgRangeIntersect_disjoint satisfies inside
  · rw [pgAdmits_positive]
    cases own : a.positive
    · simp [polarity, own] at satisfies
    · simp only [polarity, own, Bool.not_true, Bool.false_eq_true, if_true, if_false] at satisfies
      rw [own, pgAdmits_positive] at respects
      obtain ⟨v, here, inside⟩ := respects
      exact ⟨v, here, pgRangeContains_of_subset satisfies (unflagged polarity) inside⟩

/-- A satisfied term stays satisfied when the trail grows. -/
theorem pgTermState_satisfied_append (a : PgAssignment)
    (satisfied : pgTermState trail term = .satisfied) :
    pgTermState (trail ++ [a]) term = .satisfied := by
  rw [pgTermState_eq] at satisfied ⊢
  cases scan : (pgTermScan trail term).positiveRange with
  | none =>
    rw [scan] at satisfied
    dsimp only at satisfied
    split at satisfied <;> cases satisfied
  | some range =>
    rw [scan] at satisfied
    have shrunk : ∃ range', (pgTermScan (trail ++ [a]) term).positiveRange = some range' ∧
        (range' = range ∨ range' = pgRangeIntersect range a.range) := by
      rw [pgTermScan_append, pgTermScanStep_positiveRange, scan]
      split
      · exact ⟨_, rfl, Or.inr rfl⟩
      · exact ⟨_, rfl, Or.inl rfl⟩
    obtain ⟨range', scan', rfl | rfl⟩ := shrunk
    · rw [scan']
      cases positive : term.positive
      · simp only [positive, Bool.false_eq_true, if_false] at satisfied ⊢
        split at satisfied
        · simp [*]
        · split at satisfied <;> cases satisfied
      · simp only [positive, if_true] at satisfied ⊢
        split at satisfied
        · simp [*]
        · split at satisfied <;> cases satisfied
    · rw [scan']
      cases positive : term.positive
      · simp only [positive, Bool.false_eq_true, if_false] at satisfied ⊢
        split at satisfied
        · rw [if_pos (pgRangeIntersect_intersect_isEmpty (by assumption))]
        · split at satisfied <;> cases satisfied
      · simp only [positive, if_true] at satisfied ⊢
        split at satisfied
        · rw [if_pos (pgRangeSubset_intersect (Or.inl (by assumption)))]
        · split at satisfied <;> cases satisfied

/-- An inconclusive term was inconclusive before the trail grew. -/
theorem pgTermState_inconclusive_of_append
    (open_ : pgTermState (trail ++ [a]) term = .inconclusive) :
    pgTermState trail term = .inconclusive := by
  cases before : pgTermState trail term with
  | inconclusive => rfl
  | satisfied => rw [pgTermState_satisfied_append a before] at open_; cases open_
  | contradicted =>
    exfalso
    rw [pgTermState_eq] at before open_
    have negative : (pgTermScan trail term).hasNegative = true →
        (pgTermScan (trail ++ [a]) term).hasNegative = true :=
      pgTermScan_hasNegative_append
    cases scan : (pgTermScan trail term).positiveRange with
    | none =>
      rw [scan] at before
      dsimp only at before
      split at before
      · rename_i both
        rw [Bool.and_eq_true] at both
        have later := negative both.2
        cases scan' : (pgTermScan (trail ++ [a]) term).positiveRange with
        | none =>
          rw [scan'] at open_
          simp [both.1, later] at open_
        | some range' =>
          rw [scan'] at open_
          simp only [both.1, later, Bool.or_true, if_true] at open_
          split at open_ <;> cases open_
      · cases before
    | some range =>
      have shrunk : ∃ range', (pgTermScan (trail ++ [a]) term).positiveRange = some range' ∧
          (range' = range ∨ range' = pgRangeIntersect range a.range) := by
        rw [pgTermScan_append, pgTermScanStep_positiveRange, scan]
        split
        · exact ⟨_, rfl, Or.inr rfl⟩
        · exact ⟨_, rfl, Or.inl rfl⟩
      obtain ⟨range', scan', relation⟩ := shrunk
      rw [scan] at before
      rw [scan'] at open_
      have empty : (pgRangeIntersect range term.range).isEmpty = true →
          (pgRangeIntersect range' term.range).isEmpty = true := by
        intro h
        rcases relation with rfl | rfl
        · exact h
        · exact pgRangeIntersect_intersect_isEmpty h
      have subset : pgRangeSubset range term.range = true →
          pgRangeSubset range' term.range = true := by
        intro h
        rcases relation with rfl | rfl
        · exact h
        · exact pgRangeSubset_intersect (Or.inl h)
      cases positive : term.positive
      · simp only [positive, Bool.false_eq_true, if_false] at before open_
        split at before
        · cases before
        · split at before
          · rename_i inside
            rw [subset inside] at open_
            split at open_ <;> simp at open_
          · cases before
      · simp only [positive, if_true] at before open_
        split at before
        · cases before
        · split at before
          · rename_i cause
            rw [Bool.or_eq_true] at cause
            have later : ((pgRangeIntersect range' term.range).isEmpty ||
                (pgTermScan (trail ++ [a]) term).hasNegative) = true := by
              rw [Bool.or_eq_true]
              exact cause.imp empty negative
            rw [later] at open_
            split at open_ <;> simp at open_
          · cases before

/-- Both persistence facts along a prefix. -/
theorem pgTermState_longer {trail longer : List PgAssignment} (le : trail <+: longer) :
    (pgTermState trail term = .satisfied → pgTermState longer term = .satisfied) ∧
      (pgTermState longer term = .inconclusive → pgTermState trail term = .inconclusive) := by
  obtain ⟨rest, rfl⟩ := le
  induction rest using List.reverseRecOn with
  | nil => simp
  | append_singleton rest a ih =>
    rw [← List.append_assoc]
    exact ⟨fun h => pgTermState_satisfied_append a (ih.1 h),
      fun h => ih.2 (pgTermState_inconclusive_of_append h)⟩

/-- A term on a package pinned to a version is never inconclusive. -/
theorem pgTermState_pinned {v : PgVersion} (on : PgPositiveOn trail term.pkg a)
    (exact_ : a.range = pgRangeExact v)
    (all : ∀ b, PgPositiveOn trail term.pkg b → pgRangeContains b.range v = true) :
    pgTermState trail term ≠ .inconclusive := by
  obtain ⟨range, scan⟩ := pgTermScan_exists on
  have inside : pgRangeContains range v = true := ((pgTermScan_some scan).2 v).mpr all
  have pinned : pgRangeSubset range (pgRangeExact v) = true := by
    refine (pgTermScan_bounded on scan).1 ?_
    rw [exact_]
    exact pgRangeSubset_refl _
  obtain ⟨subset, empty⟩ := pgRange_pinned (b := term.range) pinned inside
  rw [pgTermState_eq, scan]
  cases member : pgRangeContains term.range v
  · have none := empty member
    cases term.positive
    · simp [none]
    · simp only [if_true, none, Bool.true_or]
      split <;> simp
  · have whole := subset member
    cases term.positive
    · simp only [Bool.false_eq_true, if_false, whole, if_true]
      split <;> simp
    · simp [whole]

/-- A positive term whose range an assignment pins is satisfied. -/
theorem pgTermState_exact (on : PgPositiveOn trail pkg a) (exact_ : a.range = range) :
    pgTermState trail { pkg := pkg, range := range, positive := true } = .satisfied := by
  refine pgTermState_of_satisfies on.1 on.2.2 ?_
  simp [pgAssignmentSatisfiesTerm, on.2.1, on.2.2, exact_, pgRangeSubset_refl]

/-- A contradicted negative term: its package has a positive assignment, and
what the positive assignments allow lies in the term's range. -/
theorem pgTermState_contradicted_negative
    (contradicted : pgTermState trail { pkg := pkg, range := range, positive := false } =
      .contradicted) :
    (∃ a, PgPositiveOn trail pkg a) ∧
      ∀ v, (∀ a, PgPositiveOn trail pkg a → pgRangeContains a.range v = true) →
        pgRangeContains range v = true := by
  rw [pgTermState_eq] at contradicted
  cases scan :
      (pgTermScan trail { pkg := pkg, range := range, positive := false }).positiveRange with
  | none => rw [scan] at contradicted; simp at contradicted
  | some found =>
    rw [scan] at contradicted
    obtain ⟨witness, all⟩ := pgTermScan_some scan
    refine ⟨witness, fun v inside => ?_⟩
    simp only [Bool.false_eq_true, if_false] at contradicted
    split at contradicted
    · cases contradicted
    · rename_i meets
      split at contradicted
      · rename_i subset
        have flags := pgRangeIntersect_flags (by simpa using meets)
        exact pgRangeContains_of_subset subset flags.2 ((all v).mpr inside)
      · cases contradicted

/-! ## The required range of a package -/

theorem pgComputePositiveRangeFrom_spec :
    ∀ (trail : List PgAssignment) (acc result : Option PgVersionRange),
      pgComputePositiveRangeFrom pkg acc trail = some result →
        match result with
        | none => acc = none ∧ ∀ a, ¬ PgPositiveOn trail pkg a
        | some range => (acc ≠ none ∨ ∃ a, PgPositiveOn trail pkg a) ∧
            ∀ v, pgRangeContains range v = true ↔
              (∀ r, acc = some r → pgRangeContains r v = true) ∧
                ∀ a, PgPositiveOn trail pkg a → pgRangeContains a.range v = true := by
  intro trail
  induction trail with
  | nil =>
    intro acc result run
    simp only [pgComputePositiveRangeFrom, Option.some.injEq] at run
    subst run
    cases acc with
    | none => exact ⟨rfl, fun a on => by cases on.1⟩
    | some r =>
      refine ⟨Or.inl (by simp), fun v => ⟨fun h => ⟨?_, fun a on => by cases on.1⟩, ?_⟩⟩
      · intro r' eq; cases eq; exact h
      · intro h; exact h.1 r rfl
  | cons a rest ih =>
    intro acc result run
    have on_cons : ∀ b, PgPositiveOn (a :: rest) pkg b ↔
        (b = a ∧ a.pkg = pkg ∧ a.positive = true) ∨ PgPositiveOn rest pkg b := by
      intro b
      simp only [PgPositiveOn, List.mem_cons]
      constructor
      · rintro ⟨rfl | old, same, pos⟩
        · exact Or.inl ⟨rfl, same, pos⟩
        · exact Or.inr ⟨old, same, pos⟩
      · rintro (⟨rfl, same, pos⟩ | ⟨old, same, pos⟩)
        · exact ⟨Or.inl rfl, same, pos⟩
        · exact ⟨Or.inr old, same, pos⟩
    simp only [pgComputePositiveRangeFrom] at run
    split at run
    · rename_i off
      have skip : ¬ (a.pkg = pkg ∧ a.positive = true) := by
        rintro ⟨same, pos⟩
        simp [same, pos] at off
      have spec := ih acc result run
      cases result with
      | none =>
        refine ⟨spec.1, fun b on => ?_⟩
        rcases (on_cons b).mp on with ⟨-, own⟩ | old
        · exact skip own
        · exact spec.2 b old
      | some range =>
        refine ⟨spec.1.imp id fun ⟨b, hb⟩ => ⟨b, (on_cons b).mpr (Or.inr hb)⟩, fun v => ?_⟩
        rw [spec.2 v]
        refine and_congr Iff.rfl ⟨fun h b on => ?_, fun h b on => h b ((on_cons b).mpr (Or.inr on))⟩
        rcases (on_cons b).mp on with ⟨-, own⟩ | old
        · exact absurd own skip
        · exact h b old
    · rename_i own
      have here : a.pkg = pkg ∧ a.positive = true := by
        simpa using own
      cases acc with
      | none =>
        have spec := ih _ result run
        cases result with
        | none => exact absurd spec.1 (by simp)
        | some range =>
          refine ⟨Or.inr ⟨a, (on_cons a).mpr (Or.inl ⟨rfl, here⟩)⟩, fun v => ?_⟩
          rw [spec.2 v]
          constructor
          · rintro ⟨first, others⟩
            refine ⟨(by intro r h; cases h), fun b on => ?_⟩
            rcases (on_cons b).mp on with ⟨rfl, -⟩ | old
            · exact first _ rfl
            · exact others b old
          · rintro ⟨-, all⟩
            refine ⟨fun r h => ?_, fun b on => all b ((on_cons b).mpr (Or.inr on))⟩
            cases h
            exact all a ((on_cons a).mpr (Or.inl ⟨rfl, here⟩))
      | some r =>
        simp only at run
        split at run
        · cases run
        · have spec := ih _ result run
          cases result with
          | none => exact absurd spec.1 (by simp)
          | some range =>
            refine ⟨Or.inl (by simp), fun v => ?_⟩
            rw [spec.2 v]
            constructor
            · rintro ⟨first, others⟩
              have both := pgRangeContains_intersect.mp (first _ rfl)
              refine ⟨by intro r' h; cases h; exact both.1, fun b on => ?_⟩
              rcases (on_cons b).mp on with ⟨rfl, -⟩ | old
              · exact both.2
              · exact others b old
            · rintro ⟨acc_, all⟩
              refine ⟨fun r' h => ?_, fun b on => all b ((on_cons b).mpr (Or.inr on))⟩
              cases h
              exact pgRangeContains_intersect.mpr
                ⟨acc_ r rfl, all a ((on_cons a).mpr (Or.inl ⟨rfl, here⟩))⟩

/-- `pg_solver_compute_positive_range` finds no range exactly when there is no
positive assignment, and otherwise what they have in common. -/
theorem pgSolverComputePositiveRange_none (run : pgSolverComputePositiveRange trail pkg = some none)
    (a : PgAssignment) :
    ¬ PgPositiveOn trail pkg a :=
  (pgComputePositiveRangeFrom_spec trail none none run).2 a

theorem pgSolverComputePositiveRange_some
    (run : pgSolverComputePositiveRange trail pkg = some (some range)) :
    (∃ a, PgPositiveOn trail pkg a) ∧
      ∀ v, pgRangeContains range v = true ↔
        ∀ a, PgPositiveOn trail pkg a → pgRangeContains a.range v = true := by
  obtain ⟨witness, all⟩ := pgComputePositiveRangeFrom_spec trail none (some range) run
  refine ⟨witness.resolve_left (by simp), fun v => ?_⟩
  rw [all v]
  simp

end ElmWrap
