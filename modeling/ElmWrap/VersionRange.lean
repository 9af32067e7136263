import ElmWrap.Version
import Mathlib.Order.Interval.Set.Basic
import Mathlib.Data.Nat.Basic
import Mathlib.Tactic.SplitIfs

/-!
# What the range operations mean

A version is laid out on the number line at an odd position, so that every
bound, inclusive or exclusive, is a cut at one side of a version's position and
a range is the half-open interval between its two cuts. Comparison,
intersection, the emptiness test and the subset test of `pg_core.c` are then
order facts about cuts, and the lemmas below are all a later module needs: none
unfolds a range operation again.
-/

namespace ElmWrap

/-! ## Positions and cuts -/

/-- The components of a version read as one number, major first. -/
def Version.key (v : Version) : Nat :=
  v.major.toNat * 4294967296 + v.minor.toNat * 65536 + v.patch.toNat

/-- The position of a version; the even numbers around it are cuts. -/
def Version.pos (v : Version) : Nat := 2 * v.key + 1

theorem Version.key_lt (v : Version) : v.key < 281474976710656 := by
  have major := v.major.toNat_lt_size
  have minor := v.minor.toNat_lt_size
  have patch := v.patch.toNat_lt_size
  simp only [UInt16.size] at major minor patch
  unfold Version.key
  omega

theorem Version.key_injective {a b : Version} (same : a.key = b.key) : a = b := by
  rcases a with ⟨major, minor, patch⟩
  rcases b with ⟨major', minor', patch'⟩
  have hminor := minor.toNat_lt_size
  have hpatch := patch.toNat_lt_size
  have hminor' := minor'.toNat_lt_size
  have hpatch' := patch'.toNat_lt_size
  simp only [UInt16.size] at hminor hpatch hminor' hpatch'
  simp only [Version.key] at same
  have eqMajor : major = major' := UInt16.toNat_inj.mp (by omega)
  have eqMinor : minor = minor' := UInt16.toNat_inj.mp (by omega)
  have eqPatch : patch = patch' := UInt16.toNat_inj.mp (by omega)
  rw [eqMajor, eqMinor, eqPatch]

/-- `pg_version_cmp_internal` compares keys. -/
theorem pgVersionCmpInternal_eq (a b : PgVersion) :
    pgVersionCmpInternal a b =
      if a.key < b.key then -1 else if b.key < a.key then 1 else 0 := by
  rcases a with ⟨major, minor, patch⟩
  rcases b with ⟨major', minor', patch'⟩
  have hminor := minor.toNat_lt_size
  have hpatch := patch.toNat_lt_size
  have hminor' := minor'.toNat_lt_size
  have hpatch' := patch'.toNat_lt_size
  simp only [UInt16.size] at hminor hpatch hminor' hpatch'
  simp only [pgVersionCmpInternal, Version.key, ne_eq, ← UInt16.toNat_inj,
    UInt16.lt_iff_toNat_lt]
  split_ifs <;> omega

theorem pgVersionCmpInternal_neg {a b : PgVersion} :
    pgVersionCmpInternal a b < 0 ↔ a.key < b.key := by
  rw [pgVersionCmpInternal_eq]
  split
  · simp_all
  · split <;> simp_all

theorem pgVersionCmpInternal_pos {a b : PgVersion} :
    pgVersionCmpInternal a b > 0 ↔ b.key < a.key := by
  rw [pgVersionCmpInternal_eq]
  split
  · simp; omega
  · split <;> simp_all

theorem pgVersionCmpInternal_zero {a b : PgVersion} :
    pgVersionCmpInternal a b = 0 ↔ a.key = b.key := by
  rw [pgVersionCmpInternal_eq]
  split
  · simp; omega
  · split
    · simp; omega
    · simp; omega

/-- The cut of a bound read as a lower bound: a version is above the bound when
the cut is at or below its position. -/
def VersionBound.lowerCut (b : VersionBound) : Nat :=
  if b.unbounded then 0 else 2 * b.v.key + (if b.inclusive then 1 else 2)

/-- The cut of a bound read as an upper bound: a version is below the bound when
its position is below the cut. -/
def VersionBound.upperCut (b : VersionBound) : Nat :=
  if b.unbounded then 562949953421313 else 2 * b.v.key + (if b.inclusive then 2 else 1)

theorem Version.pos_lt (v : Version) : v.pos < 562949953421313 := by
  have := v.key_lt
  unfold Version.pos
  omega

/-- The versions of a range, as an interval of positions. -/
def VersionRange.span (r : VersionRange) : Set Nat :=
  Set.Ico r.lower.lowerCut r.upper.upperCut

/-! ## Membership -/

theorem pgRangeContains_iff {r : PgVersionRange} {v : PgVersion} :
    pgRangeContains r v = true ↔ r.isEmpty = false ∧ v.pos ∈ r.span := by
  have bound := v.pos_lt
  rcases r with ⟨⟨lv, li, lu⟩, ⟨uv, ui, uu⟩, empty⟩
  have keyBound := lv.key_lt
  simp only [pgRangeContains, VersionRange.span, VersionBound.lowerCut,
    VersionBound.upperCut, Set.mem_Ico, Version.pos, pgVersionCmpInternal_neg,
    pgVersionCmpInternal_pos, pgVersionCmpInternal_zero] at bound ⊢
  cases empty <;> cases lu <;> cases li <;> cases uu <;> cases ui <;> simp <;> omega

theorem pgRangeContains_exact {v w : PgVersion} :
    pgRangeContains (pgRangeExact v) w = true ↔ w = v := by
  rw [pgRangeContains_iff]
  simp only [pgRangeExact, VersionRange.span, VersionBound.lowerCut,
    VersionBound.upperCut, Set.mem_Ico, Version.pos]
  constructor
  · rintro ⟨-, low, high⟩
    simp only [Bool.false_eq_true, if_false, if_true] at low high
    exact Version.key_injective (by omega)
  · rintro rfl
    simp

theorem pgRangeContains_any (v : PgVersion) : pgRangeContains pgRangeAny v = true := by
  rw [pgRangeContains_iff]
  refine ⟨rfl, ?_⟩
  simpa [VersionRange.span, pgRangeAny, pgUnboundedBound, VersionBound.lowerCut,
    VersionBound.upperCut] using v.pos_lt

theorem pgRangeIsExact_exact (v : PgVersion) : pgRangeIsExact (pgRangeExact v) = some v := by
  simp [pgRangeIsExact, pgRangeExact, pgVersionCmpInternal]

/-! ## Subset -/

/-- An exact range contains its own version only. -/
theorem pgRangeIsExact_contains {r : PgVersionRange} {v w : PgVersion}
    (exact_ : pgRangeIsExact r = some w) (inside : pgRangeContains r v = true) : w = v := by
  obtain ⟨-, low, high⟩ := pgRangeContains_iff.mp inside
  rcases r with ⟨⟨lv, li, lu⟩, ⟨uv, ui, uu⟩, empty⟩
  cases lu <;> cases uu <;> cases li <;> cases ui <;>
    simp [pgRangeIsExact, VersionBound.lowerCut, VersionBound.upperCut, Version.pos]
      at exact_ low high
  obtain ⟨same, rfl⟩ := exact_
  have keys := pgVersionCmpInternal_zero.mp same
  apply Version.key_injective
  omega

theorem pgLowerBoundGe_iff {a b : PgBound} :
    pgLowerBoundGe a b = true ↔ b.lowerCut ≤ a.lowerCut := by
  rcases a with ⟨av, ai, au⟩
  rcases b with ⟨bv, bi, bu⟩
  simp only [pgLowerBoundGe, VersionBound.lowerCut, pgVersionCmpInternal_neg,
    pgVersionCmpInternal_pos]
  cases au <;> cases ai <;> cases bu <;> cases bi <;> simp <;> omega

theorem pgUpperBoundLe_iff {a b : PgBound} :
    pgUpperBoundLe a b = true ↔ a.upperCut ≤ b.upperCut := by
  rcases a with ⟨av, ai, au⟩
  rcases b with ⟨bv, bi, bu⟩
  have aBound := av.key_lt
  have bBound := bv.key_lt
  simp only [pgUpperBoundLe, VersionBound.upperCut, pgVersionCmpInternal_neg,
    pgVersionCmpInternal_pos]
  cases au <;> cases ai <;> cases bu <;> cases bi <;> simp <;> omega

theorem pgRangeSubset_iff {a b : PgVersionRange} :
    pgRangeSubset a b = true ↔ a.isEmpty = true ∨
      (b.lower.lowerCut ≤ a.lower.lowerCut ∧ a.upper.upperCut ≤ b.upper.upperCut) := by
  unfold pgRangeSubset
  split
  · simp_all
  · simp_all [pgLowerBoundGe_iff, pgUpperBoundLe_iff]

/-- A subset test that succeeds is right as long as the larger range does not
carry the `is_empty` flag, which the test ignores. -/
theorem pgRangeContains_of_subset {a b : PgVersionRange} {v : PgVersion}
    (subset : pgRangeSubset a b = true) (nonempty : b.isEmpty = false)
    (inside : pgRangeContains a v = true) : pgRangeContains b v = true := by
  rw [pgRangeContains_iff] at inside ⊢
  refine ⟨nonempty, ?_⟩
  rcases pgRangeSubset_iff.mp subset with empty | ⟨low, high⟩
  · rw [inside.1] at empty; cases empty
  · exact Set.Ico_subset_Ico low high inside.2

theorem pgRangeSubset_refl (a : PgVersionRange) : pgRangeSubset a a = true :=
  pgRangeSubset_iff.mpr (Or.inr ⟨le_refl _, le_refl _⟩)

/-! ## Intersection -/

theorem pgIntersectLower_cut (a b : PgBound) :
    (pgIntersectLower a b).lowerCut = max a.lowerCut b.lowerCut := by
  rcases a with ⟨av, ai, au⟩
  rcases b with ⟨bv, bi, bu⟩
  simp only [pgIntersectLower, pgVersionCmpInternal_neg, pgVersionCmpInternal_pos]
  cases au <;> cases bu <;> cases ai <;> cases bi <;>
    simp only [Bool.false_eq_true, if_true, if_false, Bool.and_true, Bool.and_false] <;>
    first | (split_ifs <;> simp [VersionBound.lowerCut] <;> omega) | simp [VersionBound.lowerCut]

theorem pgIntersectUpper_cut (a b : PgBound) :
    (pgIntersectUpper a b).upperCut = min a.upperCut b.upperCut := by
  rcases a with ⟨av, ai, au⟩
  rcases b with ⟨bv, bi, bu⟩
  have aBound := av.key_lt
  have bBound := bv.key_lt
  simp only [pgIntersectUpper, pgVersionCmpInternal_neg, pgVersionCmpInternal_pos]
  cases au <;> cases bu <;> cases ai <;> cases bi <;>
    simp only [Bool.false_eq_true, if_true, if_false, Bool.and_true, Bool.and_false] <;>
    first
    | (split_ifs <;> simp [VersionBound.upperCut] <;> omega)
    | (simp [VersionBound.upperCut] <;> omega)

theorem pgBoundsEmpty_iff {lower upper : PgBound} :
    pgBoundsEmpty lower upper = true ↔ upper.upperCut ≤ lower.lowerCut := by
  rcases lower with ⟨lv, li, lu⟩
  rcases upper with ⟨uv, ui, uu⟩
  have lBound := lv.key_lt
  simp only [pgBoundsEmpty, VersionBound.lowerCut, VersionBound.upperCut,
    pgVersionCmpInternal_pos, pgVersionCmpInternal_zero]
  cases lu <;> cases li <;> cases uu <;> cases ui <;> simp <;> omega

/-- The three facts about an intersection of ranges that are not flagged empty. -/
theorem pgRangeIntersect_cuts {a b : PgVersionRange}
    (left : a.isEmpty = false) (right : b.isEmpty = false) :
    (pgRangeIntersect a b).lower.lowerCut = max a.lower.lowerCut b.lower.lowerCut ∧
      (pgRangeIntersect a b).upper.upperCut = min a.upper.upperCut b.upper.upperCut ∧
      ((pgRangeIntersect a b).isEmpty = true ↔
        min a.upper.upperCut b.upper.upperCut ≤ max a.lower.lowerCut b.lower.lowerCut) := by
  simp only [pgRangeIntersect, left, right, Bool.or_self, Bool.false_eq_true, if_false]
  refine ⟨pgIntersectLower_cut _ _, pgIntersectUpper_cut _ _, ?_⟩
  rw [pgBoundsEmpty_iff, pgIntersectLower_cut, pgIntersectUpper_cut]

theorem pgRangeIntersect_isEmpty_of_flag {a b : PgVersionRange}
    (flag : a.isEmpty = true ∨ b.isEmpty = true) : (pgRangeIntersect a b).isEmpty = true := by
  rcases flag with flag | flag <;> simp [pgRangeIntersect, flag]

theorem pgRangeIntersect_flags {a b : PgVersionRange}
    (open_ : (pgRangeIntersect a b).isEmpty = false) :
    a.isEmpty = false ∧ b.isEmpty = false := by
  constructor
  · by_contra flag
    rw [pgRangeIntersect_isEmpty_of_flag (Or.inl (by simpa using flag))] at open_
    cases open_
  · by_contra flag
    rw [pgRangeIntersect_isEmpty_of_flag (Or.inr (by simpa using flag))] at open_
    cases open_

/-- Intersection is membership in both. -/
theorem pgRangeContains_intersect {a b : PgVersionRange} {v : PgVersion} :
    pgRangeContains (pgRangeIntersect a b) v = true ↔
      pgRangeContains a v = true ∧ pgRangeContains b v = true := by
  by_cases left : a.isEmpty = false
  · by_cases right : b.isEmpty = false
    · obtain ⟨low, high, empty⟩ := pgRangeIntersect_cuts left right
      rw [pgRangeContains_iff, pgRangeContains_iff, pgRangeContains_iff]
      simp only [VersionRange.span, Set.mem_Ico, low, high, left, right, true_and]
      constructor
      · rintro ⟨-, lo, hi⟩; omega
      · rintro ⟨⟨lo, hi⟩, lo', hi'⟩
        refine ⟨?_, by omega, by omega⟩
        by_contra flag
        have := empty.mp (by simpa using flag)
        omega
    · have flag : b.isEmpty = true := by simpa using right
      have none := pgRangeIntersect_isEmpty_of_flag (a := a) (Or.inr flag)
      simp [pgRangeContains, none, flag]
  · have flag : a.isEmpty = true := by simpa using left
    have none := pgRangeIntersect_isEmpty_of_flag (b := b) (Or.inl flag)
    simp [pgRangeContains, none, flag]

/-- An intersection flagged empty has no member. -/
theorem pgRangeIntersect_disjoint {a b : PgVersionRange} {v : PgVersion}
    (empty : (pgRangeIntersect a b).isEmpty = true) (left : pgRangeContains a v = true) :
    pgRangeContains b v = false := by
  by_contra right
  have both := pgRangeContains_intersect.mpr ⟨left, by simpa using right⟩
  rw [pgRangeContains_iff] at both
  rw [both.1] at empty
  cases empty

/-- Shrinking a range keeps the subset test true. -/
theorem pgRangeSubset_intersect {a b c : PgVersionRange}
    (subset : pgRangeSubset a c = true ∨ pgRangeSubset b c = true) :
    pgRangeSubset (pgRangeIntersect a b) c = true := by
  rw [pgRangeSubset_iff]
  by_cases empty : (pgRangeIntersect a b).isEmpty = true
  · exact Or.inl empty
  · have flags := pgRangeIntersect_flags (by simpa using empty)
    obtain ⟨low, high, -⟩ := pgRangeIntersect_cuts flags.1 flags.2
    rw [pgRangeSubset_iff, pgRangeSubset_iff, flags.1, flags.2] at subset
    simp only [Bool.false_eq_true, false_or] at subset
    right
    rcases subset with ⟨lo, hi⟩ | ⟨lo, hi⟩
    · omega
    · omega

/-- Shrinking a range keeps an empty intersection empty. -/
theorem pgRangeIntersect_intersect_isEmpty {a b c : PgVersionRange}
    (empty : (pgRangeIntersect a c).isEmpty = true) :
    (pgRangeIntersect (pgRangeIntersect a b) c).isEmpty = true := by
  by_cases inner : (pgRangeIntersect a b).isEmpty = true
  · exact pgRangeIntersect_isEmpty_of_flag (Or.inl inner)
  · have flags := pgRangeIntersect_flags (by simpa using inner)
    obtain ⟨low, high, -⟩ := pgRangeIntersect_cuts flags.1 flags.2
    by_cases flag : c.isEmpty = false
    · rw [(pgRangeIntersect_cuts flags.1 flag).2.2] at empty
      rw [(pgRangeIntersect_cuts (by simpa using inner) flag).2.2, low, high]
      omega
    · exact pgRangeIntersect_isEmpty_of_flag (Or.inr (by simpa using flag))

theorem pgRangeIntersect_intersect_isEmpty_right {a b c : PgVersionRange}
    (empty : (pgRangeIntersect b c).isEmpty = true) :
    (pgRangeIntersect (pgRangeIntersect a b) c).isEmpty = true := by
  by_cases inner : (pgRangeIntersect a b).isEmpty = true
  · exact pgRangeIntersect_isEmpty_of_flag (Or.inl inner)
  · have flags := pgRangeIntersect_flags (by simpa using inner)
    obtain ⟨low, high, -⟩ := pgRangeIntersect_cuts flags.1 flags.2
    by_cases flag : c.isEmpty = false
    · rw [(pgRangeIntersect_cuts flags.2 flag).2.2] at empty
      rw [(pgRangeIntersect_cuts (by simpa using inner) flag).2.2, low, high]
      omega
    · exact pgRangeIntersect_isEmpty_of_flag (Or.inr (by simpa using flag))

/-! ## Ranges that hold a single version -/

/-- A range that admits a version meets any other range that admits it. -/
theorem pgRangeIntersect_open {a b : PgVersionRange} {v : PgVersion}
    (left : pgRangeContains a v = true) (right : pgRangeContains b v = true) :
    (pgRangeIntersect a b).isEmpty = false :=
  (pgRangeContains_iff.mp (pgRangeContains_intersect.mpr ⟨left, right⟩)).1

/-- The cuts of a range that admits exactly one version enclose its position. -/
theorem pgRangeExact_cuts (v : PgVersion) :
    (pgRangeExact v).lower.lowerCut = v.pos ∧
      (pgRangeExact v).upper.upperCut = v.pos + 1 := by
  simp [pgRangeExact, VersionBound.lowerCut, VersionBound.upperCut, Version.pos]

/-- Within a range pinned to one version, containing the version decides the
subset test, and missing it decides the emptiness test. -/
theorem pgRange_pinned {a b : PgVersionRange} {v : PgVersion}
    (pinned : pgRangeSubset a (pgRangeExact v) = true)
    (inside : pgRangeContains a v = true) :
    (pgRangeContains b v = true → pgRangeSubset a b = true) ∧
      (pgRangeContains b v = false → (pgRangeIntersect a b).isEmpty = true) := by
  obtain ⟨open_, low, high⟩ := pgRangeContains_iff.mp inside
  obtain ⟨exactLow, exactHigh⟩ := pgRangeExact_cuts v
  rw [pgRangeSubset_iff, open_, exactLow, exactHigh] at pinned
  simp only [Bool.false_eq_true, false_or] at pinned
  constructor
  · intro member
    obtain ⟨-, lo, hi⟩ := pgRangeContains_iff.mp member
    exact pgRangeSubset_iff.mpr (Or.inr ⟨by omega, by omega⟩)
  · intro missing
    by_cases flag : b.isEmpty = false
    · rw [(pgRangeIntersect_cuts open_ flag).2.2]
      have outside : ¬ v.pos ∈ b.span := by
        intro member
        rw [pgRangeContains_iff.mpr ⟨flag, member⟩] at missing
        cases missing
      simp only [VersionRange.span, Set.mem_Ico, not_and, not_lt] at outside
      omega
    · exact pgRangeIntersect_isEmpty_of_flag (Or.inr (by simpa using flag))

end ElmWrap
