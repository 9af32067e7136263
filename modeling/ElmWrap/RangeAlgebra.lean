import ElmWrap.Registry.Operations
import ElmWrap.VersionText

/-!
# The two copies of the range operations

`package_common.c` has the ranges of `pg_core.c` a second time. Both copies are
compared here with what the ranges mean: which versions they admit and whether
they are flagged empty. The cuts of `VersionRange` decide every case; what they
do not see is that no version lies between two neighbouring cuts.
-/

namespace ElmWrap

/-! ## `package_common.c` -/

/-- `version_range_any`. -/
def versionRangeAny : VersionRange :=
  { lower := { v := ⟨0, 0, 0⟩, inclusive := false, unbounded := true }
    upper := { v := ⟨0, 0, 0⟩, inclusive := false, unbounded := true }
    isEmpty := false }

/-- `version_range_empty`. -/
def versionRangeEmpty : VersionRange :=
  { lower := { v := ⟨0, 0, 0⟩, inclusive := false, unbounded := true }
    upper := { v := ⟨0, 0, 0⟩, inclusive := false, unbounded := true }
    isEmpty := true }

/-- `version_range_until_next_major`; the cast `(uint16_t)(v.major + 1)` wraps. -/
def versionRangeUntilNextMajor (v : Version) : VersionRange :=
  { lower := { v := v, inclusive := true, unbounded := false }
    upper := { v := ⟨v.major + 1, 0, 0⟩, inclusive := false, unbounded := false }
    isEmpty := false }

/-- `version_range_until_next_minor`; the cast `(uint16_t)(v.minor + 1)` wraps. -/
def versionRangeUntilNextMinor (v : Version) : VersionRange :=
  { lower := { v := v, inclusive := true, unbounded := false }
    upper := { v := ⟨v.major, v.minor + 1, 0⟩, inclusive := false, unbounded := false }
    isEmpty := false }

/-- The lower bound `version_range_intersect` picks. -/
def versionIntersectLower (a b : VersionBound) : VersionBound :=
  if a.unbounded && b.unbounded then
    { versionRangeAny.lower with unbounded := true, inclusive := false }
  else if a.unbounded then b
  else if b.unbounded then a
  else
    let cmp := versionCompare a.v b.v
    if cmp > 0 then a
    else if cmp < 0 then b
    else { v := a.v, inclusive := a.inclusive && b.inclusive, unbounded := false }

/-- The upper bound `version_range_intersect` picks. -/
def versionIntersectUpper (a b : VersionBound) : VersionBound :=
  if a.unbounded && b.unbounded then
    { versionRangeAny.upper with unbounded := true, inclusive := false }
  else if a.unbounded then b
  else if b.unbounded then a
  else
    let cmp := versionCompare a.v b.v
    if cmp < 0 then a
    else if cmp > 0 then b
    else { v := a.v, inclusive := a.inclusive && b.inclusive, unbounded := false }

/-- `version_range_intersect`. Crossed bounds are replaced by those of
`version_range_empty`; `pg_range_intersect` keeps them. -/
def versionRangeIntersect (a b : VersionRange) : VersionRange :=
  if a.isEmpty || b.isEmpty then versionRangeEmpty
  else
    let lower := versionIntersectLower a.lower b.lower
    let upper := versionIntersectUpper a.upper b.upper
    let result : VersionRange := { lower := lower, upper := upper, isEmpty := false }
    if !lower.unbounded && !upper.unbounded then
      let cmp := versionCompare lower.v upper.v
      if cmp > 0 then versionRangeEmpty
      else if cmp = 0 && (!lower.inclusive || !upper.inclusive) then versionRangeEmpty
      else result
    else result

/-! ## Versions between two cuts -/

theorem Version.exists_key {k : Nat} (small : k < 281474976710656) :
    ∃ v : Version, v.key = k := by
  refine ⟨⟨UInt16.ofNat (k / 4294967296), UInt16.ofNat (k / 65536 % 65536),
    UInt16.ofNat (k % 65536)⟩, ?_⟩
  simp only [Version.key, UInt16.toNat_ofNat']
  omega

/-- A version lies between two cuts: they are apart, and not the two cuts
around the place between neighbouring versions. -/
def CutsAdmit (low high : Nat) : Prop :=
  low < high ∧ ¬ (low % 2 = 0 ∧ high = low + 1)

instance (low high : Nat) : Decidable (CutsAdmit low high) := by
  unfold CutsAdmit
  infer_instance

theorem cutsAdmit_iff {low high : Nat} (bound : high ≤ 562949953421313) :
    CutsAdmit low high ↔ ∃ v : Version, low ≤ v.pos ∧ v.pos < high := by
  constructor
  · rintro ⟨apart, room⟩
    -- the first odd position from `low` on
    have small : low / 2 < 281474976710656 := by omega
    obtain ⟨v, key⟩ := Version.exists_key small
    refine ⟨v, ?_⟩
    unfold Version.pos
    omega
  · rintro ⟨v, above, below⟩
    unfold Version.pos at above below
    unfold CutsAdmit
    omega

theorem VersionBound.upperCut_le (b : VersionBound) : b.upperCut ≤ 562949953421313 := by
  have := b.v.key_lt
  unfold VersionBound.upperCut
  split
  · omega
  · split <;> omega

/-- The bounds of a range leave room for a version. -/
def VersionRange.Admits (r : VersionRange) : Prop :=
  CutsAdmit r.lower.lowerCut r.upper.upperCut

theorem VersionRange.admits_iff {r : VersionRange} (unflagged : r.isEmpty = false) :
    r.Admits ↔ ∃ v, pgRangeContains r v = true := by
  unfold VersionRange.Admits
  rw [cutsAdmit_iff r.upper.upperCut_le]
  simp only [pgRangeContains_iff, unflagged, true_and, VersionRange.span, Set.mem_Ico]

/-! ## The copies agree -/

theorem versionCompare_neg {a b : Version} : versionCompare a b < 0 ↔ a.key < b.key := by
  have ha := a.minor.toNat_lt
  have hb := b.minor.toNat_lt
  have ha' := a.patch.toNat_lt
  have hb' := b.patch.toNat_lt
  simp only [versionCompare, Version.key, ne_eq, ← UInt16.toNat_inj]
  split
  · omega
  · split <;> omega

theorem versionCompare_above {a b : Version} : versionCompare a b > 0 ↔ b.key < a.key :=
  versionCompare_pos

theorem versionCompare_zero {a b : Version} : versionCompare a b = 0 ↔ a.key = b.key := by
  have below := versionCompare_neg (a := a) (b := b)
  have above := versionCompare_above (a := a) (b := b)
  omega

/-- Away from two unbounded sides the copies pick the same bound. -/
theorem versionIntersectLower_eq {a b : VersionBound}
    (bounded : (a.unbounded && b.unbounded) = false) :
    versionIntersectLower a b = pgIntersectLower a b := by
  unfold versionIntersectLower pgIntersectLower
  simp only [bounded, Bool.false_eq_true, if_false, versionCompare_neg, versionCompare_above,
    pgVersionCmpInternal_neg, pgVersionCmpInternal_pos]

theorem versionIntersectUpper_eq {a b : VersionBound}
    (bounded : (a.unbounded && b.unbounded) = false) :
    versionIntersectUpper a b = pgIntersectUpper a b := by
  unfold versionIntersectUpper pgIntersectUpper
  simp only [bounded, Bool.false_eq_true, if_false, versionCompare_neg, versionCompare_above,
    pgVersionCmpInternal_neg, pgVersionCmpInternal_pos]

theorem versionIntersectLower_cut (a b : VersionBound) :
    (versionIntersectLower a b).lowerCut = max a.lowerCut b.lowerCut := by
  cases bounded : a.unbounded && b.unbounded with
  | true =>
    rw [Bool.and_eq_true] at bounded
    simp [versionIntersectLower, VersionBound.lowerCut, bounded.1, bounded.2]
  | false => rw [versionIntersectLower_eq bounded, pgIntersectLower_cut]

theorem versionIntersectUpper_cut (a b : VersionBound) :
    (versionIntersectUpper a b).upperCut = min a.upperCut b.upperCut := by
  cases bounded : a.unbounded && b.unbounded with
  | true =>
    rw [Bool.and_eq_true] at bounded
    simp [versionIntersectUpper, VersionBound.upperCut, bounded.1, bounded.2]
  | false => rw [versionIntersectUpper_eq bounded, pgIntersectUpper_cut]

/-- `version_in_range` and `pg_range_contains` are the same test. -/
theorem versionInRange_eq (v : Version) (r : VersionRange) :
    versionInRange v r = pgRangeContains r v := by
  rw [Bool.eq_iff_iff]
  unfold versionInRange pgRangeContains
  have below := versionCompare_neg (a := v) (b := r.lower.v)
  have above := versionCompare_above (a := v) (b := r.upper.v)
  have low := versionCompare_zero (a := v) (b := r.lower.v)
  have high := versionCompare_zero (a := v) (b := r.upper.v)
  have notAbove : versionCompare v r.lower.v ≤ 0 ↔ v.key ≤ r.lower.v.key := by omega
  have notBelow : versionCompare v r.upper.v ≥ 0 ↔ r.upper.v.key ≤ v.key := by omega
  simp only [below, above, notAbove, notBelow, pgVersionCmpInternal_neg,
    pgVersionCmpInternal_pos, pgVersionCmpInternal_zero]
  cases r.isEmpty <;> cases r.lower.unbounded <;> cases r.lower.inclusive <;>
    cases r.upper.unbounded <;> cases r.upper.inclusive <;> simp <;> omega

/-- The bounds that `version_range_intersect` tests are crossed when those of
`pg_range_intersect` are. -/
theorem versionRangeIntersect_open {a b : VersionRange}
    (left : a.isEmpty = false) (right : b.isEmpty = false) :
    versionRangeIntersect a b =
      if (pgRangeIntersect a b).isEmpty then versionRangeEmpty
      else { lower := versionIntersectLower a.lower b.lower
             upper := versionIntersectUpper a.upper b.upper
             isEmpty := false } := by
  have flag : (pgRangeIntersect a b).isEmpty =
      pgBoundsEmpty (versionIntersectLower a.lower b.lower)
        (versionIntersectUpper a.upper b.upper) := by
    rw [Bool.eq_iff_iff, pgBoundsEmpty_iff, versionIntersectLower_cut,
      versionIntersectUpper_cut, (pgRangeIntersect_cuts left right).2.2]
  rw [flag]
  simp only [versionRangeIntersect, pgBoundsEmpty, left, right, Bool.or_self,
    Bool.false_eq_true, if_false, versionCompare_zero, versionCompare_above,
    pgVersionCmpInternal_pos, pgVersionCmpInternal_zero]
  split
  · split
    · rfl
    · split <;> simp
  · rfl

theorem versionRangeIntersect_isEmpty (a b : VersionRange) :
    (versionRangeIntersect a b).isEmpty = (pgRangeIntersect a b).isEmpty := by
  cases left : a.isEmpty with
  | true => simp [versionRangeIntersect, versionRangeEmpty, pgRangeIntersect, left]
  | false =>
    cases right : b.isEmpty with
    | true => simp [versionRangeIntersect, versionRangeEmpty, pgRangeIntersect, right]
    | false =>
      rw [versionRangeIntersect_open left right]
      split
      · next flag => rw [flag]; rfl
      · next flag => simpa using (Bool.eq_false_of_not_eq_true flag).symm

theorem pgRangeContains_versionRangeIntersect (a b : VersionRange) (v : Version) :
    pgRangeContains (versionRangeIntersect a b) v =
      pgRangeContains (pgRangeIntersect a b) v := by
  cases flag : (pgRangeIntersect a b).isEmpty with
  | true =>
    have twin := versionRangeIntersect_isEmpty a b
    rw [flag] at twin
    simp [pgRangeContains, flag, twin]
  | false =>
    obtain ⟨left, right⟩ := pgRangeIntersect_flags flag
    rw [Bool.eq_iff_iff, pgRangeContains_iff, pgRangeContains_iff, versionRangeIntersect_isEmpty,
      versionRangeIntersect_open left right, flag]
    have cuts := pgRangeIntersect_cuts left right
    simp only [Bool.false_eq_true, if_false, VersionRange.span, versionIntersectLower_cut,
      versionIntersectUpper_cut, cuts.1, cuts.2.1]

/-! ## The algebra -/

/-- What the operations on two ranges are for, in both copies. -/
structure RangeAlgebra (a b : VersionRange) : Prop where
  intersect : ∀ v, pgRangeContains (pgRangeIntersect a b) v = true ↔
    pgRangeContains a v = true ∧ pgRangeContains b v = true
  empty : (∀ v, pgRangeContains (pgRangeIntersect a b) v = false) →
    (pgRangeIntersect a b).isEmpty = true
  subset : pgRangeSubset a b = true →
    ∀ v, pgRangeContains a v = true → pgRangeContains b v = true
  twinIntersect : (versionRangeIntersect a b).isEmpty = (pgRangeIntersect a b).isEmpty ∧
    ∀ v, versionInRange v (versionRangeIntersect a b) = pgRangeContains (pgRangeIntersect a b) v
  twinContains : ∀ v, versionInRange v a = pgRangeContains a v ∧
    versionInRange v b = pgRangeContains b v
  twinRanges : versionRangeAny = pgRangeAny ∧ ∀ v, versionRangeExact v = pgRangeExact v ∧
    versionRangeUntilNextMajor v = pgRangeUntilNextMajor v ∧
    versionRangeUntilNextMinor v = pgRangeUntilNextMinor v

/-- The cuts of two ranges decide what their operations answer. -/
structure CutsDecide (a b : VersionRange) : Prop where
  /-- Bounds of two unflagged ranges that do not cross leave room for a version. -/
  room : a.isEmpty = false → b.isEmpty = false →
    max a.lower.lowerCut b.lower.lowerCut < min a.upper.upperCut b.upper.upperCut →
    CutsAdmit (max a.lower.lowerCut b.lower.lowerCut) (min a.upper.upperCut b.upper.upperCut)
  /-- A range with a version is not within the bounds of a flagged one. -/
  flagged : a.isEmpty = false → a.Admits → b.isEmpty = true →
    ¬ (b.lower.lowerCut ≤ a.lower.lowerCut ∧ a.upper.upperCut ≤ b.upper.upperCut)

/-- Emptiness is detected exactly when the bounds that do not cross have room. -/
theorem pgRangeIntersect_detected_iff (a b : VersionRange) :
    ((∀ v, pgRangeContains (pgRangeIntersect a b) v = false) →
      (pgRangeIntersect a b).isEmpty = true) ↔
    (a.isEmpty = false → b.isEmpty = false →
      max a.lower.lowerCut b.lower.lowerCut < min a.upper.upperCut b.upper.upperCut →
      CutsAdmit (max a.lower.lowerCut b.lower.lowerCut)
        (min a.upper.upperCut b.upper.upperCut)) := by
  constructor
  · intro detected left right apart
    obtain ⟨low, high, crossed⟩ := pgRangeIntersect_cuts left right
    have unflagged : (pgRangeIntersect a b).isEmpty = false := by
      rw [Bool.eq_false_iff, ne_eq, crossed]
      omega
    rw [← low, ← high]
    refine (VersionRange.admits_iff unflagged).mpr ?_
    by_contra none
    rw [detected fun v => by_contra fun found => none ⟨v, by simpa using found⟩] at unflagged
    cases unflagged
  · intro room empty
    by_contra flag
    have unflagged : (pgRangeIntersect a b).isEmpty = false := by simpa using flag
    obtain ⟨left, right⟩ := pgRangeIntersect_flags unflagged
    obtain ⟨low, high, crossed⟩ := pgRangeIntersect_cuts left right
    rw [Bool.eq_false_iff, ne_eq, crossed] at unflagged
    have admits := room left right (by omega)
    rw [← low, ← high] at admits
    obtain ⟨v, inside⟩ := (VersionRange.admits_iff (by simpa using flag)).mp admits
    rw [empty v] at inside
    cases inside

/-- The subset test is right exactly when no version of `a` is within the bounds
of a flagged `b`. -/
theorem pgRangeSubset_sound_iff (a b : VersionRange) :
    (pgRangeSubset a b = true → ∀ v, pgRangeContains a v = true → pgRangeContains b v = true) ↔
    (a.isEmpty = false → a.Admits → b.isEmpty = true →
      ¬ (b.lower.lowerCut ≤ a.lower.lowerCut ∧ a.upper.upperCut ≤ b.upper.upperCut)) := by
  constructor
  · intro sound unflagged admits flag within
    obtain ⟨v, inside⟩ := (VersionRange.admits_iff unflagged).mp admits
    have member := sound (pgRangeSubset_iff.mpr (Or.inr within)) v inside
    rw [pgRangeContains_iff, flag] at member
    cases member.1
  · intro apart subset v inside
    cases flag : b.isEmpty with
    | false => exact pgRangeContains_of_subset subset flag inside
    | true =>
      have unflagged := (pgRangeContains_iff.mp inside).1
      rcases pgRangeSubset_iff.mp subset with empty | within
      · rw [unflagged] at empty
        cases empty
      · exact absurd within
          (apart unflagged ((VersionRange.admits_iff unflagged).mpr ⟨v, inside⟩) flag)

/-- The operations on two ranges do what the ranges mean exactly where their cuts decide it. -/
theorem rangeAlgebra_iff (a b : VersionRange) : RangeAlgebra a b ↔ CutsDecide a b := by
  constructor
  · intro algebra
    exact ⟨(pgRangeIntersect_detected_iff a b).mp algebra.empty,
      (pgRangeSubset_sound_iff a b).mp algebra.subset⟩
  · intro cuts
    refine
      { intersect := fun v => pgRangeContains_intersect
        empty := (pgRangeIntersect_detected_iff a b).mpr cuts.room
        subset := (pgRangeSubset_sound_iff a b).mpr cuts.flagged
        twinIntersect := ⟨versionRangeIntersect_isEmpty a b, fun v => ?_⟩
        twinContains := fun v => ⟨versionInRange_eq v a, versionInRange_eq v b⟩
        twinRanges := ⟨rfl, fun v => ⟨rfl, rfl, rfl⟩⟩ }
    rw [versionInRange_eq, pgRangeContains_versionRangeIntersect]

/-- `1.0.0` counts as a subset of the empty range, and nothing is seen between
the exclusive bounds `1.0.0` and `1.0.1`. -/
theorem rangeAlgebra_fails :
    ¬ RangeAlgebra (pgRangeExact ⟨1, 0, 0⟩) { pgRangeAny with isEmpty := true } ∧
    ¬ RangeAlgebra
      { pgRangeAny with lower := { v := ⟨1, 0, 0⟩, inclusive := false, unbounded := false } }
      { pgRangeAny with upper := { v := ⟨1, 0, 1⟩, inclusive := false, unbounded := false } } := by
  constructor
  · intro algebra
    exact absurd (algebra.subset (by decide) ⟨1, 0, 0⟩ (by decide)) (by decide)
  · intro algebra
    have room := (pgRangeIntersect_detected_iff _ _).mp algebra.empty
    exact absurd (room (by decide) (by decide) (by decide)) (by decide)

end ElmWrap
