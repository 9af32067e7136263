/-!
# Versions and version ranges

The version and range types of `commands/package/package_common.h`, and the
range operations of `pgsolver/pg_core.c` the solver computes with. `PgVersion`,
`PgBound` and `PgVersionRange` are typedefs of the former in the source, so they
are abbreviations here.
-/

namespace ElmWrap

/-- `Version`: three components of type `uint16_t`. -/
structure Version where
  major : UInt16
  minor : UInt16
  patch : UInt16
deriving DecidableEq, Repr

/-- `VersionBound`: the version is ignored when `unbounded` is set. -/
structure VersionBound where
  v : Version
  inclusive : Bool
  unbounded : Bool
deriving DecidableEq, Repr

/-- `VersionRange`: `isEmpty` overrides both bounds. -/
structure VersionRange where
  lower : VersionBound
  upper : VersionBound
  isEmpty : Bool
deriving DecidableEq, Repr

abbrev PgVersion := Version
abbrev PgBound := VersionBound
abbrev PgVersionRange := VersionRange

/-! ## Comparison -/

/-- `version_compare`, also `registry_version_compare`. -/
def versionCompare (a b : Version) : Int :=
  if a.major ≠ b.major then (a.major.toNat : Int) - b.major.toNat
  else if a.minor ≠ b.minor then (a.minor.toNat : Int) - b.minor.toNat
  else (a.patch.toNat : Int) - b.patch.toNat

/-- `pg_version_cmp_internal`. -/
def pgVersionCmpInternal (a b : PgVersion) : Int :=
  if a.major ≠ b.major then
    if a.major < b.major then -1 else 1
  else if a.minor ≠ b.minor then
    if a.minor < b.minor then -1 else 1
  else if a.patch ≠ b.patch then
    if a.patch < b.patch then -1 else 1
  else 0

/-! ## `pg_core.c`: range construction -/

/-- `pg_unbounded_bound`. -/
def pgUnboundedBound : PgBound :=
  { v := ⟨0, 0, 0⟩, inclusive := false, unbounded := true }

/-- `pg_range_any`. -/
def pgRangeAny : PgVersionRange :=
  { lower := pgUnboundedBound, upper := pgUnboundedBound, isEmpty := false }

/-- `pg_range_exact`. -/
def pgRangeExact (v : PgVersion) : PgVersionRange :=
  { lower := { v := v, inclusive := true, unbounded := false }
    upper := { v := v, inclusive := true, unbounded := false }
    isEmpty := false }

/-- `pg_range_until_next_minor`; the cast `(uint16_t)(v.minor + 1)` wraps. -/
def pgRangeUntilNextMinor (v : PgVersion) : PgVersionRange :=
  { lower := { v := v, inclusive := true, unbounded := false }
    upper := { v := ⟨v.major, v.minor + 1, 0⟩, inclusive := false, unbounded := false }
    isEmpty := false }

/-- `pg_range_until_next_major`; the cast `(uint16_t)(v.major + 1)` wraps. -/
def pgRangeUntilNextMajor (v : PgVersion) : PgVersionRange :=
  { lower := { v := v, inclusive := true, unbounded := false }
    upper := { v := ⟨v.major + 1, 0, 0⟩, inclusive := false, unbounded := false }
    isEmpty := false }

/-- `pg_range_is_exact`, with the version it writes to `out_version`. -/
def pgRangeIsExact (range : PgVersionRange) : Option PgVersion :=
  if range.lower.unbounded || range.upper.unbounded then none
  else if !range.lower.inclusive || !range.upper.inclusive then none
  else if pgVersionCmpInternal range.lower.v range.upper.v ≠ 0 then none
  else some range.lower.v

/-! ## `pg_core.c`: range operations -/

/-- The lower bound `pg_range_intersect` picks: the most restrictive one. -/
def pgIntersectLower (a b : PgBound) : PgBound :=
  if a.unbounded then b
  else if b.unbounded then a
  else
    let cmp := pgVersionCmpInternal a.v b.v
    if cmp > 0 then a
    else if cmp < 0 then b
    else { v := a.v, unbounded := false, inclusive := a.inclusive && b.inclusive }

/-- The upper bound `pg_range_intersect` picks. -/
def pgIntersectUpper (a b : PgBound) : PgBound :=
  if a.unbounded then b
  else if b.unbounded then a
  else
    let cmp := pgVersionCmpInternal a.v b.v
    if cmp < 0 then a
    else if cmp > 0 then b
    else { v := a.v, unbounded := false, inclusive := a.inclusive && b.inclusive }

/-- The emptiness test at the end of `pg_range_intersect`. -/
def pgBoundsEmpty (lower upper : PgBound) : Bool :=
  if !lower.unbounded && !upper.unbounded then
    let cmp := pgVersionCmpInternal lower.v upper.v
    if cmp > 0 then true
    else if cmp = 0 && (!lower.inclusive || !upper.inclusive) then true
    else false
  else false

/-- `pg_range_intersect`. -/
def pgRangeIntersect (a b : PgVersionRange) : PgVersionRange :=
  if a.isEmpty || b.isEmpty then { pgRangeAny with isEmpty := true }
  else
    let lower := pgIntersectLower a.lower b.lower
    let upper := pgIntersectUpper a.upper b.upper
    { lower := lower, upper := upper, isEmpty := pgBoundsEmpty lower upper }

/-- `pg_range_contains`. -/
def pgRangeContains (range : PgVersionRange) (v : PgVersion) : Bool :=
  if range.isEmpty then false
  else if !range.lower.unbounded &&
      (pgVersionCmpInternal v range.lower.v < 0 ||
        (pgVersionCmpInternal v range.lower.v = 0 && !range.lower.inclusive)) then false
  else if !range.upper.unbounded &&
      (pgVersionCmpInternal v range.upper.v > 0 ||
        (pgVersionCmpInternal v range.upper.v = 0 && !range.upper.inclusive)) then false
  else true

/-- `pg_lower_bound_ge`. -/
def pgLowerBoundGe (a b : PgBound) : Bool :=
  if b.unbounded then true
  else if a.unbounded then false
  else
    let cmp := pgVersionCmpInternal a.v b.v
    if cmp > 0 then true
    else if cmp < 0 then false
    else if !b.inclusive && a.inclusive then false
    else true

/-- `pg_upper_bound_le`. -/
def pgUpperBoundLe (a b : PgBound) : Bool :=
  if b.unbounded then true
  else if a.unbounded then false
  else
    let cmp := pgVersionCmpInternal a.v b.v
    if cmp < 0 then true
    else if cmp > 0 then false
    else if !b.inclusive && a.inclusive then false
    else true

/-- `pg_range_subset`. It never looks at `b.isEmpty`. -/
def pgRangeSubset (a b : PgVersionRange) : Bool :=
  if a.isEmpty then true
  else pgLowerBoundGe a.lower b.lower && pgUpperBoundLe a.upper b.upper

end ElmWrap
