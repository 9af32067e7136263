import ElmWrap.RangeAlgebra
import ElmWrap.VersionText

/-!
# Versions at the limits of their components

A component of a version is stored in 16 bits. Reading a wider number keeps its
low 16 bits, and the version after the last one is the first one. Both are
compared here with what the numbers themselves say.
-/

namespace ElmWrap

open Lib

/-! ## The ranges up to the next version -/

/-- A range up to the next version contains `v`, and of the versions from `v` on exactly those
that agree with `v`. -/
structure UntilNext (v : Version) (agrees : Version → Prop) (contains : Version → Bool) :
    Prop where
  own : contains v = true
  exactly : ∀ w, contains w = true ↔ versionCompare w v ≥ 0 ∧ agrees w

theorem versionCompare_ge {a b : Version} : versionCompare a b ≥ 0 ↔ b.key ≤ a.key := by
  have below := versionCompare_neg (a := a) (b := b)
  omega

theorem pgRangeUntilNextMinor_contains (v w : Version) :
    pgRangeContains (pgRangeUntilNextMinor v) w = true ↔
      v.key ≤ w.key ∧ w.key < (⟨v.major, v.minor + 1, 0⟩ : Version).key := by
  rw [pgRangeContains_iff]
  simp only [pgRangeUntilNextMinor, VersionRange.span, VersionBound.lowerCut,
    VersionBound.upperCut, Set.mem_Ico, Version.pos, Bool.false_eq_true, if_false, if_true,
    true_and]
  omega

theorem pgRangeUntilNextMajor_contains (v w : Version) :
    pgRangeContains (pgRangeUntilNextMajor v) w = true ↔
      v.key ≤ w.key ∧ w.key < (⟨v.major + 1, 0, 0⟩ : Version).key := by
  rw [pgRangeContains_iff]
  simp only [pgRangeUntilNextMajor, VersionRange.span, VersionBound.lowerCut,
    VersionBound.upperCut, Set.mem_Ico, Version.pos, Bool.false_eq_true, if_false, if_true,
    true_and]
  omega

/-- The same major and minor component as `v`. -/
def SameMinor (v w : Version) : Prop := w.major = v.major ∧ w.minor = v.minor

/-- The same major component as `v`. -/
def SameMajor (v w : Version) : Prop := w.major = v.major

/-- The last minor version has no next one: its range is empty. -/
theorem untilNextMinor_iff (v : Version) :
    UntilNext v (SameMinor v) (pgRangeContains (pgRangeUntilNextMinor v)) ↔
      v.minor.toNat ≠ 65535 := by
  have minor := v.minor.toNat_lt
  have patch := v.patch.toNat_lt
  have next : (v.minor + 1).toNat = (v.minor.toNat + 1) % 65536 := by simp [UInt16.toNat_add]
  constructor
  · intro law last
    have own := (pgRangeUntilNextMinor_contains v v).mp law.own
    simp only [Version.key, next, UInt16.toNat_zero] at own
    omega
  · intro room
    refine ⟨?_, fun w => ?_⟩
    · rw [pgRangeUntilNextMinor_contains]
      simp only [Version.key, next, UInt16.toNat_zero]
      omega
    · have minor' := w.minor.toNat_lt
      have patch' := w.patch.toNat_lt
      rw [pgRangeUntilNextMinor_contains, versionCompare_ge]
      simp only [SameMinor, Version.key, next, UInt16.toNat_zero, ← UInt16.toNat_inj]
      omega

theorem untilNextMajor_iff (v : Version) :
    UntilNext v (SameMajor v) (pgRangeContains (pgRangeUntilNextMajor v)) ↔
      v.major.toNat ≠ 65535 := by
  have major := v.major.toNat_lt
  have minor := v.minor.toNat_lt
  have patch := v.patch.toNat_lt
  have next : (v.major + 1).toNat = (v.major.toNat + 1) % 65536 := by simp [UInt16.toNat_add]
  constructor
  · intro law last
    have own := (pgRangeUntilNextMajor_contains v v).mp law.own
    simp only [Version.key, next, UInt16.toNat_zero] at own
    omega
  · intro room
    refine ⟨?_, fun w => ?_⟩
    · rw [pgRangeUntilNextMajor_contains]
      simp only [Version.key, next, UInt16.toNat_zero]
      omega
    · have minor' := w.minor.toNat_lt
      have patch' := w.patch.toNat_lt
      rw [pgRangeUntilNextMajor_contains, versionCompare_ge]
      simp only [SameMajor, Version.key, next, UInt16.toNat_zero, ← UInt16.toNat_inj]
      omega

/-- The two copies of a range contain the same versions. -/
theorem versionInRange_untilNextMinor_iff (v : Version) :
    (fun w => versionInRange w (versionRangeUntilNextMinor v)) =
      pgRangeContains (pgRangeUntilNextMinor v) :=
  funext fun w => versionInRange_eq w (versionRangeUntilNextMinor v)

theorem versionInRange_untilNextMajor_iff (v : Version) :
    (fun w => versionInRange w (versionRangeUntilNextMajor v)) =
      pgRangeContains (pgRangeUntilNextMajor v) :=
  funext fun w => versionInRange_eq w (versionRangeUntilNextMajor v)

/-! ## Version texts -/

/-- The three numbers of a version text. -/
structure Numbers where
  major : Nat
  minor : Nat
  patch : Nat
deriving DecidableEq, Repr

/-- The version text of three numbers, in canonical decimal form. -/
def Numbers.text (x : Numbers) : String :=
  x.major.repr ++ "." ++ x.minor.repr ++ "." ++ x.patch.repr

/-- The numeric order of versions. -/
def Numbers.Before (x y : Numbers) : Prop :=
  x.major < y.major ∨ x.major = y.major ∧
    (x.minor < y.minor ∨ x.minor = y.minor ∧ x.patch < y.patch)

/-- The low 16 bits of each number. -/
def Numbers.wrap (x : Numbers) : Numbers := ⟨x.major % 65536, x.minor % 65536, x.patch % 65536⟩

/-- All three numbers fit into a component. -/
def Numbers.Fit (x : Numbers) : Prop := x.major < 65536 ∧ x.minor < 65536 ∧ x.patch < 65536

theorem Numbers.wrap_of_fit {x : Numbers} (fit : x.Fit) : x.wrap = x := by
  obtain ⟨major, minor, patch⟩ := fit
  simp [Numbers.wrap, Nat.mod_eq_of_lt major, Nat.mod_eq_of_lt minor, Nat.mod_eq_of_lt patch]

theorem Numbers.fit_wrap (x : Numbers) : x.wrap.Fit :=
  ⟨Nat.mod_lt _ (by decide), Nat.mod_lt _ (by decide), Nat.mod_lt _ (by decide)⟩

/-- Two texts give versions that are different and compared as the numbers are. -/
structure ReadInOrder (x y : Numbers) (v w : Version) : Prop where
  distinct : x ≠ y → v ≠ w
  before : versionCompare v w < 0 ↔ x.Before y
  after : versionCompare v w > 0 ↔ y.Before x

/-- The low 16 bits of the numbers of two texts are ordered as the numbers themselves. -/
def WrapKeepsOrder (x y : Numbers) : Prop :=
  (x.wrap.Before y.wrap ↔ x.Before y) ∧ (y.wrap.Before x.wrap ↔ y.Before x)

theorem castUInt16_toInt {n : Nat} (natural : ¬ Scan.toInt n < 0) :
    (castUInt16 (Scan.toInt n)).toNat = n % 65536 := by
  unfold Scan.toInt at natural ⊢
  simp only [castUInt16, UInt16.toNat_ofNat']
  rw [Int.bmod_def] at natural ⊢
  split at natural
  · rename_i small
    rw [if_pos small]
    omega
  · omega

theorem sscanf_text (x : Numbers) :
    Scan.sscanf x.text "%d.%d.%d" =
      [Scan.toInt x.major, Scan.toInt x.minor, Scan.toInt x.patch] := by
  have text : x.text = String.ofList (Nat.toDigits 10 x.major ++
      ('.' :: (Nat.toDigits 10 x.minor ++ ('.' :: Nat.toDigits 10 x.patch)))) := by
    apply String.toList_inj.mp
    simp [Numbers.text]
  rw [text]
  exact sscanf_digits (.toDigits _) (.toDigits _) (.toDigits _)

/-- A version text is read into the low 16 bits of its numbers. -/
theorem versionParseSafe_text {x : Numbers} {v : Version}
    (read : versionParseSafe x.text = some v) :
    (⟨v.major.toNat, v.minor.toNat, v.patch.toNat⟩ : Numbers) = x.wrap := by
  unfold versionParseSafe at read
  rw [sscanf_text] at read
  dsimp only at read
  split at read
  · cases read
  · rename_i natural
    simp only [Bool.or_eq_true, decide_eq_true_eq, not_or] at natural
    obtain ⟨⟨major, minor⟩, patch⟩ := natural
    cases read
    simp only [Numbers.wrap, castUInt16_toInt major, castUInt16_toInt minor,
      castUInt16_toInt patch]

/-- Numbers that fit are read. -/
theorem versionParseSafe_fit {x : Numbers} (fit : x.Fit) :
    ∃ v, versionParseSafe x.text = some v := by
  obtain ⟨major, minor, patch⟩ := fit
  refine ⟨⟨castUInt16 x.major, castUInt16 x.minor, castUInt16 x.patch⟩, ?_⟩
  unfold versionParseSafe
  rw [sscanf_text, Scan.toInt_ofNat (by omega), Scan.toInt_ofNat (by omega),
    Scan.toInt_ofNat (by omega)]
  simp

/-! ## The order of texts -/

/-- The numbers of a version. -/
def Version.numbers (v : Version) : Numbers := ⟨v.major.toNat, v.minor.toNat, v.patch.toNat⟩

theorem Version.key_lt_iff {v w : Version} : v.key < w.key ↔ v.numbers.Before w.numbers := by
  have minor := v.minor.toNat_lt
  have patch := v.patch.toNat_lt
  have minor' := w.minor.toNat_lt
  have patch' := w.patch.toNat_lt
  simp only [Version.key, Version.numbers, Numbers.Before]
  omega

theorem Version.numbers_injective {v w : Version} (same : v.numbers = w.numbers) : v = w := by
  simp only [Version.numbers, Numbers.mk.injEq, UInt16.toNat_inj] at same
  obtain ⟨major, minor, patch⟩ := same
  cases v
  cases w
  simp_all

theorem Numbers.before_total {x y : Numbers} (different : x ≠ y) : x.Before y ∨ y.Before x := by
  by_contra neither
  apply different
  rcases x with ⟨major, minor, patch⟩
  rcases y with ⟨major', minor', patch'⟩
  simp only [Numbers.Before] at neither
  simp only [Numbers.mk.injEq]
  omega

theorem Numbers.not_before_self (x : Numbers) : ¬ x.Before x := by
  simp [Numbers.Before]

/-- Two texts are read in order when their low 16 bits are ordered as the numbers are. -/
theorem readInOrder_iff {x y : Numbers} {v w : Version}
    (first : versionParseSafe x.text = some v) (second : versionParseSafe y.text = some w) :
    ReadInOrder x y v w ↔ WrapKeepsOrder x y := by
  have left : v.numbers = x.wrap := versionParseSafe_text first
  have right : w.numbers = y.wrap := versionParseSafe_text second
  have below : versionCompare v w < 0 ↔ x.wrap.Before y.wrap := by
    rw [versionCompare_neg, Version.key_lt_iff, left, right]
  have above : versionCompare v w > 0 ↔ y.wrap.Before x.wrap := by
    rw [versionCompare_above, Version.key_lt_iff, left, right]
  constructor
  · intro law
    exact ⟨below.symm.trans law.before, above.symm.trans law.after⟩
  · intro kept
    refine ⟨fun different same => ?_, below.trans kept.1, above.trans kept.2⟩
    subst same
    unfold WrapKeepsOrder at kept
    rw [← left, ← right] at kept
    rcases Numbers.before_total different with ahead | behind
    · exact Numbers.not_before_self _ (kept.1.mpr ahead)
    · exact Numbers.not_before_self _ (kept.2.mpr behind)

/-- Numbers that do not fit are read as numbers that do. -/
theorem readInOrder_all_iff {x : Numbers} {v : Version} (read : versionParseSafe x.text = some v) :
    (∀ y w, Numbers.Fit y → versionParseSafe y.text = some w → ReadInOrder x y v w) ↔ x.Fit := by
  constructor
  · intro all
    obtain ⟨w, second⟩ := versionParseSafe_fit x.fit_wrap
    by_contra wide
    have different : x ≠ x.wrap := by
      intro same
      rw [same] at wide
      exact wide x.fit_wrap
    have right : w.numbers = x.wrap := by
      rw [← Numbers.wrap_of_fit x.fit_wrap]
      exact versionParseSafe_text second
    have left : v.numbers = x.wrap := versionParseSafe_text read
    exact (all _ w x.fit_wrap second).distinct different
      (Version.numbers_injective (left.trans right.symm))
  · intro fit y w fits second
    apply (readInOrder_iff read second).mpr
    unfold WrapKeepsOrder
    rw [Numbers.wrap_of_fit fit, Numbers.wrap_of_fit fits]
    exact ⟨Iff.rfl, Iff.rfl⟩

/-- The ranges up to the next version are right up to the last component, and version texts are
told apart and ordered as far as their numbers fit into a component. -/
theorem versionLimits (u : Version) {x y : Numbers} {v w : Version}
    (first : versionParseSafe x.text = some v) (second : versionParseSafe y.text = some w) :
    ((UntilNext u (SameMinor u) (pgRangeContains (pgRangeUntilNextMinor u)) ↔
        u.minor.toNat ≠ 65535) ∧
      (UntilNext u (SameMinor u) (fun w => versionInRange w (versionRangeUntilNextMinor u)) ↔
        u.minor.toNat ≠ 65535) ∧
      (UntilNext u (SameMajor u) (pgRangeContains (pgRangeUntilNextMajor u)) ↔
        u.major.toNat ≠ 65535) ∧
      (UntilNext u (SameMajor u) (fun w => versionInRange w (versionRangeUntilNextMajor u)) ↔
        u.major.toNat ≠ 65535)) ∧
    (ReadInOrder x y v w ↔ WrapKeepsOrder x y) ∧
    ((∀ y w, Numbers.Fit y → versionParseSafe y.text = some w → ReadInOrder x y v w) ↔
      x.Fit) := by
  refine ⟨?_, readInOrder_iff first second, readInOrder_all_iff first⟩
  rw [versionInRange_untilNextMinor_iff, versionInRange_untilNextMajor_iff]
  exact ⟨untilNextMinor_iff u, untilNextMinor_iff u, untilNextMajor_iff u, untilNextMajor_iff u⟩

theorem versionLimits_small :
    UntilNext ⟨1, 2, 3⟩ (SameMinor ⟨1, 2, 3⟩)
        (pgRangeContains (pgRangeUntilNextMinor ⟨1, 2, 3⟩)) ∧
      ReadInOrder ⟨1, 9, 0⟩ ⟨1, 10, 0⟩ ⟨1, 9, 0⟩ ⟨1, 10, 0⟩ := by
  have limits := @versionLimits ⟨1, 2, 3⟩ ⟨1, 9, 0⟩ ⟨1, 10, 0⟩ ⟨1, 9, 0⟩ ⟨1, 10, 0⟩
    (by decide) (by decide)
  refine ⟨limits.1.1.mpr (by decide), limits.2.1.mpr ?_⟩
  unfold WrapKeepsOrder Numbers.Before Numbers.wrap
  decide

/-- The last minor version and the last major version are not in their own ranges, and a number
of 17 bits is read as one of 16. -/
theorem versionLimits_fails :
    (versionParseSafe "1.65535.0" = some ⟨1, 65535, 0⟩ ∧
      ¬ UntilNext ⟨1, 65535, 0⟩ (SameMinor ⟨1, 65535, 0⟩)
        (pgRangeContains (pgRangeUntilNextMinor ⟨1, 65535, 0⟩))) ∧
    (versionParseSafe "65535.0.0" = some ⟨65535, 0, 0⟩ ∧
      ¬ UntilNext ⟨65535, 0, 0⟩ (SameMajor ⟨65535, 0, 0⟩)
        (pgRangeContains (pgRangeUntilNextMajor ⟨65535, 0, 0⟩))) ∧
    versionParseSafe "65536.0.0" = some ⟨0, 0, 0⟩ ∧ versionParseSafe "0.0.0" = some ⟨0, 0, 0⟩ ∧
      ¬ ReadInOrder ⟨65536, 0, 0⟩ ⟨0, 0, 0⟩ ⟨0, 0, 0⟩ ⟨0, 0, 0⟩ := by
  refine ⟨⟨by decide, fun law => ?_⟩, ⟨by decide, fun law => ?_⟩, by decide, by decide,
    fun law => law.distinct (by decide) rfl⟩
  · exact absurd law.own (by decide)
  · exact absurd law.own (by decide)

end ElmWrap
