import ElmWrap.RangeAlgebra
import ElmWrap.VersionText

/-!
# Which constraint a text is read as

A constraint of an elm.json is an exact version or two versions around a `v`.
`version_parse_constraint` scans for the form `lower <= v < upper` and falls
back to the first version of the text, so that other comparisons, and anything
after the first version, are read as that version alone.
-/

namespace ElmWrap

open Lib

/-! ## The grammar -/

/-- A comparison of a constraint. -/
inductive ConstraintOp
  | le
  | lt
deriving DecidableEq, Repr

def ConstraintOp.text : ConstraintOp → List Char
  | .le => ['<', '=']
  | .lt => ['<']

def ConstraintOp.Holds (op : ConstraintOp) (a b : Version) : Prop :=
  match op with
  | .le => versionCompare a b ≤ 0
  | .lt => versionCompare a b < 0

instance (op : ConstraintOp) (a b : Version) : Decidable (op.Holds a b) := by
  cases op <;> unfold ConstraintOp.Holds <;> infer_instance

/-- A constraint of an elm.json. -/
inductive Constraint
  | exactly (v : Version)
  | between (lower : Version) (lowerOp upperOp : ConstraintOp) (upper : Version)
deriving DecidableEq, Repr

/-- The text of a version: three numbers in decimal form. -/
def Version.digits (v : Version) : List Char :=
  Nat.toDigits 10 v.major.toNat ++
    '.' :: (Nat.toDigits 10 v.minor.toNat ++ '.' :: Nat.toDigits 10 v.patch.toNat)

/-- The text of a constraint. -/
def Constraint.text : Constraint → String
  | .exactly v => String.ofList v.digits
  | .between lower lowerOp upperOp upper =>
    String.ofList (lower.digits ++
      ' ' :: (lowerOp.text ++ [' ', 'v', ' '] ++ upperOp.text ++ ' ' :: upper.digits))

/-- The versions that satisfy a constraint. -/
def Constraint.Satisfies (w : Version) : Constraint → Prop
  | .exactly v => w = v
  | .between lower lowerOp upperOp upper => lowerOp.Holds lower w ∧ upperOp.Holds w upper

/-- The constraint a text is read as is the constraint it is the text of, and a text that is
none is not read at all. -/
structure ReadAsSaid (text : String) : Prop where
  accepted : ∀ c : Constraint, c.text = text →
    ∃ range, versionParseConstraint text = some range ∧
      ∀ w, versionInRange w range = true ↔ c.Satisfies w
  rejected : (∀ c : Constraint, c.text ≠ text) → versionParseConstraint text = none

/-! ## What is scanned -/

/-- `%d.%d.%d`: the three integers and the rest of the text. -/
def scanTriple (text : List Char) : Option ((Int × Int × Int) × List Char) :=
  (Scan.scanInt text).bind fun (major, text) =>
    (Scan.expect '.' text).bind fun text =>
      (Scan.scanInt text).bind fun (minor, text) =>
        (Scan.expect '.' text).bind fun text =>
          (Scan.scanInt text).map fun (patch, text) => ((major, minor, patch), text)

/-- Three numerals with dots between them. -/
def Triple (text : List Char) (major minor patch : Int) : Prop :=
  ∃ first second third, text = first ++ '.' :: (second ++ '.' :: third) ∧
    Scan.Numeral first major ∧ Scan.Numeral second minor ∧ Scan.Numeral third patch

theorem dot_noDigit (rest : List Char) : ∀ c, ('.' :: rest).head? = some c → c.isDigit = false := by
  intro c same
  cases same
  rfl

theorem scanTriple_eq_some {text rest : List Char} {major minor patch : Int} :
    scanTriple text = some ((major, minor, patch), rest) ↔ ∃ triple, text = triple ++ rest ∧
      Triple triple major minor patch ∧ ∀ c, rest.head? = some c → c.isDigit = false := by
  unfold scanTriple
  constructor
  · intro read
    simp only [Option.bind_eq_some_iff, Option.map_eq_some_iff, Scan.expect_eq_some] at read
    obtain ⟨⟨a, _⟩, read₁, _, rfl, ⟨b, _⟩, read₂, _, rfl, ⟨c, _⟩, read₃, same⟩ := read
    cases same
    obtain ⟨n₁, rfl, numeral₁, -⟩ := Scan.scanInt_eq_some.mp read₁
    obtain ⟨n₂, rfl, numeral₂, -⟩ := Scan.scanInt_eq_some.mp read₂
    obtain ⟨n₃, rfl, numeral₃, stop⟩ := Scan.scanInt_eq_some.mp read₃
    exact ⟨n₁ ++ '.' :: (n₂ ++ '.' :: n₃), by simp,
      ⟨n₁, n₂, n₃, rfl, numeral₁, numeral₂, numeral₃⟩, stop⟩
  · rintro ⟨_, rfl, ⟨n₁, n₂, n₃, rfl, numeral₁, numeral₂, numeral₃⟩, stop⟩
    have read₁ := Scan.scanInt_eq_some.mpr
      ⟨n₁, rfl, numeral₁, dot_noDigit (n₂ ++ '.' :: (n₃ ++ rest))⟩
    have read₂ := Scan.scanInt_eq_some.mpr ⟨n₂, rfl, numeral₂, dot_noDigit (n₃ ++ rest)⟩
    have read₃ := Scan.scanInt_eq_some.mpr ⟨n₃, rfl, numeral₃, stop⟩
    have whole : (n₁ ++ '.' :: (n₂ ++ '.' :: n₃)) ++ rest =
        n₁ ++ '.' :: (n₂ ++ '.' :: (n₃ ++ rest)) := by simp
    simp only [Option.bind_eq_some_iff, Option.map_eq_some_iff, Scan.expect_eq_some]
    exact ⟨_, whole ▸ read₁, _, rfl, _, read₂, _, rfl, _, read₃, rfl⟩

/-- The directives `%d.%d.%d` at the front of a format. -/
def dottedDirectives (directives : List Scan.Directive) : List Scan.Directive :=
  .int :: .lit '.' :: .int :: .lit '.' :: .int :: directives

theorem scan_triple_some {text rest : List Char} {major minor patch : Int}
    (read : scanTriple text = some ((major, minor, patch), rest))
    (directives : List Scan.Directive) :
    Scan.scan (dottedDirectives directives) text =
      major :: minor :: patch :: Scan.scan directives rest := by
  unfold scanTriple at read
  simp only [Option.bind_eq_some_iff, Option.map_eq_some_iff] at read
  obtain ⟨⟨a, _⟩, read₁, _, dot₁, ⟨b, _⟩, read₂, _, dot₂, ⟨c, _⟩, read₃, same⟩ := read
  cases same
  unfold dottedDirectives
  simp only [Scan.scan_int, Scan.scan_lit, read₁, dot₁, read₂, dot₂, read₃, Option.elim_some]

theorem scan_triple_none {text : List Char} (unread : scanTriple text = none)
    (directives : List Scan.Directive) :
    (Scan.scan (dottedDirectives directives) text).length < 3 := by
  unfold scanTriple at unread
  unfold dottedDirectives
  rw [Scan.scan_int]
  cases read₁ : Scan.scanInt text with
  | none => simp
  | some first =>
    rw [read₁, Option.bind_some] at unread
    rw [Option.elim_some, Scan.scan_lit]
    cases dot₁ : Scan.expect '.' first.2 with
    | none => simp
    | some text₂ =>
      dsimp only at unread
      rw [dot₁, Option.bind_some] at unread
      rw [Option.elim_some, Scan.scan_int]
      cases read₂ : Scan.scanInt text₂ with
      | none => simp
      | some second =>
        rw [read₂, Option.bind_some] at unread
        rw [Option.elim_some, Scan.scan_lit]
        cases dot₂ : Scan.expect '.' second.2 with
        | none => simp
        | some text₃ =>
          rw [dot₂, Option.bind_some] at unread
          rw [Option.elim_some, Scan.scan_int]
          cases read₃ : Scan.scanInt text₃ with
          | none => simp
          | some third =>
            rw [read₃] at unread
            cases unread

/-! ## Between the two versions -/

/-- What comes between the two versions of ` %d.%d.%d <= v < %d.%d.%d`. -/
def skipMiddle (text : List Char) : Option (List Char) :=
  (Scan.skipLit '<' text).bind fun text =>
    (Scan.expect '=' text).bind fun text =>
      (Scan.skipLit 'v' text).bind (Scan.skipLit '<')

/-- `<= v <` with any white space around the `v` and in front. -/
def Middle (text : List Char) : Prop :=
  ∃ first second third, (∀ c ∈ first ++ (second ++ third), Scan.isSpace c = true) ∧
    text = first ++ '<' :: '=' :: (second ++ 'v' :: (third ++ ['<']))

theorem skipMiddle_eq_some {text rest : List Char} :
    skipMiddle text = some rest ↔ ∃ middle, text = middle ++ rest ∧ Middle middle := by
  have below : Scan.isSpace '<' = false := by decide
  have name : Scan.isSpace 'v' = false := by decide
  unfold skipMiddle
  simp only [Option.bind_eq_some_iff, Scan.expect_eq_some, Scan.skipLit_eq_some below,
    Scan.skipLit_eq_some name]
  constructor
  · rintro ⟨_, ⟨blanks₁, spaces₁, rfl⟩, _, rfl, _, ⟨blanks₂, spaces₂, rfl⟩, blanks₃, spaces₃, rfl⟩
    refine ⟨_, ?_, blanks₁, blanks₂, blanks₃, ?_, rfl⟩
    · simp
    · intro c member
      rcases List.mem_append.mp member with one | later
      · exact spaces₁ c one
      · exact (List.mem_append.mp later).elim (spaces₂ c) (spaces₃ c)
  · rintro ⟨_, rfl, blanks₁, blanks₂, blanks₃, spaces, rfl⟩
    exact ⟨_, ⟨blanks₁, fun c member => spaces c (by simp [member]), by simp; rfl⟩, _, rfl, _,
      ⟨blanks₂, fun c member => spaces c (by simp [member]), rfl⟩, blanks₃,
      fun c member => spaces c (by simp [member]), by simp⟩

/-- The directives ` <= v < ` at the front of a format. -/
theorem scan_middle (directives : List Scan.Directive) (text : List Char) :
    Scan.scan (.space :: .lit '<' :: .lit '=' :: .space :: .lit 'v' :: .space :: .lit '<' ::
        directives) text = (skipMiddle text).elim [] (Scan.scan directives) := by
  unfold skipMiddle
  rw [Scan.scan_skipLit]
  cases Scan.skipLit '<' text with
  | none => rfl
  | some text₂ =>
    rw [Option.elim_some, Option.bind_some, Scan.scan_lit]
    cases Scan.expect '=' text₂ with
    | none => rfl
    | some text₃ =>
      rw [Option.elim_some, Option.bind_some, Scan.scan_skipLit]
      cases Scan.skipLit 'v' text₃ with
      | none => rfl
      | some text₄ =>
        rw [Option.elim_some, Option.bind_some, Scan.scan_skipLit]

/-! ## What is read -/

/-- None of the three components is negative. -/
def Natural (major minor patch : Int) : Prop := 0 ≤ major ∧ 0 ≤ minor ∧ 0 ≤ patch

instance (major minor patch : Int) : Decidable (Natural major minor patch) := by
  unfold Natural
  infer_instance

theorem sscanf_version (text : String) :
    Scan.sscanf text "%d.%d.%d" = Scan.scan (dottedDirectives []) text.toList := by
  have directives : Scan.format "%d.%d.%d".toList = dottedDirectives [] := by decide
  unfold Scan.sscanf
  rw [directives]

theorem sscanf_range {text : String} {rest : List Char} {major minor patch : Int}
    (read : scanTriple text.toList = some ((major, minor, patch), rest)) :
    Scan.sscanf text " %d.%d.%d <= v < %d.%d.%d" = major :: minor :: patch ::
      (skipMiddle rest).elim [] (Scan.scan (dottedDirectives [])) := by
  have directives : Scan.format " %d.%d.%d <= v < %d.%d.%d".toList =
      .space :: dottedDirectives (.space :: .lit '<' :: .lit '=' :: .space :: .lit 'v' ::
        .space :: .lit '<' :: .space :: dottedDirectives []) := by decide
  have last : Scan.scan (.space :: dottedDirectives []) = Scan.scan (dottedDirectives []) :=
    funext fun text => Scan.scan_space_int _ text
  unfold Scan.sscanf
  rw [directives, dottedDirectives, Scan.scan_space_int]
  change Scan.scan (dottedDirectives _) _ = _
  rw [scan_triple_some read, scan_middle, last]

/-- Without a version at the front nothing is read. -/
theorem versionParseConstraint_unread {text : String} (unread : scanTriple text.toList = none) :
    versionParseConstraint text = none := by
  have short : (Scan.sscanf text " %d.%d.%d <= v < %d.%d.%d").length < 3 := by
    have directives : Scan.format " %d.%d.%d <= v < %d.%d.%d".toList =
        .space :: dottedDirectives (.space :: .lit '<' :: .lit '=' :: .space :: .lit 'v' ::
          .space :: .lit '<' :: .space :: dottedDirectives []) := by decide
    unfold Scan.sscanf
    rw [directives, dottedDirectives, Scan.scan_space_int]
    exact scan_triple_none unread _
  have shorter : (Scan.sscanf text "%d.%d.%d").length < 3 := by
    rw [sscanf_version]
    exact scan_triple_none unread _
  unfold versionParseConstraint
  split
  · rename_i six
    rw [six] at short
    simp at short
  · split
    · rename_i three
      rw [three] at shorter
      simp at shorter
    · rfl

/-- Two versions around `<= v <` are read as a range. -/
theorem versionParseConstraint_range {text : String} {rest rest₂ rest₃ : List Char}
    {lowerMajor lowerMinor lowerPatch upperMajor upperMinor upperPatch : Int}
    (lower : scanTriple text.toList = some ((lowerMajor, lowerMinor, lowerPatch), rest))
    (middle : skipMiddle rest = some rest₂)
    (upper : scanTriple rest₂ = some ((upperMajor, upperMinor, upperPatch), rest₃)) :
    versionParseConstraint text =
      if Natural lowerMajor lowerMinor lowerPatch ∧ Natural upperMajor upperMinor upperPatch then
        some {
          lower := {
            v := ⟨castUInt16 lowerMajor, castUInt16 lowerMinor, castUInt16 lowerPatch⟩
            inclusive := true, unbounded := false }
          upper := {
            v := ⟨castUInt16 upperMajor, castUInt16 upperMinor, castUInt16 upperPatch⟩
            inclusive := false, unbounded := false }
          isEmpty := false }
      else none := by
  unfold versionParseConstraint
  rw [sscanf_range lower, middle, Option.elim_some, scan_triple_some upper]
  simp only [Scan.scan, Bool.or_eq_true, decide_eq_true_eq]
  by_cases natural : Natural lowerMajor lowerMinor lowerPatch ∧
      Natural upperMajor upperMinor upperPatch
  · rw [if_pos natural, if_neg]
    unfold Natural at natural
    omega
  · rw [if_neg natural, if_pos]
    unfold Natural at natural
    omega

/-- Anything else after a version is dropped. -/
theorem versionParseConstraint_exact {text : String} {rest : List Char} {major minor patch : Int}
    (read : scanTriple text.toList = some ((major, minor, patch), rest))
    (single : (skipMiddle rest).bind scanTriple = none) :
    versionParseConstraint text =
      if Natural major minor patch then
        some (versionRangeExact ⟨castUInt16 major, castUInt16 minor, castUInt16 patch⟩)
      else none := by
  have short : (Scan.sscanf text " %d.%d.%d <= v < %d.%d.%d").length < 6 := by
    rw [sscanf_range read]
    cases middle : skipMiddle rest with
    | none => simp
    | some rest₂ =>
      rw [middle, Option.bind_some] at single
      have tail := scan_triple_none single []
      simp only [Option.elim_some, List.length_cons]
      omega
  unfold versionParseConstraint
  split
  · rename_i six
    rw [six] at short
    simp at short
  · rw [sscanf_version, scan_triple_some read]
    simp only [Scan.scan, Bool.and_eq_true, decide_eq_true_eq]
    by_cases natural : Natural major minor patch
    · rw [if_pos natural, if_pos]
      unfold Natural at natural
      omega
    · rw [if_neg natural, if_neg]
      unfold Natural at natural
      omega

/-! ## Which texts are accepted -/

/-- A version at the front of the text, without a negative component. -/
def StartsWithVersion (text : List Char) : Prop :=
  ∃ version rest major minor patch, text = version ++ rest ∧ Triple version major minor patch ∧
    Natural major minor patch ∧ ∀ c, rest.head? = some c → c.isDigit = false

/-- A version, `<= v <` and a version with a negative component. -/
def NegativeUpper (text : List Char) : Prop :=
  ∃ lower middle upper rest major minor patch upperMajor upperMinor upperPatch,
    text = lower ++ (middle ++ (upper ++ rest)) ∧ Triple lower major minor patch ∧
      Middle middle ∧ Triple upper upperMajor upperMinor upperPatch ∧
      ¬ Natural upperMajor upperMinor upperPatch ∧ ∀ c, rest.head? = some c → c.isDigit = false

theorem Middle.noDigit {middle : List Char} (is_middle : Middle middle) (rest : List Char) :
    ∀ c, (middle ++ rest).head? = some c → c.isDigit = false := by
  obtain ⟨first, second, third, spaces, rfl⟩ := is_middle
  intro c same
  cases first with
  | nil =>
    cases same
    rfl
  | cons d first =>
    cases same
    cases digit : c.isDigit with
    | false => rfl
    | true =>
      have blank := spaces c (by simp)
      rw [Scan.not_isSpace_of_isDigit digit] at blank
      cases blank

theorem startsWithVersion_iff {text : List Char} :
    StartsWithVersion text ↔ ∃ major minor patch rest,
      scanTriple text = some ((major, minor, patch), rest) ∧ Natural major minor patch := by
  constructor
  · rintro ⟨version, rest, major, minor, patch, split, triple, natural, stop⟩
    exact ⟨major, minor, patch, rest, scanTriple_eq_some.mpr ⟨version, split, triple, stop⟩,
      natural⟩
  · rintro ⟨major, minor, patch, rest, read, natural⟩
    obtain ⟨version, split, triple, stop⟩ := scanTriple_eq_some.mp read
    exact ⟨version, rest, major, minor, patch, split, triple, natural, stop⟩

theorem negativeUpper_iff {text : List Char} :
    NegativeUpper text ↔ ∃ lower rest rest₂ upperMajor upperMinor upperPatch rest₃,
      scanTriple text = some (lower, rest) ∧ skipMiddle rest = some rest₂ ∧
        scanTriple rest₂ = some ((upperMajor, upperMinor, upperPatch), rest₃) ∧
        ¬ Natural upperMajor upperMinor upperPatch := by
  constructor
  · rintro ⟨lower, middle, upper, rest, a, b, c, d, e, f, split, first, is_middle, second, negative,
      stop⟩
    exact ⟨(a, b, c), middle ++ (upper ++ rest), upper ++ rest, d, e, f, rest,
      scanTriple_eq_some.mpr ⟨lower, split, first, is_middle.noDigit _⟩,
      skipMiddle_eq_some.mpr ⟨middle, rfl, is_middle⟩,
      scanTriple_eq_some.mpr ⟨upper, rfl, second, stop⟩, negative⟩
  · rintro ⟨⟨a, b, c⟩, rest, rest₂, d, e, f, rest₃, read, skipped, second, negative⟩
    obtain ⟨lower, rfl, first, -⟩ := scanTriple_eq_some.mp read
    obtain ⟨middle, rfl, is_middle⟩ := skipMiddle_eq_some.mp skipped
    obtain ⟨upper, rfl, triple, stop⟩ := scanTriple_eq_some.mp second
    exact ⟨lower, middle, upper, rest₃, a, b, c, d, e, f, rfl, first, is_middle, triple, negative,
      stop⟩

/-- A text is accepted as soon as it starts with a version. -/
theorem versionParseConstraint_isSome {text : String} :
    (∃ range, versionParseConstraint text = some range) ↔
      StartsWithVersion text.toList ∧ ¬ NegativeUpper text.toList := by
  rw [startsWithVersion_iff, negativeUpper_iff]
  cases lower : scanTriple text.toList with
  | none =>
    rw [versionParseConstraint_unread lower]
    simp
  | some read =>
    obtain ⟨⟨a, b, c⟩, rest⟩ := read
    cases single : (skipMiddle rest).bind scanTriple with
    | none =>
      have unread : ∀ rest₂ d e f rest₃, skipMiddle rest = some rest₂ →
          scanTriple rest₂ ≠ some ((d, e, f), rest₃) := by
        intro rest₂ d e f rest₃ skipped
        rw [skipped, Option.bind_some] at single
        rw [single]
        exact Option.some_ne_none _ |>.symm
      rw [versionParseConstraint_exact lower single]
      constructor
      · intro accepted
        split at accepted
        · rename_i natural
          refine ⟨⟨a, b, c, rest, rfl, natural⟩, ?_⟩
          rintro ⟨_, _, rest₂, d, e, f, rest₃, same, skipped, second, -⟩
          cases same
          exact unread rest₂ d e f rest₃ skipped second
        · simp at accepted
      · rintro ⟨⟨_, _, _, _, same, natural⟩, -⟩
        cases same
        rw [if_pos natural]
        exact ⟨_, rfl⟩
    | some second =>
      obtain ⟨⟨d, e, f⟩, rest₃⟩ := second
      obtain ⟨rest₂, middle, upper⟩ := Option.bind_eq_some_iff.mp single
      rw [versionParseConstraint_range lower middle upper]
      constructor
      · intro accepted
        split at accepted
        · rename_i natural
          refine ⟨⟨a, b, c, rest, rfl, natural.1⟩, ?_⟩
          rintro ⟨_, _, _, _, _, _, _, same, skipped, again, negative⟩
          cases same
          cases middle.symm.trans skipped
          cases upper.symm.trans again
          exact negative natural.2
        · simp at accepted
      · rintro ⟨⟨_, _, _, _, same, natural⟩, positive⟩
        cases same
        have naturals : Natural d e f := by
          by_contra negative
          exact positive ⟨_, _, rest₂, d, e, f, rest₃, rfl, middle, upper, negative⟩
        rw [if_pos ⟨natural, naturals⟩]
        exact ⟨_, rfl⟩

/-! ## Texts of constraints -/

theorem Version.triple (v : Version) :
    Triple v.digits v.major.toNat v.minor.toNat v.patch.toNat := by
  have number : ∀ x : UInt16, Scan.Numeral (Nat.toDigits 10 x.toNat) x.toNat := by
    intro x
    have small := x.toNat_lt
    have numeral := (Scan.Digits.toDigits x.toNat).numeral
    rwa [Scan.toInt_ofNat (by omega)] at numeral
  exact ⟨_, _, _, rfl, number _, number _, number _⟩

theorem Triple.blank {text : List Char} {major minor patch : Int}
    (triple : Triple text major minor patch) : Triple (' ' :: text) major minor patch := by
  obtain ⟨first, second, third, rfl, ⟨blanks, sign, digits, negative, n, rfl, spaces, numeral⟩,
    others⟩ := triple
  refine ⟨' ' :: (blanks ++ (sign ++ digits)), second, third, rfl,
    ⟨' ' :: blanks, sign, digits, negative, n, rfl, ?_, numeral⟩, others⟩
  intro c member
  rcases List.mem_cons.mp member with rfl | later
  · decide
  · exact spaces c later

theorem Version.natural (v : Version) : Natural v.major.toNat v.minor.toNat v.patch.toNat :=
  ⟨Int.natCast_nonneg _, Int.natCast_nonneg _, Int.natCast_nonneg _⟩

/-- The text of a constraint with two versions, after the first one. -/
def middleText (lowerOp upperOp : ConstraintOp) (upper : Version) : List Char :=
  ' ' :: (lowerOp.text ++ [' ', 'v', ' '] ++ upperOp.text ++ ' ' :: upper.digits)

theorem scanTriple_between (lower : Version) (lowerOp upperOp : ConstraintOp) (upper : Version) :
    scanTriple (Constraint.between lower lowerOp upperOp upper).text.toList =
      some (((lower.major.toNat : Int), (lower.minor.toNat : Int), (lower.patch.toNat : Int)),
        middleText lowerOp upperOp upper) := by
  refine scanTriple_eq_some.mpr ⟨lower.digits, ?_, lower.triple, ?_⟩
  · simp [Constraint.text, middleText]
  · intro c same
    cases same
    rfl

/-- An exact version is read as the range of that version. -/
theorem versionParseConstraint_exactly (v : Version) :
    versionParseConstraint (Constraint.exactly v).text = some (versionRangeExact v) := by
  have read : scanTriple (Constraint.exactly v).text.toList =
      some (((v.major.toNat : Int), (v.minor.toNat : Int), (v.patch.toNat : Int)), []) := by
    refine scanTriple_eq_some.mpr ⟨v.digits, ?_, v.triple, ?_⟩
    · simp [Constraint.text]
    · intro c same
      cases same
  rw [versionParseConstraint_exact read rfl, if_pos v.natural, castUInt16_toNat,
    castUInt16_toNat, castUInt16_toNat]

/-- The range from one version up to another one. -/
def rangeBetween (lower upper : Version) : VersionRange :=
  { lower := { v := lower, inclusive := true, unbounded := false }
    upper := { v := upper, inclusive := false, unbounded := false }
    isEmpty := false }

theorem versionParseConstraint_between (lower upper : Version) :
    versionParseConstraint (Constraint.between lower .le .lt upper).text =
      some (rangeBetween lower upper) := by
  have blanks : ∀ c ∈ [' '] ++ ([' '] ++ [' ']), Scan.isSpace c = true := by
    intro c member
    have same : c = ' ' := by simpa using member
    subst same
    rfl
  have middle : skipMiddle (middleText .le .lt upper) = some (' ' :: upper.digits) :=
    skipMiddle_eq_some.mpr ⟨[' ', '<', '=', ' ', 'v', ' ', '<'], rfl, [' '], [' '], [' '],
      blanks, rfl⟩
  have second : scanTriple (' ' :: upper.digits) =
      some (((upper.major.toNat : Int), (upper.minor.toNat : Int), (upper.patch.toNat : Int)),
        []) := by
    refine scanTriple_eq_some.mpr
      ⟨' ' :: upper.digits, (List.append_nil _).symm, upper.triple.blank, ?_⟩
    intro c same
    cases same
  rw [versionParseConstraint_range (scanTriple_between _ _ _ _) middle second,
    if_pos ⟨lower.natural, upper.natural⟩]
  simp only [castUInt16_toNat, rangeBetween]

/-- A constraint is read as a range with an open upper end, and then has a `<`, or as a
single version. -/
theorem versionParseConstraint_forms {text : String} {range : VersionRange}
    (parsed : versionParseConstraint text = some range) :
    (∃ lower upper, range = rangeBetween lower upper ∧ '<' ∈ text.toList) ∨
      ∃ v, range = versionRangeExact v := by
  cases first : scanTriple text.toList with
  | none =>
    rw [versionParseConstraint_unread first] at parsed
    cases parsed
  | some read =>
    obtain ⟨⟨major, minor, patch⟩, rest⟩ := read
    cases second : (skipMiddle rest).bind scanTriple with
    | none =>
      rw [versionParseConstraint_exact first second] at parsed
      split at parsed
      · cases parsed
        exact Or.inr ⟨_, rfl⟩
      · cases parsed
    | some read =>
      obtain ⟨⟨upperMajor, upperMinor, upperPatch⟩, rest₃⟩ := read
      obtain ⟨rest₂, middle, upper⟩ := Option.bind_eq_some_iff.mp second
      rw [versionParseConstraint_range first middle upper] at parsed
      split at parsed
      · cases parsed
        refine Or.inl ⟨_, _, rfl, ?_⟩
        obtain ⟨triple, whole, _⟩ := scanTriple_eq_some.mp first
        obtain ⟨between, split, blanks₁, blanks₂, blanks₃, _, form⟩ :=
          skipMiddle_eq_some.mp middle
        rw [whole, split, form]
        simp
      · cases parsed

/-- With any other comparison the first version alone is read. -/
theorem versionParseConstraint_other {lower upper : Version} {lowerOp upperOp : ConstraintOp}
    (other : ¬ (lowerOp = .le ∧ upperOp = .lt)) :
    versionParseConstraint (Constraint.between lower lowerOp upperOp upper).text =
      some (versionRangeExact lower) := by
  have single : (skipMiddle (middleText lowerOp upperOp upper)).bind scanTriple = none := by
    cases lowerOp with
    | lt => rfl
    | le =>
      cases upperOp with
      | le => rfl
      | lt => exact absurd ⟨rfl, rfl⟩ other
  rw [versionParseConstraint_exact (scanTriple_between _ _ _ _) single, if_pos lower.natural,
    castUInt16_toNat, castUInt16_toNat, castUInt16_toNat]

/-! ## Which constraints are read as what they say -/

theorem versionInRange_exact {v w : Version} :
    versionInRange w (versionRangeExact v) = true ↔ w = v := by
  rw [versionInRange_eq]
  exact pgRangeContains_exact

theorem versionInRange_between {lower upper w : Version} :
    versionInRange w (rangeBetween lower upper) = true ↔
      versionCompare lower w ≤ 0 ∧ versionCompare w upper < 0 := by
  have low := versionCompare_above (a := lower) (b := w)
  rw [versionInRange_eq, pgRangeContains_iff, versionCompare_neg]
  simp only [rangeBetween, VersionRange.span, VersionBound.lowerCut, VersionBound.upperCut,
    Set.mem_Ico, Version.pos, Bool.false_eq_true, if_false, if_true, true_and]
  omega

/-- The constraints that `version_parse_constraint` has a form for, and those that admit the
lower version alone. -/
def Constraint.Supported : Constraint → Prop
  | .exactly _ => True
  | .between lower lowerOp upperOp upper => lowerOp = .le ∧ (upperOp = .lt ∨ lower = upper)

/-- Between two versions, both included, lies one of them alone when they are the same. -/
theorem satisfies_single {lower upper : Version} {lowerOp upperOp : ConstraintOp}
    (other : ¬ (lowerOp = .le ∧ upperOp = .lt)) :
    (∀ w, w = lower ↔ (Constraint.between lower lowerOp upperOp upper).Satisfies w) ↔
      (Constraint.between lower lowerOp upperOp upper).Supported := by
  have self : ∀ v : Version, versionCompare v v = 0 := fun v => versionCompare_eq_zero.mpr rfl
  constructor
  · intro alone
    obtain ⟨first, second⟩ := (alone lower).mp rfl
    cases lowerOp with
    | lt =>
      have zero := self lower
      simp only [ConstraintOp.Holds] at first
      omega
    | le =>
      cases upperOp with
      | lt => exact absurd ⟨rfl, rfl⟩ other
      | le =>
        refine ⟨rfl, Or.inr ((alone upper).mpr ⟨second, ?_⟩).symm⟩
        exact le_of_eq (self upper)
  · rintro ⟨rfl, rest⟩ w
    rcases rest with rfl | rfl
    · exact absurd ⟨rfl, rfl⟩ other
    · cases upperOp with
      | lt => exact absurd ⟨rfl, rfl⟩ other
      | le =>
        simp only [Constraint.Satisfies, ConstraintOp.Holds]
        constructor
        · rintro rfl
          exact ⟨le_of_eq (self w), le_of_eq (self w)⟩
        · rintro ⟨above, below⟩
          have up := versionCompare_above (a := lower) (b := w)
          have down := versionCompare_above (a := w) (b := lower)
          exact Version.key_injective (by omega)

theorem accepted_iff (c : Constraint) :
    (∃ range, versionParseConstraint c.text = some range ∧
      ∀ w, versionInRange w range = true ↔ c.Satisfies w) ↔ c.Supported := by
  cases c with
  | exactly v =>
    rw [versionParseConstraint_exactly]
    exact ⟨fun _ => trivial, fun _ => ⟨_, rfl, fun w => versionInRange_exact⟩⟩
  | between lower lowerOp upperOp upper =>
    by_cases form : lowerOp = .le ∧ upperOp = .lt
    · obtain ⟨rfl, rfl⟩ := form
      rw [versionParseConstraint_between]
      exact ⟨fun _ => ⟨rfl, Or.inl rfl⟩, fun _ => ⟨_, rfl, fun w => versionInRange_between⟩⟩
    · rw [versionParseConstraint_other form, ← satisfies_single form]
      constructor
      · rintro ⟨_, same, members⟩ w
        cases same
        rw [← members, versionInRange_exact]
      · intro alone
        exact ⟨_, rfl, fun w => versionInRange_exact.trans (alone w)⟩

/-- A text is read as what it says when it is a supported constraint, and, where it is no
constraint, when it does not start with a version. -/
theorem readAsSaid_iff (text : String) :
    ReadAsSaid text ↔
      (∀ c : Constraint, c.text = text → c.Supported) ∧
        ((∀ c : Constraint, c.text ≠ text) →
          StartsWithVersion text.toList → NegativeUpper text.toList) := by
  constructor
  · intro read
    refine ⟨?_, ?_⟩
    · rintro c rfl
      exact (accepted_iff c).mp (read.accepted c rfl)
    · intro none_ starts
      by_contra positive
      obtain ⟨range, accepted⟩ := versionParseConstraint_isSome.mpr ⟨starts, positive⟩
      rw [read.rejected none_] at accepted
      cases accepted
  · rintro ⟨supported, starts⟩
    refine ⟨?_, ?_⟩
    · rintro c rfl
      exact (accepted_iff c).mpr (supported c rfl)
    · intro none_
      cases read : versionParseConstraint text with
      | none => rfl
      | some range =>
        obtain ⟨first, positive⟩ := versionParseConstraint_isSome.mp ⟨range, read⟩
        exact absurd (starts none_ first) positive

/-- Two included versions and trailing text are read as the first version alone, and a component
of 17 bits is read as one of 16. -/
theorem readAsSaid_fails :
    versionParseConstraint "1.0.0 <= v <= 2.0.0" = some (versionRangeExact ⟨1, 0, 0⟩) ∧
      ¬ ReadAsSaid "1.0.0 <= v <= 2.0.0" ∧
      versionParseConstraint "1.0.0 || 2.0.0" = some (versionRangeExact ⟨1, 0, 0⟩) ∧
      versionParseConstraint "65537.0.0" = some (versionRangeExact ⟨1, 0, 0⟩) := by
  refine ⟨by decide, fun read => ?_, by decide, by decide⟩
  obtain ⟨range, parsed, members⟩ :=
    read.accepted (.between ⟨1, 0, 0⟩ .le .le ⟨2, 0, 0⟩) (by decide)
  have exact_ : versionParseConstraint "1.0.0 <= v <= 2.0.0" =
      some (versionRangeExact ⟨1, 0, 0⟩) := by decide
  rw [exact_] at parsed
  cases parsed
  have upper := (members ⟨2, 0, 0⟩).mpr ⟨by decide, by decide⟩
  exact absurd upper (by decide)

end ElmWrap
