import ElmWrap.VersionRange
import ElmWrap.Lib.Scan

/-!
# Versions and constraints as text

The functions of `commands/package/package_common.c` that read and print
versions. The casts to `uint16_t` wrap, as in the source.
-/

namespace ElmWrap

open Lib

/-- The cast `(uint16_t)` of an `int` known not to be negative. -/
def castUInt16 (value : Int) : UInt16 := UInt16.ofNat value.toNat

/-- `version_parse_safe`. -/
def versionParseSafe (text : String) : Option Version :=
  match Scan.sscanf text "%d.%d.%d" with
  | [major, minor, patch] =>
    if major < 0 || minor < 0 || patch < 0 then none
    else some ⟨castUInt16 major, castUInt16 minor, castUInt16 patch⟩
  | _ => none

/-- `version_parse`. -/
def versionParse (text : String) : Version :=
  match Scan.sscanf text "%d.%d.%d" with
  | [major, minor, patch] =>
    if major ≥ 0 && minor ≥ 0 && patch ≥ 0 then
      ⟨castUInt16 major, castUInt16 minor, castUInt16 patch⟩
    else ⟨0, 0, 0⟩
  | _ => ⟨0, 0, 0⟩

/-- `version_range_exact`. -/
def versionRangeExact (v : Version) : VersionRange := pgRangeExact v

/-- `version_in_range`. -/
def versionInRange (v : Version) (range : VersionRange) : Bool :=
  if range.isEmpty then false
  else if !range.lower.unbounded &&
      (if range.lower.inclusive then versionCompare v range.lower.v < 0
        else versionCompare v range.lower.v ≤ 0) then false
  else if !range.upper.unbounded &&
      (if range.upper.inclusive then versionCompare v range.upper.v > 0
        else versionCompare v range.upper.v ≥ 0) then false
  else true

/-- `version_parse_constraint`. -/
def versionParseConstraint (constraint : String) : Option VersionRange :=
  match Scan.sscanf constraint " %d.%d.%d <= v < %d.%d.%d" with
  | [lowerMajor, lowerMinor, lowerPatch, upperMajor, upperMinor, upperPatch] =>
    if lowerMajor < 0 || lowerMinor < 0 || lowerPatch < 0 ||
        upperMajor < 0 || upperMinor < 0 || upperPatch < 0 then none
    else some {
      lower := {
        v := ⟨castUInt16 lowerMajor, castUInt16 lowerMinor, castUInt16 lowerPatch⟩
        inclusive := true, unbounded := false }
      upper := {
        v := ⟨castUInt16 upperMajor, castUInt16 upperMinor, castUInt16 upperPatch⟩
        inclusive := false, unbounded := false }
      isEmpty := false }
  | _ =>
    -- the second `sscanf`: everything after the first version is ignored
    match Scan.sscanf constraint "%d.%d.%d" with
    | [major, minor, patch] =>
      if major ≥ 0 && minor ≥ 0 && patch ≥ 0 then
        some (versionRangeExact ⟨castUInt16 major, castUInt16 minor, castUInt16 patch⟩)
      else none
    | _ => none

/-- `version_to_string`. -/
def versionToString (v : Version) : String :=
  v.major.toNat.repr ++ "." ++ v.minor.toNat.repr ++ "." ++ v.patch.toNat.repr

/-- `version_format`. -/
def versionFormat (major minor patch : UInt16) : String := versionToString ⟨major, minor, patch⟩

/-- `pg_version_parse`. -/
def pgVersionParse (text : String) : Option PgVersion := versionParseSafe text

/-- `pg_elm_parse_constraint`. -/
def pgElmParseConstraint (constraint : String) : Option PgVersionRange :=
  versionParseConstraint constraint

/-! ## Reading back what is printed -/

theorem castUInt16_toNat (x : UInt16) : castUInt16 (x.toNat : Int) = x := by
  simp [castUInt16]

/-- Three numbers with dots between them are read, whatever their length. -/
theorem sscanf_digits {a b c : List Char} {major minor patch : Nat}
    (first : Scan.Digits a major) (second : Scan.Digits b minor) (third : Scan.Digits c patch) :
    Scan.sscanf (String.ofList (a ++ '.' :: (b ++ '.' :: c))) "%d.%d.%d" =
      [Scan.toInt major, Scan.toInt minor, Scan.toInt patch] := by
  have dotted : Scan.format "%d.%d.%d".toList =
      [.int, .lit '.', .int, .lit '.', .int] := by decide
  have dot : ∀ rest : List Char, ∀ c, ('.' :: rest).head? = some c → c.isDigit = false := by
    intro rest c same
    cases same
    rfl
  have last : Scan.scanInt c = some (Scan.toInt patch, []) := by
    have read := @Scan.scanInt_digits c patch third [] (by intro c same; cases same)
    rw [List.append_nil] at read
    exact read
  unfold Scan.sscanf
  rw [dotted, String.toList_ofList]
  simp only [Scan.scan]
  rw [Scan.scanInt_digits first (dot _)]
  simp only [Scan.scan, if_true]
  rw [Scan.scanInt_digits second (dot _)]
  simp only [Scan.scan, if_true]
  rw [last]

/-- Three numbers with dots between them are read. -/
theorem sscanf_dotted {a b c : List Char} {major minor patch : Nat}
    (first : Scan.Number a major) (second : Scan.Number b minor) (third : Scan.Number c patch) :
    Scan.sscanf (String.ofList (a ++ '.' :: (b ++ '.' :: c))) "%d.%d.%d" =
      [(major : Int), (minor : Int), (patch : Int)] := by
  rw [sscanf_digits first.digits second.digits third.digits, Scan.toInt_ofNat first.small,
    Scan.toInt_ofNat second.small, Scan.toInt_ofNat third.small]

/-- A lower and an upper version, as in a constraint, are read. -/
theorem sscanf_constraint {a b c d e f : List Char} {lowerMajor lowerMinor lowerPatch upperMajor
    upperMinor upperPatch : Nat} (first : Scan.Number a lowerMajor)
    (second : Scan.Number b lowerMinor) (third : Scan.Number c lowerPatch)
    (fourth : Scan.Number d upperMajor) (fifth : Scan.Number e upperMinor)
    (sixth : Scan.Number f upperPatch) :
    Scan.sscanf (String.ofList (a ++ '.' :: (b ++ '.' :: (c ++ ' ' :: '<' :: '=' :: ' ' :: 'v' ::
        ' ' :: '<' :: ' ' :: (d ++ '.' :: (e ++ '.' :: f)))))) " %d.%d.%d <= v < %d.%d.%d" =
      [(lowerMajor : Int), lowerMinor, lowerPatch, upperMajor, upperMinor, upperPatch] := by
  have directives : Scan.format " %d.%d.%d <= v < %d.%d.%d".toList =
      [.space, .int, .lit '.', .int, .lit '.', .int, .space, .lit '<', .lit '=', .space, .lit 'v',
        .space, .lit '<', .space, .int, .lit '.', .int, .lit '.', .int] := by decide
  have dot : ∀ rest : List Char, ∀ c, ('.' :: rest).head? = some c → c.isDigit = false := by
    intro rest c same
    cases same
    rfl
  have blank : ∀ rest : List Char, ∀ c, (' ' :: rest).head? = some c → c.isDigit = false := by
    intro rest c same
    cases same
    rfl
  have skip : ∀ (c : Char) (rest : List Char), Scan.isSpace c = false →
      (' ' :: c :: rest).dropWhile Scan.isSpace = c :: rest := by
    intro c rest plain
    rw [List.dropWhile_cons_of_pos (by decide), List.dropWhile_cons_of_neg]
    simpa using plain
  have last : Scan.scanInt f = some ((upperPatch : Int), []) := by
    have read := @Scan.scanInt_number f upperPatch sixth [] (by intro c same; cases same)
    rw [List.append_nil] at read
    exact read
  obtain ⟨digit, tail, split, isDigit⟩ := fourth.head
  unfold Scan.sscanf
  rw [directives, String.toList_ofList]
  simp only [Scan.scan]
  rw [Scan.dropWhile_isSpace_number first, Scan.scanInt_number first (dot _)]
  simp only [Scan.scan, if_true]
  rw [Scan.scanInt_number second (dot _)]
  simp only [Scan.scan, if_true]
  rw [Scan.scanInt_number third (blank _)]
  dsimp only
  rw [skip '<' _ (by decide)]
  simp only [Scan.scan, if_true]
  rw [skip 'v' _ (by decide)]
  simp only [Scan.scan, if_true]
  rw [skip '<' _ (by decide)]
  simp only [Scan.scan, if_true]
  rw [split, List.cons_append, skip digit _ (Scan.not_isSpace_of_isDigit isDigit),
    ← List.cons_append, ← split, Scan.scanInt_number fourth (dot _)]
  simp only [Scan.scan, if_true]
  rw [Scan.scanInt_number fifth (dot _)]
  simp only [Scan.scan, if_true]
  rw [last]

theorem sscanf_versionToString (v : Version) :
    Scan.sscanf (versionToString v) "%d.%d.%d" =
      [(v.major.toNat : Int), v.minor.toNat, v.patch.toNat] := by
  have number : ∀ x : UInt16, Scan.Number (Nat.toDigits 10 x.toNat) x.toNat := by
    intro x
    have := x.toNat_lt
    exact Scan.Number.toDigits (by omega)
  have text : versionToString v = String.ofList (Nat.toDigits 10 v.major.toNat ++
      ('.' :: (Nat.toDigits 10 v.minor.toNat ++ ('.' :: Nat.toDigits 10 v.patch.toNat)))) := by
    apply String.toList_inj.mp
    simp [versionToString]
  rw [text]
  exact sscanf_dotted (number _) (number _) (number _)

/-- A printed version is read back. -/
@[simp] theorem versionParseSafe_versionToString (v : Version) :
    versionParseSafe (versionToString v) = some v := by
  simp [versionParseSafe, sscanf_versionToString, castUInt16_toNat]

/-- Where `version_parse_safe` reads a version, `version_parse` reads the same. -/
theorem versionParse_of_safe {text : String} {v : Version} (read : versionParseSafe text = some v) :
    versionParse text = v := by
  unfold versionParseSafe at read
  unfold versionParse
  split at read
  · split at read
    · cases read
    · rename_i natural
      simp only [Bool.or_eq_true, decide_eq_true_eq, not_or, Int.not_lt] at natural
      simpa [natural] using read
  · cases read

theorem versionToString_injective {v w : Version} (same : versionToString v = versionToString w) :
    v = w := by
  have parsed := congrArg versionParseSafe same
  simpa using parsed

/-- What is printed has no `@` and no `/`. -/
theorem versionToString_chars {v : Version} {c : Char} (member : c ∈ (versionToString v).toList) :
    c.isDigit = true ∨ c = '.' := by
  have digits : ∀ n : Nat, c ∈ Nat.toDigits 10 n → c.isDigit = true :=
    fun n on => Nat.isDigit_of_mem_toDigits (by decide) (by decide) on
  simp only [versionToString, String.toList_append, Nat.toList_repr, List.mem_append] at member
  rcases member with (((major | dot) | minor) | dot) | patch
  · exact Or.inl (digits _ major)
  · exact Or.inr (by simpa using dot)
  · exact Or.inl (digits _ minor)
  · exact Or.inr (by simpa using dot)
  · exact Or.inl (digits _ patch)

end ElmWrap
