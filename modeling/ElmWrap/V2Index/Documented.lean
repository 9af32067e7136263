import ElmWrap.V2Index.Reading

/-!
# The documented lines of an index

What `doc/registry_index_format_v2.md` says about the lines of an index, apart
from the program: where a line of each kind stands and what it says. The
scanners of `v2_registry_parse` are compared with it.
-/

namespace ElmWrap

open Lib

/-! ## What a line says -/

/-- `<int>`. -/
def documentedInt (text : List Char) : Option Nat :=
  if text ≠ [] ∧ text.all Char.isDigit = true then some (Nat.ofDigitChars 10 text 0) else none

/-- `<int>.<int>.<int>`. -/
def documentedSemver (text : List Char) : Option (Nat × Nat × Nat) :=
  match cutAt '.' text with
  | none => none
  | some (major, rest) =>
    match cutAt '.' rest with
    | none => none
    | some (minor, patch) =>
      match documentedInt major, documentedInt minor, documentedInt patch with
      | some major, some minor, some patch => some (major, minor, patch)
      | _, _, _ => none

/-- `format <int>`. -/
def documentedFormat (line : Line) : Option Nat :=
  if line.starts "format " then documentedInt (line.drop 7) else none

/-- `package: <string>/<string>`. -/
def documentedPackage (name : PackageName) : Line := "package: ".toList ++ name.full.toList

/-- `version: <semver>`. -/
def documentedVersion (line : Line) : Option (Nat × Nat × Nat) :=
  if (skipWhitespace line).starts "version: " then documentedSemver ((skipWhitespace line).drop 9)
  else none

/-- `status: <valid|obsolete|missing|missing-deps>`. -/
def documentedStatus (line : Line) : Option V2VersionStatus :=
  let text := skipWhitespace line
  if text = "status: valid".toList then some .valid
  else if text = "status: obsolete".toList then some .obsolete
  else if text = "status: missing".toList then some .missing
  else if text = "status: missing-deps".toList then some .missingDeps
  else none

/-- The first word of a line. -/
def firstWord (line : Line) : List Char := (skipWhitespace line).takeWhile fun c => !Scan.isSpace c

/-- What stands behind it. -/
def behindFirstWord (line : Line) : List Char :=
  (skipWhitespace line).dropWhile fun c => !Scan.isSpace c

/-- `<package-name> <semver-range>`. -/
def documentedDependency (line : Line) : Option V2Dependency :=
  if skipWhitespace (behindFirstWord line) = [] then none
  else some {
    packageName := String.ofList (firstWord line)
    constraint := String.ofList (skipWhitespace (behindFirstWord line)) }

/-! ## What a line is, wherever it stands -/

/-- A package line. -/
def isPackageText (line : Line) : Bool := (skipWhitespace line).starts "package:"

/-- A version line. -/
def isVersionText (line : Line) : Bool := (skipWhitespace line).starts "version:"

/-- A status line. -/
def isStatusText (line : Line) : Bool := (skipWhitespace line).starts "status:"

/-- A line at the level of a version that begins with a word. -/
def isVersionLevel (line : Line) (text : String) : Bool :=
  line.indent = 4 && line.content.starts text

/-- A dependency line: any other line that is indented and not blank. -/
def isDependencyText (line : Line) : Bool :=
  (line.head?.any Scan.isSpace && skipWhitespace line ≠ []) &&
    !(isPackageText line || isVersionText line || isStatusText line ||
      isVersionLevel line "license:" || isVersionLevel line "dependencies:")

/-! ## Where a line has to stand -/

/-- Whether a list of dependencies is open behind a line. -/
def inList (before : Bool) (line : Line) : Bool :=
  if line = [] then before
  else if line.indent = 0 then false
  else if line.indent = 4 then line.content.starts "dependencies:"
  else before

/-- All dependency lines stand in a list of dependencies and are indented by eight blanks. -/
def dependenciesPlaced : Bool → List Line → Bool
  | _, [] => true
  | before, line :: lines =>
    (!isDependencyText line || (line.indent = 8 && before)) &&
      dependenciesPlaced (inList before line) lines

/-- The lines that are not below a version line. -/
def linesAbove (data : List Char) : List Line :=
  preamble data ++ (packageSections data).flatMap looseLines

/-- Every line of the four kinds stands where the format has it. -/
structure LinesPlaced (data : List Char) : Prop where
  packages : ∀ line ∈ indexLines data, isPackageText line = true → isPackageLine line = true
  versions : ∀ line ∈ indexLines data, isVersionText line = true → isVersionLine line = true
  statuses : ∀ line ∈ indexLines data, isStatusText line = true →
    isVersionLevel line "status:" = true
  below : ∀ line ∈ linesAbove data, isStatusText line = false ∧ isDependencyText line = false
  listed : ∀ package ∈ packageSections data, ∀ block ∈ versionSections package,
    dependenciesPlaced false block.2 = true

/-! ## The scanners read what is documented -/

theorem documentedInt_number {text : List Char} {n : Nat} (read : documentedInt text = some n)
    (small : n < 2 ^ 16) : Scan.Number text n := by
  unfold documentedInt at read
  split at read
  · rename_i both
    cases read
    exact ⟨both.1, List.all_eq_true.mp both.2, rfl, by omega⟩
  · cases read

/-- `version_parse_safe` reads a documented version whose numbers fit. -/
theorem versionParseSafe_documented {text : List Char} {major minor patch : Nat}
    (read : documentedSemver text = some (major, minor, patch)) (majorFits : major < 2 ^ 16)
    (minorFits : minor < 2 ^ 16) (patchFits : patch < 2 ^ 16) :
    versionParseSafe (String.ofList text) =
      some ⟨UInt16.ofNat major, UInt16.ofNat minor, UInt16.ofNat patch⟩ := by
  unfold documentedSemver at read
  split at read
  · cases read
  rename_i a rest first
  split at read
  · cases read
  rename_i b c second
  split at read
  · rename_i x y z readA readB readC
    cases read
    have scanned := sscanf_dotted (documentedInt_number readA majorFits)
      (documentedInt_number readB minorFits) (documentedInt_number readC patchFits)
    unfold versionParseSafe
    rw [cutAt_some first, cutAt_some second, scanned]
    simp [castUInt16]
  · cases read

theorem parseVersionLine_documented {line : Line} {major minor patch : Nat}
    (read : documentedVersion line = some (major, minor, patch)) (majorFits : major < 2 ^ 16)
    (minorFits : minor < 2 ^ 16) (patchFits : patch < 2 ^ 16) :
    parseVersionLine line =
      some ⟨UInt16.ofNat major, UInt16.ofNat minor, UInt16.ofNat patch⟩ := by
  unfold documentedVersion at read
  split at read
  · rename_i starts
    unfold parseVersionLine
    dsimp only
    rw [if_pos starts]
    exact versionParseSafe_documented read majorFits minorFits patchFits
  · cases read

theorem starts_iff {line : Line} {text : String} :
    line.starts text = true ↔ ∃ rest, line = text.toList ++ rest := by
  unfold Line.starts
  rw [List.isPrefixOf_iff_prefix]
  constructor
  · intro before
    obtain ⟨rest, same⟩ := before
    exact ⟨rest, same.symm⟩
  · intro split
    obtain ⟨rest, same⟩ := split
    exact ⟨rest, same.symm⟩

/-- `parse_package_line` reads the documented package lines, and no others. -/
theorem parsePackageLine_iff {line : Line} {name : PackageName} :
    parsePackageLine line = some name ↔ line = documentedPackage name := by
  unfold parsePackageLine documentedPackage
  constructor
  · intro read
    split at read
    · rename_i starts
      obtain ⟨rest, same⟩ := starts_iff.mp starts
      have text : line.drop 9 = rest := by
        rw [same]
        exact List.drop_left' (by decide)
      have full : name.full.toList = rest := by
        rw [full_of_parsePackageName read, text]
        exact String.toList_ofList
      rw [same, full]
    · cases read
  · intro same
    have starts : line.starts "package: " = true := starts_iff.mpr ⟨_, same⟩
    have text : line.drop 9 = name.full.toList := by
      rw [same]
      exact List.drop_left' (by decide)
    rw [if_pos starts, text, String.ofList_toList]
    exact parsePackageName_full name

/-- `parse_status_line` reads the documented status lines. -/
theorem parseStatusLine_documented {line : Line} {status : V2VersionStatus}
    (read : documentedStatus line = some status) : parseStatusLine line = some status := by
  have known : ∀ (value : String) (s : V2VersionStatus),
      skipWhitespace line = ("status: " ++ value).toList → parseStatus value.toList = s →
        parseStatusLine line = some s := by
    intro value s text means
    have starts : (skipWhitespace line).starts "status: " = true :=
      starts_iff.mpr ⟨value.toList, by rw [text, String.toList_append]⟩
    have rest : (skipWhitespace line).drop 8 = value.toList := by
      rw [text, String.toList_append]
      exact List.drop_left' (by decide)
    unfold parseStatusLine
    dsimp only
    rw [if_pos starts, rest, means]
  unfold documentedStatus at read
  dsimp only at read
  split at read
  · rename_i text
    cases read
    exact known "valid" .valid text (by decide)
  split at read
  · rename_i text
    cases read
    exact known "obsolete" .obsolete text (by decide)
  split at read
  · rename_i text
    cases read
    exact known "missing" .missing text (by decide)
  split at read
  · rename_i text
    cases read
    exact known "missing-deps" .missingDeps text (by decide)
  · cases read

/-! ## The dependencies -/

/-- Two blanks stand behind the name, and a range behind them. -/
def twoBlanks (line : Line) : Bool :=
  [' ', ' '].isPrefixOf (behindFirstWord line) && skipWhitespace (behindFirstWord line) ≠ []

theorem cutAtBlanks_some {text before after : List Char}
    (cut : cutAtBlanks text = some (before, after)) :
    text = before ++ after ∧ ∃ rest, after = ' ' :: ' ' :: rest := by
  induction text generalizing before after with
  | nil => cases cut
  | cons c text ih =>
    unfold cutAtBlanks at cut
    split at cut
    · cases cut
    · rename_i rest same
      cases cut
      exact ⟨same, rest, rfl⟩
    · rename_i d rest _ same
      cases same
      obtain ⟨⟨front, back⟩, found, eq⟩ := Option.map_eq_some_iff.mp cut
      cases eq
      obtain ⟨split, two⟩ := ih found
      exact ⟨by rw [split, List.cons_append], two⟩

theorem cutAtBlanks_cons {c : Char} (other : c ≠ ' ') (text : List Char) :
    cutAtBlanks (c :: text) = (cutAtBlanks text).map fun p => (c :: p.1, p.2) := by
  rw [cutAtBlanks]
  intro rest same
  exact fun _ => other same

theorem cutAtBlanks_append {before rest : List Char} (plain : ' ' ∉ before) :
    cutAtBlanks (before ++ ' ' :: ' ' :: rest) = some (before, ' ' :: ' ' :: rest) := by
  induction before with
  | nil => rfl
  | cons c before ih =>
    have other : c ≠ ' ' := fun same => plain (same ▸ List.mem_cons_self)
    have tail := ih fun member => plain (List.mem_cons_of_mem c member)
    rw [List.cons_append, cutAtBlanks_cons other, tail]
    rfl

theorem firstWord_append (line : Line) :
    firstWord line ++ behindFirstWord line = skipWhitespace line :=
  List.takeWhile_append_dropWhile

theorem blank_not_mem_firstWord (line : Line) : ' ' ∉ firstWord line := by
  intro member
  have plain := List.all_eq_true.mp List.all_takeWhile ' ' member
  exact absurd plain (by decide)

/-- `parse_dependency_line` reads what is documented exactly where two blanks stand behind the
name. -/
theorem parseDependencyLine_iff (line : Line) :
    (∃ dependency, documentedDependency line = some dependency ∧
      parseDependencyLine line = some dependency) ↔ twoBlanks line = true := by
  unfold twoBlanks
  rw [Bool.and_eq_true, List.isPrefixOf_iff_prefix, decide_eq_true_eq]
  unfold documentedDependency parseDependencyLine
  constructor
  · intro both
    obtain ⟨dependency, documented, parsed⟩ := both
    split at documented
    · cases documented
    rename_i range
    cases documented
    obtain ⟨⟨before, after⟩, cut, same⟩ := Option.map_eq_some_iff.mp parsed
    have word : before = firstWord line :=
      String.ofList_injective (congrArg V2Dependency.packageName same)
    obtain ⟨split, rest, blanks⟩ := cutAtBlanks_some cut
    rw [← firstWord_append, word] at split
    have behind := List.append_cancel_left split
    exact ⟨⟨rest, by rw [behind, blanks]; rfl⟩, range⟩
  · intro both
    obtain ⟨⟨rest, blanks⟩, range⟩ := both
    have cut : cutAtBlanks (skipWhitespace line) = some (firstWord line, behindFirstWord line) := by
      rw [← firstWord_append, ← blanks]
      exact cutAtBlanks_append (blank_not_mem_firstWord line)
    rw [if_neg range, cut]
    exact ⟨_, rfl, rfl⟩

end ElmWrap
