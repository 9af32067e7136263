import Mathlib.Data.List.TakeWhile
import ElmWrap.LocalDev.TextRegistry

/-!
# The scanner of the text registry, line by line

A match that ends at the end of a line is the end of a line. So the scanner finds a
version exactly if some package line ends in the package, and a line of its block in
the version.
-/

namespace ElmWrap

/-- A text without line ends and zero bytes. -/
def Plain (text : List Char) : Prop := ∀ c ∈ text, c ≠ '\n' ∧ c ≠ '\r' ∧ c ≠ '\x00'

instance : DecidablePred Plain := fun text =>
  decidable_of_iff (text.all fun c => c ≠ '\n' && c ≠ '\r' && c ≠ '\x00') <| by
    simp [Plain, List.all_eq_true, and_assoc]

/-- Lines, each with its end. -/
def unlines (lines : List Line) : List Char := lines.flatMap (· ++ ['\n'])

theorem Plain.of_suffix {text suffix : List Char} (plain : Plain text) (ends : suffix <:+ text) :
    Plain suffix :=
  fun c member => plain c (ends.subset member)

/-- A match at the end of a line, in a line. -/
theorem anchored_iff {pattern text : List Char} (plainPattern : Plain pattern) (plain : Plain text)
    (rest : List Char) :
    (pattern.isPrefixOf (text ++ '\n' :: rest) &&
      registryLineEnd ((text ++ '\n' :: rest).drop pattern.length)) = true ↔ text = pattern := by
  induction pattern generalizing text with
  | nil =>
    cases text with
    | nil => simp [registryLineEnd]
    | cons c text =>
      obtain ⟨newline, return_, zero⟩ := plain c List.mem_cons_self
      simp [registryLineEnd, newline, return_, zero]
  | cons p pattern ih =>
    have plainRest : Plain pattern := fun c on => plainPattern c (List.mem_cons_of_mem _ on)
    cases text with
    | nil =>
      obtain ⟨newline, -, -⟩ := plainPattern p List.mem_cons_self
      simp [newline]
    | cons c text =>
      have step := @ih text plainRest fun d on => plain d (List.mem_cons_of_mem _ on)
      rw [List.cons_append, List.isPrefixOf_cons_cons, List.length_cons, List.drop_succ_cons,
        Bool.and_assoc, Bool.and_eq_true, step, beq_iff_eq, List.cons.injEq, eq_comm]

theorem prefix_line {pattern text rest : List Char} (plain : Plain pattern)
    (starts : pattern <+: text ++ '\n' :: rest) : pattern <+: text := by
  induction text generalizing pattern with
  | nil =>
    cases pattern with
    | nil => exact List.nil_prefix
    | cons p pattern =>
      obtain ⟨newline, -, -⟩ := plain p List.mem_cons_self
      exact absurd (List.cons_prefix_cons.mp starts).1 newline
  | cons c text ih =>
    cases pattern with
    | nil => exact List.nil_prefix
    | cons p pattern =>
      obtain ⟨same, later⟩ := List.cons_prefix_cons.mp starts
      refine List.cons_prefix_cons.mpr ⟨same, ih ?_ later⟩
      exact plain.of_suffix (List.suffix_cons p pattern)

theorem plain_packageMark : Plain packageMark := by
  decide

/-! ## One line -/

/-- A line in which no block starts. -/
theorem versionInBlock_line {ver text : List Char} (plainVer : Plain ver)
    (plain : Plain text) (unmarked : ¬ packageMark <:+: text) (rest : List Char) :
    versionInBlock ver (text ++ '\n' :: rest) = true ↔
      ver <:+ text ∨ versionInBlock ver rest = true := by
  induction text with
  | nil =>
    have mark : packageMark.isPrefixOf ('\n' :: rest) = false := rfl
    have anchored := anchored_iff plainVer plain rest
    rw [List.nil_append] at anchored ⊢
    rw [versionInBlock, mark, if_neg Bool.false_ne_true, Bool.or_eq_true, anchored,
      List.suffix_nil, eq_comm]
  | cons c text ih =>
    have plainRest : Plain text := plain.of_suffix (List.suffix_cons c text)
    have mark : packageMark.isPrefixOf (c :: (text ++ '\n' :: rest)) = false := by
      rw [Bool.eq_false_iff, ne_eq, List.isPrefixOf_iff_prefix]
      exact fun starts =>
        unmarked (@prefix_line _ (c :: text) rest plain_packageMark starts).isInfix
    have anchored := anchored_iff plainVer plain rest
    have step := ih plainRest fun inside =>
      unmarked (inside.trans (List.suffix_cons c text).isInfix)
    rw [List.cons_append] at anchored ⊢
    rw [versionInBlock, mark, if_neg Bool.false_ne_true, Bool.or_eq_true, anchored, step,
      List.suffix_cons_iff, or_assoc, eq_comm]

/-- A line in which a block starts, and that does not end in the version. -/
theorem versionInBlock_marked {ver text : List Char} (plainVer : Plain ver) (plain : Plain text)
    (marked : packageMark <:+: text) (other : ¬ ver <:+ text) (rest : List Char) :
    versionInBlock ver (text ++ '\n' :: rest) = false := by
  induction text with
  | nil => exact absurd (List.infix_nil.mp marked) (List.cons_ne_nil _ _)
  | cons c text ih =>
    have plainRest : Plain text := plain.of_suffix (List.suffix_cons c text)
    rw [List.cons_append, versionInBlock]
    split
    · rfl
    · rename_i none_
      have anchored := anchored_iff plainVer plain rest
      rw [List.cons_append] at anchored
      have here : c :: text ≠ ver := by
        intro same
        exact other (same ▸ List.suffix_refl _)
      rw [Bool.eq_false_iff, ne_eq, Bool.or_eq_true, anchored, not_or]
      refine ⟨here, ?_⟩
      rw [Bool.not_eq_true]
      apply ih plainRest
      · rcases List.infix_cons_iff.mp marked with first | later
        · exfalso
          apply none_
          rw [List.isPrefixOf_iff_prefix, ← List.cons_append]
          exact first.trans (List.prefix_append _ _)
        · exact later
      · exact fun ends => other (ends.trans (List.suffix_cons c text))

/-- The outer loop, at one line. -/
theorem versionInBlocks_line {pkg ver text : List Char} {p : Char} (plainPkg : Plain (p :: pkg))
    (plain : Plain text) (rest : List Char) :
    versionInBlocks (p :: pkg) ver (text ++ '\n' :: rest) = true ↔
      (p :: pkg <:+ text ∧ versionInBlock ver (pkg ++ '\n' :: rest) = true) ∨
        versionInBlocks (p :: pkg) ver rest = true := by
  induction text with
  | nil =>
    have anchored := anchored_iff plainPkg plain rest
    rw [List.nil_append] at anchored ⊢
    rw [versionInBlocks, Bool.or_eq_true, Bool.and_eq_true, anchored, List.suffix_nil]
    simp
  | cons c text ih =>
    have plainRest : Plain text := plain.of_suffix (List.suffix_cons c text)
    have anchored := anchored_iff plainPkg plain rest
    rw [List.cons_append] at anchored ⊢
    rw [versionInBlocks, Bool.or_eq_true, Bool.and_eq_true, anchored, ih plainRest,
      List.suffix_cons_iff]
    constructor
    · rintro (⟨same, inBlock⟩ | ⟨ends, inBlock⟩ | later)
      · cases same
        exact .inl ⟨.inl rfl, inBlock⟩
      · exact .inl ⟨.inr ends, inBlock⟩
      · exact .inr later
    · rintro (⟨same | ends, inBlock⟩ | later)
      · cases same
        exact .inl ⟨rfl, inBlock⟩
      · exact .inr (.inl ⟨ends, inBlock⟩)
      · exact .inr (.inr later)

/-! ## The lines of an entry -/

/-- What a registration writes. -/
structure LocalDevEntry where
  name : PackageName
  version : Version
  deps : List Package

def LocalDevEntry.packageLine (entry : LocalDevEntry) : Line :=
  pkgPattern entry.name.author entry.name.project

def LocalDevEntry.versionLine (entry : LocalDevEntry) : Line :=
  "    version: ".toList ++ (versionToString entry.version).toList

/-- The line of a dependency. -/
def dependencyLine (dep : Package) : Line :=
  "        ".toList ++ dep.name.full.toList ++ "  ".toList ++ dep.version.toList

/-- The lines below the version line. -/
def LocalDevEntry.below (entry : LocalDevEntry) : List Line :=
  ["    status: valid".toList, "    license: BSD-3-Clause".toList, "    dependencies:".toList] ++
    entry.deps.map dependencyLine ++ [[]]

def LocalDevEntry.lines (entry : LocalDevEntry) : List Line :=
  entry.packageLine :: entry.versionLine :: entry.below

/-- A constraint that stands on its line: it starts with no blank, has no line end, and does not end
like a version line. -/
structure ConstraintFits (constraint : String) : Prop where
  plain : Plain constraint.toList
  starts : ∀ c ∈ constraint.toList.head?, Lib.Scan.isSpace c = false
  ends : ∀ v : Version, ¬ verPattern (versionToString v) <:+ constraint.toList

/-- An entry that can be read back and found again. -/
structure LocalDevEntry.Fits (entry : LocalDevEntry) : Prop where
  short : entry.packageLine.length < maxPackageNameLength
  deps : ∀ dep ∈ entry.deps, ConstraintFits dep.version

theorem toList_line (text : String) : (text ++ "\n").toList = text.toList ++ ['\n'] :=
  String.toList_append

theorem dependencyText_eq (dep : Package) : dependencyText dep = dependencyLine dep ++ ['\n'] := by
  unfold dependencyText dependencyLine PackageName.full
  rw [toList_line]
  simp only [String.toList_append, List.append_assoc]

theorem blockText_eq (entry : LocalDevEntry) :
    blockText entry.name.author entry.name.project (versionToString entry.version) entry.deps =
      unlines entry.lines := by
  have status : "    status: valid\n".toList = "    status: valid".toList ++ ['\n'] := by decide
  have license : "    license: BSD-3-Clause\n".toList =
      "    license: BSD-3-Clause".toList ++ ['\n'] := by decide
  have heading : "    dependencies:\n".toList = "    dependencies:".toList ++ ['\n'] := by decide
  have last : "\n".toList = [] ++ ['\n'] := by decide
  have deps : entry.deps.flatMap dependencyText =
      (entry.deps.map dependencyLine).flatMap (· ++ ['\n']) := by
    rw [List.flatMap_map]
    exact congrArg (List.flatMap · entry.deps) (funext dependencyText_eq)
  have version : ("    version: " ++ versionToString entry.version).toList =
      entry.versionLine := String.toList_append
  unfold blockText unlines LocalDevEntry.lines LocalDevEntry.below LocalDevEntry.packageLine
    pkgPattern
  rw [toList_line, toList_line, status, license, heading, last, deps, version]
  simp only [List.flatMap_cons, List.flatMap_append, List.flatMap_nil, List.append_assoc,
    List.append_nil, List.cons_append, List.nil_append]

/-! ## Colons -/

/-- A pattern with one colon ends a line with one colon where its parts do. -/
theorem suffix_colon {before after pattern end_ : List Char} (first : ':' ∉ before)
    (last : ':' ∉ after) (ends : pattern ++ ':' :: end_ <:+ before ++ ':' :: after) :
    pattern <:+ before ∧ end_ = after := by
  obtain ⟨front, split⟩ := ends
  rw [← List.append_assoc] at split
  obtain ⟨same, -, rest⟩ := (List.append_cons_inj_of_notMem first last).mp split.symm
  exact ⟨⟨front, same.symm⟩, rest.symm⟩

/-- A line with one colon is no start of a block if the mark's word does not end there. -/
theorem unmarked_colon {before after : List Char} (first : ':' ∉ before) (last : ':' ∉ after)
    (other : ¬ "package".toList <:+ before) : ¬ packageMark <:+: before ++ ':' :: after := by
  intro ⟨front, back, split⟩
  have mark : packageMark = "package".toList ++ ':' :: [' '] := by decide
  rw [mark, List.append_assoc, List.append_assoc, List.cons_append, ← List.append_assoc] at split
  obtain ⟨same, -, -⟩ := (List.append_cons_inj_of_notMem first last).mp split.symm
  exact other ⟨front, same.symm⟩

/-! ## Names and versions -/

theorem PackageName.full_reserved (p : PackageName) {c : Char} (reserved : isUnreserved c = false)
    (slash : c ≠ '/') : c ∉ p.full.toList := by
  have other : (c.isLower || c.isDigit || c = '-') = false := by
    unfold isUnreserved at reserved
    simp only [Bool.or_eq_false_iff] at reserved ⊢
    obtain ⟨⟨⟨⟨⟨⟨-, lower⟩, digit⟩, dash⟩, -⟩, -⟩, -⟩ := reserved
    exact ⟨⟨lower, digit⟩, dash⟩
  intro member
  rw [p.full_toList] at member
  rcases List.mem_append.mp member with author | rest
  · exact p.author_plain reserved author
  · rcases List.mem_cons.mp rest with here | project
    · exact slash here
    · exact p.project_plain other project

theorem PackageName.full_plain (p : PackageName) : Plain p.full.toList := by
  have not : ∀ d : Char, isUnreserved d = false → d ≠ '/' → ∀ c ∈ p.full.toList, c ≠ d :=
    fun d reserved slash c member same => p.full_reserved reserved slash (same ▸ member)
  intro c member
  exact ⟨not '\n' rfl (by decide) c member, not '\r' rfl (by decide) c member,
    not '\x00' rfl (by decide) c member⟩

theorem versionToString_reserved (v : Version) {c : Char} (digit : c.isDigit = false)
    (dot : c ≠ '.') : c ∉ (versionToString v).toList := by
  intro member
  rcases versionToString_chars member with is | is
  · rw [digit] at is
    cases is
  · exact dot is

theorem versionToString_plain (v : Version) : Plain (versionToString v).toList := by
  have not : ∀ d : Char, d.isDigit = false → d ≠ '.' → ∀ c ∈ (versionToString v).toList, c ≠ d :=
    fun d digit dot c member same => versionToString_reserved v digit dot (same ▸ member)
  intro c member
  exact ⟨not '\n' rfl (by decide) c member, not '\r' rfl (by decide) c member,
    not '\x00' rfl (by decide) c member⟩

theorem Plain.append {left right : List Char} (first : Plain left) (second : Plain right) :
    Plain (left ++ right) := by
  intro c member
  rcases List.mem_append.mp member with here | there
  · exact first c here
  · exact second c there

theorem verPattern_eq (v : Version) : verPattern (versionToString v) =
    "version".toList ++ ':' :: (' ' :: (versionToString v).toList) := by
  unfold verPattern
  rw [String.toList_append]
  rfl

theorem verPattern_plain (v : Version) : Plain (verPattern (versionToString v)) := by
  unfold verPattern
  rw [String.toList_append]
  refine Plain.append ?_ (versionToString_plain v)
  decide

theorem pkgPattern_eq (name : PackageName) : pkgPattern name.author name.project =
    "package".toList ++ ':' :: (' ' :: name.full.toList) := by
  unfold pkgPattern PackageName.full
  simp only [String.toList_append, List.append_assoc]
  rfl

theorem pkgPattern_plain (name : PackageName) : Plain (pkgPattern name.author name.project) := by
  have text : pkgPattern name.author name.project = "package: ".toList ++ name.full.toList := by
    unfold pkgPattern PackageName.full
    simp only [String.toList_append, List.append_assoc]
  rw [text]
  refine Plain.append ?_ name.full_plain
  decide

/-! ## Where a version pattern ends a line -/

theorem colon_blank_full (name : PackageName) : ':' ∉ ' ' :: name.full.toList := by
  intro member
  rcases List.mem_cons.mp member with blank | inside
  · exact absurd blank (by decide)
  · exact name.full_reserved rfl (by decide) inside

theorem colon_blank_version (v : Version) : ':' ∉ ' ' :: (versionToString v).toList := by
  intro member
  rcases List.mem_cons.mp member with blank | inside
  · exact absurd blank (by decide)
  · exact versionToString_reserved v rfl (by decide) inside

/-- A line with one colon that is not behind `version`. -/
theorem unversioned_colon {before after : List Char} (first : ':' ∉ before) (last : ':' ∉ after)
    (other : ¬ "version".toList <:+ before) (v : Version) :
    ¬ verPattern (versionToString v) <:+ before ++ ':' :: after := by
  intro ends
  rw [verPattern_eq] at ends
  exact other (suffix_colon first last ends).1

namespace LocalDevEntry

variable (entry : LocalDevEntry)

theorem versionLine_eq : entry.versionLine =
    "    version".toList ++ ':' :: (' ' :: (versionToString entry.version).toList) := by
  unfold versionLine
  rfl

theorem versionLine_plain : Plain entry.versionLine := by
  unfold versionLine
  refine Plain.append ?_ (versionToString_plain entry.version)
  decide

theorem versionLine_unmarked : ¬ packageMark <:+: entry.versionLine := by
  rw [versionLine_eq]
  exact unmarked_colon (by decide) (colon_blank_version entry.version) (by decide)

theorem versionLine_ends (v : Version) :
    verPattern (versionToString v) <:+ entry.versionLine ↔ v = entry.version := by
  constructor
  · intro ends
    rw [versionLine_eq, verPattern_eq] at ends
    have same := (suffix_colon (by decide) (colon_blank_version entry.version) ends).2
    rw [List.cons.injEq] at same
    exact versionToString_injective (String.toList_inj.mp same.2)
  · intro same
    rw [same]
    refine ⟨"    ".toList, ?_⟩
    unfold verPattern versionLine
    rw [String.toList_append]
    rfl

/-- The line of a dependency whose constraint does not end like a version line. -/
theorem dependencyLine_ends {dep : Package} (fits : ConstraintFits dep.version) (v : Version) :
    ¬ verPattern (versionToString v) <:+ dependencyLine dep := by
  intro ends
  have line : dependencyLine dep =
      ("        ".toList ++ dep.name.full.toList ++ [' '] ++ [' ']) ++ dep.version.toList := by
    unfold dependencyLine
    rw [List.append_assoc _ [' '] [' ']]
    rfl
  have own : dep.version.toList <:+ dependencyLine dep := line ▸ List.suffix_append _ _
  rcases List.suffix_or_suffix_of_suffix ends own with inside | ⟨front, split⟩
  · exact fits.ends v inside
  obtain ⟨more, whole⟩ := ends
  rw [line, ← split, ← List.append_assoc] at whole
  have before := List.append_cancel_right whole
  -- the pattern would start in front of the two blanks, and has only one
  rcases List.eq_nil_or_concat front with none_ | ⟨rest, last, concat⟩
  · rw [none_, List.nil_append] at split
    exact fits.ends v (split ▸ List.suffix_refl _)
  · rw [List.concat_eq_append] at concat
    rw [concat, ← List.append_assoc] at before
    obtain ⟨behind, lastBlank⟩ := List.append_inj' before rfl
    rw [concat, List.append_assoc, (List.cons.inj lastBlank).1] at split
    have pattern : verPattern (versionToString v) =
        "version:".toList ++ ' ' :: (versionToString v).toList := verPattern_eq v
    rw [pattern] at split
    obtain ⟨same, -, -⟩ := (List.append_cons_inj_of_notMem (by decide)
      (versionToString_reserved v rfl (by decide))).mp split.symm
    rw [← same] at behind
    have ends_ : more ++ "version".toList ++ [':'] =
        "        ".toList ++ dep.name.full.toList ++ [' '] := by
      rw [← behind, List.append_assoc]
      rfl
    exact absurd (List.append_inj' ends_ rfl).2 (by decide)

theorem dependencyLine_plain {dep : Package} (fits : ConstraintFits dep.version) :
    Plain (dependencyLine dep) := by
  have blanks : Plain "        ".toList ∧ Plain "  ".toList := by
    decide
  exact ((blanks.1.append dep.name.full_plain).append blanks.2).append fits.plain

theorem below_spec (fits : entry.Fits) : ∀ line ∈ entry.below, Plain line ∧
    ∀ v : Version, ¬ verPattern (versionToString v) <:+ line := by
  have literal : Plain "    status: valid".toList ∧ Plain "    license: BSD-3-Clause".toList ∧
      Plain "    dependencies:".toList ∧ Plain [] := by
    decide
  obtain ⟨status, license, heading, empty⟩ := literal
  intro line member
  unfold below at member
  rcases List.mem_append.mp member with member | last
  · rcases List.mem_append.mp member with fixed | dependency
    · rcases List.mem_cons.mp fixed with same | fixed
      · rw [same]
        exact ⟨status, @unversioned_colon "    status".toList " valid".toList (by decide)
          (by decide) (by decide)⟩
      rcases List.mem_cons.mp fixed with same | fixed
      · rw [same]
        exact ⟨license, @unversioned_colon "    license".toList " BSD-3-Clause".toList (by decide)
          (by decide) (by decide)⟩
      · rw [List.mem_singleton.mp fixed]
        exact ⟨heading, @unversioned_colon "    dependencies".toList [] (by decide) (by decide)
          (by decide)⟩
    · obtain ⟨dep, on, rfl⟩ := List.mem_map.mp dependency
      exact ⟨dependencyLine_plain (fits.deps dep on), dependencyLine_ends (fits.deps dep on)⟩
  · rw [List.mem_singleton.mp last]
    refine ⟨empty, fun v ends => ?_⟩
    rw [verPattern_eq] at ends
    exact absurd (List.suffix_nil.mp ends) (by simp)

end LocalDevEntry

/-! ## The file -/

/-- The end of the file, or the start of a block. -/
def AtBlock (text : List Char) : Prop := text = [] ∨ packageMark <+: text

/-- A line that the version pattern cannot be found on. -/
def Skipped (ver : List Char) (line : Line) : Prop := Plain line ∧ ¬ ver <:+ line

theorem unlines_cons (line : Line) (lines : List Line) (rest : List Char) :
    unlines (line :: lines) ++ rest = line ++ '\n' :: (unlines lines ++ rest) := by
  unfold unlines
  rw [List.flatMap_cons, List.append_assoc, List.append_assoc]
  rfl

theorem versionInBlock_skipped {ver : List Char} (plainVer : Plain ver) {lines : List Line}
    (skipped : ∀ line ∈ lines, Skipped ver line) {rest : List Char} (at_ : AtBlock rest) :
    versionInBlock ver (unlines lines ++ rest) = false := by
  induction lines with
  | nil =>
    rw [show unlines [] ++ rest = rest from rfl]
    rcases at_ with empty | mark
    · rw [empty]
      rfl
    · cases rest with
      | nil => rfl
      | cons c rest =>
        rw [versionInBlock, if_pos (List.isPrefixOf_iff_prefix.mpr mark)]
  | cons line lines ih =>
    obtain ⟨⟨plain, other⟩, later⟩ := List.forall_mem_cons.mp skipped
    rw [unlines_cons]
    by_cases marked : packageMark <:+: line
    · exact versionInBlock_marked plainVer plain marked other _
    · rw [Bool.eq_false_iff, ne_eq, versionInBlock_line plainVer plain marked, not_or,
        Bool.not_eq_true]
      exact ⟨other, ih later⟩

/-- The package pattern behind its first character. -/
def pkgTail (name : PackageName) : List Char := "ackage".toList ++ ':' :: (' ' :: name.full.toList)

theorem pkgPattern_cons (name : PackageName) :
    pkgPattern name.author name.project = 'p' :: pkgTail name := by
  rw [pkgPattern_eq]
  rfl

theorem pkgTail_plain (name : PackageName) : Plain (pkgTail name) := by
  apply (pkgPattern_plain name).of_suffix
  rw [pkgPattern_cons]
  exact List.suffix_cons _ _

theorem pkgTail_unmarked (name : PackageName) : ¬ packageMark <:+: pkgTail name :=
  unmarked_colon (by decide) (colon_blank_full name) (by decide)

theorem pkgTail_skipped (name : PackageName) (v : Version) :
    Skipped (verPattern (versionToString v)) (pkgTail name) :=
  ⟨pkgTail_plain name, unversioned_colon (by decide) (colon_blank_full name) (by decide) v⟩

/-- The rest of a line that ends in a package pattern, in front of lines without the version. -/
theorem versionInBlock_pkgTail (name : PackageName) (v : Version) {lines : List Line}
    (skipped : ∀ line ∈ lines, Skipped (verPattern (versionToString v)) line) {rest : List Char}
    (at_ : AtBlock rest) :
    versionInBlock (verPattern (versionToString v))
      (pkgTail name ++ '\n' :: (unlines lines ++ rest)) = false := by
  rw [← unlines_cons]
  apply versionInBlock_skipped (verPattern_plain v) _ at_
  exact List.forall_mem_cons.mpr ⟨pkgTail_skipped name v, skipped⟩

theorem versionInBlocks_skipped (name : PackageName) (v : Version) {lines : List Line}
    (skipped : ∀ line ∈ lines, Skipped (verPattern (versionToString v)) line) {rest : List Char}
    (at_ : AtBlock rest) :
    versionInBlocks (pkgPattern name.author name.project) (verPattern (versionToString v))
        (unlines lines ++ rest) =
      versionInBlocks (pkgPattern name.author name.project) (verPattern (versionToString v))
        rest := by
  induction lines with
  | nil => rfl
  | cons line lines ih =>
    obtain ⟨⟨plain, -⟩, later⟩ := List.forall_mem_cons.mp skipped
    have plainPkg := pkgPattern_plain name
    rw [← ih later, unlines_cons]
    rw [pkgPattern_cons] at plainPkg ⊢
    rw [Bool.eq_iff_iff, versionInBlocks_line plainPkg plain,
      versionInBlock_pkgTail name v later at_]
    simp

/-- A block is found by its package and its version. -/
theorem versionInBlocks_entry (name : PackageName) (v : Version) {entry : LocalDevEntry}
    (fits : entry.Fits) {rest : List Char} (at_ : AtBlock rest) :
    versionInBlocks (pkgPattern name.author name.project) (verPattern (versionToString v))
        (unlines entry.lines ++ rest) = true ↔
      (entry.name = name ∧ entry.version = v) ∨
        versionInBlocks (pkgPattern name.author name.project) (verPattern (versionToString v))
          rest = true := by
  have below : ∀ line ∈ entry.below, Skipped (verPattern (versionToString v)) line :=
    fun line member =>
      ⟨(entry.below_spec fits line member).1, (entry.below_spec fits line member).2 v⟩
  have plainPkg := pkgPattern_plain name
  have skip := versionInBlocks_skipped name v below at_
  have own : pkgPattern name.author name.project <:+ entry.packageLine ↔ entry.name = name := by
    unfold LocalDevEntry.packageLine
    constructor
    · intro ends
      rw [pkgPattern_eq, pkgPattern_eq] at ends
      have same := (suffix_colon (by decide) (colon_blank_full entry.name) ends).2
      rw [List.cons.injEq] at same
      exact PackageName.full_injective (String.toList_inj.mp same.2.symm)
    · exact fun same => same ▸ List.suffix_refl _
  have versionLine : ¬ pkgPattern name.author name.project <:+ entry.versionLine := by
    intro ends
    apply entry.versionLine_unmarked
    have mark : pkgPattern name.author name.project = packageMark ++ name.full.toList :=
      pkgPattern_eq name
    rw [mark] at ends
    exact (List.prefix_append _ _).isInfix.trans ends.isInfix
  have block : versionInBlock (verPattern (versionToString v))
      (pkgTail name ++ '\n' :: (entry.versionLine ++ '\n' :: (unlines entry.below ++ rest))) =
        true ↔
      entry.version = v := by
    rw [versionInBlock_line (verPattern_plain v) (pkgTail_plain name) (pkgTail_unmarked name),
      versionInBlock_line (verPattern_plain v) entry.versionLine_plain entry.versionLine_unmarked,
      versionInBlock_skipped (verPattern_plain v) below at_, entry.versionLine_ends, eq_comm]
    simp [(pkgTail_skipped name v).2]
  have plainOwn : Plain entry.packageLine := pkgPattern_plain entry.name
  unfold LocalDevEntry.lines
  rw [unlines_cons, unlines_cons]
  rw [pkgPattern_cons] at plainPkg skip own versionLine ⊢
  rw [versionInBlocks_line plainPkg plainOwn, versionInBlocks_line plainPkg entry.versionLine_plain,
    skip, own, block]
  simp [versionLine]

/-- The entries of a file, one after the other. -/
def entriesText (entries : List LocalDevEntry) : List Char :=
  entries.flatMap fun entry => unlines entry.lines

theorem entriesText_atBlock (entries : List LocalDevEntry) : AtBlock (entriesText entries) := by
  cases entries with
  | nil => exact .inl rfl
  | cons entry entries =>
    right
    have mark : packageMark <+: entry.packageLine := by
      unfold LocalDevEntry.packageLine
      rw [pkgPattern_eq]
      exact List.prefix_append packageMark entry.name.full.toList
    unfold entriesText LocalDevEntry.lines
    rw [List.flatMap_cons, unlines_cons]
    exact mark.trans (List.prefix_append _ _)

theorem versionInBlocks_entries (name : PackageName) (v : Version) {entries : List LocalDevEntry}
    (fits : ∀ entry ∈ entries, entry.Fits) :
    versionInBlocks (pkgPattern name.author name.project) (verPattern (versionToString v))
        (entriesText entries) = true ↔
      ∃ entry ∈ entries, entry.name = name ∧ entry.version = v := by
  induction entries with
  | nil => simp [entriesText, versionInBlocks]
  | cons entry entries ih =>
    obtain ⟨here, later⟩ := List.forall_mem_cons.mp fits
    have split : entriesText (entry :: entries) = unlines entry.lines ++ entriesText entries :=
      List.flatMap_cons
    rw [split, versionInBlocks_entry name v here (entriesText_atBlock entries), ih later]
    simp

/-- The compiler line of a file. -/
def compilerLine (compilerName compilerVersion : String) : Line :=
  compilerName.toList ++ ' ' :: compilerVersion.toList

theorem headerText_eq (compilerName compilerVersion : String) :
    headerText compilerName compilerVersion =
      unlines ["format 2".toList, compilerLine compilerName compilerVersion, []] := by
  have format : "format 2\n".toList = "format 2".toList ++ ['\n'] := by decide
  have last : "\n\n".toList = ['\n'] ++ ([] ++ ['\n']) := by decide
  unfold headerText compilerLine unlines
  rw [format]
  simp only [String.toList_append, last, List.flatMap_cons, List.flatMap_nil, List.append_assoc,
    List.cons_append, List.nil_append, List.append_nil]
  rfl

theorem plain_unlines {lines : List Line} (plain : ∀ line ∈ lines, Plain line) :
    (unlines lines).takeWhile (· ≠ '\x00') = unlines lines := by
  rw [List.takeWhile_eq_self_iff]
  intro c member
  obtain ⟨line, on, inside⟩ := List.mem_flatMap.mp member
  rcases List.mem_append.mp inside with here | last
  · simpa using (plain line on c here).2.2
  · rw [List.mem_singleton.mp last]
    rfl

theorem LocalDevEntry.lines_plain {entry : LocalDevEntry} (fits : entry.Fits) :
    ∀ line ∈ entry.lines, Plain line := by
  intro line member
  rcases List.mem_cons.mp member with package | member
  · rw [package]
    exact pkgPattern_plain entry.name
  rcases List.mem_cons.mp member with version | below
  · rw [version]
    exact entry.versionLine_plain
  · exact (entry.below_spec fits line below).1

/-- All lines of a file. -/
def fileLines (compiler : Line) (entries : List LocalDevEntry) : List Line :=
  ["format 2".toList, compiler, []] ++ entries.flatMap LocalDevEntry.lines

theorem fileLines_text (compiler : Line) (entries : List LocalDevEntry) :
    unlines (fileLines compiler entries) =
      unlines ["format 2".toList, compiler, []] ++ entriesText entries := by
  unfold fileLines unlines entriesText
  rw [List.flatMap_append, List.flatMap_assoc]
  rfl

theorem fileLines_plain {compiler : Line} (plain : Plain compiler) {entries : List LocalDevEntry}
    (fits : ∀ entry ∈ entries, entry.Fits) : ∀ line ∈ fileLines compiler entries, Plain line := by
  have format : Plain "format 2".toList ∧ Plain [] := by
    decide
  intro line member
  rcases List.mem_append.mp member with header | body
  · rcases List.mem_cons.mp header with same | header
    · rw [same]
      exact format.1
    rcases List.mem_cons.mp header with same | header
    · rw [same]
      exact plain
    · rw [List.mem_singleton.mp header]
      exact format.2
  · obtain ⟨entry, on, inside⟩ := List.mem_flatMap.mp body
    exact LocalDevEntry.lines_plain (fits entry on) line inside

theorem verPattern_short (v : Version) :
    (verPattern (versionToString v)).length < maxVersionStringMediumLength := by
  have digits : ∀ n : UInt16, n.toNat.repr.length ≤ 5 :=
    fun n => (Nat.length_repr_le_iff (by omega)).mpr (Nat.lt_trans n.toNat_lt (by omega))
  have major := digits v.major
  have minor := digits v.minor
  have patch := digits v.patch
  unfold verPattern versionToString maxVersionStringMediumLength
  simp only [String.toList_append, List.length_append, String.length_toList]
  have word : "version: ".length = 9 := by decide
  have dot : ".".length = 1 := by decide
  omega

/-- The scanner finds the entries of a file. -/
theorem textRegistryHasVersion_iff {compiler : Line} (plain : Plain compiler)
    {entries : List LocalDevEntry} (fits : ∀ entry ∈ entries, entry.Fits) (name : PackageName)
    (v : Version) :
    textRegistryHasVersion (unlines (fileLines compiler entries)) name.author name.project
        (versionToString v) = true ↔
      ∃ entry ∈ entries, entry.name = name ∧ entry.version = v := by
  have at_ := entriesText_atBlock entries
  have scan : versionInBlocks (pkgPattern name.author name.project)
      (verPattern (versionToString v)) (unlines (fileLines compiler entries)) = true ↔
      ∃ entry ∈ entries, entry.name = name ∧ entry.version = v := by
    have empty : ∀ line ∈ [([] : Line)], Skipped (verPattern (versionToString v)) line := by
      intro line member
      rw [List.mem_singleton.mp member]
      refine ⟨fun c on => absurd on List.not_mem_nil, fun ends => ?_⟩
      rw [verPattern_eq] at ends
      exact absurd (List.suffix_nil.mp ends) (by simp)
    have plainPkg := pkgPattern_plain name
    have format : Plain "format 2".toList := by
      decide
    have first : ¬ pkgPattern name.author name.project <:+ "format 2".toList := by
      intro ends
      have colon : ':' ∈ pkgPattern name.author name.project := by
        rw [pkgPattern_eq]
        simp
      exact absurd (ends.subset colon) (by decide)
    have inBlock := versionInBlock_pkgTail name v empty at_
    have skip := versionInBlocks_skipped name v empty at_
    rw [fileLines_text, unlines_cons, unlines_cons]
    rw [pkgPattern_cons] at plainPkg first skip ⊢
    rw [versionInBlocks_line plainPkg format, versionInBlocks_line plainPkg plain, inBlock, skip,
      ← pkgPattern_cons, versionInBlocks_entries name v fits]
    rw [← pkgPattern_cons] at first
    simp only [first, false_and, false_or, Bool.false_eq_true, and_false]
  unfold textRegistryHasVersion
  rw [plain_unlines (fileLines_plain plain fits)]
  have short := verPattern_short v
  split
  · rename_i long
    refine iff_of_false Bool.false_ne_true ?_
    intro ⟨entry, on, same, _⟩
    have bound := (fits entry on).short
    unfold LocalDevEntry.packageLine at bound
    rw [same] at bound
    simp only [Bool.or_eq_true, decide_eq_true_eq] at long
    omega
  · exact scan

end ElmWrap
