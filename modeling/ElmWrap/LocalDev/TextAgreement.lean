import ElmWrap.LocalDev.TextScan
import ElmWrap.V2Index.Documented

/-!
# The text registry and its reader

What registrations have written is read back entry by entry, and the scanner finds
the entries that are read.
-/

namespace ElmWrap

open Lib

/-! ## Lines -/

theorem extractLines_line {line : Line} (plain : Plain line) (rest : List Char) :
    extractLines (line ++ '\n' :: rest) = line :: extractLines rest := by
  induction line with
  | nil => rfl
  | cons c line ih =>
    obtain ⟨⟨newline, return_, -⟩, later⟩ := List.forall_mem_cons.mp plain
    rw [List.cons_append, extractLines, ih later]
    · exact newline
    · exact fun _ same _ => return_ same
    · exact return_

theorem indexLines_unlines {lines : List Line} (plain : ∀ line ∈ lines, Plain line) :
    indexLines (unlines lines) = lines := by
  induction lines with
  | nil => rfl
  | cons line lines ih =>
    obtain ⟨here, later⟩ := List.forall_mem_cons.mp plain
    have whole : line.takeWhile (· ≠ '\x00') = line := by
      rw [List.takeWhile_eq_self_iff]
      intro c member
      simpa using (here c member).2.2
    have rest := ih later
    have text := unlines_cons line lines []
    rw [List.append_nil, List.append_nil] at text
    unfold indexLines at rest ⊢
    rw [text, extractLines_line here, List.map_cons, whole, rest]

/-! ## Entries -/

/-- What is read of an entry. -/
def LocalDevEntry.read (entry : LocalDevEntry) : V2PackageVersion :=
  { newVersion entry.version with
    dependencies := entry.deps.map fun dep => ⟨dep.name.full, dep.version⟩ }

/-- The section of an entry. -/
def LocalDevEntry.block (entry : LocalDevEntry) : Line × List Line :=
  (entry.packageLine, entry.versionLine :: entry.below)

theorem parsePackageLine_entry (entry : LocalDevEntry) :
    parsePackageLine entry.packageLine = some entry.name := by
  have text : entry.packageLine = "package: ".toList ++ entry.name.full.toList :=
    pkgPattern_eq entry.name
  unfold parsePackageLine Line.starts
  rw [text, if_pos (List.isPrefixOf_iff_prefix.mpr (List.prefix_append _ _))]
  have nine : ("package: ".toList ++ entry.name.full.toList).drop 9 = entry.name.full.toList := rfl
  rw [nine, String.ofList_toList, parsePackageName_full]

theorem parseVersionLine_entry (entry : LocalDevEntry) :
    parseVersionLine entry.versionLine = some entry.version := by
  have text : skipWhitespace entry.versionLine =
      "version: ".toList ++ (versionToString entry.version).toList := rfl
  unfold parseVersionLine Line.starts
  dsimp only
  rw [text, if_pos (List.isPrefixOf_iff_prefix.mpr (List.prefix_append _ _))]
  have nine : ("version: ".toList ++ (versionToString entry.version).toList).drop 9 =
      (versionToString entry.version).toList := rfl
  rw [nine, String.ofList_toList, versionParseSafe_versionToString]

theorem isSpace_reserved {c : Char} (space : Scan.isSpace c = true) :
    isUnreserved c = false ∧ c ≠ '/' := by
  have one : c = ' ' ∨ (9 ≤ c.toNat ∧ c.toNat ≤ 13) := by
    simpa [Scan.isSpace, Char.le_def, UInt32.le_iff_toNat_le] using space
  rcases one with blank | ⟨low, high⟩
  · rw [blank]
    decide
  · have text : c = Char.ofNat c.toNat := (Char.ofNat_toNat c).symm
    have value : c.toNat = 9 ∨ c.toNat = 10 ∨ c.toNat = 11 ∨ c.toNat = 12 ∨ c.toNat = 13 := by
      omega
    rcases value with value | value | value | value | value
    all_goals
      rw [value] at text
      rw [text]
      decide

theorem full_head (name : PackageName) :
    ∃ c rest, name.full.toList = c :: rest ∧ Scan.isSpace c = false := by
  cases text : name.full.toList with
  | nil =>
    rw [name.full_toList] at text
    exact absurd text (by simp)
  | cons c rest =>
    refine ⟨c, rest, rfl, ?_⟩
    by_contra space
    obtain ⟨reserved, slash⟩ := isSpace_reserved (Bool.not_eq_false _ ▸ space)
    apply name.full_reserved reserved slash
    rw [text]
    exact List.mem_cons_self

theorem dependencyLine_indent (dep : Package) : (dependencyLine dep).indent = 8 := by
  obtain ⟨c, rest, text, visible⟩ := full_head dep.name
  have other : c ≠ ' ' := by
    intro blank
    rw [blank] at visible
    cases visible
  unfold dependencyLine Line.indent
  rw [text]
  simp [other]

theorem skipWhitespace_visible {text : List Char}
    (starts : ∀ c ∈ text.head?, Scan.isSpace c = false) : skipWhitespace text = text := by
  cases text with
  | nil => rfl
  | cons c text =>
    unfold skipWhitespace
    rw [List.dropWhile_cons_of_neg (by simp [starts c rfl])]

theorem parseDependencyLine_entry {dep : Package} (fits : ConstraintFits dep.version) :
    parseDependencyLine (dependencyLine dep) = some ⟨dep.name.full, dep.version⟩ := by
  have line : skipWhitespace (dependencyLine dep) =
      skipWhitespace (dep.name.full.toList ++ ' ' :: ' ' :: dep.version.toList) := by
    unfold dependencyLine
    rw [List.append_assoc, List.append_assoc]
    rfl
  have visible : skipWhitespace (dep.name.full.toList ++ ' ' :: ' ' :: dep.version.toList) =
      dep.name.full.toList ++ ' ' :: ' ' :: dep.version.toList := by
    obtain ⟨c, rest, text, visible⟩ := full_head dep.name
    apply skipWhitespace_visible
    rw [text]
    intro d first
    cases first
    exact visible
  have behind : skipWhitespace (' ' :: ' ' :: dep.version.toList) =
      skipWhitespace dep.version.toList := rfl
  unfold parseDependencyLine
  rw [line, visible, cutAtBlanks_append (dep.name.full_reserved rfl (by decide)), Option.map_some,
    behind, skipWhitespace_visible fits.starts, String.ofList_toList, String.ofList_toList]

theorem readBelow_dependencyLines {deps : List Package}
    (fits : ∀ dep ∈ deps, ConstraintFits dep.version) (pv : V2PackageVersion) :
    (deps.map dependencyLine).foldl readBelow (pv, true) =
      ({ pv with
          dependencies := pv.dependencies ++ deps.map fun dep => ⟨dep.name.full, dep.version⟩ },
        true) := by
  induction deps generalizing pv with
  | nil =>
    rw [List.map_nil, List.map_nil, List.append_nil]
    rfl
  | cons dep deps ih =>
    obtain ⟨here, later⟩ := List.forall_mem_cons.mp fits
    have step : readBelow (pv, true) (dependencyLine dep) =
        ({ pv with dependencies := pv.dependencies ++ [⟨dep.name.full, dep.version⟩] },
          true) := by
      have indent := dependencyLine_indent dep
      have full : dependencyLine dep ≠ [] := by
        intro empty
        rw [empty] at indent
        cases indent
      unfold readBelow
      rw [if_neg full, indent, parseDependencyLine_entry here]
      rfl
    rw [List.map_cons, List.foldl_cons, step, ih later, List.map_cons]
    dsimp only
    rw [List.append_assoc]
    rfl

theorem readBelow_below {entry : LocalDevEntry} (fits : entry.Fits) :
    (entry.below.foldl readBelow (newVersion entry.version, false)).1 = entry.read := by
  have status : readBelow (newVersion entry.version, false) "    status: valid".toList =
    (newVersion entry.version, false) := rfl
  have license : readBelow (newVersion entry.version, false) "    license: BSD-3-Clause".toList =
    (newVersion entry.version, false) := rfl
  have heading : readBelow (newVersion entry.version, false) "    dependencies:".toList =
    (newVersion entry.version, true) := rfl
  have fixed : ["    status: valid".toList, "    license: BSD-3-Clause".toList,
      "    dependencies:".toList].foldl readBelow (newVersion entry.version, false) =
      (newVersion entry.version, true) := by
    rw [List.foldl_cons, status, List.foldl_cons, license, List.foldl_cons, heading,
      List.foldl_nil]
  unfold LocalDevEntry.below
  rw [List.foldl_append, List.foldl_append, fixed, readBelow_dependencyLines fits.deps]
  rfl

/-! ## The file -/

/-- A compiler line that the reader passes over. -/
structure CompilerFits (compiler : Line) : Prop where
  plain : Plain compiler
  package : isPackageLine compiler = false
  version : isVersionLine compiler = false
  format : wrongFormat compiler = false

theorem below_indented {entry : LocalDevEntry} {line : Line} (member : line ∈ entry.below) :
    isPackageLine line = false ∧ isVersionLine line = false ∧ wrongFormat line = false := by
  unfold LocalDevEntry.below at member
  rcases List.mem_append.mp member with member | last
  · rcases List.mem_append.mp member with fixed | dependency
    · rcases List.mem_cons.mp fixed with same | fixed
      · rw [same]
        exact ⟨rfl, rfl, rfl⟩
      rcases List.mem_cons.mp fixed with same | fixed
      · rw [same]
        exact ⟨rfl, rfl, rfl⟩
      · rw [List.mem_singleton.mp fixed]
        exact ⟨rfl, rfl, rfl⟩
    · obtain ⟨dep, -, rfl⟩ := List.mem_map.mp dependency
      have indent := dependencyLine_indent dep
      refine ⟨?_, ?_, wrongFormat_indented (by omega)⟩
      · by_contra package
        have top := (isPackageLine_indent (Bool.not_eq_false _ ▸ package)).2
        omega
      · unfold isVersionLine
        rw [indent]
        rfl
  · rw [List.mem_singleton.mp last]
    exact ⟨rfl, rfl, rfl⟩

theorem versionLine_isVersionLine (entry : LocalDevEntry) :
    isVersionLine entry.versionLine = true ∧ isPackageLine entry.versionLine = false := ⟨rfl, rfl⟩

theorem packageLine_isPackageLine (entry : LocalDevEntry) :
    isPackageLine entry.packageLine = true := by
  unfold LocalDevEntry.packageLine
  rw [pkgPattern_eq]
  rfl

theorem versionSections_block (entry : LocalDevEntry) :
    looseLines entry.block = [] ∧
      versionSections entry.block = [(entry.versionLine, entry.below)] := by
  have cut : sections isVersionLine (entry.versionLine :: entry.below) =
      ([], [(entry.versionLine, entry.below)]) := by
    have blocks := @sections_blocks _ isVersionLine [] [(entry.versionLine, entry.below)]
      (fun line on => absurd on List.not_mem_nil)
      (by
        intro block on
        rw [List.mem_singleton.mp on]
        exact (versionLine_isVersionLine entry).1)
      (by
        intro block on line inside
        rw [List.mem_singleton.mp on] at inside
        exact (below_indented inside).2.1)
    rw [List.nil_append, List.flatMap_singleton] at blocks
    exact blocks
  unfold looseLines versionSections LocalDevEntry.block
  rw [cut]
  exact ⟨rfl, rfl⟩

theorem packageReadable_block (entry : LocalDevEntry) : packageReadable entry.block = true := by
  have versions : versionReadable (entry.versionLine, entry.below) = true := by
    unfold versionReadable formatsRight
    rw [parseVersionLine_entry, Option.isSome_some, Bool.true_and, List.all_eq_true]
    intro line member
    rw [(below_indented member).2.2]
    rfl
  have package : parsePackageLine entry.block.1 = some entry.name := parsePackageLine_entry entry
  unfold packageReadable
  rw [package, (versionSections_block entry).1, (versionSections_block entry).2]
  simpa [formatsRight] using versions

/-- The sections of a file are its entries. -/
theorem fileLines_sections {compiler : Line} (compilerFits : CompilerFits compiler)
    (entries : List LocalDevEntry) :
    sections isPackageLine (fileLines compiler entries) =
      (["format 2".toList, compiler, []], entries.map LocalDevEntry.block) := by
  have lines : entries.flatMap LocalDevEntry.lines =
      (entries.map LocalDevEntry.block).flatMap fun block => block.1 :: block.2 := by
    rw [List.flatMap_map]
    rfl
  unfold fileLines
  rw [lines]
  apply sections_blocks
  · intro line member
    rcases List.mem_cons.mp member with same | member
    · rw [same]
      rfl
    rcases List.mem_cons.mp member with same | member
    · rw [same]
      exact compilerFits.package
    · rw [List.mem_singleton.mp member]
      rfl
  · intro block member
    obtain ⟨entry, -, rfl⟩ := List.mem_map.mp member
    exact packageLine_isPackageLine entry
  · intro block member line inside
    obtain ⟨entry, -, rfl⟩ := List.mem_map.mp member
    rcases List.mem_cons.mp inside with same | below
    · rw [same]
      exact (versionLine_isVersionLine entry).2
    · exact (below_indented below).1

theorem formatsRight_header {compiler : Line} (compilerFits : CompilerFits compiler) :
    formatsRight ["format 2".toList, compiler, []] = true ∧
      ([("format 2".toList : Line), compiler, []].all fun line => !isVersionLine line) = true := by
  have format : wrongFormat "format 2".toList = false ∧
      isVersionLine "format 2".toList = false := by
    decide
  have empty : wrongFormat [] = false ∧ isVersionLine [] = false := ⟨rfl, rfl⟩
  unfold formatsRight
  simp only [List.all_cons, List.all_nil, format, empty, compilerFits.format, compilerFits.version,
    Bool.not_false, Bool.and_self, and_self]

theorem fileLines_readable {compiler : Line} (compilerFits : CompilerFits compiler)
    {entries : List LocalDevEntry} (fits : ∀ entry ∈ entries, entry.Fits) :
    indexReadable (unlines (fileLines compiler entries)) = true := by
  have lines := indexLines_unlines (fileLines_plain compilerFits.plain fits)
  have cut := fileLines_sections compilerFits entries
  have full : unlines (fileLines compiler entries) ≠ [] := by
    rw [fileLines_text, unlines_cons]
    exact List.append_ne_nil_of_right_ne_nil _ (List.cons_ne_nil _ _)
  have header := formatsRight_header compilerFits
  unfold indexReadable preamble packageSections
  rw [lines, cut, header.1, header.2, decide_eq_true full, List.all_map]
  simp only [Bool.true_and, List.all_eq_true]
  exact fun entry _ => packageReadable_block entry

theorem isSectionOf_block (key : String × String) (entry : LocalDevEntry) :
    isSectionOf key entry.block = decide (entry.name.key = key) := by
  have read : parsePackageLine entry.block.1 = some entry.name := parsePackageLine_entry entry
  unfold isSectionOf
  rw [read, Option.map_some, decide_eq_decide, Option.some_inj]

/-- What the reader makes of a file. -/
theorem v2RegistryParse_file {compiler : Line} (compilerFits : CompilerFits compiler)
    {entries : List LocalDevEntry} (fits : ∀ entry ∈ entries, entry.Fits) :
    ∃ registry, v2RegistryParse (unlines (fileLines compiler entries)) = some registry ∧
      ∀ key, (registry.stored key).getD [] =
        (entries.filter (·.name.key = key)).map LocalDevEntry.read := by
  have lines := indexLines_unlines (fileLines_plain compilerFits.plain fits)
  have cut := fileLines_sections compilerFits entries
  have parsed := v2RegistryParse_eq (unlines (fileLines compiler entries))
  rw [if_pos (fileLines_readable compilerFits fits)] at parsed
  refine ⟨_, parsed, ?_⟩
  intro key
  have own : sectionsOf (unlines (fileLines compiler entries)) key =
      (entries.filter (·.name.key = key)).map LocalDevEntry.block := by
    unfold sectionsOf packageSections
    rw [lines, cut, List.filter_map]
    exact congrArg _ (List.filter_congr fun entry _ => isSectionOf_block key entry)
  have versions : (versionSectionsOf (unlines (fileLines compiler entries)) key).map
      sectionVersion = (entries.filter (·.name.key = key)).map LocalDevEntry.read := by
    unfold versionSectionsOf
    rw [own, List.flatMap_map, List.map_flatMap, List.map_eq_flatMap]
    apply List.flatMap_congr
    intro entry member
    have entryFits := fits entry (List.mem_filter.mp member).1
    rw [(versionSections_block entry).2, List.map_singleton]
    unfold sectionVersion
    rw [parseVersionLine_entry, Option.getD_some, readBelow_below entryFits]
  rw [v2RegistryParse_stored parsed, versions, own]
  split
  · rename_i none_
    rw [List.map_eq_nil_iff] at none_
    rw [none_]
    rfl
  · rfl

end ElmWrap
