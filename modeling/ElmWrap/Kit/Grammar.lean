import ElmWrap.Kit.Kitfile
import Mathlib.Data.List.TakeWhile

/-!
# The grammar of kitfiles

A kitfile line by line: the header, the kit with its version, and entries with blank
lines between them. `kitfile_parse` is the state machine that reads it.
-/

namespace ElmWrap.Kit

/-! ## Lines -/

def BlankLine (line : List Char) : Prop := ∀ c ∈ line, isBlank c = true

/-- A value: it is not empty, and has no blanks at its ends. -/
structure IsValue (text : List Char) : Prop where
  nonempty : text ≠ []
  first : ∀ c ∈ text.head?, c ≠ ' ' ∧ c ≠ '\t'
  last : ∀ c ∈ text.getLast?, isBlank c = false

/-- Spaces and tabs between a key and its value. -/
def Gap (text : List Char) : Prop := ∀ c ∈ text, c = ' ' ∨ c = '\t'

/-- `format 2`. -/
def FormatLine (line : List Char) : Prop :=
  ∃ tail, line = "format 2".toList ++ tail ∧ BlankLine tail

/-- `COMPILER VERSION`. -/
def CompilerLine (line : List Char) (name version : String) : Prop :=
  ∃ gap tail, line = name.toList ++ ' ' :: (gap ++ version.toList ++ tail) ∧ Gap gap ∧
    BlankLine tail ∧ name.toList ≠ [] ∧ ' ' ∉ name.toList ∧ name.toList.head? ≠ some '\t' ∧
    IsValue version.toList

/-- `KEY VALUE`, with a key that ends in a colon. -/
def KeyLine (key : String) (line : List Char) (value : String) : Prop :=
  ∃ gap tail, line = key.toList ++ gap ++ value.toList ++ tail ∧ Gap gap ∧ BlankLine tail ∧
    IsValue value.toList

/-- A property: four spaces in front of the key. -/
def PropertyLine (key : String) (line : List Char) (value : String) : Prop :=
  ∃ rest, line = "    ".toList ++ rest ∧ KeyLine key rest value

/-! ## Kitfiles -/

/-- An entry after the kit. -/
inductive KitEntry
  | tool (name url : String)
  | package (p : PackageName) (version : Option String)
  | localDev (p : PackageName) (version : String)

/-- What a kitfile says. -/
structure KitText where
  compilerName : String
  compilerVersion : String
  kitName : String
  kitVersion : String
  entries : List KitEntry

/-- What the values of the entries look like. -/
structure KitForms where
  toolName : String → Prop
  url : String → Prop
  package : String → PackageName → Option String → Prop
  localDev : String → PackageName → String → Prop
  /-- Asked of all entries together. -/
  entries : List KitEntry → Prop

/-- The lines after the kit. -/
inductive EntryLines (forms : KitForms) : List (List Char) → List KitEntry → Prop
  | nil : EntryLines forms [] []
  | blank {line rest entries} : BlankLine line → EntryLines forms rest entries →
      EntryLines forms (line :: rest) entries
  | tool {line property rest entries name url} : KeyLine "tool:" line name →
      forms.toolName name → PropertyLine "url:" property url → forms.url url →
      EntryLines forms rest entries →
      EntryLines forms (line :: property :: rest) (.tool name url :: entries)
  | package {line rest entries spec p version} : KeyLine "package:" line spec →
      forms.package spec p version → EntryLines forms rest entries →
      EntryLines forms (line :: rest) (.package p version :: entries)
  | localDev {line rest entries spec p version} : KeyLine "local-dev:" line spec →
      forms.localDev spec p version → EntryLines forms rest entries →
      EntryLines forms (line :: rest) (.localDev p version :: entries)

/-- The text is a kitfile that says this. -/
def IsKitfile (forms : KitForms) (body : String) (text : KitText) : Prop :=
  ∃ blanks format blanks' compiler blanks'' kit version rest,
    body.toList.splitOn '\n' =
        blanks ++ format :: (blanks' ++ compiler :: (blanks'' ++ kit :: version :: rest)) ∧
      (∀ line ∈ blanks ++ blanks' ++ blanks'', BlankLine line) ∧ FormatLine format ∧
      CompilerLine compiler text.compilerName text.compilerVersion ∧
      KeyLine "kit:" kit text.kitName ∧ PropertyLine "version:" version text.kitVersion ∧
      EntryLines forms rest text.entries ∧ forms.entries text.entries

/-- `AUTHOR/NAME@VERSION`. -/
def AtForm (spec : String) (p : PackageName) (version : String) : Prop :=
  spec = p.full ++ "@" ++ version ∧ version ≠ ""

/-- `AUTHOR/NAME/VERSION`. -/
def SlashForm (spec : String) (p : PackageName) (version : String) : Prop :=
  spec = p.full ++ "/" ++ version ∧ version ≠ "" ∧ '/' ∉ version.toList ∧ '@' ∉ version.toList

def KitEntry.toolName? : KitEntry → Option String
  | .tool name _ => some name
  | _ => none

/-- The forms of `Kit.md`: the name of a tool is a file name, a package is
`author/name[@VERSION]`. -/
def documentedForms : KitForms where
  toolName name := isComponent name.toList = true
  url _ := True
  package spec p
    | none => spec = p.full
    | some version => AtForm spec p version
  localDev spec p version := AtForm spec p version ∨ SlashForm spec p version
  entries _ := True

/-- A package, with a version in one of the two forms or without one. -/
def SpecForm (spec : String) (p : PackageName) : Option String → Prop
  | none => spec = p.full
  | some version => AtForm spec p version ∨ SlashForm spec p version

/-- The forms that are accepted. -/
def acceptedForms : KitForms where
  toolName name := validToolName name = true
  url url := urlIsHttp url = true
  package := SpecForm
  localDev spec p version := SpecForm spec p (some version)
  entries entries := (entries.filterMap KitEntry.toolName?).Nodup

/-- A manifest has what a kitfile says, each entry in its section. -/
structure KitManifest.Holds (m : KitManifest) (text : KitText) : Prop where
  compilerName : m.compilerName = text.compilerName
  compilerVersion : m.compilerVersion = text.compilerVersion
  kitName : m.kitName = text.kitName
  kitVersion : m.kitVersion = text.kitVersion
  tools : m.tools.map (fun t => (t.name.text, t.url, t.localBinPath)) =
    text.entries.filterMap fun
      | .tool name url => some (name, some url, none)
      | _ => none
  packages : m.packages.map (fun p => (p.author.text, p.name.text, p.version)) =
    text.entries.filterMap fun
      | .package p version => some (p.author, p.project, version)
      | _ => none
  localDevs : m.localDevs.map (fun p => (p.author.text, p.name.text, p.version)) =
    text.entries.filterMap fun
      | .localDev p version => some (p.author, p.project, version)
      | _ => none

/-! ## Reading a line -/

section

variable {text line : List Char}

theorem mem_splitOn {c : Char} {piece : List Char} (member : piece ∈ text.splitOn c) :
    c ∉ piece ∧ ∀ d ∈ piece, d ∈ text := by
  induction text generalizing piece with
  | nil =>
    rw [List.splitOn_nil, List.mem_singleton] at member
    rw [member]
    exact ⟨List.not_mem_nil, fun d on => on⟩
  | cons e text ih =>
    rw [List.splitOn_cons_eq_if_modifyHead] at member
    split at member
    · rcases List.mem_cons.mp member with rfl | later
      · exact ⟨List.not_mem_nil, fun d on => nomatch on⟩
      · obtain ⟨plain, inside⟩ := ih later
        exact ⟨plain, fun d on => List.mem_cons_of_mem e (inside d on)⟩
    · rename_i other
      cases pieces : text.splitOn c with
      | nil => exact absurd pieces (List.splitOn_ne_nil c text)
      | cons first rest =>
        rw [pieces] at ih member
        rcases List.mem_cons.mp member with rfl | later
        · obtain ⟨plain, inside⟩ := ih List.mem_cons_self
          refine ⟨?_, fun d on => ?_⟩
          · rw [List.mem_cons, not_or]
            exact ⟨fun same => other (by simp [same]), plain⟩
          · rcases List.mem_cons.mp on with rfl | on
            · exact List.mem_cons_self
            · exact List.mem_cons_of_mem e (inside d on)
        · obtain ⟨plain, inside⟩ := ih (List.mem_cons_of_mem first later)
          exact ⟨plain, fun d on => List.mem_cons_of_mem e (inside d on)⟩

theorem rstripInPlace_append {tail : List Char} (last : ∀ c ∈ text.getLast?, isBlank c = false)
    (plain : '\n' ∉ text) (blank : BlankLine tail) : rstripInPlace (text ++ tail) = text := by
  unfold rstripInPlace
  rw [List.reverse_append, List.dropWhile_append_of_pos]
  · cases reversed : text.reverse with
    | nil => simpa using reversed.symm
    | cons c rest =>
      have ends : text.getLast? = some c := by
        rw [← List.head?_reverse, reversed]
        rfl
      have newline : c ≠ '\n' := by
        rintro rfl
        exact plain (List.mem_of_getLast? ends)
      rw [List.dropWhile_cons_of_neg (by simp [last c ends, newline]), ← reversed,
        List.reverse_reverse]
  · intro c member
    rw [blank c (List.mem_reverse.mp member)]
    rfl

/-- What is stripped from a line. -/
theorem rstripInPlace_spec (plain : '\n' ∉ line) :
    ∃ tail, line = rstripInPlace line ++ tail ∧ BlankLine tail ∧
      ∀ c ∈ (rstripInPlace line).getLast?, isBlank c = false := by
  let stripped (c : Char) : Bool := isBlank c || c = '\n'
  have split : line.reverse.takeWhile stripped ++ line.reverse.dropWhile stripped = line.reverse :=
    List.takeWhile_append_dropWhile
  refine ⟨(line.reverse.takeWhile stripped).reverse, ?_, ?_, ?_⟩
  · have back := congrArg List.reverse split
    rw [List.reverse_append, List.reverse_reverse] at back
    exact back.symm
  · intro c member
    have taken := List.mem_reverse.mp member
    have blank : stripped c = true := List.all_eq_true.mp List.all_takeWhile c taken
    have inside : c ∈ line :=
      List.mem_reverse.mp ((List.takeWhile_sublist stripped).subset taken)
    rcases Bool.or_eq_true_iff.mp blank with blank | newline
    · exact blank
    · rw [of_decide_eq_true newline] at inside
      exact absurd inside plain
  · intro c last
    have first := List.head?_dropWhile_not stripped line.reverse
    unfold rstripInPlace at last
    rw [List.getLast?_reverse] at last
    rw [last] at first
    exact (Bool.or_eq_false_iff.mp first).1

/-- A line is stripped of its blanks at the end. -/
theorem rstripInPlace_eq_iff (plain : '\n' ∉ line) :
    rstripInPlace line = text ↔
      (∀ c ∈ text.getLast?, isBlank c = false) ∧ ∃ tail, line = text ++ tail ∧ BlankLine tail := by
  constructor
  · rintro rfl
    obtain ⟨tail, whole, blank, last⟩ := rstripInPlace_spec plain
    exact ⟨last, tail, whole, blank⟩
  · rintro ⟨last, tail, rfl, blank⟩
    exact rstripInPlace_append last (fun on => plain (List.mem_append_left tail on)) blank

theorem skipLeadingWs_spec (text : List Char) :
    ∃ gap, text = gap ++ skipLeadingWs text ∧ Gap gap ∧
      ∀ c ∈ (skipLeadingWs text).head?, c ≠ ' ' ∧ c ≠ '\t' := by
  refine ⟨_, List.takeWhile_append_dropWhile.symm, ?_, ?_⟩
  · intro c member
    simpa using List.all_eq_true.mp List.all_takeWhile c member
  · intro c first
    have stops := List.head?_dropWhile_not (fun c : Char => c = ' ' || c = '\t') text
    unfold skipLeadingWs at first
    rw [first] at stops
    simpa using stops

theorem skipLeadingWs_append {gap : List Char} (blank : Gap gap)
    (first : ∀ c ∈ text.head?, c ≠ ' ' ∧ c ≠ '\t') : skipLeadingWs (gap ++ text) = text := by
  unfold skipLeadingWs
  rw [List.dropWhile_append_of_pos]
  · cases text with
    | nil => rfl
    | cons c rest => exact List.dropWhile_cons_of_neg (by simpa using first c rfl)
  · intro c member
    simpa using blank c member

/-- What is read after a key. -/
theorem extractTopValue_iff {key value : String} {rest : List Char} (plain : '\n' ∉ rest) :
    extractTopValue (key.toList ++ rest) key = some value ↔
      ∃ gap tail, rest = gap ++ value.toList ++ tail ∧ Gap gap ∧ BlankLine tail ∧
        IsValue value.toList := by
  obtain ⟨gap, whole, blank, first⟩ := skipLeadingWs_spec rest
  have newline : '\n' ∉ skipLeadingWs rest := fun on => plain (whole ▸ List.mem_append_right gap on)
  unfold extractTopValue
  dsimp only
  rw [← String.length_toList, List.drop_left]
  constructor
  · intro read
    split at read
    · cases read
    · rename_i nonempty
      cases read
      obtain ⟨tail, value, ends, last⟩ := rstripInPlace_spec newline
      refine ⟨gap, tail, ?_, blank, ends, ?_⟩
      · rw [String.toList_ofList, List.append_assoc, ← value, ← whole]
      · rw [String.toList_ofList]
        refine ⟨nonempty, ?_, last⟩
        intro c head
        apply first
        rw [value, List.head?_append_of_ne_nil _ nonempty]
        exact head
  · rintro ⟨gap', tail, rfl, blank', ends, isValue⟩
    have skipped : skipLeadingWs (gap' ++ value.toList ++ tail) = value.toList ++ tail := by
      rw [List.append_assoc]
      apply skipLeadingWs_append blank'
      rw [List.head?_append_of_ne_nil _ isValue.nonempty]
      exact isValue.first
    have inside : '\n' ∉ value.toList := fun on =>
      plain (List.mem_append_left tail (List.mem_append_right gap' on))
    rw [skipped, rstripInPlace_append isValue.last inside ends, if_neg isValue.nonempty,
      String.ofList_toList]

theorem startsWith_iff {key : String} :
    startsWith text key = true ↔ ∃ rest, text = key.toList ++ rest := by
  unfold startsWith
  rw [List.isPrefixOf_iff_prefix]
  exact exists_congr fun rest => eq_comm

/-- A line with a key, stripped. -/
theorem keyLine_iff {key value : String} (plain : '\n' ∉ line) :
    KeyLine key line value ↔ startsWith (rstripInPlace line) key = true ∧
      extractTopValue (rstripInPlace line) key = some value := by
  rw [startsWith_iff]
  constructor
  · rintro ⟨gap, tail, rfl, blank, ends, isValue⟩
    have inside : '\n' ∉ key.toList ++ gap ++ value.toList := fun on =>
      plain (List.mem_append_left tail on)
    have last : ∀ c ∈ (key.toList ++ gap ++ value.toList).getLast?, isBlank c = false := by
      rw [List.getLast?_append_of_ne_nil _ isValue.nonempty]
      exact isValue.last
    rw [rstripInPlace_append last inside ends, List.append_assoc]
    refine ⟨⟨_, rfl⟩, (extractTopValue_iff ?_).mpr ⟨gap, [], ?_, blank, ?_, isValue⟩⟩
    · rw [List.append_assoc] at inside
      exact fun on => inside (List.mem_append_right _ on)
    · rw [List.append_nil]
    · exact fun c on => nomatch on
  · rintro ⟨⟨rest, stripped⟩, read⟩
    obtain ⟨tail, whole, ends, -⟩ := rstripInPlace_spec plain
    rw [stripped] at read whole
    have inside : '\n' ∉ rest := fun on =>
      plain (whole ▸ List.mem_append_left tail (List.mem_append_right _ on))
    obtain ⟨gap, tail', rfl, blank, ends', isValue⟩ := (extractTopValue_iff inside).mp read
    refine ⟨gap, tail' ++ tail, ?_, blank, ?_, isValue⟩
    · rw [whole]
      simp only [List.append_assoc]
    · intro c on
      rcases List.mem_append.mp on with on | on
      · exact ends' c on
      · exact ends c on

/-- What a line is for the parser: without a NUL it is not cut short, and it has no newline. -/
structure PlainLine (line : List Char) : Prop where
  newline : '\n' ∉ line
  nul : Char.ofNat 0 ∉ line

theorem PlainLine.cLine (plain : PlainLine line) : cLine line = line := by
  unfold Kit.cLine
  rw [List.takeWhile_eq_self_iff]
  intro c on
  exact decide_eq_true fun same => plain.nul (same ▸ on)

theorem all_isBlank_iff (plain : PlainLine line) :
    (rstripInPlace line).all isBlank = true ↔ BlankLine line := by
  obtain ⟨tail, whole, ends, -⟩ := rstripInPlace_spec plain.newline
  rw [List.all_eq_true]
  constructor
  · intro blank c on
    rw [whole] at on
    rcases List.mem_append.mp on with on | on
    · exact blank c on
    · exact ends c on
  · exact fun blank c on => blank c (whole ▸ List.mem_append_left tail on)

variable {d d' : Draft} {m : KitManifest} {p : PackageName} {lines : List (List Char)}

theorem parseLine_blank (plain : PlainLine line) (blank : BlankLine line) :
    parseLine d line = some { d with active := .none } := by
  unfold parseLine
  dsimp only
  rw [plain.cLine, if_pos ((all_isBlank_iff plain).mpr blank)]

/-- `leading_spaces`. -/
theorem leadingSpaces_iff {n : Nat} :
    (text.takeWhile (· = ' ')).length = n ↔
      ∃ rest, text = List.replicate n ' ' ++ rest ∧ rest.head? ≠ some ' ' := by
  constructor
  · rintro rfl
    have spaces : ∀ c ∈ text.takeWhile (· = ' '), c = ' ' := fun c on =>
      of_decide_eq_true (List.all_eq_true.mp List.all_takeWhile c on)
    refine ⟨text.dropWhile (· = ' '), ?_, ?_⟩
    · rw [← List.eq_replicate_of_mem spaces]
      exact List.takeWhile_append_dropWhile.symm
    · intro first
      have stops := List.head?_dropWhile_not (fun c : Char => decide (c = ' ')) text
      rw [first] at stops
      exact absurd stops (by decide)
  · rintro ⟨rest, rfl, stops⟩
    have none_ : rest.takeWhile (· = ' ') = [] := by
      cases rest with
      | nil => rfl
      | cons c rest =>
        apply List.takeWhile_cons_of_neg
        simpa using stops
    rw [List.takeWhile_append_of_pos, none_, List.append_nil, List.length_replicate]
    exact fun c on => decide_eq_true (List.eq_of_mem_replicate on)

/-- The indentation of a line decides which function reads it. -/
theorem parseLine_iff (plain : PlainLine line) (content : ¬ BlankLine line) :
    parseLine d line = some d' ↔
      ((∀ c ∈ (rstripInPlace line).head?, c ≠ ' ' ∧ c ≠ '\t') ∧
        parseTopLevel { d with active := .none } (rstripInPlace line) = some d') ∨
      ∃ rest, rstripInPlace line = "    ".toList ++ rest ∧ rest.head? ≠ some ' ' ∧
        parseProperty d rest = some d' := by
  have content := mt (all_isBlank_iff plain).mp content
  have four : "    ".toList = List.replicate 4 ' ' := by decide
  unfold parseLine
  dsimp only
  rw [plain.cLine, if_neg content, four]
  generalize rstripInPlace line = stripped
  by_cases tab : stripped.head? = some '\t'
  · rw [if_pos tab, tab]
    refine iff_of_false (fun wrong => nomatch wrong) ?_
    rintro (⟨other, -⟩ | ⟨rest, rfl, -⟩)
    · exact (other '\t' rfl).2 rfl
    · rw [List.replicate_succ] at tab
      cases tab
  · rw [if_neg tab]
    by_cases top : (stripped.takeWhile (· = ' ')).length = 0
    · rw [if_pos top, top, List.drop_zero]
      obtain ⟨rest, same, stops⟩ := leadingSpaces_iff.mp top
      rw [List.replicate_zero, List.nil_append] at same
      rw [← same] at stops
      constructor
      · intro read
        refine Or.inl ⟨fun c first => ⟨?_, ?_⟩, read⟩
        · exact fun space => stops (space ▸ first)
        · exact fun space => tab (space ▸ first)
      · rintro (⟨-, read⟩ | ⟨rest', rfl, -⟩)
        · exact read
        · exact absurd rfl stops
    · rw [if_neg top]
      have first : ∃ rest, stripped = ' ' :: rest := by
        cases stripped with
        | nil => exact absurd rfl top
        | cons c rest =>
          by_cases space : c = ' '
          · exact ⟨rest, by rw [space]⟩
          · rw [List.takeWhile_cons_of_neg (by simpa using space)] at top
            exact absurd rfl top
      obtain ⟨others, rfl⟩ := first
      have notTop : ¬ ((∀ c ∈ (' ' :: others).head?, c ≠ ' ' ∧ c ≠ '\t') ∧
          parseTopLevel { d with active := .none } (' ' :: others) = some d') :=
        fun both => (both.1 ' ' rfl).1 rfl
      rw [or_iff_right notTop]
      by_cases property : ((' ' :: others).takeWhile (· = ' ')).length = 4
      · rw [if_neg (not_not.mpr property), property]
        obtain ⟨rest, same, stops⟩ := leadingSpaces_iff.mp property
        rw [same, List.drop_left' (List.length_replicate ..)]
        constructor
        · exact fun read => ⟨rest, rfl, stops, read⟩
        · rintro ⟨rest', again, -, read⟩
          rw [List.append_cancel_left again]
          exact read
      · rw [if_pos property]
        refine iff_of_false (fun wrong => nomatch wrong) ?_
        rintro ⟨rest, same, stops, -⟩
        exact property (leadingSpaces_iff.mpr ⟨rest, same, stops⟩)

/-! ## The header -/

/-- Outside a block only lines without indentation are read. -/
theorem parseLine_idle (plain : PlainLine line) (idle : d.active = .none) :
    parseLine d line = some d' ↔ BlankLine line ∧ d' = d ∨
      (¬ BlankLine line ∧ ∀ c ∈ (rstripInPlace line).head?, c ≠ ' ' ∧ c ≠ '\t') ∧
        parseTopLevel d (rstripInPlace line) = some d' := by
  have same : { d with active := .none } = d := by rw [← idle]
  by_cases blank : BlankLine line
  · rw [parseLine_blank plain blank, same, Option.some.injEq]
    exact ⟨fun new => Or.inl ⟨blank, new.symm⟩,
      fun which => which.elim (fun first => first.2.symm) fun other => absurd blank other.1.1⟩
  · have property : ∀ rest, parseProperty d rest = none := by
      intro rest
      unfold parseProperty
      rw [idle]
    rw [parseLine_iff plain blank, same, or_iff_left, or_iff_right fun first => blank first.1]
    · exact and_congr_left fun _ => (and_iff_right blank).symm
    · rintro ⟨rest, -, -, read⟩
      rw [property] at read
      cases read

theorem formatLine_iff (plain : PlainLine line) :
    FormatLine line ↔ rstripInPlace line = "format 2".toList := by
  rw [rstripInPlace_eq_iff plain.newline, and_iff_right]
  · rfl
  · rintro c ⟨⟩
    rfl

theorem parseLine_format (plain : PlainLine line) (idle : d.active = .none)
    (new : d.seenFormat = false) :
    parseLine d line = some d' ↔ BlankLine line ∧ d' = d ∨
      FormatLine line ∧ d' = { d with seenFormat := true } := by
  rw [parseLine_idle plain idle, formatLine_iff plain]
  refine or_congr_right ?_
  unfold parseTopLevel
  rw [new, Bool.not_false, if_pos rfl]
  constructor
  · rintro ⟨-, read⟩
    split at read
    · rename_i same
      cases read
      exact ⟨same, rfl⟩
    · cases read
  · rintro ⟨same, rfl⟩
    rw [if_pos same, same]
    refine ⟨⟨fun blank => ?_, ?_⟩, rfl⟩
    · have all := (all_isBlank_iff plain).mpr blank
      rw [same] at all
      revert all
      decide
    · rintro c ⟨⟩
      decide

/-- A compiler line, stripped. -/
theorem compilerLine_iff {name version : String} (plain : PlainLine line) :
    CompilerLine line name version ↔
      (¬ BlankLine line ∧ ∀ c ∈ (rstripInPlace line).head?, c ≠ ' ' ∧ c ≠ '\t') ∧
        ∃ rest, cutAt ' ' (rstripInPlace line) = some (name.toList, rest) ∧
          skipLeadingWs rest = version.toList ∧ name.toList ≠ [] ∧ version.toList ≠ [] := by
  obtain ⟨tail, whole, ends, last⟩ := rstripInPlace_spec plain.newline
  constructor
  · rintro ⟨gap, tail', rfl, blank, ends', named, spaces, tab, isValue⟩
    have inside : '\n' ∉ name.toList ++ ' ' :: (gap ++ version.toList) := by
      intro on
      refine plain.newline ?_
      have more := List.mem_append_left tail' on
      simpa using more
    have same : rstripInPlace (name.toList ++ ' ' :: (gap ++ version.toList ++ tail')) =
        name.toList ++ ' ' :: (gap ++ version.toList) := by
      have ending : ∀ c ∈ (name.toList ++ ' ' :: (gap ++ version.toList)).getLast?,
          isBlank c = false := by
        rw [← List.cons_append, ← List.append_assoc,
          List.getLast?_append_of_ne_nil _ isValue.nonempty]
        exact isValue.last
      have stripped := rstripInPlace_append ending inside ends'
      rwa [List.append_assoc, List.cons_append] at stripped
    rw [same]
    refine ⟨⟨?_, ?_⟩, _, cutAt_append spaces, skipLeadingWs_append blank isValue.first, named,
      isValue.nonempty⟩
    · intro wrong
      obtain ⟨c, rest, chars⟩ := List.exists_cons_of_ne_nil isValue.nonempty
      have visible := isValue.last _ (List.getLast?_eq_some_getLast isValue.nonempty)
      rw [wrong] at visible
      · cases visible
      · have on := List.getLast_mem isValue.nonempty
        simp [on]
    · intro c first
      rw [List.head?_append_of_ne_nil _ named] at first
      refine ⟨?_, ?_⟩
      · rintro rfl
        exact spaces (List.mem_of_head? first)
      · rintro rfl
        exact tab first
  · rintro ⟨⟨-, first⟩, rest, cut, skipped, named, value⟩
    have parts := cutAt_some cut
    obtain ⟨gap, split, blank, stops⟩ := skipLeadingWs_spec rest
    rw [skipped] at split stops
    rw [parts, split] at last first whole
    refine ⟨gap, tail, ?_, blank, ends, named, not_mem_of_cutAt cut, ?_, value, stops, ?_⟩
    · rw [whole]
      simp only [List.append_assoc, List.cons_append]
    · intro tab
      rw [List.head?_append_of_ne_nil _ named] at first
      exact (first '\t' tab).2 rfl
    · rw [← List.cons_append, ← List.append_assoc,
        List.getLast?_append_of_ne_nil _ value] at last
      exact last

theorem parseLine_compiler (plain : PlainLine line) (idle : d.active = .none)
    (format : d.seenFormat = true) (new : d.compiler = none) :
    parseLine d line = some d' ↔ BlankLine line ∧ d' = d ∨
      ∃ name version, CompilerLine line name version ∧
        d' = { d with compiler := some (name, version) } := by
  rw [parseLine_idle plain idle]
  refine or_congr_right ?_
  simp only [compilerLine_iff plain]
  unfold parseTopLevel
  rw [if_neg (by simp [format]), if_pos (by simp [new])]
  unfold parseCompiler
  constructor
  · rintro ⟨content, read⟩
    obtain ⟨⟨name, rest⟩, cut, read⟩ := Option.bind_eq_some_iff.mp read
    dsimp only at read
    split at read
    · cases read
    · rename_i full
      rw [Bool.or_eq_true, decide_eq_true_eq, decide_eq_true_eq, not_or] at full
      cases read
      refine ⟨String.ofList name, String.ofList (skipLeadingWs rest), ⟨content, rest, ?_⟩, rfl⟩
      rw [String.toList_ofList, String.toList_ofList]
      exact ⟨cut, rfl, full⟩
  · rintro ⟨name, version, ⟨content, rest, cut, skipped, named, value⟩, rfl⟩
    refine ⟨content, ?_⟩
    rw [cut]
    dsimp only [Option.bind_eq_bind, Option.bind_some]
    rw [skipped, if_neg (by simp [named, value]), String.ofList_toList, String.ofList_toList]

/-- A line with a key has no indentation. -/
theorem KeyLine.content {key value : String} (plain : PlainLine line)
    (keyed : KeyLine key line value)
    (visible : ∃ c, key.toList.head? = some c ∧ isBlank c = false) :
    ¬ BlankLine line ∧ ∀ c ∈ (rstripInPlace line).head?, c ≠ ' ' ∧ c ≠ '\t' := by
  obtain ⟨c, head, shown⟩ := visible
  obtain ⟨rest, stripped⟩ := startsWith_iff.mp ((keyLine_iff plain.newline).mp keyed).1
  obtain ⟨first, chars⟩ := List.head?_eq_some_iff.mp head
  rw [stripped, chars]
  constructor
  · intro blank
    have all := (all_isBlank_iff plain).mpr blank
    rw [stripped, chars] at all
    rw [List.all_eq_true.mp all c (by simp)] at shown
    cases shown
  · rintro d ⟨⟩
    refine ⟨?_, ?_⟩
    · rintro rfl
      cases shown
    · rintro rfl
      cases shown

theorem parseLine_kit (plain : PlainLine line) (idle : d.active = .none)
    (format : d.seenFormat = true) (compiler : d.compiler.isSome = true) (new : d.kitName = none) :
    parseLine d line = some d' ↔ BlankLine line ∧ d' = d ∨
      ∃ name, KeyLine "kit:" line name ∧ d' = { d with kitName := some name, active := .kit } := by
  rw [parseLine_idle plain idle]
  refine or_congr_right ?_
  have known : d.compiler ≠ none := Option.isSome_iff_ne_none.mp compiler
  unfold parseTopLevel
  rw [if_neg (by simp [format]), if_neg (by simp [known])]
  rw [if_neg (show ¬ d.kitName.isSome = true by simp [new]),
    if_pos (show d.kitName.isNone = true by simp [new])]
  constructor
  · rintro ⟨-, read⟩
    split at read
    · rename_i starts
      obtain ⟨name, value, rfl⟩ := Option.map_eq_some_iff.mp read
      exact ⟨name, (keyLine_iff plain.newline).mpr ⟨starts, value⟩, rfl⟩
    · cases read
  · rintro ⟨name, keyed, rfl⟩
    obtain ⟨starts, value⟩ := (keyLine_iff plain.newline).mp keyed
    refine ⟨keyed.content plain ⟨'k', rfl, rfl⟩, ?_⟩
    rw [if_pos starts, value]
    rfl

/-! ## Packages -/

theorem cutLastSlash_iff {before after : List Char} :
    cutLastSlash text = some (before, after) ↔ text = before ++ '/' :: after ∧ '/' ∉ after := by
  unfold cutLastSlash
  rw [Option.map_eq_some_iff]
  constructor
  · rintro ⟨⟨last, first⟩, cut, same⟩
    cases same
    have whole := congrArg List.reverse (cutAt_some cut)
    rw [List.reverse_reverse, List.reverse_append, List.reverse_cons, List.append_assoc,
      List.singleton_append] at whole
    exact ⟨whole, by simpa using not_mem_of_cutAt cut⟩
  · rintro ⟨rfl, plain⟩
    refine ⟨(after.reverse, before.reverse), ?_, by simp⟩
    rw [List.reverse_append, List.reverse_cons, List.append_assoc, List.singleton_append]
    exact cutAt_append (by simpa using plain)

theorem full_at (p : PackageName) : '@' ∉ p.full.toList := by
  rw [p.full_toList, List.mem_append, List.mem_cons, not_or, not_or]
  exact ⟨p.author_plain rfl, by decide, p.project_plain rfl⟩

theorem full_slashes (p : PackageName) : p.full.toList.count '/' = 1 := by
  rw [p.full_toList, List.count_append, List.count_cons_self,
    List.count_eq_zero_of_not_mem (p.author_plain rfl),
    List.count_eq_zero_of_not_mem (p.project_plain rfl)]

theorem ne_empty_iff {version : String} : version ≠ "" ↔ version.toList ≠ [] :=
  not_congr String.toList_eq_nil_iff.symm

theorem parsePackageName_iff {package : String} :
    parsePackageName package = some p ↔ package = p.full :=
  ⟨fun read => (full_of_parsePackageName read).symm, fun same => same ▸ parsePackageName_full p⟩

/-- A name and a version that is not empty. -/
theorem parseVersioned_iff {before after : List Char} {version : Option String} :
    ((parsePackageName (String.ofList before)).bind fun package =>
        if after = [] then none else some (package, some (String.ofList after))) =
          some (p, version) ↔
      before = p.full.toList ∧ ∃ text, version = some text ∧ after = text.toList ∧ text ≠ "" := by
  rw [Option.bind_eq_some_iff]
  constructor
  · rintro ⟨q, read, rest⟩
    split at rest
    · cases rest
    · rename_i nonempty
      cases rest
      refine ⟨?_, String.ofList after, rfl, String.toList_ofList.symm, ?_⟩
      · rw [full_of_parsePackageName read, String.toList_ofList]
      · rw [ne_empty_iff, String.toList_ofList]
        exact nonempty
  · rintro ⟨rfl, text, rfl, rfl, nonempty⟩
    refine ⟨p, ?_, ?_⟩
    · rw [String.ofList_toList, parsePackageName_full]
    · rw [if_neg (ne_empty_iff.mp nonempty), String.ofList_toList]

theorem AtForm.toList {spec version : String} (form : AtForm spec p version) :
    spec.toList = p.full.toList ++ '@' :: version.toList := by
  rw [form.1]
  simp

theorem SlashForm.toList {spec version : String} (form : SlashForm spec p version) :
    spec.toList = p.full.toList ++ '/' :: version.toList := by
  rw [form.1]
  simp

theorem SlashForm.at {spec version : String} (form : SlashForm spec p version) :
    '@' ∉ spec.toList := by
  rw [form.toList, List.mem_append, List.mem_cons, not_or, not_or]
  exact ⟨full_at p, by decide, form.2.2.2⟩

theorem SlashForm.slashes {spec version : String} (form : SlashForm spec p version) :
    spec.toList.count '/' = 2 := by
  rw [form.toList, List.count_append, List.count_cons_self, full_slashes,
    List.count_eq_zero_of_not_mem form.2.2.1]

/-- A specification without an `@` and with two slashes. -/
theorem slashed_iff {spec : String} {version : Option String} {before after : List Char}
    (at_ : '@' ∉ spec.toList) (cut : cutLastSlash spec.toList = some (before, after)) :
    ((parsePackageName (String.ofList before)).bind fun package =>
        if after = [] then none else some (package, some (String.ofList after))) =
          some (p, version) ↔
      ∃ text, version = some text ∧ SlashForm spec p text := by
  obtain ⟨whole, plain⟩ := cutLastSlash_iff.mp cut
  rw [parseVersioned_iff]
  constructor
  · rintro ⟨rfl, text, rfl, rfl, nonempty⟩
    refine ⟨text, rfl, ?_, nonempty, plain, ?_⟩
    · apply String.toList_inj.mp
      rw [whole]
      simp
    · intro on
      rw [whole] at at_
      exact at_ (List.mem_append_right _ (List.mem_cons_of_mem _ on))
  · rintro ⟨text, rfl, form⟩
    rw [cutLastSlash_iff.mpr ⟨form.toList, form.2.2.1⟩] at cut
    cases cut
    exact ⟨rfl, text, rfl, rfl, form.2.1⟩

/-- A specification that is a name only. -/
theorem parseNamed_iff {spec : String} {required : Bool} {version : Option String} :
    (if required = true then none
      else (parsePackageName spec).map fun package => (package, (none : Option String))) =
        some (p, version) ↔ required = false ∧ version = none ∧ spec = p.full := by
  cases required with
  | true => simp
  | false =>
    rw [if_neg Bool.false_ne_true, Option.map_eq_some_iff]
    simp only [Prod.mk.injEq, parsePackageName_iff, true_and]
    constructor
    · rintro ⟨q, rfl, rfl, rfl⟩
      exact ⟨rfl, rfl⟩
    · rintro ⟨rfl, rfl⟩
      exact ⟨p, rfl, rfl, rfl⟩

/-- The specification has a version behind an `@`, or else behind a second slash. -/
theorem parsePkgWithVersion_iff {spec : String} {required : Bool} {version : Option String} :
    parsePkgWithVersion spec required = some (p, version) ↔
      (version = none → required = false) ∧ SpecForm spec p version := by
  unfold parsePkgWithVersion
  cases cut : cutAt '@' spec.toList with
  | some parts =>
    obtain ⟨before, after⟩ := parts
    have whole := cutAt_some cut
    have on : '@' ∈ spec.toList := whole ▸ List.mem_append_right _ List.mem_cons_self
    refine parseVersioned_iff.trans ?_
    cases version with
    | none =>
      refine iff_of_false (fun ⟨_, _, wrong, _⟩ => nomatch wrong) ?_
      rintro ⟨-, rfl : spec = p.full⟩
      exact full_at p on
    | some version =>
      rw [and_iff_right fun wrong => nomatch wrong]
      unfold SpecForm
      dsimp only
      rw [or_iff_left fun form : SlashForm spec p version => form.at on]
      constructor
      · rintro ⟨rfl, text, same, rfl, nonempty⟩
        cases same
        refine ⟨String.toList_inj.mp ?_, nonempty⟩
        rw [whole]
        simp
      · intro form
        rw [form.toList, cutAt_append (full_at p)] at cut
        cases cut
        exact ⟨rfl, version, rfl, rfl, form.2⟩
  | none =>
    have off := cutAt_eq_none.mp cut
    have noAt : ∀ text, ¬ AtForm spec p text := by
      intro text form
      exact off (form.toList ▸ List.mem_append_right _ List.mem_cons_self)
    dsimp only
    by_cases two : spec.toList.count '/' = 2
    · cases last : cutLastSlash spec.toList with
      | none =>
        have slash : '/' ∈ spec.toList := List.count_pos_iff.mp (by omega)
        unfold cutLastSlash at last
        rw [Option.map_eq_none_iff, cutAt_eq_none, List.mem_reverse] at last
        exact absurd slash last
      | some parts =>
        obtain ⟨before, after⟩ := parts
        dsimp only
        rw [if_pos two]
        refine (slashed_iff off last).trans ?_
        cases version with
        | none =>
          refine iff_of_false (fun ⟨_, wrong, _⟩ => nomatch wrong) ?_
          rintro ⟨-, rfl : spec = p.full⟩
          rw [full_slashes] at two
          cases two
        | some version => simp [SpecForm, noAt]
    · have noSlash : ∀ text, ¬ SlashForm spec p text := fun text form => two form.slashes
      have plain : (required = false ∧ version = none ∧ spec = p.full) ↔
          (version = none → required = false) ∧ SpecForm spec p version := by
        cases version with
        | none => simp [SpecForm]
        | some version => simp [SpecForm, noAt, noSlash]
      cases cutLastSlash spec.toList with
      | none => exact parseNamed_iff.trans plain
      | some parts =>
        dsimp only
        rw [if_neg two]
        exact parseNamed_iff.trans plain

/-! ## The entries -/

/-- The header and the kit have been read, and no tool waits for its `url:`. -/
structure Complete (d : Draft) : Prop where
  format : d.seenFormat = true
  compiler : d.compiler.isSome = true
  kitName : d.kitName.isSome = true
  kitVersion : d.kitVersion.isSome = true
  urls : ∀ tool ∈ d.tools, tool.url.isSome = true

/-- A block has been left without its property. -/
def Lost (d : Draft) : Prop :=
  (d.kitName.isSome = true ∧ d.kitVersion = none ∧ d.active ≠ .kit) ∨
    ∃ (idx : Nat) (tool : KitTool), d.tools[idx]? = some tool ∧ tool.url = none ∧
      d.active ≠ .tool idx

theorem Lost.waits (lost : Lost d) :
    (d.kitName.isSome = true ∧ d.kitVersion = none) ∨ ∃ tool ∈ d.tools, tool.url = none := by
  rcases lost with ⟨named, version, -⟩ | ⟨idx, tool, there, url, -⟩
  · exact Or.inl ⟨named, version⟩
  · exact Or.inr ⟨tool, List.mem_of_getElem? there, url⟩

/-- A property that is missing at the end. -/
theorem Draft.finish_waits
    (waits : (d.kitName.isSome = true ∧ d.kitVersion = none) ∨ ∃ tool ∈ d.tools, tool.url = none) :
    d.finish = none := by
  unfold Draft.finish
  rcases waits with ⟨-, version⟩ | ⟨tool, member, url⟩
  · rw [version]
    simp
  · have missing : (d.tools.any fun t => t.url.isNone) = true :=
      List.any_eq_true.mpr ⟨tool, member, by rw [url]; rfl⟩
    rw [missing, Bool.or_true]
    simp

/-- A package as it is listed in the manifest. -/
def kitPackage (p : PackageName) (version : Option String) : KitPackage :=
  ⟨⟨p.author, PackageName.author_component p⟩, ⟨p.project, PackageName.project_component p⟩,
    version⟩

def kitLocalDev (p : PackageName) (version : String) : KitLocalDev :=
  ⟨⟨p.author, PackageName.author_component p⟩, ⟨p.project, PackageName.project_component p⟩,
    version⟩

theorem startsWith_other {key other : String} {c c' : Char} (starts : startsWith text key = true)
    (head : key.toList.head? = some c) (head' : other.toList.head? = some c') (differ : c ≠ c') :
    startsWith text other = false := by
  by_contra both
  rw [Bool.not_eq_false] at both
  obtain ⟨rest, rfl⟩ := startsWith_iff.mp starts
  obtain ⟨rest', same⟩ := startsWith_iff.mp both
  have first := congrArg List.head? same
  rw [List.head?_append, List.head?_append, head, head'] at first
  exact differ (Option.some.inj first)

theorem parseTool_iff {content : List Char} :
    parseTool d content = some d' ↔ ∃ name, ∃ valid : validToolName name = true,
      extractTopValue content "tool:" = some name ∧ manifestHasToolNamed d.tools name = false ∧
        d' = { d with
          tools := d.tools ++ [⟨⟨name, valid⟩, none, none⟩]
          active := .tool d.tools.length } := by
  unfold parseTool
  rw [Option.bind_eq_bind, Option.bind_eq_some_iff]
  constructor
  · rintro ⟨name, value, read⟩
    split at read
    · rename_i valid
      split at read
      · cases read
      · rename_i new
        cases read
        exact ⟨name, valid, value, Bool.eq_false_of_not_eq_true new, rfl⟩
    · cases read
  · rintro ⟨name, valid, value, new, rfl⟩
    refine ⟨name, value, ?_⟩
    rw [dif_pos valid, new, if_neg Bool.false_ne_true]

theorem parsePackage_iff {content : List Char} :
    parsePackage d content = some d' ↔ ∃ spec p version,
      extractTopValue content "package:" = some spec ∧ SpecForm spec p version ∧
        d' = { d with
          packages := d.packages ++ [kitPackage p version]
          active := .singleLine } := by
  unfold parsePackage
  rw [Option.bind_eq_bind, Option.bind_eq_some_iff]
  constructor
  · rintro ⟨spec, value, read⟩
    obtain ⟨⟨p, version⟩, form, read⟩ := Option.bind_eq_some_iff.mp read
    cases read
    exact ⟨spec, p, version, value, (parsePkgWithVersion_iff.mp form).2, rfl⟩
  · rintro ⟨spec, p, version, value, form, rfl⟩
    refine ⟨spec, value, ?_⟩
    rw [parsePkgWithVersion_iff.mpr ⟨fun _ => rfl, form⟩]
    rfl

theorem parseLocalDev_iff {content : List Char} :
    parseLocalDev d content = some d' ↔ ∃ spec p version,
      extractTopValue content "local-dev:" = some spec ∧ SpecForm spec p (some version) ∧
        d' = { d with
          localDevs := d.localDevs ++ [kitLocalDev p version]
          active := .singleLine } := by
  unfold parseLocalDev
  rw [Option.bind_eq_bind, Option.bind_eq_some_iff]
  constructor
  · rintro ⟨spec, value, read⟩
    obtain ⟨⟨p, version⟩, form, read⟩ := Option.bind_eq_some_iff.mp read
    obtain ⟨version, rfl, read⟩ := Option.bind_eq_some_iff.mp read
    cases read
    exact ⟨spec, p, version, value, (parsePkgWithVersion_iff.mp form).2, rfl⟩
  · rintro ⟨spec, p, version, value, form, rfl⟩
    have read : parsePkgWithVersion spec true = some (p, some version) :=
      parsePkgWithVersion_iff.mpr ⟨(fun wrong => nomatch wrong), form⟩
    refine ⟨spec, value, ?_⟩
    rw [read]
    rfl

/-- A line without indentation after the kit. -/
theorem parseTopLevel_complete {content : List Char} (complete : Complete d) :
    parseTopLevel d content = some d' ↔
      startsWith content "tool:" = true ∧ parseTool d content = some d' ∨
      startsWith content "package:" = true ∧ parsePackage d content = some d' ∨
      startsWith content "local-dev:" = true ∧ parseLocalDev d content = some d' := by
  have compiler : ¬ d.compiler.isNone = true := by
    simp [Option.isSome_iff_ne_none.mp complete.compiler]
  have kit : ¬ d.kitName.isNone = true := by
    simp [Option.isSome_iff_ne_none.mp complete.kitName]
  unfold parseTopLevel
  rw [if_neg (by simp [complete.format]), if_neg compiler, if_pos complete.kitName, if_neg kit]
  by_cases tool : startsWith content "tool:" = true
  · have kit : startsWith content "kit:" = false := startsWith_other tool rfl rfl (by decide)
    have package : startsWith content "package:" = false :=
      startsWith_other tool rfl rfl (by decide)
    have localDev : startsWith content "local-dev:" = false :=
      startsWith_other tool rfl rfl (by decide)
    simp [tool, kit, package, localDev]
  · rw [Bool.not_eq_true] at tool
    by_cases package : startsWith content "package:" = true
    · have kit : startsWith content "kit:" = false :=
        startsWith_other package rfl rfl (by decide)
      have localDev : startsWith content "local-dev:" = false :=
        startsWith_other package rfl rfl (by decide)
      simp [tool, kit, package, localDev]
    · rw [Bool.not_eq_true] at package
      by_cases localDev : startsWith content "local-dev:" = true
      · have kit : startsWith content "kit:" = false :=
          startsWith_other localDev rfl rfl (by decide)
        simp [tool, kit, package, localDev]
      · rw [Bool.not_eq_true] at localDev
        simp [tool, package, localDev]

/-- Where nothing is left open, no property is read. -/
theorem parseProperty_complete (complete : Complete d) (content : List Char) :
    parseProperty d content = none := by
  unfold parseProperty
  cases d.active with
  | none => rfl
  | singleLine => rfl
  | kit =>
    dsimp only
    split
    · split
      · rfl
      · rw [if_pos complete.kitVersion]
    · rfl
  | tool idx =>
    dsimp only
    split
    · unfold parseUrl
      cases extractTopValue content "url:" with
      | none => rfl
      | some url =>
        cases there : d.tools[idx]? with
        | none => rfl
        | some tool =>
          have has := complete.urls tool (List.mem_of_getElem? there)
          dsimp only [Option.bind_eq_bind, Option.bind_some]
          rw [has, Bool.or_true, if_pos rfl]
    · rfl

/-- What a line after the kit can be. -/
theorem parseLine_entry (plain : PlainLine line) (complete : Complete d) :
    parseLine d line = some d' ↔ BlankLine line ∧ d' = { d with active := .none } ∨
      (∃ name, ∃ valid : validToolName name = true, KeyLine "tool:" line name ∧
        manifestHasToolNamed d.tools name = false ∧
        d' = { d with
          tools := d.tools ++ [⟨⟨name, valid⟩, none, none⟩]
          active := .tool d.tools.length }) ∨
      (∃ spec p version, KeyLine "package:" line spec ∧ SpecForm spec p version ∧
        d' = { d with packages := d.packages ++ [kitPackage p version], active := .singleLine }) ∨
      ∃ spec p version, KeyLine "local-dev:" line spec ∧ SpecForm spec p (some version) ∧
        d' = { d with
          localDevs := d.localDevs ++ [kitLocalDev p version]
          active := .singleLine } := by
  have idle : Complete { d with active := .none } :=
    ⟨complete.format, complete.compiler, complete.kitName, complete.kitVersion, complete.urls⟩
  constructor
  · intro read
    by_cases blank : BlankLine line
    · rw [parseLine_blank plain blank] at read
      cases read
      exact Or.inl ⟨blank, rfl⟩
    · rcases (parseLine_iff plain blank).mp read with ⟨-, read⟩ | ⟨rest, -, -, read⟩
      · rcases (parseTopLevel_complete idle).mp read with
          ⟨starts, read⟩ | ⟨starts, read⟩ | ⟨starts, read⟩
        · obtain ⟨name, valid, value, new, rfl⟩ := parseTool_iff.mp read
          have keyed := (keyLine_iff plain.newline).mpr ⟨starts, value⟩
          exact Or.inr (Or.inl ⟨name, valid, keyed, new, rfl⟩)
        · obtain ⟨spec, p, version, value, form, rfl⟩ := parsePackage_iff.mp read
          have keyed := (keyLine_iff plain.newline).mpr ⟨starts, value⟩
          exact Or.inr (Or.inr (Or.inl ⟨spec, p, version, keyed, form, rfl⟩))
        · obtain ⟨spec, p, version, value, form, rfl⟩ := parseLocalDev_iff.mp read
          have keyed := (keyLine_iff plain.newline).mpr ⟨starts, value⟩
          exact Or.inr (Or.inr (Or.inr ⟨spec, p, version, keyed, form, rfl⟩))
      · rw [parseProperty_complete complete] at read
        cases read
  · rintro (⟨blank, rfl⟩ | ⟨name, valid, keyed, new, rfl⟩ | ⟨spec, p, version, keyed, form, rfl⟩ |
      ⟨spec, p, version, keyed, form, rfl⟩)
    · exact parseLine_blank plain blank
    · obtain ⟨content, first⟩ := keyed.content plain ⟨'t', rfl, rfl⟩
      obtain ⟨starts, value⟩ := (keyLine_iff plain.newline).mp keyed
      refine (parseLine_iff plain content).mpr (Or.inl ⟨first, ?_⟩)
      refine (parseTopLevel_complete idle).mpr (Or.inl ⟨starts, ?_⟩)
      exact parseTool_iff.mpr ⟨name, valid, value, new, rfl⟩
    · obtain ⟨content, first⟩ := keyed.content plain ⟨'p', rfl, rfl⟩
      obtain ⟨starts, value⟩ := (keyLine_iff plain.newline).mp keyed
      refine (parseLine_iff plain content).mpr (Or.inl ⟨first, ?_⟩)
      refine (parseTopLevel_complete idle).mpr (Or.inr (Or.inl ⟨starts, ?_⟩))
      exact parsePackage_iff.mpr ⟨spec, p, version, value, form, rfl⟩
    · obtain ⟨content, first⟩ := keyed.content plain ⟨'l', rfl, rfl⟩
      obtain ⟨starts, value⟩ := (keyLine_iff plain.newline).mp keyed
      refine (parseLine_iff plain content).mpr (Or.inl ⟨first, ?_⟩)
      refine (parseTopLevel_complete idle).mpr (Or.inr (Or.inr ⟨starts, ?_⟩))
      exact parseLocalDev_iff.mpr ⟨spec, p, version, value, form, rfl⟩

/-! ## Blocks -/

/-- A property line, stripped. -/
theorem propertyLine_iff {key value : String} (plain : PlainLine line)
    (visible : ∃ c, key.toList.head? = some c ∧ isBlank c = false) :
    PropertyLine key line value ↔ ¬ BlankLine line ∧
      ∃ rest, rstripInPlace line = "    ".toList ++ rest ∧ rest.head? ≠ some ' ' ∧
        startsWith rest key = true ∧ extractTopValue rest key = some value := by
  obtain ⟨c, head, shown⟩ := visible
  have nonempty : ∀ {rest : List Char}, startsWith rest key = true → rest ≠ [] := by
    rintro rest starts rfl
    obtain ⟨rest, same⟩ := startsWith_iff.mp starts
    rw [(List.append_eq_nil_iff.mp same.symm).1] at head
    cases head
  constructor
  · rintro ⟨rest, rfl, keyed⟩
    have plain' : PlainLine rest :=
      ⟨fun on => plain.newline (List.mem_append_right _ on),
        fun on => plain.nul (List.mem_append_right _ on)⟩
    obtain ⟨starts, value⟩ := (keyLine_iff plain'.newline).mp keyed
    obtain ⟨content, first⟩ := keyed.content plain' ⟨c, head, shown⟩
    obtain ⟨tail, whole, ends, last⟩ := rstripInPlace_spec plain'.newline
    have stripped :
        rstripInPlace ("    ".toList ++ rest) = "    ".toList ++ rstripInPlace rest := by
      refine (rstripInPlace_eq_iff plain.newline).mpr ⟨?_, tail, ?_, ends⟩
      · rw [List.getLast?_append_of_ne_nil _ (nonempty starts)]
        exact last
      · rw [List.append_assoc, ← whole]
    refine ⟨fun blank => content fun d on => blank d (List.mem_append_right _ on),
      rstripInPlace rest, stripped, ?_, starts, value⟩
    exact fun space => (first ' ' space).1 rfl
  · rintro ⟨-, rest, stripped, -, starts, value⟩
    obtain ⟨tail, whole, ends, last⟩ := rstripInPlace_spec plain.newline
    rw [stripped] at whole last
    rw [List.getLast?_append_of_ne_nil _ (nonempty starts)] at last
    have newline : '\n' ∉ rest ++ tail := fun on =>
      plain.newline (whole ▸ List.append_assoc .. ▸ List.mem_append_right _ on)
    have same : rstripInPlace (rest ++ tail) = rest :=
      (rstripInPlace_eq_iff newline).mpr ⟨last, tail, rfl, ends⟩
    refine ⟨rest ++ tail, whole.trans (List.append_assoc ..), (keyLine_iff newline).mpr ?_⟩
    rw [same]
    exact ⟨starts, value⟩

/-- A line without indentation opens a new block or none, and changes no property. -/
structure Opens (d d' : Draft) : Prop where
  kitVersion : d'.kitVersion = d.kitVersion
  kit : d.kitName.isSome = true → d'.kitName.isSome = true ∧ d'.active ≠ .kit
  tools : ∃ more, d'.tools = d.tools ++ more
  active : ∀ idx, d'.active = .tool idx → d.tools.length ≤ idx

theorem Opens.same (d : Draft) {active : SectionKind} (kit : active ≠ .kit)
    (tool : ∀ idx, active ≠ .tool idx) : Opens d { d with active := active } where
  kitVersion := rfl
  kit named := ⟨named, kit⟩
  tools := ⟨[], (List.append_nil _).symm⟩
  active idx same := absurd same (tool idx)

theorem parseTopLevel_opens {content : List Char} (idle : d.active = .none)
    (read : parseTopLevel d content = some d') : Opens d d' := by
  have kit : ∀ {active : SectionKind}, active = .none → active ≠ .kit := by
    rintro _ rfl
    decide
  have tool : ∀ {active : SectionKind} (idx : Nat), active = .none → active ≠ .tool idx := by
    rintro _ idx rfl same
    cases same
  unfold parseTopLevel at read
  split at read
  · split at read
    · cases read
      exact ⟨rfl, fun named => ⟨named, kit idle⟩, ⟨[], (List.append_nil _).symm⟩,
        fun idx same => absurd same (tool idx idle)⟩
    · cases read
  split at read
  · obtain ⟨⟨name, rest⟩, -, read⟩ := Option.bind_eq_some_iff.mp read
    dsimp only at read
    split at read
    · cases read
    · cases read
      exact ⟨rfl, fun named => ⟨named, kit idle⟩, ⟨[], (List.append_nil _).symm⟩,
        fun idx same => absurd same (tool idx idle)⟩
  split at read
  · split at read
    · cases read
    · rename_i new
      obtain ⟨name, -, rfl⟩ := Option.map_eq_some_iff.mp read
      exact ⟨rfl, fun named => absurd named new, ⟨[], (List.append_nil _).symm⟩,
        fun idx same => nomatch same⟩
  split at read
  · cases read
  split at read
  · obtain ⟨name, valid, -, -, rfl⟩ := parseTool_iff.mp read
    refine ⟨rfl, fun named => ⟨named, fun same => nomatch same⟩, ⟨_, rfl⟩, ?_⟩
    rintro idx same
    cases same
    exact le_rfl
  split at read
  · obtain ⟨spec, p, version, -, -, rfl⟩ := parsePackage_iff.mp read
    exact ⟨rfl, fun named => ⟨named, fun same => nomatch same⟩, ⟨[], (List.append_nil _).symm⟩,
      fun idx same => nomatch same⟩
  split at read
  · obtain ⟨spec, p, version, -, -, rfl⟩ := parseLocalDev_iff.mp read
    exact ⟨rfl, fun named => ⟨named, fun same => nomatch same⟩, ⟨[], (List.append_nil _).symm⟩,
      fun idx same => nomatch same⟩
  · cases read

/-- What waits for a property when a new block is opened is lost. -/
theorem Opens.lost (opens : Opens d d')
    (waits : (d.kitName.isSome = true ∧ d.kitVersion = none) ∨ ∃ tool ∈ d.tools, tool.url = none) :
    Lost d' := by
  rcases waits with ⟨named, version⟩ | ⟨tool, member, url⟩
  · obtain ⟨named, active⟩ := opens.kit named
    exact Or.inl ⟨named, opens.kitVersion.trans version, active⟩
  · obtain ⟨idx, there⟩ := List.mem_iff_getElem?.mp member
    obtain ⟨below, -⟩ := List.getElem?_eq_some_iff.mp there
    obtain ⟨more, tools⟩ := opens.tools
    refine Or.inr ⟨idx, tool, ?_, url, fun same => ?_⟩
    · rw [tools, List.getElem?_append_left below, there]
    · exact absurd (opens.active idx same) (Nat.not_le.mpr below)

/-- A property is that of the open block: what has been left stays as it is. -/
theorem Lost.parseProperty {content : List Char} (lost : Lost d)
    (read : parseProperty d content = some d') : Lost d' := by
  unfold Kit.parseProperty at read
  split at read
  · rename_i active
    split at read
    · split at read
      · cases read
      · split at read
        · cases read
        · cases read
          rcases lost with ⟨-, -, other⟩ | tool
          · exact absurd active other
          · exact Or.inr tool
    · cases read
  · rename_i open_ active
    split at read
    · unfold parseUrl at read
      obtain ⟨url, -, read⟩ := Option.bind_eq_some_iff.mp read
      obtain ⟨tool, there, read⟩ := Option.bind_eq_some_iff.mp read
      split at read
      · cases read
      · cases read
        rcases lost with kit | ⟨idx, left, at_, missing, other⟩
        · exact Or.inl kit
        · refine Or.inr ⟨idx, left, ?_, missing, other⟩
          rw [List.getElem?_set_ne, at_]
          rintro rfl
          exact other active
    · cases read
  · cases read

theorem Lost.parseLine (plain : PlainLine line) (lost : Lost d)
    (read : parseLine d line = some d') : Lost d' := by
  by_cases blank : BlankLine line
  · rw [parseLine_blank plain blank] at read
    cases read
    have opens : Opens d { d with active := .none } :=
      Opens.same d (by decide) (fun _ same => nomatch same)
    exact opens.lost lost.waits
  · rcases (parseLine_iff plain blank).mp read with ⟨-, read⟩ | ⟨rest, -, -, read⟩
    · exact (parseTopLevel_opens rfl read).lost lost.waits
    · exact lost.parseProperty read

/-- An open block waits for the next line: it reads its property, or the block is left. -/
theorem parseLine_open (plain : PlainLine line)
    (waits : (d.kitName.isSome = true ∧ d.kitVersion = none) ∨ ∃ tool ∈ d.tools, tool.url = none)
    (read : parseLine d line = some d') :
    (¬ BlankLine line ∧ ∃ rest, rstripInPlace line = "    ".toList ++ rest ∧
      rest.head? ≠ some ' ' ∧ parseProperty d rest = some d') ∨ Lost d' := by
  by_cases blank : BlankLine line
  · right
    rw [parseLine_blank plain blank] at read
    cases read
    have opens : Opens d { d with active := .none } :=
      Opens.same d (by decide) (fun _ same => nomatch same)
    exact opens.lost waits
  · rcases (parseLine_iff plain blank).mp read with ⟨-, read⟩ | property
    · exact Or.inr ((parseTopLevel_opens rfl read).lost waits)
    · exact Or.inl ⟨blank, property⟩

theorem parseLine_version (plain : PlainLine line) (active : d.active = .kit)
    (named : d.kitName.isSome = true) (new : d.kitVersion = none)
    (read : parseLine d line = some d') :
    (∃ version, PropertyLine "version:" line version ∧
      d' = { d with kitVersion := some version }) ∨ Lost d' := by
  rcases parseLine_open plain (Or.inl ⟨named, new⟩) read with
    ⟨content, rest, stripped, stops, read⟩ | lost
  · left
    unfold parseProperty at read
    rw [active] at read
    dsimp only at read
    split at read
    · rename_i starts
      split at read
      · cases read
      · rename_i version value
        rw [new, Option.isSome_none, if_neg Bool.false_ne_true] at read
        cases read
        exact ⟨version, (propertyLine_iff plain ⟨'v', rfl, rfl⟩).mpr
          ⟨content, rest, stripped, stops, starts, value⟩, by rw [active]⟩
    · cases read
  · exact Or.inr lost

theorem parseLine_of_version {version : String} (plain : PlainLine line) (active : d.active = .kit)
    (new : d.kitVersion = none) (property : PropertyLine "version:" line version) :
    parseLine d line = some { d with kitVersion := some version } := by
  obtain ⟨content, rest, stripped, stops, starts, value⟩ :=
    (propertyLine_iff plain ⟨'v', rfl, rfl⟩).mp property
  refine (parseLine_iff plain content).mpr (Or.inr ⟨rest, stripped, stops, ?_⟩)
  unfold parseProperty
  split
  · rw [if_pos starts, value]
    dsimp only
    rw [if_neg (by simp [new])]
  · rename_i idx other
    rw [active] at other
    cases other
  · rename_i other _
    exact absurd active other

theorem parseLine_url {idx : Nat} {tool : KitTool} (plain : PlainLine line)
    (active : d.active = .tool idx) (there : d.tools[idx]? = some tool) (new : tool.url = none)
    (read : parseLine d line = some d') :
    (∃ url, PropertyLine "url:" line url ∧ urlIsHttp url = true ∧
      d' = { d with tools := d.tools.set idx { tool with url := some url } }) ∨ Lost d' := by
  rcases parseLine_open plain (Or.inr ⟨tool, List.mem_of_getElem? there, new⟩) read with
    ⟨content, rest, stripped, stops, read⟩ | lost
  · left
    unfold parseProperty at read
    rw [active] at read
    dsimp only at read
    split at read
    · rename_i starts
      obtain ⟨url, value, read⟩ := Option.bind_eq_some_iff.mp read
      rw [there] at read
      dsimp only [Option.bind_eq_bind, Option.bind_some] at read
      split at read
      · cases read
      · rename_i http
        rw [Bool.or_eq_true, not_or, Bool.not_eq_true', Bool.not_eq_false] at http
        cases read
        exact ⟨url, (propertyLine_iff plain ⟨'u', rfl, rfl⟩).mpr
          ⟨content, rest, stripped, stops, starts, value⟩, http.1, rfl⟩
    · cases read
  · exact Or.inr lost

theorem parseLine_of_url {idx : Nat} {tool : KitTool} {url : String} (plain : PlainLine line)
    (active : d.active = .tool idx) (there : d.tools[idx]? = some tool) (new : tool.url = none)
    (property : PropertyLine "url:" line url) (http : urlIsHttp url = true) :
    parseLine d line =
      some { d with tools := d.tools.set idx { tool with url := some url } } := by
  obtain ⟨content, rest, stripped, stops, starts, value⟩ :=
    (propertyLine_iff plain ⟨'u', rfl, rfl⟩).mp property
  refine (parseLine_iff plain content).mpr (Or.inr ⟨rest, stripped, stops, ?_⟩)
  unfold parseProperty
  split
  · rename_i other
    rw [active] at other
    cases other
  · rename_i idx' same
    rw [active] at same
    cases same
    rw [if_pos starts]
    unfold parseUrl
    rw [value, there]
    dsimp only [Option.bind_eq_bind, Option.bind_some]
    rw [if_neg (by simp [http, new])]
  · rename_i _ other
    exact absurd active (other idx)

/-! ## Entries and drafts -/

/-- The draft outside its blocks. -/
def Draft.close (d : Draft) : Draft := { d with active := .none }

/-- The draft with one more entry. -/
def Draft.add (d : Draft) : KitEntry → Draft
  | .tool name url =>
    if valid : validToolName name = true then
      { d.close with tools := d.tools ++ [⟨⟨name, valid⟩, some url, none⟩] }
    else d.close
  | .package p version => { d.close with packages := d.packages ++ [kitPackage p version] }
  | .localDev p version => { d.close with localDevs := d.localDevs ++ [kitLocalDev p version] }

theorem Draft.add_tool (d : Draft) {name : String} (url : String)
    (valid : validToolName name = true) :
    d.add (.tool name url) =
      { d.close with tools := d.tools ++ [⟨⟨name, valid⟩, some url, none⟩] } :=
  dif_pos valid

theorem Draft.close_add (d : Draft) (entry : KitEntry) : d.close.add entry = d.add entry := by
  cases entry with
  | tool name url => rfl
  | package p version => rfl
  | localDev p version => rfl

/-- It does not matter to the result which block is open. -/
theorem Draft.finish_foldl_close (d : Draft) (entries : List KitEntry) :
    (entries.foldl Draft.add d.close).finish = (entries.foldl Draft.add d).finish := by
  cases entries with
  | nil => rfl
  | cons entry entries => rw [List.foldl_cons, List.foldl_cons, Draft.close_add]

/-- The names of the tools are new and distinct. -/
def Fresh (d : Draft) (entries : List KitEntry) : Prop :=
  (entries.filterMap KitEntry.toolName?).Nodup ∧
    ∀ name ∈ entries.filterMap KitEntry.toolName?, manifestHasToolNamed d.tools name = false

theorem fresh_tool {name url : String} {entries : List KitEntry}
    (valid : validToolName name = true) :
    Fresh d (.tool name url :: entries) ↔
      manifestHasToolNamed d.tools name = false ∧ Fresh (d.add (.tool name url)) entries := by
  have added : (d.add (.tool name url)).tools = d.tools ++ [⟨⟨name, valid⟩, some url, none⟩] := by
    rw [d.add_tool url valid]
  have has : ∀ other, manifestHasToolNamed (d.add (.tool name url)).tools other = false ↔
      manifestHasToolNamed d.tools other = false ∧ name ≠ other := by
    intro other
    rw [added]
    simp [manifestHasToolNamed]
  unfold Fresh
  simp only [has, List.filterMap_cons, KitEntry.toolName?, List.nodup_cons, List.forall_mem_cons]
  constructor
  · rintro ⟨⟨new, nodup⟩, first, others⟩
    exact ⟨first, nodup, fun other member => ⟨others other member, fun same => new (same ▸ member)⟩⟩
  · rintro ⟨first, nodup, others⟩
    exact ⟨⟨fun member => (others name member).2 rfl, nodup⟩, first,
      fun other member => (others other member).1⟩

theorem Complete.add (complete : Complete d) (entry : KitEntry) :
    Complete (d.add entry) := by
  obtain ⟨format, compiler, kitName, kitVersion, urls⟩ := complete
  cases entry with
  | tool name url =>
    by_cases valid : validToolName name = true
    · rw [d.add_tool url valid]
      refine ⟨format, compiler, kitName, kitVersion, fun tool member => ?_⟩
      rcases List.mem_append.mp member with old | new
      · exact urls tool old
      · rw [List.mem_singleton.mp new]
        rfl
    · have same : d.add (.tool name url) = d.close := dif_neg valid
      rw [same]
      exact ⟨format, compiler, kitName, kitVersion, urls⟩
  | package p version => exact ⟨format, compiler, kitName, kitVersion, urls⟩
  | localDev p version => exact ⟨format, compiler, kitName, kitVersion, urls⟩

theorem complete_close : Complete d.close ↔ Complete d :=
  ⟨fun ⟨format, compiler, kitName, kitVersion, urls⟩ =>
      ⟨format, compiler, kitName, kitVersion, urls⟩,
    fun ⟨format, compiler, kitName, kitVersion, urls⟩ =>
      ⟨format, compiler, kitName, kitVersion, urls⟩⟩

/-! ## Runs -/

/-- The rest of a text is read to its end, with this result. -/
def Reads (d : Draft) (lines : List (List Char)) (m : KitManifest) : Prop :=
  (lines.foldlM parseLine d).bind Draft.finish = some m

theorem reads_cons {rest : List (List Char)} :
    Reads d (line :: rest) m ↔ ∃ d', parseLine d line = some d' ∧ Reads d' rest m := by
  unfold Reads
  rw [List.foldlM_cons]
  cases parseLine d line with
  | none => simp
  | some d' => simp

/-- A block that has been left is never completed. -/
theorem Lost.not_reads (lost : Lost d) (plain : ∀ line ∈ lines, PlainLine line) :
    ¬ Reads d lines m := by
  induction lines generalizing d with
  | nil =>
    intro reads
    have finished : d.finish = some m := reads
    rw [Draft.finish_waits lost.waits] at finished
    cases finished
  | cons line rest ih =>
    obtain ⟨plain, others⟩ := List.forall_mem_cons.mp plain
    intro reads
    obtain ⟨d', read, reads⟩ := reads_cons.mp reads
    exact ih (lost.parseLine plain read) others reads

/-- A tool that has been opened, and the rest of its block. -/
theorem reads_tool {name : String} (valid : validToolName name = true) {rest : List (List Char)}
    (plain : ∀ line ∈ rest, PlainLine line) :
    Reads { d with
        tools := d.tools ++ [⟨⟨name, valid⟩, none, none⟩]
        active := .tool d.tools.length } rest m ↔
      ∃ property others url, rest = property :: others ∧ PropertyLine "url:" property url ∧
        urlIsHttp url = true ∧ Reads { d with
          tools := d.tools ++ [⟨⟨name, valid⟩, some url, none⟩]
          active := .tool d.tools.length } others m := by
  have there : (d.tools ++ [(⟨⟨name, valid⟩, none, none⟩ : KitTool)])[d.tools.length]? =
      some ⟨⟨name, valid⟩, none, none⟩ := by simp
  have filled : ∀ url, (d.tools ++ [(⟨⟨name, valid⟩, none, none⟩ : KitTool)]).set d.tools.length
      ⟨⟨name, valid⟩, some url, none⟩ = d.tools ++ [⟨⟨name, valid⟩, some url, none⟩] := by
    intro url
    rw [List.set_append_right _ _ le_rfl, Nat.sub_self]
    rfl
  cases rest with
  | nil =>
    refine iff_of_false ?_ (fun ⟨_, _, _, wrong, _⟩ => nomatch wrong)
    intro reads
    have finished : Draft.finish { d with
        tools := d.tools ++ [⟨⟨name, valid⟩, none, none⟩]
        active := .tool d.tools.length } = some m := reads
    have waits := List.mem_append_right d.tools
      (List.mem_singleton_self (⟨⟨name, valid⟩, none, none⟩ : KitTool))
    rw [Draft.finish_waits (Or.inr ⟨_, waits, rfl⟩)] at finished
    cases finished
  | cons property others =>
    obtain ⟨plain, later⟩ := List.forall_mem_cons.mp plain
    rw [reads_cons]
    constructor
    · rintro ⟨d', read, reads⟩
      rcases parseLine_url plain rfl there rfl read with ⟨url, keyed, http, rfl⟩ | lost
      · rw [filled] at reads
        exact ⟨property, others, url, rfl, keyed, http, reads⟩
      · exact absurd reads (lost.not_reads later)
    · rintro ⟨property', others', url, same, keyed, http, reads⟩
      cases same
      refine ⟨_, parseLine_of_url plain rfl there rfl keyed http, ?_⟩
      rw [filled]
      exact reads

/-- What is read after the kit are the lines of entries with distinct new tools. -/
theorem reads_entries (plain : ∀ line ∈ lines, PlainLine line) (complete : Complete d) :
    Reads d lines m ↔ ∃ entries, EntryLines acceptedForms lines entries ∧ Fresh d entries ∧
      (entries.foldl Draft.add d).finish = some m := by
  induction count : lines.length using Nat.strong_induction_on generalizing d lines with
  | _ n ih =>
    subst count
    cases lines with
    | nil =>
      constructor
      · exact fun reads => ⟨[], .nil, ⟨List.nodup_nil, fun _ on => nomatch on⟩, reads⟩
      · rintro ⟨entries, read, -, finished⟩
        cases read
        exact finished
    | cons line rest =>
      obtain ⟨plainLine, others⟩ := List.forall_mem_cons.mp plain
      -- the rest of the lines, with a draft that is this one outside its blocks
      have after {d' t : Draft} {lines : List (List Char)} (closes : d'.close = t)
          (fewer : lines.length < (line :: rest).length)
          (plain : ∀ line ∈ lines, PlainLine line) (complete : Complete t) :
          Reads d' lines m ↔ ∃ entries, EntryLines acceptedForms lines entries ∧
            Fresh t entries ∧ (entries.foldl Draft.add t).finish = some m := by
        rw [← closes] at complete ⊢
        rw [ih _ fewer plain (complete_close.mp complete) rfl]
        simp only [Draft.finish_foldl_close]
        rfl
      have below {property : List Char} {later : List (List Char)}
          (same : rest = property :: later) : later.length < (line :: rest).length := by
        rw [same, List.length_cons, List.length_cons]
        omega
      have fewer : rest.length < (line :: rest).length := Nat.lt_succ_self _
      rw [reads_cons]
      constructor
      · rintro ⟨d', read, reads⟩
        rcases (parseLine_entry plainLine complete).mp read with ⟨blank, rfl⟩ |
          ⟨name, valid, keyed, new, rfl⟩ | ⟨spec, p, version, keyed, form, rfl⟩ |
          ⟨spec, p, version, keyed, form, rfl⟩
        · obtain ⟨entries, lines, fresh, finished⟩ :=
            (after (t := d.close) (by rfl) fewer others (complete_close.mpr complete)).mp reads
          rw [Draft.finish_foldl_close] at finished
          exact ⟨entries, .blank blank lines, fresh, finished⟩
        · obtain ⟨property, later, url, same, keyed', http, reads⟩ :=
            (reads_tool valid others).mp reads
          have others' : ∀ line ∈ later, PlainLine line :=
            fun line on => others line (same ▸ List.mem_cons_of_mem property on)
          obtain ⟨entries, lines, fresh, finished⟩ :=
            (after (d.add_tool url valid).symm (below same) others' (complete.add _)).mp reads
          rw [same]
          exact ⟨_, .tool keyed valid keyed' http lines, (fresh_tool valid).mpr ⟨new, fresh⟩,
            finished⟩
        · obtain ⟨entries, lines, fresh, finished⟩ :=
            (after (by rfl) fewer others (complete.add (.package p version))).mp reads
          exact ⟨_, .package keyed form lines, fresh, finished⟩
        · obtain ⟨entries, lines, fresh, finished⟩ :=
            (after (by rfl) fewer others (complete.add (.localDev p version))).mp reads
          exact ⟨_, .localDev keyed form lines, fresh, finished⟩
      · rintro ⟨entries, lines, fresh, finished⟩
        cases lines with
        | blank blank lines =>
          refine ⟨_, parseLine_blank plainLine blank, ?_⟩
          refine (after (t := d.close) (by rfl) fewer others (complete_close.mpr complete)).mpr
            ⟨entries, lines, fresh, ?_⟩
          rw [Draft.finish_foldl_close]
          exact finished
        | @tool _ property later entries name url keyed valid keyed' http lines =>
          obtain ⟨new, fresh⟩ := (fresh_tool valid).mp fresh
          refine ⟨_, (parseLine_entry plainLine complete).mpr
            (Or.inr (Or.inl ⟨name, valid, keyed, new, rfl⟩)), ?_⟩
          refine (reads_tool valid others).mpr ⟨property, later, url, rfl, keyed', http, ?_⟩
          have others' : ∀ line ∈ later, PlainLine line :=
            fun line on => others line (List.mem_cons_of_mem property on)
          exact (after (d.add_tool url valid).symm (below rfl) others' (complete.add _)).mpr
            ⟨entries, lines, fresh, finished⟩
        | @package _ _ entries spec p version keyed form lines =>
          refine ⟨_, (parseLine_entry plainLine complete).mpr
            (Or.inr (Or.inr (Or.inl ⟨spec, p, version, keyed, form, rfl⟩))), ?_⟩
          exact (after (by rfl) fewer others (complete.add (.package p version))).mpr
            ⟨entries, lines, fresh, finished⟩
        | @localDev _ _ entries spec p version keyed form lines =>
          refine ⟨_, (parseLine_entry plainLine complete).mpr
            (Or.inr (Or.inr (Or.inr ⟨spec, p, version, keyed, form, rfl⟩))), ?_⟩
          exact (after (by rfl) fewer others (complete.add (.localDev p version))).mpr
            ⟨entries, lines, fresh, finished⟩

/-! ## The header of a text -/

/-- Blank lines are passed over up to the next line that is not blank. -/
theorem reads_idle {next : List Char → Draft → Prop}
    (step : ∀ line d', PlainLine line →
      (parseLine d line = some d' ↔ BlankLine line ∧ d' = d ∨ next line d'))
    (unfinished : d.finish = none) (plain : ∀ line ∈ lines, PlainLine line) :
    Reads d lines m ↔ ∃ blanks line rest d', lines = blanks ++ line :: rest ∧
      (∀ line ∈ blanks, BlankLine line) ∧ next line d' ∧ Reads d' rest m := by
  induction lines with
  | nil =>
    refine iff_of_false (fun reads => ?_) ?_
    · have finished : d.finish = some m := reads
      rw [unfinished] at finished
      cases finished
    · rintro ⟨blanks, line, rest, d', same, -⟩
      cases blanks <;> cases same
  | cons line rest ih =>
    obtain ⟨plainLine, others⟩ := List.forall_mem_cons.mp plain
    rw [reads_cons]
    constructor
    · rintro ⟨d', read, reads⟩
      rcases (step line d' plainLine).mp read with ⟨blank, rfl⟩ | here
      · obtain ⟨blanks, first, later, d', rfl, all, here, reads⟩ := (ih others).mp reads
        exact ⟨line :: blanks, first, later, d', rfl, List.forall_mem_cons.mpr ⟨blank, all⟩, here,
          reads⟩
      · exact ⟨[], line, rest, d', rfl, (fun _ on => nomatch on), here, reads⟩
    · rintro ⟨blanks, first, later, d', same, all, here, reads⟩
      cases blanks with
      | nil =>
        cases same
        exact ⟨d', (step _ _ plainLine).mpr (Or.inr here), reads⟩
      | cons blank blanks =>
        cases same
        obtain ⟨blank, all⟩ := List.forall_mem_cons.mp all
        refine ⟨d, (step _ _ plainLine).mpr (Or.inl ⟨blank, rfl⟩), ?_⟩
        exact (ih others).mpr ⟨blanks, first, later, d', rfl, all, here, reads⟩

/-- The kit, and the rest of its block. -/
theorem reads_version {rest : List (List Char)} (active : d.active = .kit)
    (named : d.kitName.isSome = true) (new : d.kitVersion = none)
    (plain : ∀ line ∈ rest, PlainLine line) :
    Reads d rest m ↔ ∃ property others version, rest = property :: others ∧
      PropertyLine "version:" property version ∧
      Reads { d with kitVersion := some version } others m := by
  cases rest with
  | nil =>
    refine iff_of_false (fun reads => ?_) (fun ⟨_, _, _, wrong, _⟩ => nomatch wrong)
    have finished : d.finish = some m := reads
    rw [Draft.finish_waits (Or.inl ⟨named, new⟩)] at finished
    cases finished
  | cons property others =>
    obtain ⟨plain, later⟩ := List.forall_mem_cons.mp plain
    rw [reads_cons]
    constructor
    · rintro ⟨d', read, reads⟩
      rcases parseLine_version plain active named new read with ⟨version, keyed, rfl⟩ | lost
      · exact ⟨property, others, version, rfl, keyed, reads⟩
      · exact absurd reads (lost.not_reads later)
    · rintro ⟨property', others', version, same, keyed, reads⟩
      cases same
      exact ⟨_, parseLine_of_version plain active new keyed, reads⟩

/-! ## Manifests and what they hold -/

theorem EntryLines.valid {entries : List KitEntry} (read : EntryLines acceptedForms lines entries) :
    ∀ name ∈ entries.filterMap KitEntry.toolName?, validToolName name = true := by
  induction read with
  | nil => exact fun _ on => nomatch on
  | blank _ _ ih => exact ih
  | tool _ valid _ _ _ ih => exact List.forall_mem_cons.mpr ⟨valid, ih⟩
  | package _ _ _ ih => exact ih
  | localDev _ _ _ ih => exact ih

theorem KitManifest.Holds.unique {m m' : KitManifest} {text : KitText} (holds : m.Holds text)
    (holds' : m'.Holds text) : m = m' := by
  have tools : m.tools = m'.tools := by
    refine List.map_injective_iff.mpr ?_ (holds.tools.trans holds'.tools.symm)
    rintro ⟨⟨name, valid⟩, url, path⟩ ⟨⟨name', valid'⟩, url', path'⟩ same
    cases same
    rfl
  have packages : m.packages = m'.packages := by
    refine List.map_injective_iff.mpr ?_ (holds.packages.trans holds'.packages.symm)
    rintro ⟨⟨author, _⟩, ⟨name, _⟩, version⟩ ⟨⟨author', _⟩, ⟨name', _⟩, version'⟩ same
    cases same
    rfl
  have localDevs : m.localDevs = m'.localDevs := by
    refine List.map_injective_iff.mpr ?_ (holds.localDevs.trans holds'.localDevs.symm)
    rintro ⟨⟨author, _⟩, ⟨name, _⟩, version⟩ ⟨⟨author', _⟩, ⟨name', _⟩, version'⟩ same
    cases same
    rfl
  have compilerName := holds.compilerName.trans holds'.compilerName.symm
  have compilerVersion := holds.compilerVersion.trans holds'.compilerVersion.symm
  have kitName := holds.kitName.trans holds'.kitName.symm
  have kitVersion := holds.kitVersion.trans holds'.kitVersion.symm
  cases m
  cases m'
  dsimp only at *
  rw [tools, packages, localDevs, compilerName, compilerVersion, kitName, kitVersion]

/-- The manifest that is made of a complete draft. -/
theorem Complete.finish (complete : Complete d) : ∃ m, d.finish = some m ∧
    d.compiler = some (m.compilerName, m.compilerVersion) ∧ d.kitName = some m.kitName ∧
    d.kitVersion = some m.kitVersion ∧ m.tools = d.tools ∧ m.packages = d.packages ∧
    m.localDevs = d.localDevs := by
  obtain ⟨⟨compilerName, compilerVersion⟩, compiler⟩ :=
    Option.isSome_iff_exists.mp complete.compiler
  obtain ⟨kitName, kit⟩ := Option.isSome_iff_exists.mp complete.kitName
  obtain ⟨kitVersion, version⟩ := Option.isSome_iff_exists.mp complete.kitVersion
  have urls : (d.tools.any fun t => t.url.isNone) = false := by
    rw [List.any_eq_false]
    intro tool member
    have url := complete.urls tool member
    rw [Option.isNone_iff_eq_none]
    exact Option.isSome_iff_ne_none.mp url
  refine ⟨⟨compilerName, compilerVersion, kitName, kitVersion, d.tools, d.packages, d.localDevs⟩,
    ?_, compiler, kit, version, rfl, rfl, rfl⟩
  unfold Draft.finish
  rw [compiler, kit, version, urls, complete.format]
  rfl

/-- The entries of a draft, each in its section. -/
structure Draft.Lists (d : Draft) (entries : List KitEntry) : Prop where
  tools : d.tools.map (fun t => (t.name.text, t.url, t.localBinPath)) = entries.filterMap fun
    | .tool name url => some (name, some url, none)
    | _ => none
  packages : d.packages.map (fun p => (p.author.text, p.name.text, p.version)) =
    entries.filterMap fun
      | .package p version => some (p.author, p.project, version)
      | _ => none
  localDevs : d.localDevs.map (fun p => (p.author.text, p.name.text, p.version)) =
    entries.filterMap fun
      | .localDev p version => some (p.author, p.project, version)
      | _ => none

theorem Draft.Lists.add {entries : List KitEntry} (lists : d.Lists entries) (entry : KitEntry)
    (valid : ∀ name, entry.toolName? = some name → validToolName name = true) :
    (d.add entry).Lists (entries ++ [entry]) := by
  obtain ⟨tools, packages, localDevs⟩ := lists
  cases entry with
  | tool name url =>
    rw [d.add_tool url (valid name rfl)]
    exact ⟨by simp [tools], by simpa [Draft.close] using packages,
      by simpa [Draft.close] using localDevs⟩
  | package p version =>
    exact ⟨by simpa [Draft.add, Draft.close] using tools,
      by simp [Draft.add, packages, kitPackage],
      by simpa [Draft.add, Draft.close] using localDevs⟩
  | localDev p version =>
    exact ⟨by simpa [Draft.add, Draft.close] using tools,
      by simpa [Draft.add, Draft.close] using packages,
      by simp [Draft.add, localDevs, kitLocalDev]⟩

theorem Draft.foldl_lists (entries : List KitEntry) {before : List KitEntry} (complete : Complete d)
    (lists : d.Lists before)
    (valid : ∀ name ∈ entries.filterMap KitEntry.toolName?, validToolName name = true) :
    Complete (entries.foldl Draft.add d) ∧ (entries.foldl Draft.add d).Lists (before ++ entries) ∧
      (entries.foldl Draft.add d).compiler = d.compiler ∧
      (entries.foldl Draft.add d).kitName = d.kitName ∧
      (entries.foldl Draft.add d).kitVersion = d.kitVersion := by
  induction entries generalizing d before with
  | nil =>
    rw [List.append_nil]
    exact ⟨complete, lists, rfl, rfl, rfl⟩
  | cons entry entries ih =>
    have first : ∀ name, entry.toolName? = some name → validToolName name = true := by
      intro name same
      apply valid
      rw [List.filterMap_cons_some same]
      exact List.mem_cons_self
    have others : ∀ name ∈ entries.filterMap KitEntry.toolName?, validToolName name = true := by
      intro name member
      apply valid
      rw [List.mem_filterMap] at member ⊢
      obtain ⟨other, on, same⟩ := member
      exact ⟨other, List.mem_cons_of_mem entry on, same⟩
    have header : (d.add entry).compiler = d.compiler ∧ (d.add entry).kitName = d.kitName ∧
        (d.add entry).kitVersion = d.kitVersion := by
      cases entry with
      | tool name url =>
        rw [d.add_tool url (first name rfl)]
        exact ⟨rfl, rfl, rfl⟩
      | package p version => exact ⟨rfl, rfl, rfl⟩
      | localDev p version => exact ⟨rfl, rfl, rfl⟩
    have rest := ih (complete.add entry) (lists.add entry first) others
    rw [List.append_assoc, List.singleton_append, header.1, header.2.1, header.2.2] at rest
    exact rest

/-- The draft after the header and the kit. -/
def headerDraft (compilerName compilerVersion kitName kitVersion : String) : Draft where
  seenFormat := true
  compiler := some (compilerName, compilerVersion)
  kitName := some kitName
  kitVersion := some kitVersion
  tools := []
  packages := []
  localDevs := []
  active := .kit

theorem headerDraft_complete (compilerName compilerVersion kitName kitVersion : String) :
    Complete (headerDraft compilerName compilerVersion kitName kitVersion) :=
  ⟨rfl, rfl, rfl, rfl, fun _ on => nomatch on⟩

/-- The manifest of the entries that are read after the header. -/
theorem finish_holds {text : KitText}
    (valid : ∀ name ∈ text.entries.filterMap KitEntry.toolName?, validToolName name = true) :
    (text.entries.foldl Draft.add (headerDraft text.compilerName text.compilerVersion text.kitName
      text.kitVersion)).finish = some m ↔ m.Holds text := by
  have listed : (headerDraft text.compilerName text.compilerVersion text.kitName
      text.kitVersion).Lists [] := ⟨rfl, rfl, rfl⟩
  obtain ⟨complete, lists, compiler, kitName, kitVersion⟩ :=
    Draft.foldl_lists text.entries (headerDraft_complete ..) listed valid
  obtain ⟨made, finished, compiler', kitName', kitVersion', tools, packages, localDevs⟩ :=
    complete.finish
  rw [compiler] at compiler'
  rw [kitName] at kitName'
  rw [kitVersion] at kitVersion'
  obtain ⟨name, version⟩ := Prod.mk.inj (Option.some.inj compiler')
  have holds : made.Holds text :=
    { compilerName := name.symm
      compilerVersion := version.symm
      kitName := (Option.some.inj kitName').symm
      kitVersion := (Option.some.inj kitVersion').symm
      tools := tools ▸ lists.tools
      packages := packages ▸ lists.packages
      localDevs := localDevs ▸ lists.localDevs }
  rw [finished, Option.some.injEq]
  constructor
  · rintro rfl
    exact holds
  · exact fun other => holds.unique other

/-- The header of a kitfile, and its entries as they follow. -/
theorem reads_header (plain : ∀ line ∈ lines, PlainLine line) :
    Reads Draft.init lines m ↔ ∃ blanks format blanks' compiler blanks'' kit version rest,
      ∃ compilerName compilerVersion kitName kitVersion,
      lines = blanks ++ format :: (blanks' ++ compiler :: (blanks'' ++ kit :: version :: rest)) ∧
        (∀ line ∈ blanks ++ blanks' ++ blanks'', BlankLine line) ∧ FormatLine format ∧
        CompilerLine compiler compilerName compilerVersion ∧ KeyLine "kit:" kit kitName ∧
        PropertyLine "version:" version kitVersion ∧
        Reads (headerDraft compilerName compilerVersion kitName kitVersion) rest m := by
  -- One step for each line of the header that is not blank.
  have first {lines : List (List Char)} (plain : ∀ line ∈ lines, PlainLine line) :=
    reads_idle (d := .init) (m := m)
      (fun _ _ plainLine => parseLine_format plainLine rfl rfl) rfl plain
  have second {lines : List (List Char)} (plain : ∀ line ∈ lines, PlainLine line) :=
    reads_idle (d := { Draft.init with seenFormat := true }) (m := m)
      (fun _ _ plainLine => parseLine_compiler plainLine rfl rfl rfl) rfl plain
  have third {lines : List (List Char)} (name version : String)
      (plain : ∀ line ∈ lines, PlainLine line) :=
    reads_idle (d := { Draft.init with seenFormat := true, compiler := some (name, version) })
      (m := m) (fun _ _ plainLine => parseLine_kit plainLine rfl rfl rfl rfl) rfl plain
  constructor
  · intro reads
    obtain ⟨blanks, format, later, d', rfl, blank, ⟨isFormat, rfl⟩, reads⟩ := (first plain).mp reads
    have plain₁ := (List.forall_mem_cons.mp (List.forall_mem_append.mp plain).2).2
    obtain ⟨blanks', compiler, later, d', rfl, blank', ⟨name, number, isCompiler, rfl⟩, reads⟩ :=
      (second plain₁).mp reads
    have plain₂ := (List.forall_mem_cons.mp (List.forall_mem_append.mp plain₁).2).2
    obtain ⟨blanks'', kit, later, d', rfl, blank'', ⟨kitName, isKit, rfl⟩, reads⟩ :=
      (third name number plain₂).mp reads
    have plain₃ := (List.forall_mem_cons.mp (List.forall_mem_append.mp plain₂).2).2
    obtain ⟨version, rest, kitVersion, rfl, isVersion, reads⟩ :=
      (reads_version rfl rfl rfl plain₃).mp reads
    exact ⟨blanks, format, blanks', compiler, blanks'', kit, version, rest, name, number, kitName,
      kitVersion, rfl, List.forall_mem_append.mpr ⟨List.forall_mem_append.mpr ⟨blank, blank'⟩,
        blank''⟩, isFormat, isCompiler, isKit, isVersion, reads⟩
  · rintro ⟨blanks, format, blanks', compiler, blanks'', kit, version, rest, name, number, kitName,
      kitVersion, rfl, blank, isFormat, isCompiler, isKit, isVersion, reads⟩
    obtain ⟨outer, blank''⟩ := List.forall_mem_append.mp blank
    obtain ⟨blank, blank'⟩ := List.forall_mem_append.mp outer
    have plain₁ := (List.forall_mem_cons.mp (List.forall_mem_append.mp plain).2).2
    have plain₂ := (List.forall_mem_cons.mp (List.forall_mem_append.mp plain₁).2).2
    have plain₃ := (List.forall_mem_cons.mp (List.forall_mem_append.mp plain₂).2).2
    refine (first plain).mpr ⟨blanks, format, _, _, rfl, blank, ⟨isFormat, rfl⟩, ?_⟩
    refine (second plain₁).mpr ⟨blanks', compiler, _, _, rfl, blank',
      ⟨name, number, isCompiler, rfl⟩, ?_⟩
    refine (third name number plain₂).mpr ⟨blanks'', kit, _, _, rfl, blank'',
      ⟨kitName, isKit, rfl⟩, ?_⟩
    exact (reads_version rfl rfl rfl plain₃).mpr ⟨version, rest, kitVersion, rfl, isVersion, reads⟩

/-- After the header only the names of the tools are asked about. -/
theorem fresh_headerDraft (compilerName compilerVersion kitName kitVersion : String)
    (entries : List KitEntry) :
    Fresh (headerDraft compilerName compilerVersion kitName kitVersion) entries ↔
      acceptedForms.entries entries :=
  ⟨fun fresh => fresh.1, fun distinct => ⟨distinct, fun _ _ => rfl⟩⟩

/-- The text is read line by line from its header. -/
theorem reads_init (plain : ∀ line ∈ lines, PlainLine line) :
    Reads Draft.init lines m ↔ ∃ blanks format blanks' compiler blanks'' kit version rest text,
      lines = blanks ++ format :: (blanks' ++ compiler :: (blanks'' ++ kit :: version :: rest)) ∧
        (∀ line ∈ blanks ++ blanks' ++ blanks'', BlankLine line) ∧ FormatLine format ∧
        CompilerLine compiler text.compilerName text.compilerVersion ∧
        KeyLine "kit:" kit text.kitName ∧ PropertyLine "version:" version text.kitVersion ∧
        EntryLines acceptedForms rest text.entries ∧ acceptedForms.entries text.entries ∧
        m.Holds text := by
  rw [reads_header plain]
  constructor
  · rintro ⟨blanks, format, blanks', compiler, blanks'', kit, version, rest, name, number, kitName,
      kitVersion, rfl, blank, isFormat, isCompiler, isKit, isVersion, reads⟩
    have plainRest : ∀ line ∈ rest, PlainLine line := by
      intro line member
      apply plain
      simp [member]
    obtain ⟨entries, read, fresh, finished⟩ :=
      (reads_entries plainRest (headerDraft_complete ..)).mp reads
    let text : KitText := ⟨name, number, kitName, kitVersion, entries⟩
    have holds : m.Holds text := (finish_holds read.valid).mp finished
    exact ⟨blanks, format, blanks', compiler, blanks'', kit, version, rest, text, rfl, blank,
      isFormat, isCompiler, isKit, isVersion, read, (fresh_headerDraft ..).mp fresh, holds⟩
  · rintro ⟨blanks, format, blanks', compiler, blanks'', kit, version, rest, text, rfl, blank,
      isFormat, isCompiler, isKit, isVersion, read, distinct, holds⟩
    have plainRest : ∀ line ∈ rest, PlainLine line := by
      intro line member
      apply plain
      simp [member]
    have finished := (finish_holds read.valid).mpr holds
    exact ⟨blanks, format, blanks', compiler, blanks'', kit, version, rest, text.compilerName,
      text.compilerVersion, text.kitName, text.kitVersion, rfl, blank, isFormat, isCompiler, isKit,
      isVersion, (reads_entries plainRest (headerDraft_complete ..)).mpr
        ⟨text.entries, read, (fresh_headerDraft ..).mpr distinct, finished⟩⟩

end

/-- A text without a NUL is accepted just where it is a kitfile, and the manifest has what it
says. -/
theorem kitfileParse_iff {body : String} (plain : Char.ofNat 0 ∉ body.toList) (m : KitManifest) :
    kitfileParse body = some m ↔ ∃ text, IsKitfile acceptedForms body text ∧ m.Holds text := by
  have lines : ∀ line ∈ body.toList.splitOn '\n', PlainLine line := by
    intro line member
    obtain ⟨newline, inside⟩ := mem_splitOn member
    exact ⟨newline, fun on => plain (inside _ on)⟩
  refine (reads_init lines).trans ?_
  unfold IsKitfile
  constructor
  · rintro ⟨blanks, format, blanks', compiler, blanks'', kit, version, rest, text, parts⟩
    obtain ⟨whole, all, first, second, named, versioned, read, distinct, holds⟩ := parts
    exact ⟨text, ⟨blanks, format, blanks', compiler, blanks'', kit, version, rest, whole, all,
      first, second, named, versioned, read, distinct⟩, holds⟩
  · rintro ⟨text, ⟨blanks, format, blanks', compiler, blanks'', kit, version, rest, parts⟩, holds⟩
    obtain ⟨whole, all, first, second, named, versioned, read, distinct⟩ := parts
    exact ⟨blanks, format, blanks', compiler, blanks'', kit, version, rest, text, whole, all,
      first, second, named, versioned, read, distinct, holds⟩

/-- A kitfile with every kind of entry. -/
def webKit : String :=
  "format 2\nelm 0.19.1\n\nkit: web\n    version: 1\npackage: elm/http@2.0.0\n" ++
    "package: elm/json\ntool: live\n    url: https://h/live\nlocal-dev: dev/kit@1.0.0"

/-- Its manifest. -/
def webManifest : KitManifest where
  compilerName := "elm"
  compilerVersion := "0.19.1"
  kitName := "web"
  kitVersion := "1"
  tools := [⟨⟨"live", by decide⟩, some "https://h/live", none⟩]
  packages := [⟨⟨"elm", by decide⟩, ⟨"http", by decide⟩, some "2.0.0"⟩,
    ⟨⟨"elm", by decide⟩, ⟨"json", by decide⟩, none⟩]
  localDevs := [⟨⟨"dev", by decide⟩, ⟨"kit", by decide⟩, "1.0.0"⟩]

theorem kitfileParse_iff_web :
    kitfileParse webKit = some webManifest ↔
      ∃ text, IsKitfile acceptedForms webKit text ∧ webManifest.Holds text :=
  kitfileParse_iff (by decide +kernel) webManifest

theorem IsValue.of_ends {text : List Char} {c c' : Char} (head : text.head? = some c)
    (getLast : text.getLast? = some c') (first : c ≠ ' ' ∧ c ≠ '\t')
    (last : isBlank c' = false) : IsValue text where
  nonempty := by
    rintro rfl
    cases head
  first := by
    rw [head]
    rintro d ⟨⟩
    exact first
  last := by
    rw [getLast]
    rintro d ⟨⟩
    exact last

/-- A tool with the name of an executable that is no safe file name. -/
def compilerKit : String :=
  "format 2\nelm 0.19.1\nkit: web\n    version: 1\ntool: g++\n    url: https://h/g"

theorem compilerKit_isKitfile : IsKitfile documentedForms compilerKit
    ⟨"elm", "0.19.1", "web", "1", [.tool "g++" "https://h/g"]⟩ := by
  have blank : BlankLine [] := fun _ on => nomatch on
  have gap : Gap [' '] := by
    intro c on
    exact Or.inl (List.mem_singleton.mp on)
  have compiler : IsValue "0.19.1".toList := .of_ends rfl rfl (by decide) rfl
  have web : IsValue "web".toList := .of_ends rfl rfl (by decide) rfl
  have one : IsValue "1".toList := .of_ends rfl rfl (by decide) rfl
  have name : IsValue "g++".toList := .of_ends rfl rfl (by decide) rfl
  have url : IsValue "https://h/g".toList := .of_ends rfl rfl (by decide) rfl
  have component : isComponent "g++".toList = true := by decide
  have tool : EntryLines documentedForms ["tool: g++".toList, "    url: https://h/g".toList]
      [.tool "g++" "https://h/g"] :=
    .tool ⟨[' '], [], rfl, gap, blank, name⟩ component
      ⟨"url: https://h/g".toList, rfl, [' '], [], rfl, gap, blank, url⟩ trivial .nil
  exact ⟨[], "format 2".toList, [], "elm 0.19.1".toList, [], "kit: web".toList,
    "    version: 1".toList, ["tool: g++".toList, "    url: https://h/g".toList], by decide,
    (fun _ on => nomatch on), ⟨[], rfl, blank⟩,
    ⟨[], [], rfl, (fun _ on => nomatch on), blank, by decide, by decide, by decide, compiler⟩,
    ⟨[' '], [], rfl, gap, blank, web⟩,
    ⟨"version: 1".toList, rfl, [' '], [], rfl, gap, blank, one⟩, tool, trivial⟩

/-- The documented grammar is not what is accepted. -/
theorem kitfileParse_refuses : ¬ ∀ body : String, (∃ m, kitfileParse body = some m) ↔
    ∃ text, IsKitfile documentedForms body text := by
  intro claim
  obtain ⟨m, parsed⟩ := (claim compilerKit).mpr ⟨_, compilerKit_isKitfile⟩
  have refused : (kitfileParse compilerKit).isNone = true := by decide
  rw [parsed] at refused
  cases refused

end ElmWrap.Kit
