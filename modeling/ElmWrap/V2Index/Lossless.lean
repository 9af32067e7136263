import ElmWrap.V2Index.Documented

/-!
# What `v2_registry_parse` loses

A text that is accepted should have all its lines in the registry. The parser
skips what it does not recognize, so this is so only for the texts that are
written as the format has them: with a format line first, every line at its
place, one documented status for each version, and two blanks between the name
and the range of a dependency.
-/

namespace ElmWrap

open Lib

/-! ## All lines in the registry -/

/-- The version sections of a package, by its package lines. -/
def versionSectionsNamed (data : List Char) (name : PackageName) : List (Line × List Line) :=
  ((packageSections data).filter fun package => package.1 = documentedPackage name).flatMap
    versionSections

/-- A version line and the status and dependency lines below it, in a version of the
registry. -/
structure VersionRepresented (block : Line × List Line) (pv : V2PackageVersion) : Prop where
  version : documentedVersion block.1 = some (pv.major.toNat, pv.minor.toNat, pv.patch.toNat)
  status : ∀ line ∈ block.2, isStatusText line = true → documentedStatus line = some pv.status
  dependencies : (block.2.filter isDependencyText).map documentedDependency =
    pv.dependencies.map some

/-- All lines of a text are represented in a registry. -/
structure Represents (data : List Char) (registry : V2Registry) : Prop where
  format : ∃ line, (indexLines data).head? = some line ∧ documentedFormat line = some 2
  placed : LinesPlaced data
  packages : ∀ package ∈ packageSections data, ∃ name : PackageName,
    package.1 = documentedPackage name ∧ (registry.stored name.key).isSome = true
  versions : ∀ name : PackageName, List.Forall₂ VersionRepresented (versionSectionsNamed data name)
    ((registry.stored name.key).getD [])

/-! ## Texts that are written as documented -/

/-- A version section that is read in full. -/
structure VersionWritten (block : Line × List Line) : Prop where
  version : ∃ major minor patch, documentedVersion block.1 = some (major, minor, patch) ∧
    major < 2 ^ 16 ∧ minor < 2 ^ 16 ∧ patch < 2 ^ 16
  status : ∃ status, ∀ line ∈ block.2, isStatusText line = true →
    documentedStatus line = some status
  dependencies : ∀ line ∈ block.2, isDependencyText line = true → twoBlanks line = true

/-- A text that is read in full. -/
structure IndexWritten (data : List Char) : Prop where
  format : ∃ line, (indexLines data).head? = some line ∧ documentedFormat line = some 2
  placed : LinesPlaced data
  versions : ∀ package ∈ packageSections data, ∀ block ∈ versionSections package,
    VersionWritten block

/-! ## One line below a version line -/

theorem starts_other {line : Line} {text other : String} {c d : Char} {rest more : List Char}
    (literal : text.toList = c :: rest) (different : other.toList = d :: more) (apart : c ≠ d)
    (starts : line.starts text = true) : line.starts other = false := by
  obtain ⟨tail, same⟩ := starts_iff.mp starts
  unfold Line.starts
  rw [same, literal, different, List.cons_append, List.isPrefixOf_cons_cons]
  have unequal : (d == c) = false := beq_eq_false_iff_ne.mpr (Ne.symm apart)
  rw [unequal]
  rfl

theorem readBelow_list (state : V2PackageVersion × Bool) (line : Line) :
    (readBelow state line).2 = inList state.2 line := by
  unfold readBelow inList
  split
  · rfl
  split
  · rfl
  split
  · split
    · rename_i status
      exact (@starts_other _ "status:" "dependencies:" _ _ _ _ rfl rfl (by decide)
        status).symm
    · split
      · rename_i license
        exact (@starts_other _ "license:" "dependencies:" _ _ _ _ rfl rfl (by decide)
          license).symm
      · rfl
  · split
    · rfl
    · rfl

theorem readBelow_status (state : V2PackageVersion × Bool) (line : Line) :
    (readBelow state line).1.status =
      if isVersionLevel line "status:" then (parseStatusLine line).getD state.1.status
      else state.1.status := by
  unfold readBelow isVersionLevel
  by_cases empty : line = []
  · subst empty
    rfl
  rw [if_neg empty]
  by_cases top : line.indent = 0
  · rw [if_pos top, top]
    rfl
  rw [if_neg top]
  by_cases four : line.indent = 4
  · rw [if_pos four, decide_eq_true four, Bool.true_and]
    cases line.content.starts "status:" with
    | true =>
      cases parseStatusLine line with
      | none => rfl
      | some status => rfl
    | false =>
      cases line.content.starts "license:" with
      | true => rfl
      | false => rfl
  · rw [if_neg four, decide_eq_false four, Bool.false_and]
    split
    · cases parseDependencyLine line with
      | none => rfl
      | some dependency => rfl
    · rfl

theorem readBelow_dependencies (state : V2PackageVersion × Bool) (line : Line) :
    (readBelow state line).1.dependencies =
      if line.indent = 8 && state.2 then
        state.1.dependencies ++ (parseDependencyLine line).toList
      else state.1.dependencies := by
  unfold readBelow
  by_cases empty : line = []
  · subst empty
    rfl
  rw [if_neg empty]
  by_cases top : line.indent = 0
  · rw [if_pos top, top]
    rfl
  rw [if_neg top]
  by_cases four : line.indent = 4
  · rw [if_pos four, four]
    cases line.content.starts "status:" with
    | true =>
      cases parseStatusLine line with
      | none => rfl
      | some status => rfl
    | false =>
      cases line.content.starts "license:" with
      | true => rfl
      | false => rfl
  · rw [if_neg four]
    split
    · cases parseDependencyLine line with
      | none => exact (List.append_nil _).symm
      | some dependency => rfl
    · rfl

/-! ## The status of a version -/

theorem skipWhitespace_content {line : Line} {text : String} {c : Char} {rest : List Char}
    (literal : text.toList = c :: rest) (plain : Scan.isSpace c = false)
    (starts : line.content.starts text = true) : skipWhitespace line = line.content := by
  have first : ∃ more, line.content = c :: more := by
    obtain ⟨tail, same⟩ := starts_iff.mp starts
    exact ⟨rest ++ tail, by rw [same, literal, List.cons_append]⟩
  obtain ⟨more, same⟩ := first
  clear starts
  induction line with
  | nil => cases same
  | cons d line ih =>
    by_cases blank : d = ' '
    · have next : Line.content (d :: line) = Line.content line :=
        List.dropWhile_cons_of_pos (decide_eq_true blank)
      have skipped : skipWhitespace (d :: line) = skipWhitespace line :=
        List.dropWhile_cons_of_pos (by rw [blank]; rfl)
      rw [next] at same
      rw [next, skipped]
      exact ih same
    · have stop : Line.content (d :: line) = d :: line :=
        List.dropWhile_cons_of_neg (by simpa using blank)
      rw [stop] at same ⊢
      cases same
      exact List.dropWhile_cons_of_neg (by simp [plain])

theorem isStatusText_of_level {line : Line} (level : isVersionLevel line "status:" = true) :
    isStatusText line = true := by
  unfold isVersionLevel at level
  rw [Bool.and_eq_true] at level
  unfold isStatusText
  rw [@skipWhitespace_content _ "status:" _ _ rfl (by decide) level.2]
  exact level.2

/-- Once the status is the documented one, it stays. -/
theorem foldl_status_kept {lines : List Line} {status : V2VersionStatus}
    (documented : ∀ line ∈ lines, isStatusText line = true → documentedStatus line = some status)
    {state : V2PackageVersion × Bool} (same : state.1.status = status) :
    (lines.foldl readBelow state).1.status = status := by
  induction lines generalizing state with
  | nil => exact same
  | cons line lines ih =>
    apply ih fun l on => documented l (List.mem_cons_of_mem line on)
    rw [readBelow_status]
    split
    · rename_i level
      have read := documented line List.mem_cons_self (isStatusText_of_level level)
      rw [parseStatusLine_documented read]
      rfl
    · exact same

/-- The status is the documented one where there is a status line. -/
theorem foldl_status {lines : List Line} {status : V2VersionStatus}
    (documented : ∀ line ∈ lines, isStatusText line = true → documentedStatus line = some status)
    {line : Line} (member : line ∈ lines) (level : isVersionLevel line "status:" = true)
    (state : V2PackageVersion × Bool) : (lines.foldl readBelow state).1.status = status := by
  induction lines generalizing state with
  | nil => cases member
  | cons first lines ih =>
    have later : ∀ l ∈ lines, isStatusText l = true → documentedStatus l = some status :=
      fun l on => documented l (List.mem_cons_of_mem first on)
    rcases List.mem_cons.mp member with here | on
    · apply foldl_status_kept later
      have read := documented line member (isStatusText_of_level level)
      rw [← here, readBelow_status, if_pos level, parseStatusLine_documented read]
      rfl
    · exact ih later on (readBelow state first)

/-! ## The dependencies of a version -/

/-- A line in a list that is no dependency line is not read as one. -/
theorem parseDependencyLine_other {line : Line} (other : isDependencyText line = false)
    (eight : line.indent = 8) (package : isPackageText line = true → isPackageLine line = true)
    (version : isVersionText line = true → isVersionLine line = true)
    (status : isStatusText line = true → isVersionLevel line "status:" = true) :
    parseDependencyLine line = none := by
  have level : ∀ text, isVersionLevel line text = false := by
    intro text
    unfold isVersionLevel
    rw [eight]
    rfl
  have noPackage : isPackageText line = false := by
    by_contra isPackage
    have top := (isPackageLine_indent (package (by simpa using isPackage))).2
    omega
  have noVersion : isVersionText line = false := by
    by_contra isVersion
    have four := version (by simpa using isVersion)
    unfold isVersionLine at four
    rw [eight] at four
    cases four
  have noStatus : isStatusText line = false := by
    by_contra isStatus
    have four := status (by simpa using isStatus)
    rw [level] at four
    cases four
  have indented : line.head?.any Scan.isSpace = true := by
    cases line with
    | nil => cases eight
    | cons c line =>
      by_cases blank : c = ' '
      · subst blank
        rfl
      · unfold Line.indent at eight
        rw [List.takeWhile_cons_of_neg (by simpa using blank)] at eight
        cases eight
  unfold isDependencyText at other
  rw [indented, noPackage, noVersion, noStatus, level, level] at other
  have blank : skipWhitespace line = [] := by simpa using other
  unfold parseDependencyLine
  rw [blank]
  rfl

/-- The dependencies are taken from the dependency lines, in their order. -/
theorem foldl_dependencies {lines : List Line}
    (package : ∀ line ∈ lines, isPackageText line = true → isPackageLine line = true)
    (version : ∀ line ∈ lines, isVersionText line = true → isVersionLine line = true)
    (status : ∀ line ∈ lines, isStatusText line = true → isVersionLevel line "status:" = true)
    {state : V2PackageVersion × Bool} (placed : dependenciesPlaced state.2 lines = true) :
    (lines.foldl readBelow state).1.dependencies =
      state.1.dependencies ++ (lines.filter isDependencyText).filterMap parseDependencyLine := by
  induction lines generalizing state with
  | nil => exact (List.append_nil _).symm
  | cons line lines ih =>
    unfold dependenciesPlaced at placed
    rw [Bool.and_eq_true] at placed
    obtain ⟨here, rest⟩ := placed
    rw [← readBelow_list] at rest
    have tail := ih (fun l on => package l (List.mem_cons_of_mem line on))
      (fun l on => version l (List.mem_cons_of_mem line on))
      (fun l on => status l (List.mem_cons_of_mem line on)) rest
    rw [List.foldl_cons, tail, readBelow_dependencies]
    cases dependency : isDependencyText line with
    | true =>
      have listed : (line.indent = 8 && state.2) = true := by simpa [dependency] using here
      rw [if_pos listed, List.filter_cons_of_pos dependency, List.filterMap_cons]
      cases parseDependencyLine line with
      | none => simp
      | some d => simp
    | false =>
      rw [List.filter_cons_of_neg (by simp [dependency])]
      by_cases listed : (line.indent = 8 && state.2) = true
      · have eight : line.indent = 8 := by
          rw [Bool.and_eq_true] at listed
          exact of_decide_eq_true listed.1
        rw [if_pos listed, parseDependencyLine_other dependency eight
          (package line List.mem_cons_self) (version line List.mem_cons_self)
          (status line List.mem_cons_self)]
        simp
      · rw [if_neg listed]

theorem map_eq_filterMap {α β : Type} {f g : α → Option β} {l : List α} :
    l.map f = (l.filterMap g).map some ↔ ∀ a ∈ l, ∃ b, f a = some b ∧ g a = some b := by
  induction l with
  | nil => simp
  | cons a l ih =>
    constructor
    · intro same b member
      cases read : g a with
      | none =>
        -- one item is missing on the right
        have lengths := congrArg List.length same
        rw [List.filterMap_cons_none read] at lengths
        have short := List.length_filterMap_le g l
        simp only [List.length_map, List.length_cons] at lengths
        omega
      | some c =>
        rw [List.filterMap_cons_some read, List.map_cons, List.map_cons] at same
        obtain ⟨first, rest⟩ := List.cons.inj same
        rcases List.mem_cons.mp member with here | on
        · rw [here]
          exact ⟨c, first, read⟩
        · exact ih.mp rest b on
    · intro all
      obtain ⟨c, first, read⟩ := all a List.mem_cons_self
      rw [List.filterMap_cons_some read, List.map_cons, List.map_cons, first,
        ih.mpr fun b on => all b (List.mem_cons_of_mem a on)]

/-! ## One version -/

/-- A version that is read is represented if and only if its section is written as
documented. -/
theorem versionRepresented_iff {block : Line × List Line}
    (package : ∀ line ∈ block.2, isPackageText line = true → isPackageLine line = true)
    (version : ∀ line ∈ block.2, isVersionText line = true → isVersionLine line = true)
    (status : ∀ line ∈ block.2, isStatusText line = true → isVersionLevel line "status:" = true)
    (placed : dependenciesPlaced false block.2 = true) :
    VersionRepresented block (sectionVersion block) ↔ VersionWritten block := by
  have dependencies : (sectionVersion block).dependencies =
      (block.2.filter isDependencyText).filterMap parseDependencyLine := by
    unfold sectionVersion
    rw [foldl_dependencies package version status placed]
    rfl
  constructor
  · intro represented
    refine ⟨⟨_, _, _, represented.version, UInt16.toNat_lt _, UInt16.toNat_lt _,
      UInt16.toNat_lt _⟩, ⟨_, represented.status⟩, ?_⟩
    intro line member dependency
    have all := represented.dependencies
    rw [dependencies] at all
    apply (parseDependencyLine_iff line).mp
    exact map_eq_filterMap.mp all line (List.mem_filter.mpr ⟨member, dependency⟩)
  · intro written
    obtain ⟨major, minor, patch, read, majorFits, minorFits, patchFits⟩ := written.version
    obtain ⟨value, documented⟩ := written.status
    refine ⟨?_, ?_, ?_⟩
    · have number := sectionVersion_version block
      unfold lineVersion at number
      rw [parseVersionLine_documented read majorFits minorFits patchFits] at number
      have majorSame : (sectionVersion block).major = UInt16.ofNat major :=
        congrArg Version.major number
      have minorSame : (sectionVersion block).minor = UInt16.ofNat minor :=
        congrArg Version.minor number
      have patchSame : (sectionVersion block).patch = UInt16.ofNat patch :=
        congrArg Version.patch number
      rw [read, majorSame, minorSame, patchSame, UInt16.toNat_ofNat_of_lt' majorFits,
        UInt16.toNat_ofNat_of_lt' minorFits, UInt16.toNat_ofNat_of_lt' patchFits]
    · intro line member isStatus
      have same := foldl_status documented member (status line member isStatus)
        (newVersion ((parseVersionLine block.1).getD ⟨0, 0, 0⟩), false)
      rw [documented line member isStatus]
      exact congrArg some same.symm
    · rw [dependencies]
      apply map_eq_filterMap.mpr
      intro line member
      obtain ⟨inside, dependency⟩ := List.mem_filter.mp member
      exact (parseDependencyLine_iff line).mpr (written.dependencies line inside dependency)

/-! ## The whole text -/

theorem forall₂_map {α β : Type} {R : α → β → Prop} {f : α → β} {l : List α} :
    List.Forall₂ R l (l.map f) ↔ ∀ a ∈ l, R a (f a) := by
  rw [List.forall₂_map_right_iff, List.forall₂_same]

/-- The sections of a package, by what is read and by what is documented. -/
theorem versionSectionsNamed_eq (data : List Char) (name : PackageName) :
    versionSectionsNamed data name = versionSectionsOf data name.key := by
  unfold versionSectionsNamed versionSectionsOf sectionsOf
  congr 1
  apply List.filter_congr
  intro package _
  unfold isSectionOf
  apply decide_eq_decide.mpr
  rw [← parsePackageLine_iff]
  constructor
  · intro read
    rw [read]
    rfl
  · intro read
    obtain ⟨other, found, same⟩ := Option.map_eq_some_iff.mp read
    rw [found, PackageName.key_injective same]

/-- The versions of a package are represented one by one. -/
theorem represented_versions {data : List Char} {registry : V2Registry}
    (parsed : v2RegistryParse data = some registry) (name : PackageName) :
    List.Forall₂ VersionRepresented (versionSectionsNamed data name)
        ((registry.stored name.key).getD []) ↔
      ∀ block ∈ versionSectionsNamed data name,
        VersionRepresented block (sectionVersion block) := by
  rw [v2RegistryParse_stored parsed, versionSectionsNamed_eq]
  by_cases none : sectionsOf data name.key = []
  · rw [if_pos none, versionSectionsOf_none none]
    simp
  · rw [if_neg none]
    exact forall₂_map

/-- Every line of a version section is a line of the text. -/
theorem mem_indexLines {data : List Char} {package block : Line × List Line}
    (section_ : package ∈ packageSections data) (version : block ∈ versionSections package)
    {line : Line} (member : line ∈ block.2) : line ∈ indexLines data := by
  apply mem_of_sections_body section_
  apply List.mem_cons_of_mem
  apply mem_of_sections_body version
  exact List.mem_cons_of_mem _ member

/-- What is parsed represents the text if and only if the text is written as documented. -/
theorem represents_iff {data : List Char} {registry : V2Registry}
    (parsed : v2RegistryParse data = some registry) :
    Represents data registry ↔ IndexWritten data := by
  have readable : (packageSections data).all packageReadable = true := by
    rw [v2RegistryParse_eq] at parsed
    split at parsed
    · rename_i whole
      unfold indexReadable at whole
      rw [Bool.and_eq_true] at whole
      exact whole.2
    · cases parsed
  have named : ∀ package ∈ packageSections data, ∃ name : PackageName,
      package.1 = documentedPackage name := by
    intro package member
    have one := List.all_eq_true.mp readable package member
    unfold packageReadable at one
    rw [Bool.and_eq_true, Bool.and_eq_true] at one
    obtain ⟨name, read⟩ := Option.isSome_iff_exists.mp one.1.1
    exact ⟨name, parsePackageLine_iff.mp read⟩
  have inSection : ∀ package ∈ packageSections data, ∀ name : PackageName,
      package.1 = documentedPackage name → ∀ block ∈ versionSections package,
        block ∈ versionSectionsNamed data name := by
    intro package member name line block inside
    apply List.mem_flatMap.mpr
    exact ⟨package, List.mem_filter.mpr ⟨member, decide_eq_true line⟩, inside⟩
  have one : ∀ placed : LinesPlaced data, ∀ package ∈ packageSections data,
      ∀ block ∈ versionSections package,
        VersionRepresented block (sectionVersion block) ↔ VersionWritten block := by
    intro placed package member block inside
    apply versionRepresented_iff
    · intro line below
      exact placed.packages line (mem_indexLines member inside below)
    · intro line below
      exact placed.versions line (mem_indexLines member inside below)
    · intro line below
      exact placed.statuses line (mem_indexLines member inside below)
    · exact placed.listed package member block inside
  constructor
  · intro represented
    refine ⟨represented.format, represented.placed, ?_⟩
    intro package member block inside
    obtain ⟨name, line⟩ := named package member
    have all := (represented_versions parsed name).mp (represented.versions name)
    apply (one represented.placed package member block inside).mp
    exact all block (inSection package member name line block inside)
  · intro written
    refine ⟨written.format, written.placed, ?_, ?_⟩
    · intro package member
      obtain ⟨name, line⟩ := named package member
      refine ⟨name, line, ?_⟩
      rw [v2RegistryParse_stored parsed]
      have own : package ∈ sectionsOf data name.key := by
        apply List.mem_filter.mpr
        refine ⟨member, ?_⟩
        unfold isSectionOf
        rw [parsePackageLine_iff.mpr line]
        exact decide_eq_true rfl
      rw [if_neg (List.ne_nil_of_mem own)]
      rfl
    · intro name
      apply (represented_versions parsed name).mpr
      intro block member
      obtain ⟨package, own, inside⟩ := List.mem_flatMap.mp member
      obtain ⟨on, _⟩ := List.mem_filter.mp own
      exact (one written.placed package on block inside).mpr
        (written.versions package on block inside)

/-- A text is rejected, or all its lines are in the registry, if and only if it is unreadable or
written as documented. -/
theorem v2RegistryParse_lossless (data : List Char) :
    (∀ registry, v2RegistryParse data = some registry → Represents data registry) ↔
      (indexReadable data = false ∨ IndexWritten data) := by
  have result := v2RegistryParse_eq data
  cases readable : indexReadable data with
  | false =>
    rw [readable] at result
    constructor
    · intro _
      exact Or.inl rfl
    · intro _ registry parsed
      rw [result] at parsed
      cases parsed
  | true =>
    rw [readable, if_pos rfl] at result
    constructor
    · intro lossless
      exact Or.inr ((represents_iff result).mp (lossless _ result))
    · intro which registry parsed
      rcases which with rejected | written
      · cases rejected
      · exact (represents_iff parsed).mpr written

/-- The documented example, cut down to the line with a single blank. -/
def singleBlankIndex : List Char :=
  ("format 2\nelm 0.19.1\n\npackage: 1602/elm-feather\n    version: 2.3.5\n    status: valid\n" ++
    "    license: BSD-3-Clause\n    dependencies:\n" ++
    "        elm/virtual-dom 1.0.0 <= v < 2.0.0\n").toList

/-- The package of the example. -/
def elmFeather : PackageName where
  author := "1602"
  project := "elm-feather"
  validAuthor := by decide
  validProject := by decide
  short := by decide

/-- Its dependency is lost. -/
theorem v2RegistryParse_lossless_fails :
    ¬ ∀ data registry, v2RegistryParse data = some registry → Represents data registry := by
  intro claim
  have parsed : v2RegistryParse singleBlankIndex =
      some ⟨[⟨"1602", "elm-feather", [⟨2, 3, 5, .valid, []⟩]⟩]⟩ := by decide +kernel
  have versions := (claim _ _ parsed).versions elmFeather
  have lines : versionSectionsNamed singleBlankIndex elmFeather =
      [("    version: 2.3.5".toList,
        ["    status: valid".toList, "    license: BSD-3-Clause".toList,
        "    dependencies:".toList, "        elm/virtual-dom 1.0.0 <= v < 2.0.0".toList])] := by
    decide +kernel
  have stored : (V2Registry.stored ⟨[⟨"1602", "elm-feather", [⟨2, 3, 5, .valid, []⟩]⟩]⟩
      elmFeather.key).getD [] = [⟨2, 3, 5, .valid, []⟩] := by decide
  rw [lines, stored] at versions
  obtain ⟨represented, _⟩ := List.forall₂_cons.mp versions
  have dependencies := congrArg List.length represented.dependencies
  exact absurd dependencies (by decide)

end ElmWrap
