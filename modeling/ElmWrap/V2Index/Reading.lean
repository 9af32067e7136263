import ElmWrap.V2Index.Parse

/-!
# What `v2_registry_parse` reads

The text of an index in sections: package lines with what is below them, and in
there version lines with what is below these. The loop fails at a line that it
cannot read, and otherwise its registry has the versions of the sections in the
order of the text, each with the status and the dependencies it has taken from
the lines below.
-/

namespace ElmWrap

open Lib

/-! ## The sections of an index -/

/-- A line that is read as a format line. -/
def isFormatLine (line : Line) : Bool := line.starts "format "

/-- A line that is read as a package line. -/
def isPackageLine (line : Line) : Bool := line.starts "package:"

/-- A line that is read as a version line. -/
def isVersionLine (line : Line) : Bool := line.indent = 4 && line.content.starts "version:"

/-- A format line of another version. -/
def wrongFormat (line : Line) : Bool := isFormatLine line && parseFormatLine line ≠ some 2

/-- The lines above the first package line. -/
def preamble (data : List Char) : List Line := (sections isPackageLine (indexLines data)).1

/-- The package lines, each with the lines below it. -/
def packageSections (data : List Char) : List (Line × List Line) :=
  (sections isPackageLine (indexLines data)).2

/-- The lines of a package section above its first version line. -/
def looseLines (package : Line × List Line) : List Line := (sections isVersionLine package.2).1

/-- The version lines of a package section, each with the lines below it. -/
def versionSections (package : Line × List Line) : List (Line × List Line) :=
  (sections isVersionLine package.2).2

/-! ## What is taken from the lines below a version line -/

/-- What one line does to the current version, and to `in_dependencies`. -/
def readBelow (state : V2PackageVersion × Bool) (line : Line) : V2PackageVersion × Bool :=
  if line = [] then state
  else if line.indent = 0 then (state.1, false)
  else if line.indent = 4 then
    if line.content.starts "status:" then
      (match parseStatusLine line with
        | none => state.1
        | some status => { state.1 with status := status }, false)
    else if line.content.starts "license:" then (state.1, false)
    else (state.1, line.content.starts "dependencies:")
  else if line.indent = 8 && state.2 then
    (match parseDependencyLine line with
      | none => state.1
      | some dependency =>
        { state.1 with dependencies := state.1.dependencies ++ [dependency] }, state.2)
  else state

/-- A version before the lines below it are read. -/
def newVersion (v : Version) : V2PackageVersion := ⟨v.major, v.minor, v.patch, .valid, []⟩

/-- The version of a version section. -/
def sectionVersion (versionSection : Line × List Line) : V2PackageVersion :=
  (versionSection.2.foldl readBelow
    (newVersion ((parseVersionLine versionSection.1).getD ⟨0, 0, 0⟩), false)).1

/-! ## One line -/

theorem modifyLast_append {α : Type} (f : α → α) (l : List α) (a : α) :
    modifyLast f (l ++ [a]) = l ++ [f a] := by
  induction l with
  | nil => rfl
  | cons b l ih =>
    cases l with
    | nil => rfl
    | cons c l => exact congrArg (b :: ·) ih

namespace V2Registry

/-- Another version at the end of a package. -/
def append (registry : V2Registry) (name : PackageName) (pv : V2PackageVersion) : V2Registry :=
  registry.setVersions name.key fun versions => versions ++ [pv]

theorem setVersions_setVersions (registry : V2Registry) (key : String × String)
    (f g : List V2PackageVersion → List V2PackageVersion) :
    (registry.setVersions key g).setVersions key f = registry.setVersions key (f ∘ g) := by
  unfold setVersions
  rw [Keyed.update_update]
  · rfl
  · intro entry
    rfl

theorem append_modifyLast (registry : V2Registry) (name : PackageName) (pv : V2PackageVersion)
    (f : V2PackageVersion → V2PackageVersion) :
    (registry.append name pv).setVersions name.key (modifyLast f) =
      registry.append name (f pv) := by
  unfold append
  rw [setVersions_setVersions]
  congr 1
  funext versions
  exact modifyLast_append f versions pv

end V2Registry

/-- The loop below a version line. -/
def V2ParseState.below (registry : V2Registry) (name : PackageName)
    (state : V2PackageVersion × Bool) : V2ParseState where
  registry := registry.append name state.1
  currentEntry := some name
  currentVersion := true
  inDependencies := state.2

theorem starts_indent {line : Line} {text : String} {c : Char} {rest : List Char}
    (literal : text.toList = c :: rest) (plain : c ≠ ' ') (starts : line.starts text = true) :
    line ≠ [] ∧ line.indent = 0 := by
  unfold Line.starts at starts
  rw [literal] at starts
  cases line with
  | nil => cases starts
  | cons d line =>
    simp only [List.isPrefixOf_cons_cons, Bool.and_eq_true, beq_iff_eq] at starts
    refine ⟨List.cons_ne_nil d line, ?_⟩
    unfold Line.indent
    rw [List.takeWhile_cons_of_neg]
    · rfl
    · rw [← starts.1]
      simpa using plain

variable {line : Line} {registry : V2Registry} {state : V2ParseState}

theorem isFormatLine_indent (format : isFormatLine line = true) :
    line ≠ [] ∧ line.indent = 0 :=
  @starts_indent _ "format " 'f' _ rfl (by decide) format

theorem isPackageLine_indent (package : isPackageLine line = true) :
    line ≠ [] ∧ line.indent = 0 :=
  @starts_indent _ "package:" 'p' _ rfl (by decide) package

theorem wrongFormat_indented (indented : line.indent ≠ 0) :
    wrongFormat line = false := by
  unfold wrongFormat
  cases format : isFormatLine line with
  | false => rfl
  | true => exact absurd (isFormatLine_indent format).2 indented

/-- A line that is not indented and no package line only matters if it is a format line. -/
theorem V2ParseState.topLine_other (state : V2ParseState) (package : isPackageLine line = false) :
    state.topLine line =
      if wrongFormat line then none else some { state with inDependencies := false } := by
  unfold V2ParseState.topLine wrongFormat
  unfold isPackageLine at package
  unfold isFormatLine
  rw [package]
  cases line.starts "format " with
  | false => rfl
  | true =>
    cases parseFormatLine line with
    | none => rfl
    | some version =>
      by_cases two : version = 2
      · simp [two]
      · simp [two]

/-- The loop below a version line, at a line that is neither a package line nor a version
line. -/
theorem V2ParseState.step_below {name : PackageName} {state : V2PackageVersion × Bool}
    (package : isPackageLine line = false) (version : isVersionLine line = false) :
    (V2ParseState.below registry name state).step line =
      if wrongFormat line then none
      else some (V2ParseState.below registry name (readBelow state line)) := by
  unfold V2ParseState.step readBelow
  by_cases empty : line = []
  · subst empty
    exact rfl
  rw [if_neg empty, if_neg empty]
  by_cases top : line.indent = 0
  · rw [if_pos top, if_pos top, topLine_other _ package]
    rfl
  rw [if_neg top, if_neg top, wrongFormat_indented top]
  by_cases four : line.indent = 4
  · have other : line.content.starts "version:" = false := by
      unfold isVersionLine at version
      rw [four] at version
      simpa using version
    rw [if_pos four, if_pos four]
    unfold V2ParseState.versionLine
    dsimp only
    rw [other]
    cases status : line.content.starts "status:" with
    | true =>
      cases parseStatusLine line with
      | none => rfl
      | some status =>
        simp [V2ParseState.below, V2ParseState.setVersion, V2Registry.append_modifyLast]
    | false =>
      cases line.content.starts "license:" with
      | true => rfl
      | false =>
        cases line.content.starts "dependencies:" with
        | true => rfl
        | false => rfl
  · rw [if_neg four, if_neg four]
    obtain ⟨pv, inDependencies⟩ := state
    by_cases eight : (line.indent = 8 && inDependencies) = true
    · rw [if_pos eight, if_pos (by simpa [V2ParseState.below] using eight)]
      cases parseDependencyLine line with
      | none => rfl
      | some dependency =>
        simp [V2ParseState.below, V2ParseState.setVersion, V2Registry.append_modifyLast]
    · rw [if_neg eight, if_neg (by simpa [V2ParseState.below] using eight)]
      exact rfl

/-- Where there is no current version, such a line changes `in_dependencies` at most. -/
theorem V2ParseState.step_loose (loose : state.currentVersion = false)
    (package : isPackageLine line = false) (version : isVersionLine line = false) :
    (wrongFormat line = true ∧ state.step line = none) ∨
      (wrongFormat line = false ∧
        ∃ inDependencies,
          state.step line = some { state with inDependencies := inDependencies }) := by
  unfold V2ParseState.step
  by_cases empty : line = []
  · subst empty
    exact Or.inr ⟨rfl, state.inDependencies, rfl⟩
  rw [if_neg empty]
  by_cases top : line.indent = 0
  · rw [if_pos top, topLine_other _ package]
    cases wrongFormat line with
    | true => exact Or.inl ⟨rfl, rfl⟩
    | false => exact Or.inr ⟨rfl, false, rfl⟩
  rw [if_neg top]
  refine Or.inr ⟨wrongFormat_indented top, ?_⟩
  by_cases four : line.indent = 4
  · have other : line.content.starts "version:" = false := by
      unfold isVersionLine at version
      rw [four] at version
      simpa using version
    rw [if_pos four]
    unfold V2ParseState.versionLine
    dsimp only
    rw [other, loose]
    cases line.content.starts "status:" with
    | true => exact ⟨false, rfl⟩
    | false =>
      cases line.content.starts "license:" with
      | true => exact ⟨false, rfl⟩
      | false =>
        cases line.content.starts "dependencies:" with
        | true => exact ⟨true, rfl⟩
        | false => exact ⟨false, rfl⟩
  · rw [if_neg four, if_neg (by simp [loose])]
    exact ⟨state.inDependencies, rfl⟩

/-! ## Sections -/

/-- None of the lines is a format line of another version. -/
def formatsRight (lines : List Line) : Bool := lines.all fun line => !wrongFormat line

theorem foldlM_below {registry : V2Registry} {name : PackageName} {lines : List Line}
    (package : ∀ line ∈ lines, isPackageLine line = false)
    (version : ∀ line ∈ lines, isVersionLine line = false) (state : V2PackageVersion × Bool) :
    lines.foldlM V2ParseState.step (V2ParseState.below registry name state) =
      if formatsRight lines then
        some (V2ParseState.below registry name (lines.foldl readBelow state))
      else none := by
  induction lines generalizing state with
  | nil => rfl
  | cons line lines ih =>
    rw [List.foldlM_cons, V2ParseState.step_below (package line List.mem_cons_self)
      (version line List.mem_cons_self)]
    unfold formatsRight
    rw [List.all_cons]
    cases wrongFormat line with
    | true => rfl
    | false =>
      have rest := ih (fun l on => package l (List.mem_cons_of_mem line on))
        (fun l on => version l (List.mem_cons_of_mem line on)) (readBelow state line)
      simpa [formatsRight] using rest

theorem foldlM_loose {lines : List Line} (package : ∀ line ∈ lines, isPackageLine line = false)
    (version : ∀ line ∈ lines, isVersionLine line = false) {state : V2ParseState}
    (loose : state.currentVersion = false) :
    (formatsRight lines = false ∧ lines.foldlM V2ParseState.step state = none) ∨
      (formatsRight lines = true ∧ ∃ inDependencies,
        lines.foldlM V2ParseState.step state =
          some { state with inDependencies := inDependencies }) := by
  induction lines generalizing state with
  | nil => exact Or.inr ⟨rfl, state.inDependencies, rfl⟩
  | cons line lines ih =>
    rw [List.foldlM_cons]
    unfold formatsRight
    rw [List.all_cons]
    rcases V2ParseState.step_loose loose (package line List.mem_cons_self)
      (version line List.mem_cons_self) with ⟨wrong, failed⟩ | ⟨right, inDependencies, next⟩
    · rw [wrong, failed]
      exact Or.inl ⟨rfl, rfl⟩
    · rw [right, next]
      have rest := @ih (fun l on => package l (List.mem_cons_of_mem line on))
        (fun l on => version l (List.mem_cons_of_mem line on))
        { state with inDependencies := inDependencies } loose
      simpa [formatsRight] using rest

/-- A version section that the loop gets through. -/
def versionReadable (versionSection : Line × List Line) : Bool :=
  (parseVersionLine versionSection.1).isSome && formatsRight versionSection.2

/-- A package section that the loop gets through. -/
def packageReadable (package : Line × List Line) : Bool :=
  (parsePackageLine package.1).isSome && formatsRight (looseLines package) &&
    (versionSections package).all versionReadable

/-- The versions of a package section, added to the package. -/
def appendSections (registry : V2Registry) (name : PackageName)
    (blocks : List (Line × List Line)) : V2Registry :=
  blocks.foldl (fun registry block => registry.append name (sectionVersion block)) registry

/-- What a package section does to the registry. -/
def addPackageSection (registry : V2Registry) (package : Line × List Line) : V2Registry :=
  match parsePackageLine package.1 with
  | some name =>
    appendSections (v2RegistryAddEntry registry name.author name.project) name
      (versionSections package)
  | none => registry

/-- A version line below a package line. -/
theorem V2ParseState.step_version {name : PackageName} (current : state.currentEntry = some name)
    (version : isVersionLine line = true) :
    state.step line = (parseVersionLine line).map fun v =>
      V2ParseState.below state.registry name (newVersion v, false) := by
  unfold isVersionLine at version
  simp only [Bool.and_eq_true, decide_eq_true_eq] at version
  obtain ⟨four, starts⟩ := version
  have full : line ≠ [] := by
    intro empty
    rw [empty] at four
    cases four
  unfold V2ParseState.step
  rw [if_neg full, if_neg (by omega), if_pos four]
  unfold V2ParseState.versionLine
  dsimp only
  rw [starts, current]
  cases parseVersionLine line with
  | none => rfl
  | some v => rfl

/-- A version line above all package lines. -/
theorem V2ParseState.step_version_none (current : state.currentEntry = none)
    (version : isVersionLine line = true) :
    state.step line = none := by
  unfold isVersionLine at version
  simp only [Bool.and_eq_true, decide_eq_true_eq] at version
  obtain ⟨four, starts⟩ := version
  have full : line ≠ [] := by
    intro empty
    rw [empty] at four
    cases four
  unfold V2ParseState.step
  rw [if_neg full, if_neg (by omega), if_pos four]
  unfold V2ParseState.versionLine
  dsimp only
  rw [starts, current]
  rfl

theorem V2ParseState.step_package {state : V2ParseState} {line : Line}
    (package : isPackageLine line = true) :
    state.step line = (parsePackageLine line).map fun name =>
      { registry := v2RegistryAddEntry state.registry name.author name.project
        currentEntry := some name
        currentVersion := false
        inDependencies := false } := by
  obtain ⟨full, top⟩ := isPackageLine_indent package
  unfold V2ParseState.step
  rw [if_neg full, if_pos top]
  unfold V2ParseState.topLine
  have format : line.starts "format " = false := by
    unfold isPackageLine Line.starts at package
    unfold Line.starts
    cases line with
    | nil => exact absurd rfl full
    | cons c rest =>
      have first : 'p' = c := by
        have both : ("package:".toList).isPrefixOf (c :: rest) = true := package
        rw [show "package:".toList = 'p' :: "ackage:".toList from rfl,
          List.isPrefixOf_cons_cons, Bool.and_eq_true, beq_iff_eq] at both
        exact both.1
      rw [← first, show "format ".toList = 'f' :: "ormat ".toList from rfl,
        List.isPrefixOf_cons_cons]
      rfl
  unfold isPackageLine at package
  dsimp only
  rw [format, package]
  cases parsePackageLine line with
  | none => rfl
  | some name => rfl

/-- The loop over the version sections of a package. -/
theorem foldlM_versions {name : PackageName} {blocks : List (Line × List Line)}
    (heads : ∀ block ∈ blocks, isVersionLine block.1 = true)
    (package : ∀ block ∈ blocks, ∀ line ∈ block.2, isPackageLine line = false)
    (version : ∀ block ∈ blocks, ∀ line ∈ block.2, isVersionLine line = false)
    {state : V2ParseState} (current : state.currentEntry = some name) :
    ((blocks.flatMap fun block => block.1 :: block.2).foldlM V2ParseState.step state).map
        V2ParseState.registry =
      if blocks.all versionReadable then some (appendSections state.registry name blocks)
      else none := by
  induction blocks generalizing state with
  | nil => rfl
  | cons block blocks ih =>
    have line := V2ParseState.step_version current (heads block List.mem_cons_self)
    rw [List.flatMap_cons, List.cons_append, List.foldlM_cons, line, List.all_cons]
    cases read : parseVersionLine block.1 with
    | none => simp [versionReadable, read]
    | some v =>
      have body := @foldlM_below state.registry name _
        (package block List.mem_cons_self) (version block List.mem_cons_self)
        (newVersion v, false)
      have rest := @ih (fun b on => heads b (List.mem_cons_of_mem block on))
        (fun b on => package b (List.mem_cons_of_mem block on))
        (fun b on => version b (List.mem_cons_of_mem block on))
        (V2ParseState.below state.registry name
          (block.2.foldl readBelow (newVersion v, false))) rfl
      have same : sectionVersion block = (block.2.foldl readBelow (newVersion v, false)).1 := by
        unfold sectionVersion
        rw [read]
        rfl
      rw [Option.map_some]
      simp only [Option.bind_eq_bind, Option.bind_some, List.foldlM_append]
      rw [body]
      cases right : formatsRight block.2 with
      | false => simp [versionReadable, right]
      | true =>
        have readable : versionReadable block = true := by
          unfold versionReadable
          rw [read, right]
          rfl
        simp only [if_true, Option.bind_some]
        rw [rest, readable, Bool.true_and]
        simp only [appendSections, V2ParseState.below, List.foldl_cons, same]

/-- The loop over a package line and what is below it. -/
theorem foldlM_package {package : Line × List Line} (head : isPackageLine package.1 = true)
    (body : ∀ line ∈ package.2, isPackageLine line = false) (state : V2ParseState) :
    ((package.1 :: package.2).foldlM V2ParseState.step state).map V2ParseState.registry =
      if packageReadable package then some (addPackageSection state.registry package)
      else none := by
  have line := @V2ParseState.step_package state _ head
  rw [List.foldlM_cons, line]
  unfold packageReadable addPackageSection
  cases read : parsePackageLine package.1 with
  | none => rfl
  | some name =>
    have split := @sections_join _ isVersionLine package.2
    have loose : ∀ l ∈ looseLines package, isVersionLine l = false :=
      fun l on => sections_front on
    have below : ∀ l ∈ looseLines package, isPackageLine l = false :=
      fun l on => body l (mem_of_sections_front on)
    have versions := @foldlM_versions name (versionSections package)
      (fun block on => sections_head on)
      (fun block on l inside => body l (mem_of_sections_body on (List.mem_cons_of_mem _ inside)))
      (fun block on l inside => sections_body on inside)
    simp only [Option.map_some, Option.bind_eq_bind, Option.bind_some]
    rw [← split, List.foldlM_append]
    obtain ⟨wrong, failed⟩ | ⟨right, inDependencies, passed⟩ :=
      @foldlM_loose _ below loose {
        registry := v2RegistryAddEntry state.registry name.author name.project
        currentEntry := some name
        currentVersion := false
        inDependencies := false } rfl
    · unfold looseLines at wrong failed
      rw [failed]
      simp [looseLines, wrong]
    · unfold looseLines at right passed
      rw [passed]
      have rest := @versions {
        registry := v2RegistryAddEntry state.registry name.author name.project
        currentEntry := some name
        currentVersion := false
        inDependencies := inDependencies } rfl
      simp only [Option.bind_eq_bind, Option.bind_some]
      unfold versionSections at rest
      unfold looseLines versionSections
      rw [rest, right]
      rfl

/-- The loop over all package sections. -/
theorem foldlM_packages {packages : List (Line × List Line)}
    (heads : ∀ package ∈ packages, isPackageLine package.1 = true)
    (bodies : ∀ package ∈ packages, ∀ line ∈ package.2, isPackageLine line = false)
    (state : V2ParseState) :
    ((packages.flatMap fun package => package.1 :: package.2).foldlM V2ParseState.step state).map
        V2ParseState.registry =
      if packages.all packageReadable then some (packages.foldl addPackageSection state.registry)
      else none := by
  induction packages generalizing state with
  | nil => rfl
  | cons package packages ih =>
    have first := foldlM_package (heads package List.mem_cons_self)
      (bodies package List.mem_cons_self) state
    have rest := ih (fun p on => heads p (List.mem_cons_of_mem package on))
      (fun p on => bodies p (List.mem_cons_of_mem package on))
    rw [List.flatMap_cons, List.foldlM_append, List.all_cons]
    cases run : (package.1 :: package.2).foldlM V2ParseState.step state with
    | none =>
      rw [run] at first
      have unreadable : packageReadable package = false := by
        by_contra readable
        rw [if_pos (by simpa using readable)] at first
        cases first
      simp [unreadable]
    | some next =>
      rw [run] at first
      have readable : packageReadable package = true := by
        by_contra unreadable
        rw [if_neg unreadable] at first
        cases first
      rw [if_pos readable] at first
      have reached : next.registry = addPackageSection state.registry package := by
        simpa using first
      simp only [Option.bind_eq_bind, Option.bind_some]
      rw [rest next, readable, reached]
      rfl

/-! ## The whole index -/

/-- An index that the loop gets through. -/
def indexReadable (data : List Char) : Bool :=
  data ≠ [] && (preamble data).all (fun line => !isVersionLine line) &&
    formatsRight (preamble data) && (packageSections data).all packageReadable

/-- The lines above the first package line. -/
theorem foldlM_preamble {lines : List Line} (package : ∀ line ∈ lines, isPackageLine line = false)
    {state : V2ParseState} (current : state.currentEntry = none)
    (loose : state.currentVersion = false) :
    (((lines.all fun line => !isVersionLine line) && formatsRight lines) = false ∧
        lines.foldlM V2ParseState.step state = none) ∨
      (((lines.all fun line => !isVersionLine line) && formatsRight lines) = true ∧
        ∃ inDependencies, lines.foldlM V2ParseState.step state =
          some { state with inDependencies := inDependencies }) := by
  induction lines generalizing state with
  | nil => exact Or.inr ⟨rfl, state.inDependencies, rfl⟩
  | cons line lines ih =>
    rw [List.foldlM_cons]
    cases version : isVersionLine line with
    | true =>
      rw [V2ParseState.step_version_none current version]
      exact Or.inl ⟨by simp [version], rfl⟩
    | false =>
      obtain ⟨wrong, failed⟩ | ⟨right, inDependencies, next⟩ :=
        V2ParseState.step_loose loose (package line List.mem_cons_self) version
      · rw [failed]
        exact Or.inl ⟨by simp [formatsRight, wrong], rfl⟩
      · rw [next]
        have rest := @ih (fun l on => package l (List.mem_cons_of_mem line on))
          { state with inDependencies := inDependencies } current loose
        simpa [formatsRight, version, right] using rest

/-- What `v2_registry_parse` returns. -/
theorem v2RegistryParse_eq (data : List Char) :
    v2RegistryParse data =
      if indexReadable data then
        some ((packageSections data).foldl addPackageSection v2RegistryCreate)
      else none := by
  unfold v2RegistryParse indexReadable
  by_cases empty : data = []
  · rw [if_pos empty, empty]
    rfl
  rw [if_neg empty]
  have split := @sections_join _ isPackageLine (indexLines data)
  have packages := @foldlM_packages (packageSections data)
    (fun package on => sections_head on) (fun package on line inside => sections_body on inside)
  rw [← split, List.foldlM_append]
  obtain ⟨wrong, failed⟩ | ⟨right, inDependencies, passed⟩ :=
    @foldlM_preamble (preamble data) (fun line on => sections_front on) V2ParseState.start rfl rfl
  · unfold preamble at wrong failed
    rw [failed, Bool.and_assoc (decide (data ≠ []))]
    unfold preamble
    rw [wrong, Bool.and_false]
    exact rfl
  · unfold preamble at right passed
    rw [passed]
    have rest := packages { V2ParseState.start with inDependencies := inDependencies }
    simp only [Option.bind_eq_bind, Option.bind_some]
    unfold packageSections at rest
    rw [rest, Bool.and_assoc (decide (data ≠ []))]
    unfold preamble packageSections
    rw [right, decide_eq_true empty]
    rfl

/-! ## The versions of a package -/

/-- The versions stored under a key; `none` where there is no entry. -/
def V2Registry.stored (registry : V2Registry) (key : String × String) :
    Option (List V2PackageVersion) :=
  (Keyed.lookup V2PackageEntry.key key registry.entries).map V2PackageEntry.versions

/-- Whether a package section is one of the package. -/
def isSectionOf (key : String × String) (package : Line × List Line) : Bool :=
  (parsePackageLine package.1).map PackageName.key = some key

/-- The package sections of a package. -/
def sectionsOf (data : List Char) (key : String × String) : List (Line × List Line) :=
  (packageSections data).filter (isSectionOf key)

/-- The version sections of a package, in the order of the text. -/
def versionSectionsOf (data : List Char) (key : String × String) : List (Line × List Line) :=
  (sectionsOf data key).flatMap versionSections

theorem versionSectionsOf_none {data : List Char} {key : String × String}
    (none : sectionsOf data key = []) : versionSectionsOf data key = [] := by
  unfold versionSectionsOf
  rw [none]
  rfl

namespace V2Registry

theorem stored_addEntry (registry : V2Registry) (author name : String) (key : String × String) :
    (v2RegistryAddEntry registry author name).stored key =
      if key = (author, name) then some ((registry.stored key).getD [])
      else registry.stored key := by
  unfold v2RegistryAddEntry
  rw [v2RegistryFind_eq]
  cases found : Keyed.lookup V2PackageEntry.key (author, name) registry.entries with
  | some entry =>
    dsimp only
    by_cases same : key = (author, name)
    · unfold stored
      rw [if_pos same, same, found]
      rfl
    · rw [if_neg same]
  | none =>
    unfold stored
    dsimp only
    rw [Keyed.lookup_append, Keyed.lookup_cons]
    by_cases same : key = (author, name)
    · have here : V2PackageEntry.key ⟨author, name, []⟩ = (author, name) := rfl
      rw [if_pos same, same, found, if_pos here]
      rfl
    · have other : V2PackageEntry.key ⟨author, name, []⟩ ≠ key := Ne.symm same
      rw [if_neg same, if_neg other, Keyed.lookup_nil, Option.or_none]

theorem stored_setVersions (registry : V2Registry) (k key : String × String)
    (f : List V2PackageVersion → List V2PackageVersion) :
    (registry.setVersions k f).stored key =
      if key = k then (registry.stored key).map f else registry.stored key := by
  unfold stored setVersions
  dsimp only
  rw [Keyed.lookup_update]
  · by_cases same : key = k
    · rw [if_pos same, if_pos same, same]
      cases Keyed.lookup V2PackageEntry.key k registry.entries with
      | none => rfl
      | some entry => rfl
    · rw [if_neg same, if_neg same]
  · intro entry
    rfl

theorem stored_append (registry : V2Registry) (name : PackageName) (pv : V2PackageVersion)
    (key : String × String) :
    (registry.append name pv).stored key =
      if key = name.key then (registry.stored key).map (· ++ [pv]) else registry.stored key :=
  stored_setVersions registry name.key key _

theorem stored_appendSections (registry : V2Registry) (name : PackageName)
    (blocks : List (Line × List Line)) (key : String × String) :
    (appendSections registry name blocks).stored key =
      if key = name.key then (registry.stored key).map (· ++ blocks.map sectionVersion)
      else registry.stored key := by
  induction blocks generalizing registry with
  | nil =>
    unfold appendSections
    rw [List.foldl_nil, List.map_nil]
    cases registry.stored key with
    | none => simp
    | some versions => simp
  | cons block blocks ih =>
    have rest := ih (registry.append name (sectionVersion block))
    unfold appendSections at rest ⊢
    rw [List.foldl_cons, rest, stored_append]
    by_cases same : key = name.key
    · rw [if_pos same, if_pos same, if_pos same]
      cases registry.stored key with
      | none => rfl
      | some versions => simp
    · rw [if_neg same, if_neg same, if_neg same]

theorem stored_addPackageSection (registry : V2Registry) {package : Line × List Line}
    {name : PackageName} (read : parsePackageLine package.1 = some name)
    (key : String × String) :
    (addPackageSection registry package).stored key =
      if key = name.key then
        some ((registry.stored key).getD [] ++ (versionSections package).map sectionVersion)
      else registry.stored key := by
  unfold addPackageSection
  rw [read]
  dsimp only
  rw [stored_appendSections, stored_addEntry]
  by_cases same : key = name.key
  · have here : key = (name.author, name.project) := same
    rw [if_pos same, if_pos here, if_pos same]
    rfl
  · have other : key ≠ (name.author, name.project) := same
    rw [if_neg same, if_neg other, if_neg same]

/-- The loop over the package sections, seen from one package. -/
theorem stored_packages {packages : List (Line × List Line)}
    (readable : ∀ package ∈ packages, (parsePackageLine package.1).isSome = true)
    (registry : V2Registry) (key : String × String) :
    (packages.foldl addPackageSection registry).stored key =
      if packages.filter (isSectionOf key) = [] then registry.stored key
      else some ((registry.stored key).getD [] ++
        ((packages.filter (isSectionOf key)).flatMap versionSections).map sectionVersion) := by
  induction packages generalizing registry with
  | nil => rfl
  | cons package packages ih =>
    obtain ⟨name, read⟩ := Option.isSome_iff_exists.mp (readable package List.mem_cons_self)
    have rest := ih (fun p on => readable p (List.mem_cons_of_mem package on))
      (addPackageSection registry package)
    rw [List.foldl_cons, rest, stored_addPackageSection registry read]
    by_cases same : key = name.key
    · have here : isSectionOf key package = true := by
        unfold isSectionOf
        rw [read, same]
        exact decide_eq_true rfl
      rw [List.filter_cons_of_pos here, if_neg (List.cons_ne_nil package _), if_pos same]
      split
      · rename_i none
        rw [none]
        simp
      · simp
    · have other : ¬ isSectionOf key package = true := by
        unfold isSectionOf
        rw [read, Option.map_some, decide_eq_true_eq, Option.some_inj]
        exact Ne.symm same
      rw [List.filter_cons_of_neg other, if_neg same]

end V2Registry

/-- The packages of an index and their versions. -/
theorem v2RegistryParse_stored {data : List Char} (parsed : v2RegistryParse data = some registry)
    (key : String × String) :
    registry.stored key =
      if sectionsOf data key = [] then none
      else some ((versionSectionsOf data key).map sectionVersion) := by
  rw [v2RegistryParse_eq] at parsed
  split at parsed
  · rename_i readable
    cases parsed
    have packages : (packageSections data).all packageReadable = true := by
      unfold indexReadable at readable
      rw [Bool.and_eq_true] at readable
      exact readable.2
    have names : ∀ package ∈ packageSections data,
        (parsePackageLine package.1).isSome = true := by
      intro package member
      have one := List.all_eq_true.mp packages package member
      unfold packageReadable at one
      rw [Bool.and_eq_true, Bool.and_eq_true] at one
      exact one.1.1
    rw [V2Registry.stored_packages names v2RegistryCreate key]
    rfl
  · cases parsed

/-! ## The version numbers -/

/-- The version of a version line. -/
def lineVersion (versionSection : Line × List Line) : Version :=
  (parseVersionLine versionSection.1).getD ⟨0, 0, 0⟩

theorem readBelow_version (state : V2PackageVersion × Bool) (line : Line) :
    (readBelow state line).1.version = state.1.version := by
  unfold readBelow
  split
  · rfl
  split
  · rfl
  split
  · split
    · cases parseStatusLine line with
      | none => rfl
      | some status => rfl
    · split
      · rfl
      · rfl
  · split
    · cases parseDependencyLine line with
      | none => rfl
      | some dependency => rfl
    · rfl

theorem foldl_readBelow_version (lines : List Line) (state : V2PackageVersion × Bool) :
    (lines.foldl readBelow state).1.version = state.1.version := by
  induction lines generalizing state with
  | nil => rfl
  | cons line lines ih => rw [List.foldl_cons, ih, readBelow_version]

/-- Nothing below a version line changes its version. -/
theorem sectionVersion_version (versionSection : Line × List Line) :
    (sectionVersion versionSection).version = lineVersion versionSection :=
  foldl_readBelow_version _ _

/-! ## The entries -/

theorem v2RegistryAddEntry_distinct (distinct : Keyed.Distinct V2PackageEntry.key registry.entries)
    (author name : String) :
    Keyed.Distinct V2PackageEntry.key (v2RegistryAddEntry registry author name).entries := by
  unfold v2RegistryAddEntry
  rw [v2RegistryFind_eq]
  cases found : Keyed.lookup V2PackageEntry.key (author, name) registry.entries with
  | some entry => exact distinct
  | none => exact distinct.append_new found

theorem V2Registry.setVersions_distinct
    (distinct : Keyed.Distinct V2PackageEntry.key registry.entries) (key : String × String)
    (f : List V2PackageVersion → List V2PackageVersion) :
    Keyed.Distinct V2PackageEntry.key (registry.setVersions key f).entries := by
  unfold V2Registry.setVersions
  apply distinct.update
  intro entry
  rfl

theorem appendSections_distinct (distinct : Keyed.Distinct V2PackageEntry.key registry.entries)
    (name : PackageName) (blocks : List (Line × List Line)) :
    Keyed.Distinct V2PackageEntry.key (appendSections registry name blocks).entries := by
  induction blocks generalizing registry with
  | nil => exact distinct
  | cons block blocks ih => exact ih (V2Registry.setVersions_distinct distinct name.key _)

theorem addPackageSection_distinct (distinct : Keyed.Distinct V2PackageEntry.key registry.entries)
    (package : Line × List Line) :
    Keyed.Distinct V2PackageEntry.key (addPackageSection registry package).entries := by
  unfold addPackageSection
  cases parsePackageLine package.1 with
  | none => exact distinct
  | some name =>
    apply appendSections_distinct
    exact v2RegistryAddEntry_distinct distinct name.author name.project

/-- No package has two entries, however often the text comes back to it. -/
theorem v2RegistryParse_distinct {data : List Char}
    (parsed : v2RegistryParse data = some registry) :
    Keyed.Distinct V2PackageEntry.key registry.entries := by
  rw [v2RegistryParse_eq] at parsed
  split at parsed
  · cases parsed
    have start : Keyed.Distinct V2PackageEntry.key v2RegistryCreate.entries := List.nodup_nil
    generalize v2RegistryCreate = first at start
    induction packageSections data generalizing first with
    | nil => exact start
    | cons package packages ih => exact ih _ (addPackageSection_distinct start package)
  · cases parsed

end ElmWrap
