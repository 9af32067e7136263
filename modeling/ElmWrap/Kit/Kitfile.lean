import ElmWrap.PackageName

/-!
# Kitfiles

The manifest of a kit and its parser in `commands/kit/install_cmd.c`. A character
stands for a byte.
-/

namespace ElmWrap.Kit

/-! ## Names -/

/-- The text is one component of a path, and neither `.` nor `..`. -/
def isComponent (text : List Char) : Bool :=
  !text.isEmpty && !text.contains '/' && text ≠ ['.'] && text ≠ ['.', '.']

/-- A component of a path, such as the name of a directory entry. -/
structure Component where
  text : String
  component : isComponent text.toList = true
deriving DecidableEq

/-- `valid_tool_name`. -/
def validToolName (name : String) : Bool :=
  !name.toList.isEmpty &&
    (name.toList.all fun c => c.isAlphanum || c = '-' || c = '_' || c = '.') &&
    name ≠ "." && name ≠ ".."

/-- A name that `valid_tool_name` accepts. -/
structure ToolName where
  text : String
  valid : validToolName text = true
deriving DecidableEq

/-- A valid tool name is one component of a path. -/
theorem isComponent_of_validToolName {name : String} (valid : validToolName name = true) :
    isComponent name.toList = true := by
  simp only [validToolName, Bool.and_eq_true, decide_eq_true_eq] at valid
  obtain ⟨⟨⟨nonempty, characters⟩, here⟩, up⟩ := valid
  have slash : '/' ∉ name.toList := fun member =>
    absurd (List.all_eq_true.mp characters '/' member) (by decide)
  simp only [isComponent, Bool.and_eq_true, decide_eq_true_eq]
  refine ⟨⟨⟨nonempty, by simpa using slash⟩, fun same => here ?_⟩, fun same => up ?_⟩
  · exact String.toList_inj.mp same
  · exact String.toList_inj.mp same

def ToolName.component (name : ToolName) : Component :=
  ⟨name.text, isComponent_of_validToolName name.valid⟩

theorem PackageName.author_component (p : PackageName) : isComponent p.author.toList = true := by
  have slash := p.author_plain (c := '/') rfl
  have valid := p.validAuthor
  simp only [isValidUrlPathComponentLike, Bool.and_eq_true] at valid
  simp only [isComponent, Bool.and_eq_true]
  exact ⟨⟨⟨valid.1.1.1, by simpa using slash⟩, valid.1.1.2⟩, valid.1.2⟩

theorem PackageName.project_component (p : PackageName) :
    isComponent p.project.toList = true := by
  have slash := p.project_plain (c := '/') rfl
  have dot := p.project_plain (c := '.') rfl
  have valid := p.validProject
  simp only [isValidElmProjectName, Bool.and_eq_true] at valid
  simp only [isComponent, Bool.and_eq_true, decide_eq_true_eq]
  refine ⟨⟨⟨valid.1.1.1.1.1, by simpa using slash⟩, fun same => dot ?_⟩, fun same => dot ?_⟩
  · simp [same]
  · simp [same]

/-! ## Manifests -/

/-- `KitTool`. -/
structure KitTool where
  name : ToolName
  url : Option String
  localBinPath : Option String
deriving DecidableEq

/-- `KitPackage`. -/
structure KitPackage where
  author : Component
  name : Component
  version : Option String
deriving DecidableEq

/-- `KitLocalDev`. -/
structure KitLocalDev where
  author : Component
  name : Component
  version : String
deriving DecidableEq

/-- The part of `KitManifest` that is read from a kitfile. -/
structure KitManifest where
  compilerName : String
  compilerVersion : String
  kitName : String
  kitVersion : String
  tools : List KitTool
  packages : List KitPackage
  localDevs : List KitLocalDev
deriving DecidableEq

/-! ## The parser -/

/-- `SectionKind`, with `active_idx`. -/
inductive SectionKind
  | none
  | kit
  | tool (idx : Nat)
  | singleLine
deriving DecidableEq

/-- The manifest as far as it is read. -/
structure Draft where
  seenFormat : Bool
  compiler : Option (String × String)
  kitName : Option String
  kitVersion : Option String
  tools : List KitTool
  packages : List KitPackage
  localDevs : List KitLocalDev
  active : SectionKind

/-- `manifest_init`. -/
def Draft.init : Draft := ⟨false, none, none, none, [], [], [], .none⟩

/-- A line as the C string that it is. -/
def cLine (line : List Char) : List Char := line.takeWhile (· ≠ Char.ofNat 0)

def isBlank (c : Char) : Bool := c = ' ' || c = '\t' || c = '\r'

/-- `rstrip_in_place`. -/
def rstripInPlace (s : List Char) : List Char :=
  (s.reverse.dropWhile fun c => isBlank c || c = '\n').reverse

/-- `skip_leading_ws`. -/
def skipLeadingWs (s : List Char) : List Char := s.dropWhile fun c => c = ' ' || c = '\t'

/-- `extract_top_value`. -/
def extractTopValue (line : List Char) (key : String) : Option String :=
  let value := rstripInPlace (skipLeadingWs (line.drop key.length))
  if value = [] then none else some (String.ofList value)

/-- The parts of a text before and after the last slash. -/
def cutLastSlash (text : List Char) : Option (List Char × List Char) :=
  (cutAt '/' text.reverse).map fun parts => (parts.2.reverse, parts.1.reverse)

/-- `parse_pkg_with_version`. -/
def parsePkgWithVersion (spec : String) (versionRequired : Bool) :
    Option (PackageName × Option String) :=
  match cutAt '@' spec.toList with
  | some (package, version) => do
    let package ← parsePackageName (String.ofList package)
    if version = [] then none else some (package, some (String.ofList version))
  | none =>
    match cutLastSlash spec.toList with
    | some (package, version) =>
      if spec.toList.count '/' = 2 then do
        let package ← parsePackageName (String.ofList package)
        if version = [] then none else some (package, some (String.ofList version))
      else if versionRequired then none
      else (parsePackageName spec).map fun package => (package, none)
    | none =>
      if versionRequired then none
      else (parsePackageName spec).map fun package => (package, none)

/-- `manifest_has_tool_named`. -/
def manifestHasToolNamed (tools : List KitTool) (name : String) : Bool :=
  tools.any fun t => t.name.text = name

/-- `starts_with`. -/
def startsWith (s : List Char) (key : String) : Bool := key.toList.isPrefixOf s

/-- `url_is_http`. -/
def urlIsHttp (url : String) : Bool :=
  startsWith url.toList "http://" || startsWith url.toList "https://"

/-- A `tool:` entry. -/
def parseTool (d : Draft) (content : List Char) : Option Draft := do
  let name ← extractTopValue content "tool:"
  if valid : validToolName name = true then
    if manifestHasToolNamed d.tools name then none
    else
      some { d with
        tools := d.tools ++ [⟨⟨name, valid⟩, none, none⟩]
        active := .tool d.tools.length }
  else none

/-- A `package:` entry. -/
def parsePackage (d : Draft) (content : List Char) : Option Draft := do
  let value ← extractTopValue content "package:"
  let (package, version) ← parsePkgWithVersion value false
  let entry : KitPackage :=
    ⟨⟨package.author, PackageName.author_component package⟩,
      ⟨package.project, PackageName.project_component package⟩, version⟩
  some { d with packages := d.packages ++ [entry], active := .singleLine }

/-- A `local-dev:` entry. -/
def parseLocalDev (d : Draft) (content : List Char) : Option Draft := do
  let value ← extractTopValue content "local-dev:"
  let (package, version) ← parsePkgWithVersion value true
  let version ← version
  let entry : KitLocalDev :=
    ⟨⟨package.author, PackageName.author_component package⟩,
      ⟨package.project, PackageName.project_component package⟩, version⟩
  some { d with localDevs := d.localDevs ++ [entry], active := .singleLine }

/-- The compiler line. -/
def parseCompiler (d : Draft) (content : List Char) : Option Draft := do
  let (name, rest) ← cutAt ' ' content
  let version := skipLeadingWs rest
  if name = [] || version = [] then none
  else some { d with compiler := some (String.ofList name, String.ofList version) }

/-- A line without indentation. -/
def parseTopLevel (d : Draft) (content : List Char) : Option Draft :=
  if !d.seenFormat then
    if content = "format 2".toList then some { d with seenFormat := true } else none
  else if d.compiler.isNone then parseCompiler d content
  else if startsWith content "kit:" then
    if d.kitName.isSome then none
    else (extractTopValue content "kit:").map fun name =>
      { d with kitName := some name, active := .kit }
  -- the first entry is the kit
  else if d.kitName.isNone then none
  else if startsWith content "tool:" then parseTool d content
  else if startsWith content "package:" then parsePackage d content
  else if startsWith content "local-dev:" then parseLocalDev d content
  else none

/-- A property of an open `tool:` block. -/
def parseUrl (d : Draft) (idx : Nat) (content : List Char) : Option Draft := do
  let url ← extractTopValue content "url:"
  let tool ← d.tools[idx]?
  if !urlIsHttp url || tool.url.isSome then none
  else some { d with tools := d.tools.set idx { tool with url := some url } }

/-- An indented line. -/
def parseProperty (d : Draft) (content : List Char) : Option Draft :=
  match d.active with
  | .kit =>
    if startsWith content "version:" then
      match extractTopValue content "version:" with
      | none => none
      | some version =>
        if d.kitVersion.isSome then none else some { d with kitVersion := some version }
    else none
  | .tool idx => if startsWith content "url:" then parseUrl d idx content else none
  | _ => none

/-- The body of the loop of `kitfile_parse`. -/
def parseLine (d : Draft) (line : List Char) : Option Draft :=
  let line := rstripInPlace (cLine line)
  -- a blank line ends a block
  if line.all isBlank then some { d with active := .none }
  else if line.head? = some '\t' then none
  else
    let indent := (line.takeWhile (· = ' ')).length
    let content := line.drop indent
    if indent = 0 then parseTopLevel { d with active := .none } content
    else if indent ≠ 4 then none
    else parseProperty d content

/-- The checks at the end of `kitfile_parse`. -/
def Draft.finish (d : Draft) : Option KitManifest := do
  let (compilerName, compilerVersion) ← d.compiler
  let kitName ← d.kitName
  let kitVersion ← d.kitVersion
  if !d.seenFormat || d.tools.any fun t => t.url.isNone then none
  else
    some ⟨compilerName, compilerVersion, kitName, kitVersion, d.tools, d.packages, d.localDevs⟩

/-- `kitfile_parse`. A last line that is empty does nothing. -/
def kitfileParse (body : String) : Option KitManifest := do
  let draft ← (body.toList.splitOn '\n').foldlM parseLine .init
  draft.finish

/-- All tools of a kitfile are downloaded. -/
theorem kitfileParse_urls {body : String} {m : KitManifest} (parsed : kitfileParse body = some m) :
    ∀ tool ∈ m.tools, tool.url.isSome := by
  obtain ⟨draft, _, finished⟩ := Option.bind_eq_some_iff.mp parsed
  unfold Draft.finish at finished
  obtain ⟨compiler, _, finished⟩ := Option.bind_eq_some_iff.mp finished
  obtain ⟨kitName, _, finished⟩ := Option.bind_eq_some_iff.mp finished
  obtain ⟨kitVersion, _, finished⟩ := Option.bind_eq_some_iff.mp finished
  split at finished
  · cases finished
  · rename_i complete
    cases finished
    simp only [Bool.or_eq_true, not_or] at complete
    simpa [Option.isSome_iff_ne_none, Option.isNone_iff_eq_none] using complete.2

end ElmWrap.Kit
