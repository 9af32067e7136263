import ElmWrap.Registry
import ElmWrap.Lib.Keyed
import ElmWrap.Lib.Sections

/-!
# `v2_registry_parse`

The reader of the V2 index in `protocol_v2/solver/v2_registry.c`: its line
scanners, the helpers that add entries, versions and dependencies, and the loop
over the lines with its state. The name and version of the compiler and the
licenses, which nothing reads, are left out.
-/

namespace ElmWrap

open Lib

/-- A line, without its end. -/
abbrev Line := List Char

/-! ## Lines -/

/-- The lines `extract_line` cuts off one after the other, up to the end of the data. -/
def extractLines : List Char → List Line
  | [] => []
  | '\n' :: rest => [] :: extractLines rest
  | '\r' :: '\n' :: rest => [] :: extractLines rest
  | '\r' :: rest => [] :: extractLines rest
  | c :: rest =>
    match extractLines rest with
    | [] => [[c]]
    | line :: lines => (c :: line) :: lines

/-- The lines as C strings, which end at the first zero byte. -/
def indexLines (data : List Char) : List Line :=
  (extractLines data).map fun line => line.takeWhile (· ≠ '\x00')

/-- `strncmp` with a whole literal. -/
def Line.starts (line : Line) (text : String) : Bool := text.toList.isPrefixOf line

/-- `skip_whitespace`. -/
def skipWhitespace (line : Line) : Line := line.dropWhile Scan.isSpace

/-- `indent_spaces` of a line. -/
def Line.indent (line : Line) : Nat := (line.takeWhile (· = ' ')).length

/-- What stands behind the indentation. -/
def Line.content (line : Line) : Line := line.dropWhile (· = ' ')

/-! ## The scanners -/

/-- `parse_status`. -/
def parseStatus (status : Line) : V2VersionStatus :=
  if status = "valid".toList then .valid
  else if status = "obsolete".toList then .obsolete
  else if status = "missing".toList then .missing
  else if status = "missing-deps".toList then .missingDeps
  else .valid

/-- `parse_format_line`. -/
def parseFormatLine (line : Line) : Option Int :=
  match Scan.sscanf (String.ofList line) "format %d" with
  | [version] => some version
  | _ => none

/-- `parse_package_line`. -/
def parsePackageLine (line : Line) : Option PackageName :=
  if line.starts "package: " then parsePackageName (String.ofList (line.drop 9)) else none

/-- `parse_version_line`. -/
def parseVersionLine (line : Line) : Option Version :=
  let line := skipWhitespace line
  if line.starts "version: " then versionParseSafe (String.ofList (line.drop 9)) else none

/-- `parse_status_line`. -/
def parseStatusLine (line : Line) : Option V2VersionStatus :=
  let line := skipWhitespace line
  if line.starts "status: " then some (parseStatus (line.drop 8)) else none

/-- A text up to its first two blanks in a row, and from there on. -/
def cutAtBlanks : List Char → Option (List Char × List Char)
  | [] => none
  | ' ' :: ' ' :: rest => some ([], ' ' :: ' ' :: rest)
  | c :: rest => (cutAtBlanks rest).map fun p => (c :: p.1, p.2)

/-- `parse_dependency_line`. -/
def parseDependencyLine (line : Line) : Option V2Dependency :=
  (cutAtBlanks (skipWhitespace line)).map fun p =>
    { packageName := String.ofList p.1, constraint := String.ofList (skipWhitespace p.2) }

/-! ## The registry -/

/-- The author and the name of an entry. -/
def V2PackageEntry.key (entry : V2PackageEntry) : String × String := (entry.author, entry.name)

/-- The key under which a package is stored. -/
def PackageName.key (name : PackageName) : String × String := (name.author, name.project)

theorem PackageName.key_injective {p q : PackageName} (same : p.key = q.key) : p = q :=
  PackageName.ext_parts (congrArg Prod.fst same) (congrArg Prod.snd same)

theorem v2RegistryFind_eq (registry : V2Registry) (author name : String) :
    v2RegistryFind registry author name =
      Keyed.lookup V2PackageEntry.key (author, name) registry.entries := by
  unfold v2RegistryFind Keyed.lookup
  congr 1
  funext entry
  simp [V2PackageEntry.key]

/-- `v2_registry_create`. -/
def v2RegistryCreate : V2Registry := { entries := [] }

/-- `v2_registry_add_entry`. -/
def v2RegistryAddEntry (registry : V2Registry) (author name : String) : V2Registry :=
  match v2RegistryFind registry author name with
  | some _ => registry
  | none => { entries := registry.entries ++ [⟨author, name, []⟩] }

/-- A change of the versions of the entry a pointer stands for. -/
def V2Registry.setVersions (registry : V2Registry) (key : String × String)
    (f : List V2PackageVersion → List V2PackageVersion) : V2Registry where
  entries := Keyed.update V2PackageEntry.key key
    (fun entry => { entry with versions := f entry.versions }) registry.entries

/-- A change of the last item. -/
def modifyLast {α : Type} (f : α → α) : List α → List α
  | [] => []
  | [a] => [f a]
  | a :: rest => a :: modifyLast f rest

/-! ## The loop -/

/-- The variables of the loop. `currentVersion` points to the last version of the current
entry. -/
structure V2ParseState where
  registry : V2Registry
  currentEntry : Option PackageName
  currentVersion : Bool
  inDependencies : Bool

/-- `current_version`, changed. -/
def V2ParseState.setVersion (state : V2ParseState) (f : V2PackageVersion → V2PackageVersion) :
    V2ParseState :=
  match state.currentEntry with
  | some name => { state with registry := state.registry.setVersions name.key (modifyLast f) }
  | none => state

/-- A line that is not indented. -/
def V2ParseState.topLine (state : V2ParseState) (line : Line) : Option V2ParseState :=
  let state := { state with inDependencies := false }
  if line.starts "format " then
    match parseFormatLine line with
    | none => none
    | some version => if version ≠ 2 then none else some state
  else if line.starts "package:" then
    match parsePackageLine line with
    | none => none
    | some name => some { state with
        registry := v2RegistryAddEntry state.registry name.author name.project
        currentEntry := some name
        currentVersion := false }
  else some state

/-- A line at the level of a version. -/
def V2ParseState.versionLine (state : V2ParseState) (line : Line) : Option V2ParseState :=
  let state := { state with inDependencies := false }
  let p := line.content
  if p.starts "version:" then
    match state.currentEntry with
    | none => none
    | some name =>
      match parseVersionLine line with
      | none => none
      | some v => some { state with
          registry := state.registry.setVersions name.key fun versions =>
            versions ++ [⟨v.major, v.minor, v.patch, .valid, []⟩]
          currentVersion := true }
  else if p.starts "status:" then
    if state.currentVersion then
      match parseStatusLine line with
      | none => some state
      | some status => some (state.setVersion fun pv => { pv with status := status })
    else some state
  else if p.starts "license:" then some state
  else if p.starts "dependencies:" then some { state with inDependencies := true }
  else some state

/-- The body of the loop; `none` where the function gives up. -/
def V2ParseState.step (state : V2ParseState) (line : Line) : Option V2ParseState :=
  if line = [] then some state
  else if line.indent = 0 then state.topLine line
  else if line.indent = 4 then state.versionLine line
  else if line.indent = 8 && state.inDependencies && state.currentVersion then
    match parseDependencyLine line with
    | none => some state
    | some dependency => some (state.setVersion fun pv =>
      { pv with dependencies := pv.dependencies ++ [dependency] })
  else some state

/-- The state before the first line. -/
def V2ParseState.start : V2ParseState where
  registry := v2RegistryCreate
  currentEntry := none
  currentVersion := false
  inDependencies := false

/-- `v2_registry_parse`; `none` when it returns `NULL`. -/
def v2RegistryParse (data : List Char) : Option V2Registry :=
  if data = [] then none
  else ((indexLines data).foldlM V2ParseState.step V2ParseState.start).map V2ParseState.registry

/-! ## `v2_registry_merge_local_dev` -/

/-- The loop over the versions of an entry of the local-dev registry. -/
def mergeV2Versions (local_versions versions : List V2PackageVersion) : List V2PackageVersion :=
  local_versions.foldl (fun versions pv =>
    if versions.any fun v => v.version = pv.version then versions else versions ++ [pv]) versions

/-- The loop over its entries. -/
def mergeV2Entries (entries : List V2PackageEntry) (registry : V2Registry) : V2Registry :=
  entries.foldl (fun registry entry =>
    (v2RegistryAddEntry registry entry.author entry.name).setVersions entry.key
      (mergeV2Versions entry.versions)) registry

/-- `v2_registry_merge_local_dev`; `none` for a file that does not exist. -/
def v2RegistryMergeLocalDev (registry : V2Registry) (file : Option (List Char)) :
    V2Registry × Bool :=
  match file with
  | none => (registry, true)
  | some data =>
    match v2RegistryParse data with
    | none => (registry, false)
    | some localDev => (mergeV2Entries localDev.entries registry, true)

end ElmWrap
