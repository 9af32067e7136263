import ElmWrap.ElmJson
import ElmWrap.V2Index.Parse

/-!
# The text registry of local development packages

`register_local_dev_v2_text_registry` of `install_local_dev.c` appends to
`registry-local-dev.dat` what `v2_registry_parse` reads, after its own look at the
file. The characters of a text stand for its bytes.
-/

namespace ElmWrap

/-! ## `text_registry_has_version` -/

/-- `registry_line_end`, for what stands behind a match. -/
def registryLineEnd : List Char → Bool
  | [] => true
  | c :: _ => c = '\n' || c = '\r' || c = '\x00'

/-- `package: `, which starts the next block. -/
def packageMark : List Char := "package: ".toList

/-- The inner loop: the version is found before the next block starts. -/
def versionInBlock (verPattern : List Char) : List Char → Bool
  | [] => false
  | c :: rest =>
    if packageMark.isPrefixOf (c :: rest) then false
    else
      (verPattern.isPrefixOf (c :: rest) &&
          registryLineEnd ((c :: rest).drop verPattern.length)) ||
        versionInBlock verPattern rest

/-- The outer loop, over the places where the package is found. -/
def versionInBlocks (pkgPattern verPattern : List Char) : List Char → Bool
  | [] => false
  | c :: rest =>
    (pkgPattern.isPrefixOf (c :: rest) &&
        registryLineEnd ((c :: rest).drop pkgPattern.length) && versionInBlock verPattern rest) ||
      versionInBlocks pkgPattern verPattern rest

/-- `pkg_pattern`. -/
def pkgPattern (author name : String) : List Char :=
  ("package: " ++ author ++ "/" ++ name).toList

/-- `ver_pattern`. -/
def verPattern (version : String) : List Char := ("version: " ++ version).toList

/-- `MAX_VERSION_STRING_MEDIUM_LENGTH`. -/
def maxVersionStringMediumLength : Nat := 64

/-- `text_registry_has_version`; the content ends at its first zero byte. -/
def textRegistryHasVersion (content : List Char) (author name version : String) : Bool :=
  if (pkgPattern author name).length ≥ maxPackageNameLength ||
      (verPattern version).length ≥ maxVersionStringMediumLength then false
  else
    versionInBlocks (pkgPattern author name) (verPattern version)
      (content.takeWhile (· ≠ '\x00'))

/-! ## Registration -/

/-- What a registration meets. -/
structure TextRegistryRun where
  /-- The tracking directory is known and can be made. -/
  tracks : Bool
  /-- The dependencies in the package's `elm.json`; `none` where it cannot be read. -/
  packageDependencies : Option (List Package)
  /-- `registry-local-dev.dat` can be opened for appending. -/
  opens : Bool
  compilerName : String
  compilerVersion : String

/-- `MAX_V2_REGISTRY_TEXT_FILE_BYTES`. -/
def maxV2RegistryTextFileBytes : Nat := 64 * 1048576

/-- The lines that start a new file. -/
def headerText (compilerName compilerVersion : String) : List Char :=
  "format 2\n".toList ++ (compilerName ++ " " ++ compilerVersion ++ "\n\n").toList

/-- The line of a dependency. -/
def dependencyText (dep : Package) : List Char :=
  ("        " ++ dep.name.author ++ "/" ++ dep.name.project ++ "  " ++ dep.version ++ "\n").toList

/-- The lines of a registration. -/
def blockText (author name version : String) (deps : List Package) : List Char :=
  ("package: " ++ author ++ "/" ++ name ++ "\n").toList ++
    ("    version: " ++ version ++ "\n").toList ++ "    status: valid\n".toList ++
    "    license: BSD-3-Clause\n".toList ++ "    dependencies:\n".toList ++
    deps.flatMap dependencyText ++ "\n".toList

/-- `file_read_contents_bounded` of the file. -/
def readTextRegistry (text : Option (List Char)) : Option (List Char) :=
  text.filter fun content => content.length ≤ maxV2RegistryTextFileBytes

/-- `register_local_dev_v2_text_registry`: the file, and what it returns. -/
def registerLocalDevV2TextRegistry (run : TextRegistryRun) (text : Option (List Char))
    (author name version : String) : Option (List Char) × Bool :=
  if !run.tracks then (text, true)
  else
    match run.packageDependencies with
    | none => (text, false)
    | some deps =>
      if (readTextRegistry text).any (textRegistryHasVersion · author name version) then
        (text, true)
      else if !run.opens then (text, false)
      else
        let content := text.getD []
        let content :=
          if content.isEmpty then headerText run.compilerName run.compilerVersion else content
        (some (content ++ blockText author name version deps), true)

/-! ## Sequences -/

/-- The author, the name and the version text of a registration. -/
abbrev LocalDevKey := String × String × String

inductive LocalDevOperation
  /-- A registration. -/
  | register (run : TextRegistryRun) (key : LocalDevKey)
  /-- `unregister_local_dev_package`, which can fail to remove the tracking directory. -/
  | unregister (removes : Bool) (key : LocalDevKey)

/-- The file, and what is registered: the dependencies of the last registration of a version that
has not been unregistered since. -/
structure LocalDevState where
  text : Option (List Char)
  registered : LocalDevKey → Option (List Package)

/-- An operation. `unregister_local_dev_package` does not open the file. -/
def LocalDevState.step (state : LocalDevState) : LocalDevOperation → LocalDevState
  | .register run key =>
    let (text, registers) := registerLocalDevV2TextRegistry run state.text key.1 key.2.1 key.2.2
    { text
      registered :=
        if registers then
          Function.update state.registered key (some (run.packageDependencies.getD []))
        else state.registered }
  | .unregister removes key =>
    if removes then { state with registered := Function.update state.registered key none }
    else state

/-- Nothing is registered, and there is no file. -/
def LocalDevState.start : LocalDevState := ⟨none, fun _ => none⟩

def runLocalDev (operations : List LocalDevOperation) : LocalDevState :=
  operations.foldl LocalDevState.step .start

end ElmWrap
