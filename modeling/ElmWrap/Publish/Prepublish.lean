import ElmWrap.Build.BuildDriver
import ElmWrap.CJson

/-!
# The facts of `package prepublish`

What `cmd_package_prepublish` of `package_publish.c` collects in a package directory
and inserts as facts. The directory is what `readdir` and `stat` show of it, links
followed; an entry comes with what `realpath` returns for it. The characters of a text
stand for its bytes.
-/

namespace ElmWrap.Publish

open Lib (Json)

/-! ## Directories -/

/-- A path that `realpath` has returned. -/
structure RealPath where
  text : List Char
  absolute : text.head? = some '/'
deriving DecidableEq

/-- The entries of a directory, in the order of `readdir`. -/
inductive Entries
  | done
  | file (name : String) (real : Option RealPath) (rest : Entries)
  | directory (name : String) (real : Option RealPath) (below rest : Entries)
  /-- `stat` fails, or the entry is of another type. -/
  | other (name : String) (real : Option RealPath) (rest : Entries)

/-- An entry that is looked up. -/
inductive Child
  | file (real : Option RealPath)
  | directory (real : Option RealPath) (below : Entries)
  | other (real : Option RealPath)

/-- The entry of a name. -/
def Entries.child (name : String) : Entries → Option Child
  | .done => none
  | .file n real rest => if n = name then some (.file real) else rest.child name
  | .directory n real below rest =>
    if n = name then some (.directory real below) else rest.child name
  | .other n real rest => if n = name then some (.other real) else rest.child name

/-- `realpath` of an entry. -/
def Child.real : Child → Option RealPath
  | .file real => real
  | .directory real _ => real
  | .other real => real

/-- The length of the buffers for the paths of the files in the root. -/
def pathBufferLength : Nat := 2048

/-- A package directory: its absolute path, what is in it, and what its files say. -/
structure PackageDirectory where
  /-- `clean_abs`. -/
  root : List Char
  entries : Entries
  elmJson : Json
  /-- `skeleton_parse`. -/
  skeletonParse : RealPath → Option SkeletonModule
  /-- The buffer holds the path of `elm.json`. -/
  short : root.length + 1 + "elm.json".toList.length < pathBufferLength

/-! ## Collecting files -/

/-- The rest of a text from its last character `c` on. -/
def strrchr (c : Char) : List Char → Option (List Char)
  | [] => none
  | d :: rest =>
    match strrchr c rest with
    | some found => some found
    | none => if d = c then some (d :: rest) else none

/-- The extension of a name is `.elm`. -/
def isElmName (name : String) : Bool := strrchr '.' name.toList = some ".elm".toList

/-- `collect_all_elm_files`. -/
def collectAllElmFiles : Entries → List RealPath
  | .done => []
  | .file name real rest =>
    (if isElmName name then real.toList else []) ++ collectAllElmFiles rest
  | .directory _ _ below rest => collectAllElmFiles below ++ collectAllElmFiles rest
  | .other _ _ rest => collectAllElmFiles rest

/-- The files that are collected, and the directories that are skipped. -/
structure CollectedFiles where
  files : List RealPath
  skippedDirs : List RealPath

/-- `collect_all_files_with_skipped_dirs`. -/
def collectAllFilesWithSkippedDirs (dontDescend : List String) : Entries → CollectedFiles
  | .done => ⟨[], []⟩
  | .file _ real rest =>
    let others := collectAllFilesWithSkippedDirs dontDescend rest
    { others with files := real.toList ++ others.files }
  | .directory name real below rest =>
    let others := collectAllFilesWithSkippedDirs dontDescend rest
    if dontDescend.contains name then
      { others with skippedDirs := real.toList ++ others.skippedDirs }
    else
      let inside := collectAllFilesWithSkippedDirs dontDescend below
      ⟨inside.files ++ others.files, inside.skippedDirs ++ others.skippedDirs⟩
  | .other _ _ rest => collectAllFilesWithSkippedDirs dontDescend rest

/-! ## What is inserted -/

/-- `parse_exposed_modules`. -/
def parseExposedModules (elmJson : Json) : List String :=
  match getObjectItem elmJson "exposed-modules" with
  | some (.array items) => items.filterMap Json.text?
  | some (.object categories) => categories.flatMap fun category =>
    match category.2 with
    | .array items => items.filterMap Json.text?
    | _ => []
  | _ => []

namespace PackageDirectory

/-- `src_dir`. -/
def srcDir (dir : PackageDirectory) : List Char := dir.root ++ "/src".toList

/-- What is in `src_dir`. -/
def src (dir : PackageDirectory) : Entries :=
  match dir.entries.child "src" with
  | some (.directory _ below) => below
  | _ => .done

/-- The `exposed_module` facts. -/
def exposedModules (dir : PackageDirectory) : List String := parseExposedModules dir.elmJson

/-- The `source_file` facts. -/
def elmFiles (dir : PackageDirectory) : List RealPath := collectAllElmFiles dir.src

/-- `module_name_to_path`, without `src_dir` and the slash behind it. -/
def moduleNameToPath (dir : PackageDirectory) (moduleName : String) : Option (List Char) :=
  if dir.srcDir.length + 1 + moduleName.toList.length + 4 + 1 > maxPathLength then none
  else some (moduleName.toList.map (fun c => if c = '.' then '/' else c) ++ ".elm".toList)

/-- `file_exists`, for the names on the way. -/
def fileExists (entries : Entries) : List String → Bool
  | [] => false
  | [name] =>
    match entries.child name with
    | some (.file ..) => true
    | _ => false
  | name :: names =>
    match entries.child name with
    | some (.directory _ below) => fileExists below names
    | _ => false

/-- `module_name_to_path` leads to a file. -/
def hasModuleFile (dir : PackageDirectory) (moduleName : String) : Bool :=
  match dir.moduleNameToPath moduleName with
  | none => false
  | some path => fileExists dir.src (((path.splitOn '/').filter (· ≠ [])).map String.ofList)

/-- The module of the `file_module` fact of `extract_file_facts`. -/
def fileModule (dir : PackageDirectory) (path : RealPath) : Option String :=
  (dir.skeletonParse path).bind SkeletonModule.moduleName

/-- The modules of the `file_import` facts of `extract_file_facts`. -/
def fileImports (dir : PackageDirectory) (path : RealPath) : List String :=
  match dir.skeletonParse path with
  | none => []
  | some skeleton => skeleton.imports.filter dir.hasModuleFile

/-- `rel_path`. -/
def relPath (dir : PackageDirectory) (path : RealPath) : List Char :=
  if (dir.root ++ ['/']).isPrefixOf path.text then path.text.drop (dir.root.length + 1)
  else path.text

/-- `filename`. -/
def fileName (path : RealPath) : List Char :=
  match strrchr '/' path.text with
  | some found => found.drop 1
  | none => path.text

/-- The name in the root that is left of `name` in a buffer. -/
def bufferName (dir : PackageDirectory) (name : String) : String :=
  String.ofList (name.toList.take (pathBufferLength - 1 - (dir.root.length + 1)))

/-- The `allowed_root_file` facts. -/
def allowedRootFiles (dir : PackageDirectory) : List RealPath :=
  ["LICENSE", "README.md", "elm.json"].filterMap fun name =>
    (dir.entries.child (dir.bufferName name)).bind Child.real

end PackageDirectory

end ElmWrap.Publish
