import Mathlib.Data.List.DropRight
import ElmWrap.ExposedModules
import ElmWrap.Publish.Prepublish

/-!
# The import tree of a package

`import_tree.c`: the files that are reached from the exposed modules of a package, those
of its source directory that are not, and the tree that is printed. A directory is what
`readdir` and `stat` show of it, links followed. The depth is that of the recursion. The
characters of a text stand for its bytes.
-/

namespace ElmWrap.ImportTree

open Lib (Json)
open Publish (Entries RealPath Child collectAllElmFiles)

/-! ## Source directories -/

/-- A source directory, and what its files say. -/
structure SourceDirectory where
  entries : Entries
  /-- `skeleton_parse` of the file at a path. -/
  skeletonParse : RealPath → Option SkeletonModule

/-- What an analysis finds on the disk. -/
structure Disk where
  fileExists : String → Bool
  /-- `cJSON_Parse` of what `read_file_content` returns. -/
  readJson : String → Option Json
  sourceDirectory : String → SourceDirectory

/-- The entry that a path leads to, name by name. -/
def lookup (entries : Entries) : List String → Option Child
  | [] => none
  | [name] => entries.child name
  | name :: names =>
    match entries.child name with
    | some (.directory _ below) => lookup below names
    | _ => none

/-- `module_name_to_path`, as the names behind `src_dir`. -/
def moduleNameToPath (moduleName : String) : List String :=
  let path := moduleName.toList.map (fun c => if c = '.' then '/' else c) ++ ".elm".toList
  ((path.splitOn '/').filter (· ≠ [])).map String.ofList

namespace SourceDirectory

/-- `file_exists`: a regular file. -/
def fileExists (dir : SourceDirectory) (path : List String) : Bool :=
  match lookup dir.entries path with
  | some (.file _) => true
  | _ => false

def realpath (dir : SourceDirectory) (path : List String) : Option RealPath :=
  (lookup dir.entries path).bind Child.real

/-- `collect_reachable_files`. The file that is parsed is the one `realpath` has named. -/
def collectReachableFiles (dir : SourceDirectory) :
    Nat → List String → List RealPath → Option (List RealPath)
  | depth, filePath, visited =>
    match dir.realpath filePath with
    | none => some visited
    | some absPath =>
      if absPath ∈ visited then some visited
      else
        match depth with
        | 0 => none
        | depth + 1 =>
          match dir.skeletonParse absPath with
          | none => some (visited ++ [absPath])
          | some mod =>
            mod.imports.foldlM (fun visited moduleName =>
              if dir.fileExists (moduleNameToPath moduleName) then
                dir.collectReachableFiles depth (moduleNameToPath moduleName) visited
              else some visited) (visited ++ [absPath])

/-- What is visited for an exposed module. -/
def traverse (dir : SourceDirectory) (depth : Nat) (moduleName : String) :
    Option (List RealPath) :=
  if dir.fileExists (moduleNameToPath moduleName) then
    dir.collectReachableFiles depth (moduleNameToPath moduleName) []
  else some []

end SourceDirectory

/-! ## Analysis -/

structure ImportTreeAnalysis where
  includedFiles : List RealPath
  redundantFiles : List RealPath
  totalFiles : Nat
  packageDir : String
  srcDir : String
  exposedModules : List String
deriving DecidableEq

/-- `strip_trailing_slash`. -/
def stripTrailingSlash (path : String) : String :=
  match path.toList with
  | [] => path
  | first :: rest => String.ofList (first :: rest.rdropWhile (· = '/'))

/-- What `snprintf` leaves of a path in `elm_json_path` or `src_dir`. -/
def pathBuffer (path : String) : String := String.ofList (path.toList.take 2047)

/-- `parse_source_directories`, empty where there is no list. -/
def parseSourceDirectories (root : Option Json) : List String :=
  match root.bind (getObjectItem · "source-directories") with
  | some (.array items) => items.filterMap Json.text?
  | _ => []

/-- `elm_json_path`. -/
def elmJsonPath (packageDir : String) : String :=
  pathBuffer (stripTrailingSlash packageDir ++ "/elm.json")

/-- `src_dir`. -/
def srcDir (disk : Disk) (packageDir : String) : String :=
  match parseSourceDirectories (disk.readJson (elmJsonPath packageDir)) with
  | [] => pathBuffer (stripTrailingSlash packageDir ++ "/src")
  | dir :: _ => pathBuffer (stripTrailingSlash packageDir ++ "/" ++ dir)

/-- Add the visited files to the included ones. -/
def addIncluded (included visited : List RealPath) : List RealPath :=
  visited.foldl (fun included path =>
    if included.contains path then included else included ++ [path]) included

/-- `import_tree_analyze`; the inner `none` is the null pointer. -/
def importTreeAnalyze (disk : Disk) (depth : Nat) (packageDir : String) :
    Option (Option ImportTreeAnalysis) :=
  if disk.fileExists (elmJsonPath packageDir) then
    -- `parse_exposed_modules`
    match elmParseExposedModules (disk.readJson (elmJsonPath packageDir)) with
    | none => some none
    | some exposedModules => do
      let srcDir := srcDir disk packageDir
      let dir := disk.sourceDirectory srcDir
      let includedFiles ← exposedModules.foldlM (fun included moduleName =>
        (dir.traverse depth moduleName).map (addIncluded included)) []
      let allFiles := collectAllElmFiles dir.entries
      return some {
        includedFiles
        redundantFiles := allFiles.filter fun path => !includedFiles.contains path
        totalFiles := allFiles.length
        packageDir := stripTrailingSlash packageDir
        srcDir
        exposedModules }
  else some none

/-! ## Printing -/

/-- Why a tree is not printed to its end. -/
inductive PrintFault
  | depth
  /-- A path is stored behind the end of `local_import_paths`. -/
  | overrun
deriving DecidableEq

/-- The files visited and the lines printed. -/
structure Printed where
  visited : List RealPath
  lines : List String

/-- The local and the external imports of a file. -/
structure SplitImports where
  localImports : List (String × RealPath)
  externalImports : List String

/-- The size of `local_import_paths`: `DYNARRAY_PUSH` grows `local_import_names` first, and with it
the capacity that the two arrays share. -/
def localImportsCapacity : Nat := 16

/-- A printed line. -/
def treeLine (above : String) (isLast : Bool) (text : String) : String :=
  above ++ (if isLast then "└── " else "├── ") ++ text

namespace SourceDirectory

/-- The loop of `print_tree_recursive` over the imports of a file. -/
def splitImports (dir : SourceDirectory) (current : RealPath) (showExternal : Bool) :
    List String → SplitImports
  | [] => ⟨[], []⟩
  | moduleName :: rest =>
    let others := splitImports dir current showExternal rest
    let modulePath := moduleNameToPath moduleName
    if dir.fileExists modulePath then
      match dir.realpath modulePath with
      | some absPath =>
        if absPath = current then others
        else { others with localImports := (moduleName, absPath) :: others.localImports }
      | none => others
    else if showExternal then
      { others with externalImports := moduleName :: others.externalImports }
    else others

/-- The loop of `print_tree_recursive` over the local imports, with the call for those that have
not been visited. -/
def printLocal (recurse : RealPath → String → Printed → Except PrintFault Printed)
    (above : String) (totalImports : Nat) (printed : Printed) :
    (String × RealPath) × Nat → Except PrintFault Printed
  | ((moduleName, modAbsPath), i) =>
    let alreadyVisited := printed.visited.contains modAbsPath
    let isLast := decide (i + 1 = totalImports)
    let shown := moduleName ++ (if alreadyVisited then " (↩ already shown)" else "")
    let printed := { printed with lines := printed.lines ++ [treeLine above isLast shown] }
    if alreadyVisited then .ok printed
    else recurse modAbsPath (above ++ (if isLast then "    " else "│   ")) printed

/-- `print_tree_recursive`, at a path that `realpath` has returned. -/
def printTreeRecursive (dir : SourceDirectory) (showExternal : Bool) :
    Nat → RealPath → String → Printed → Except PrintFault Printed
  | depth, absPath, above, printed =>
    if absPath ∈ printed.visited then .ok printed
    else
      match depth with
      | 0 => .error .depth
      | depth + 1 =>
        let printed := { printed with visited := printed.visited ++ [absPath] }
        match dir.skeletonParse absPath with
        | none => .ok printed
        | some mod =>
          let imports := dir.splitImports absPath showExternal mod.imports
          if localImportsCapacity < imports.localImports.length then .error .overrun
          else do
            let totalImports := imports.localImports.length + imports.externalImports.length
            let recurse := dir.printTreeRecursive showExternal depth
            let printed ← imports.localImports.zipIdx.foldlM
              (printLocal recurse above totalImports) printed
            let others := imports.externalImports.zipIdx imports.localImports.length
            let lines := others.map fun (moduleName, i) =>
              treeLine above (decide (i + 1 = totalImports)) (moduleName ++ " (📦 external)")
            return { printed with lines := printed.lines ++ lines }

end SourceDirectory

end ElmWrap.ImportTree
