import ElmWrap.Lib.Datalog
import ElmWrap.Publish.Prepublish

/-!
# The rules of `package prepublish`

`core_package_files.dl` and `publish_files.dl` as a stratified program, over the facts
that are inserted for a package directory. Symbols are texts. An equality in a body is
put into the atom it is about.
-/

namespace ElmWrap.Publish

open Lib

/-- The predicates of the two files. -/
inductive PublishPred
  | packageFileInfo
  | exposedModule
  | fileModule
  | fileImport
  | allowedRootFile
  | dontDescendInto
  | reachableModule
  | reachableFile
  | corePackageFile
  | publishFile
  | extraFile
deriving DecidableEq

abbrev PublishRule := Datalog.Rule PublishPred (List Char)

/-- A symbol in a rule. -/
def sym (text : String) : Datalog.Term (List Char) := .const text.toList

/-- `dont_descend_into(name).` -/
def dontDescendInto (name : String) : PublishRule where
  head := ⟨.dontDescendInto, [sym name]⟩
  body := []
  negated := []

/-- `reachable_module(Module) :- exposed_module(Module).` -/
def reachableExposed : PublishRule where
  head := ⟨.reachableModule, [.var "Module"]⟩
  body := [⟨.exposedModule, [.var "Module"]⟩]
  negated := []

/-- `reachable_module(Module) :- reachable_file(File), file_import(File, Module).` -/
def reachableImported : PublishRule where
  head := ⟨.reachableModule, [.var "Module"]⟩
  body := [⟨.reachableFile, [.var "File"]⟩, ⟨.fileImport, [.var "File", .var "Module"]⟩]
  negated := []

/-- `reachable_file(File) :- file_module(File, Module), reachable_module(Module).` -/
def reachableDeclared : PublishRule where
  head := ⟨.reachableFile, [.var "File"]⟩
  body := [⟨.fileModule, [.var "File", .var "Module"]⟩, ⟨.reachableModule, [.var "Module"]⟩]
  negated := []

/-- `core_package_file(Abs, Rel) :- package_file_info(Abs, Rel, _), reachable_file(Abs).` -/
def coreReachable : PublishRule where
  head := ⟨.corePackageFile, [.var "Abs", .var "Rel"]⟩
  body := [⟨.packageFileInfo, [.var "Abs", .var "Rel", .var "_"]⟩,
    ⟨.reachableFile, [.var "Abs"]⟩]
  negated := []

/-- `core_package_file(Abs, Rel) :- package_file_info(Abs, Rel, _), allowed_root_file(Abs).` -/
def coreAllowed : PublishRule where
  head := ⟨.corePackageFile, [.var "Abs", .var "Rel"]⟩
  body := [⟨.packageFileInfo, [.var "Abs", .var "Rel", .var "_"]⟩,
    ⟨.allowedRootFile, [.var "Abs"]⟩]
  negated := []

/-- `core_package_file(Abs, Rel) :- package_file_info(Abs, Rel, name).` -/
def coreNamed (name : String) : PublishRule where
  head := ⟨.corePackageFile, [.var "Abs", .var "Rel"]⟩
  body := [⟨.packageFileInfo, [.var "Abs", .var "Rel", sym name]⟩]
  negated := []

/-- `publish_file(Abs, Rel) :- core_package_file(Abs, Rel).` -/
def publishCore : PublishRule where
  head := ⟨.publishFile, [.var "Abs", .var "Rel"]⟩
  body := [⟨.corePackageFile, [.var "Abs", .var "Rel"]⟩]
  negated := []

/-- `publish_file(Abs, Rel) :- package_file_info(Abs, Rel, _), Rel = rel.` -/
def publishRoot (rel : String) : PublishRule where
  head := ⟨.publishFile, [.var "Abs", sym rel]⟩
  body := [⟨.packageFileInfo, [.var "Abs", sym rel, .var "_"]⟩]
  negated := []

/-- `extra_file(Abs, Rel) :- package_file_info(Abs, Rel, _), not publish_file(Abs, Rel).` -/
def extraFile : PublishRule where
  head := ⟨.extraFile, [.var "Abs", .var "Rel"]⟩
  body := [⟨.packageFileInfo, [.var "Abs", .var "Rel", .var "_"]⟩]
  negated := [⟨.publishFile, [.var "Abs", .var "Rel"]⟩]

/-- The names `load_dont_descend_into_names` gives. -/
def dontDescendNames : List String := [".git", "elm-stuff", "node_modules", ".node_modules"]

/-- `core_package_files.dl`. -/
def corePackageFiles : List PublishRule :=
  dontDescendNames.map dontDescendInto ++
    [reachableExposed, reachableImported, reachableDeclared, coreReachable, coreAllowed,
      coreNamed "docs.json", coreNamed "endpoint.json"]

/-- `publish_files.dl`. -/
def publishFiles : List PublishRule :=
  [publishCore, publishRoot "elm.json", publishRoot "LICENSE", publishRoot "README.md", extraFile]

/-- The two files, loaded one after the other. -/
def publishPolicy : Datalog.Program PublishPred (List Char) where
  rules := corePackageFiles ++ publishFiles
  stratum
    | .extraFile => 1
    | _ => 0
  positive := by
    simp [corePackageFiles, publishFiles, dontDescendNames, dontDescendInto, reachableExposed,
      reachableImported, reachableDeclared, coreReachable, coreAllowed, coreNamed, publishCore,
      publishRoot, extraFile]
  negative := by
    simp [corePackageFiles, publishFiles, dontDescendNames, dontDescendInto, reachableExposed,
      reachableImported, reachableDeclared, coreReachable, coreAllowed, coreNamed, publishCore,
      publishRoot, extraFile]

/-- The inserted facts. -/
inductive PublishFact (dir : PackageDirectory) : PublishPred → List (List Char) → Prop
  | packageFileInfo {path : RealPath} :
    path ∈ (collectAllFilesWithSkippedDirs dontDescendNames dir.entries).files →
    PublishFact dir .packageFileInfo
      [path.text, dir.relPath path, PackageDirectory.fileName path]
  | exposedModule {moduleName : String} :
    moduleName ∈ dir.exposedModules → PublishFact dir .exposedModule [moduleName.toList]
  | fileModule {path : RealPath} {moduleName : String} :
    path ∈ dir.elmFiles → dir.fileModule path = some moduleName →
    PublishFact dir .fileModule [path.text, moduleName.toList]
  | fileImport {path : RealPath} {moduleName : String} :
    path ∈ dir.elmFiles → moduleName ∈ dir.fileImports path →
    PublishFact dir .fileImport [path.text, moduleName.toList]
  | allowedRootFile {path : RealPath} :
    path ∈ dir.allowedRootFiles → PublishFact dir .allowedRootFile [path.text]

/-- The relations after `rulr_evaluate`. -/
def evaluated (dir : PackageDirectory) : Datalog.Interp PublishPred (List Char) :=
  publishPolicy.model (PublishFact dir)

end ElmWrap.Publish
