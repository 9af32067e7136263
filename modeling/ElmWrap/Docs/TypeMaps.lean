/-!
# Import maps

`type_maps.c` and the import extraction of `module_parse.c`: what the documentation
generator keeps of the imports of a module. The exports of other modules come from the
dependency cache.
-/

namespace ElmWrap

/-! ## The dependency cache -/

/-- A type with its number of parameters; -1 where the number is not known. -/
structure ExportedType where
  name : String
  arity : Int
deriving DecidableEq, Repr

/-- `CachedModuleExports`. -/
structure CachedModuleExports where
  parsed : Bool
  exportedTypes : List ExportedType
deriving DecidableEq, Repr

/-- `dependency_cache_get_exports`; `none` where it returns `NULL`. -/
abbrev DependencyCache := String → Option CachedModuleExports

/-- The types of a module that has been parsed; nothing without a cache. -/
def exportedTypes (cache : Option DependencyCache) (moduleName : String) : List ExportedType :=
  match cache with
  | none => []
  | some get =>
    match get moduleName with
    | none => []
    | some exports => if exports.parsed then exports.exportedTypes else []

/-! ## `ImportMap` -/

/-- `TypeImport`. -/
structure TypeImport where
  typeName : String
  moduleName : String
deriving DecidableEq, Repr

/-- `add_import`. -/
def addImport (map : List TypeImport) (typeName moduleName : String) : List TypeImport :=
  map ++ [⟨typeName, moduleName⟩]

/-- `lookup_import`: the last import wins. -/
def lookupImport (map : List TypeImport) (typeName : String) : Option String :=
  (map.reverse.find? (·.typeName = typeName)).map (·.moduleName)

/-! ## `DirectModuleImports` -/

/-- `is_directly_imported`. -/
def isDirectlyImported (imports : List String) (moduleName : String) : Bool :=
  imports.contains moduleName

/-- `add_direct_import`. -/
def addDirectImport (imports : List String) (moduleName : String) : List String :=
  if isDirectlyImported imports moduleName then imports else imports ++ [moduleName]

/-- `remove_direct_import`. -/
def removeDirectImport (imports : List String) (moduleName : String) : List String :=
  imports.erase moduleName

/-! ## `ModuleAliasMap` -/

/-- `ModuleAlias`: an alias and the modules that use it, of which there is a first one. -/
structure ModuleAlias where
  aliasName : String
  first : String
  others : List String
deriving DecidableEq, Repr

/-- `full_modules`. -/
def ModuleAlias.fullModules (entry : ModuleAlias) : List String := entry.first :: entry.others

/-- `add_module_alias`. -/
def addModuleAlias (map : List ModuleAlias) (aliasName fullModule : String) : List ModuleAlias :=
  match map with
  | [] => [⟨aliasName, fullModule, []⟩]
  | entry :: map =>
    if entry.aliasName = aliasName then
      if entry.fullModules.contains fullModule then entry :: map
      else { entry with others := entry.others ++ [fullModule] } :: map
    else entry :: addModuleAlias map aliasName fullModule

/-! ## The imports of a module -/

/-- A lower-case name. -/
structure LowerName where
  text : String
  lower : ∀ c ∈ text.toList.head?, ¬ ('A' ≤ c ∧ c ≤ 'Z')

/-- An item of an exposing list. -/
inductive Exposed
  /-- `(..)`. -/
  | doubleDot
  | type (name : String)
  | value (name : LowerName)
  | operator

/-- `import_clause`. -/
structure ImportClause where
  moduleName : String
  /-- The name of the `as_clause`, in which there is no dot. -/
  moduleAlias : Option String
  exposing : List Exposed
  simple : ∀ name ∈ moduleAlias, '.' ∉ name.toList

/-- What is kept of the imports. -/
structure TypeMaps where
  importMap : List TypeImport
  aliasMap : List ModuleAlias
  directImports : List String

/-- The imports of a list of types from a module. -/
def addImports (map : List TypeImport) (typeNames : List String) (moduleName : String) :
    List TypeImport :=
  typeNames.foldl (addImport · · moduleName) map

/-- An item of the exposing list of a module. -/
def addExposed (cache : Option DependencyCache) (moduleName : String) (map : List TypeImport) :
    Exposed → List TypeImport
  | .doubleDot => addImports map ((exportedTypes cache moduleName).map (·.name)) moduleName
  | .type name => addImport map name moduleName
  | .value name =>
    if name.text.toList.head?.any (fun c => 'A' ≤ c && c ≤ 'Z') then
      addImport map name.text moduleName
    else map
  | .operator => map

/-- One import clause of `extract_imports`. -/
def extractImport (cache : Option DependencyCache) (maps : TypeMaps) (clause : ImportClause) :
    TypeMaps where
  importMap := clause.exposing.foldl (addExposed cache clause.moduleName) maps.importMap
  aliasMap :=
    match clause.moduleAlias with
    | none => maps.aliasMap
    | some aliasName => addModuleAlias maps.aliasMap aliasName clause.moduleName
  directImports :=
    match clause.moduleAlias with
    | none => addDirectImport maps.directImports clause.moduleName
    | some aliasName =>
      -- the same module, imported again under its own name
      if isDirectlyImported maps.directImports aliasName && aliasName = clause.moduleName then
        removeDirectImport maps.directImports aliasName
      else maps.directImports

/-- `extract_imports`. -/
def extractImports (cache : Option DependencyCache) (maps : TypeMaps)
    (clauses : List ImportClause) : TypeMaps :=
  clauses.foldl (extractImport cache) maps

/-- The types of `Basics` that the compiler provides, and the constructors of two of them. -/
def basicsNames : List String :=
  ["Int", "Float", "Bool", "True", "False", "Order", "LT", "EQ", "GT", "Never"]

/-- The loop over the types found in `Basics`. -/
def addBasics (cache : Option DependencyCache) (map : List TypeImport) : List TypeImport :=
  (exportedTypes cache "Basics").foldl (fun map exported =>
    if (lookupImport map exported.name).isNone then addImport map exported.name "Basics"
    else map) map

/-- The names that the other implicit imports expose. -/
def implicitNames : List TypeImport :=
  [⟨"List", "List"⟩, ⟨"Maybe", "Maybe"⟩, ⟨"Just", "Maybe"⟩, ⟨"Nothing", "Maybe"⟩,
    ⟨"Result", "Result"⟩, ⟨"Ok", "Result"⟩, ⟨"Err", "Result"⟩, ⟨"String", "String"⟩,
    ⟨"Char", "Char"⟩, ⟨"Program", "Platform"⟩, ⟨"Cmd", "Platform.Cmd"⟩,
    ⟨"Sub", "Platform.Sub"⟩]

/-- `apply_implicit_imports`, on empty maps. -/
def applyImplicitImports (cache : Option DependencyCache) : TypeMaps where
  importMap := addBasics cache (addImports [] basicsNames "Basics") ++ implicitNames
  aliasMap := addModuleAlias (addModuleAlias [] "Cmd" "Platform.Cmd") "Sub" "Platform.Sub"
  directImports :=
    ["Basics", "List", "Maybe", "Result", "String", "Char", "Tuple", "Debug", "Platform",
      "Platform.Cmd", "Platform.Sub"].foldl addDirectImport []

/-- The maps of a module, as `parse_elm_file` collects them. -/
def moduleMaps (cache : Option DependencyCache) (clauses : List ImportClause) : TypeMaps :=
  extractImports cache (applyImplicitImports cache) clauses

end ElmWrap
