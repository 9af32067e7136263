import ElmWrap.Docs.TypeMaps

/-!
# Qualification of type names

`qualify.c`: the context that the documentation generator makes of the import maps, and the
name it writes for a type.
-/

namespace ElmWrap

/-! ## The context -/

/-- `QualifyContext`. -/
structure QualifyContext where
  currentModule : String
  imports : List TypeImport
  aliases : List ModuleAlias
  directModules : List String
  localTypes : List String
  depCache : Option DependencyCache

/-- What `qualify_apply_implicit_imports` adds to `imports`. -/
def qualifyImplicitImports : List TypeImport :=
  ["Int", "Float", "Bool", "Order", "Never", "True", "False", "LT", "EQ", "GT"].map
    (⟨·, "Basics"⟩) ++
  [⟨"List", "List"⟩, ⟨"Maybe", "Maybe"⟩, ⟨"Just", "Maybe"⟩, ⟨"Nothing", "Maybe"⟩,
    ⟨"Result", "Result"⟩, ⟨"Ok", "Result"⟩, ⟨"Err", "Result"⟩, ⟨"String", "String"⟩,
    ⟨"Char", "Char"⟩, ⟨"Program", "Platform"⟩, ⟨"Cmd", "Platform.Cmd"⟩,
    ⟨"Sub", "Platform.Sub"⟩]

/-- What it adds to `aliases`. -/
def qualifyImplicitAliases : List ModuleAlias :=
  [⟨"Cmd", "Platform.Cmd", []⟩, ⟨"Sub", "Platform.Sub", []⟩]

/-- What it adds to `direct_modules`. -/
def qualifyImplicitModules : List String :=
  ["Basics", "List", "Maybe", "Result", "String", "Char", "Tuple", "Debug", "Platform"]

/-- `qualify_context_create_from_maps`: the implicit imports come first, and the maps are copied
behind them. -/
def qualifyContextCreateFromMaps (moduleName : String) (maps : TypeMaps)
    (localTypes : List String) (depCache : Option DependencyCache) : QualifyContext where
  currentModule := moduleName
  imports := qualifyImplicitImports ++ maps.importMap
  aliases := qualifyImplicitAliases ++ maps.aliasMap
  directModules := qualifyImplicitModules ++ maps.directImports
  localTypes := localTypes
  depCache := depCache

namespace QualifyContext

/-! ## Lookups -/

/-- `qualify_lookup_import`. -/
def lookupImport (ctx : QualifyContext) (typeName : String) : Option String :=
  ElmWrap.lookupImport ctx.imports typeName

/-- Whether a module exports a type, as far as the cache says. -/
def exports (ctx : QualifyContext) (typeName moduleName : String) : Bool :=
  (exportedTypes ctx.depCache moduleName).any (·.name = typeName)

/-- `qualify_lookup_alias`. -/
def lookupAlias (ctx : QualifyContext) (aliasName referencedType : String) : Option String :=
  match ctx.aliases.find? (·.aliasName = aliasName) with
  | none => none
  | some entry =>
    if entry.others = [] then some entry.first
    else
      match entry.fullModules.filter (ctx.exports referencedType) with
      | [resolvedModule] => some resolvedModule
      | _ => some entry.first

/-- `qualify_is_local_type`. -/
def isLocalType (ctx : QualifyContext) (typeName : String) : Bool :=
  ctx.localTypes.contains typeName

/-- `qualify_is_direct_import`. -/
def isDirectImport (ctx : QualifyContext) (moduleName : String) : Bool :=
  ctx.directModules.contains moduleName

/-! ## Names -/

/-- Whether the module that has the name of the alias is to be preferred. -/
def prefersModule (ctx : QualifyContext) (typeName moduleQualifier : String) (arity : Nat) : Bool :=
  ctx.isDirectImport moduleQualifier &&
    match (exportedTypes ctx.depCache moduleQualifier).find? (·.name = typeName) with
    | none => false
    | some exported => exported.arity = -1 || exported.arity = arity

/-- `qualify_single_type_name`. -/
def qualifySingleTypeName (ctx : QualifyContext) (typeName : String)
    (moduleQualifier : Option String) (arity : Nat) : String :=
  match moduleQualifier.filter (· ≠ "") with
  | some moduleQualifier =>
    match ctx.lookupAlias moduleQualifier typeName with
    | some fullModule =>
      if ctx.prefersModule typeName moduleQualifier arity then moduleQualifier ++ "." ++ typeName
      else fullModule ++ "." ++ typeName
    | none => moduleQualifier ++ "." ++ typeName
  | none =>
    if typeName.toList.head?.any (fun c => 'a' ≤ c && c ≤ 'z') then typeName
    else if ctx.isLocalType typeName then ctx.currentModule ++ "." ++ typeName
    else
      match ctx.lookupImport typeName with
      | some moduleName => moduleName ++ "." ++ typeName
      | none => typeName

/-- The text before and behind its last dot, as `strrchr` finds it. -/
def splitLastDot (text : List Char) : Option (List Char × List Char) :=
  match text with
  | [] => none
  | c :: rest =>
    match splitLastDot rest with
    | some (before, behind) => some (c :: before, behind)
    | none => if c = '.' then some ([], rest) else none

/-- What is written for an `upper_case_qid` with a number of arguments. -/
def qualifyUpperCaseQid (ctx : QualifyContext) (text : String) (arity : Nat) : String :=
  match splitLastDot text.toList with
  | some (modulePart, typePart) =>
    ctx.qualifySingleTypeName (String.ofList typePart) (some (String.ofList modulePart)) arity
  | none => ctx.qualifySingleTypeName text none arity

end QualifyContext

end ElmWrap
