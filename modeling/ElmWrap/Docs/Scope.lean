import ElmWrap.Docs.Qualify

/-!
# The scope of type names

Which definition a type name refers to, by the rules of the language, apart from how the
documentation generator finds out.
-/

namespace ElmWrap

/-- The types that modules expose, each with the number of its parameters. -/
abbrev ModuleExports := String → String → Option Nat

/-- A module, as far as names of types go. -/
structure ElmModule where
  name : String
  imports : List ImportClause
  localTypes : List String

/-- An import without alias, as the implicit ones are. -/
def plainImport (moduleName : String) (exposing : List Exposed) : ImportClause where
  moduleName := moduleName
  moduleAlias := none
  exposing := exposing
  simple := fun _ none_ => nomatch none_

/-- The implicit imports. -/
def defaultImports : List ImportClause :=
  [plainImport "Basics" [.doubleDot], plainImport "List" [.type "List", .operator],
    plainImport "Maybe" [.type "Maybe"], plainImport "Result" [.type "Result"],
    plainImport "String" [.type "String"], plainImport "Char" [.type "Char"],
    plainImport "Tuple" [], plainImport "Debug" [], plainImport "Platform" [.type "Program"],
    ⟨"Platform.Cmd", some "Cmd", [.type "Cmd"], by decide⟩,
    ⟨"Platform.Sub", some "Sub", [.type "Sub"], by decide⟩]

/-- The imports of a module, the implicit ones first. -/
def ElmModule.allImports (elmModule : ElmModule) : List ImportClause :=
  defaultImports ++ elmModule.imports

/-- The name by which an imported module is referred to. -/
def ImportClause.localName (clause : ImportClause) : String :=
  clause.moduleAlias.getD clause.moduleName

/-- A type that an import brings into scope without a qualifier. -/
def ImportClause.Exposes (exported : ModuleExports) (clause : ImportClause) (typeName : String) :
    Prop :=
  Exposed.type typeName ∈ clause.exposing ∨
    Exposed.doubleDot ∈ clause.exposing ∧ (exported clause.moduleName typeName).isSome

/-- A type name with what it is applied to. -/
structure TypeReference where
  qualifier : Option String
  name : String
  arity : Nat
  /-- The name is an upper-case identifier. -/
  upper : ∀ c ∈ name.toList.head?, ¬ ('a' ≤ c ∧ c ≤ 'z')
  simple : '.' ∉ name.toList
  qualified : qualifier ≠ some ""

/-- The text of a reference. -/
def TypeReference.text (reference : TypeReference) : String :=
  match reference.qualifier with
  | none => reference.name
  | some qualifier => qualifier ++ "." ++ reference.name

/-- A module whose definition a reference can mean. -/
def ElmModule.Candidate (elmModule : ElmModule) (exported : ModuleExports)
    (reference : TypeReference) (home : String) : Prop :=
  match reference.qualifier with
  | some qualifier =>
    ∃ clause ∈ elmModule.allImports, clause.localName = qualifier ∧ clause.moduleName = home ∧
      (exported home reference.name).isSome
  | none =>
    -- a definition of the module itself goes before the imported ones
    if reference.name ∈ elmModule.localTypes then home = elmModule.name
    else
      ∃ clause ∈ elmModule.allImports, clause.Exposes exported reference.name ∧
        clause.moduleName = home

/-- A reference that means the definition of exactly one module. -/
structure ElmModule.Resolves (elmModule : ElmModule) (exported : ModuleExports)
    (reference : TypeReference) (home : String) : Prop where
  candidate : elmModule.Candidate exported reference home
  unique : ∀ other, elmModule.Candidate exported reference other → other = home
  /-- A type has all its arguments. -/
  arity : ∀ n, exported home reference.name = some n → n = reference.arity

/-- The types of the modules that the implicit imports take constructors from. -/
structure CoreExports (exported : ModuleExports) : Prop where
  basics : ∀ name, (exported "Basics" name).isSome ↔
    name ∈ ["Int", "Float", "Bool", "Order", "Never"]
  maybe : ∀ name, (exported "Maybe" name).isSome ↔ name = "Maybe"
  result : ∀ name, (exported "Result" name).isSome ↔ name = "Result"

/-- A cache that knows no type that is not there. -/
def CacheSound (cache : Option DependencyCache) (exported : ModuleExports) : Prop :=
  ∀ moduleName, ∀ entry ∈ exportedTypes cache moduleName,
    ∃ n : Nat, exported moduleName entry.name = some n ∧ (entry.arity = -1 ∨ entry.arity = n)

/-- Whether the cache knows a type of a module. -/
def Known (cache : Option DependencyCache) (moduleName typeName : String) : Prop :=
  ∃ entry ∈ exportedTypes cache moduleName, entry.name = typeName

end ElmWrap
