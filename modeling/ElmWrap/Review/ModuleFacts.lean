import ElmWrap.Lib.Runs

/-!
# The facts about an Elm module

The concrete syntax of a module, as far as `ast/skeleton.c` reads it, and the facts
that `commands/review/review.c` inserts for it. A type keeps its text: its tokens with
white space and comments between them.
-/

namespace ElmWrap.Review.File

/-! ## Names -/

def isAscii (c : Char) : Bool := c.toNat < 128

/-- A character of an identifier. Beyond ASCII every character is taken for a letter. -/
def isNameChar (c : Char) : Bool := c.isAlphanum || c = '_' || !isAscii c

/-- `upper_case_identifier`. -/
structure UpperCaseIdentifier where
  text : List Char
  first : text.head?.any (fun c => c.isUpper || !isAscii c) = true
  characters : text.all isNameChar = true
deriving DecidableEq

/-- `lower_case_identifier`. -/
structure LowerCaseIdentifier where
  text : List Char
  first : text.head?.any (fun c => c.isLower || !isAscii c) = true
  characters : text.all isNameChar = true
deriving DecidableEq

/-- `upper_case_qid`: a name with the modules in front of it. -/
structure UpperCaseQid where
  first : UpperCaseIdentifier
  rest : List UpperCaseIdentifier
deriving DecidableEq

def UpperCaseQid.text (q : UpperCaseQid) : List Char :=
  q.first.text ++ q.rest.flatMap fun part => '.' :: part.text

/-- A name without a module. -/
def UpperCaseIdentifier.unqualified (name : UpperCaseIdentifier) : UpperCaseQid := ⟨name, []⟩

/-! ## Types -/

/-- A type and the parts of one, by the nodes of the grammar. -/
inductive TypeNode
  | typeRef (name : UpperCaseQid) (args : List TypeNode)
  | typeVariable (name : LowerCaseIdentifier)
  | recordType (base : Option LowerCaseIdentifier) (fields : List TypeNode)
  | fieldType (name : LowerCaseIdentifier) (type : TypeNode)
  /-- Also the unit type and a type in parentheses. -/
  | tupleType (parts : List TypeNode)
  | typeExpression (parts : List TypeNode)

inductive Symbol
  | leftParen
  | rightParen
  | leftBrace
  | rightBrace
  | comma
  | colon
  | bar
  | arrow
deriving DecidableEq

def Symbol.text : Symbol → List Char
  | leftParen => ['(']
  | rightParen => [')']
  | leftBrace => ['{']
  | rightBrace => ['}']
  | comma => [',']
  | colon => [':']
  | bar => ['|']
  | arrow => ['-', '>']

/-- The leaves of a type. -/
inductive Token
  | upperCaseQid (name : UpperCaseQid)
  | lowerCaseIdentifier (name : LowerCaseIdentifier)
  | symbol (s : Symbol)
deriving DecidableEq

mutual

def TypeNode.tokens : TypeNode → List Token
  | .typeRef name args => .upperCaseQid name :: TypeNode.tokensAfter [] args
  | .typeVariable name => [.lowerCaseIdentifier name]
  | .recordType none fields =>
    .symbol .leftBrace :: (TypeNode.tokensAfter [.symbol .comma] fields).tail ++
      [.symbol .rightBrace]
  | .recordType (some base) fields =>
    .symbol .leftBrace :: .lowerCaseIdentifier base :: .symbol .bar ::
      (TypeNode.tokensAfter [.symbol .comma] fields).tail ++ [.symbol .rightBrace]
  | .fieldType name type => .lowerCaseIdentifier name :: .symbol .colon :: type.tokens
  | .tupleType parts =>
    .symbol .leftParen :: (TypeNode.tokensAfter [.symbol .comma] parts).tail ++
      [.symbol .rightParen]
  | .typeExpression parts => (TypeNode.tokensAfter [.symbol .arrow] parts).tail

/-- The leaves of some types, each after a separator. -/
def TypeNode.tokensAfter (separator : List Token) : List TypeNode → List Token
  | [] => []
  | type :: types => separator ++ type.tokens ++ TypeNode.tokensAfter separator types

end

mutual

/-- The names of the types that a type refers to. -/
def TypeNode.references : TypeNode → List UpperCaseQid
  | .typeRef name args => name :: TypeNode.allReferences args
  | .typeVariable _ => []
  | .recordType _ fields => TypeNode.allReferences fields
  | .fieldType _ type => type.references
  | .tupleType parts => TypeNode.allReferences parts
  | .typeExpression parts => TypeNode.allReferences parts

def TypeNode.allReferences : List TypeNode → List UpperCaseQid
  | [] => []
  | type :: types => type.references ++ TypeNode.allReferences types

end

/-! ## The text of a type -/

/-- White space, and what the grammar takes for it. -/
def isExtraSpace (c : Char) : Bool :=
  c.isWhitespace || c.toNat = 11 || c.toNat = 12 || c = '\\' || !isAscii c

/-- What may stand between two leaves. -/
inductive Extra
  | space (c : Char) (blank : isExtraSpace c = true)
  /-- With the end of its line. -/
  | lineComment (content : List Char)
  | blockComment (content : List Char)

def Extra.text : Extra → List Char
  | space c _ => [c]
  | lineComment content => '-' :: '-' :: content ++ ['\n']
  | blockComment content => '{' :: '-' :: content ++ ['-', '}']

inductive Piece
  | token (t : Token)
  | extra (e : Extra)

def Token.text : Token → List Char
  | upperCaseQid name => name.text
  | lowerCaseIdentifier name => name.text
  | symbol s => s.text

def Piece.text : Piece → List Char
  | token t => t.text
  | extra e => e.text

def Piece.token? : Piece → Option Token
  | token t => some t
  | extra _ => none

def Piece.isName : Piece → Bool
  | token (.upperCaseQid _) => true
  | token (.lowerCaseIdentifier _) => true
  | _ => false

/-- A type as it is written. Two names do not touch. -/
structure TypeText where
  type : TypeNode
  pieces : List Piece
  leaves : pieces.filterMap Piece.token? = type.tokens
  apart : pieces.IsChain fun p q => p.isName = true → q.isName = false

/-- `ast_get_node_text` of a type. -/
def TypeText.text (a : TypeText) : List Char := a.pieces.flatMap Piece.text

/-! ## Modules -/

/-- An item of an `exposing_list`. -/
inductive ExposedItem
  | exposedValue (name : LowerCaseIdentifier)
  | exposedType (name : UpperCaseIdentifier) (constructors : Bool)
  /-- With what stands in its parentheses. -/
  | exposedOperator (inside : List Char)

inductive ExposingList
  | doubleDot
  | items (items : List ExposedItem)

/-- `import_clause`. -/
structure ImportClause where
  moduleName : UpperCaseQid
  asClause : Option UpperCaseIdentifier
  exposing : Option ExposingList

/-- A named child of the root. -/
inductive Declaration
  | comment
  | importClause (clause : ImportClause)
  | typeAnnotationNode (name : LowerCaseIdentifier) (type : TypeText)
  | portAnnotationNode (name : LowerCaseIdentifier) (type : TypeText)
  | valueDeclaration
  | typeAliasDeclaration (name : UpperCaseIdentifier)
  | typeDeclaration (name : UpperCaseIdentifier) (variants : List UpperCaseIdentifier)
  | infixDeclaration (operator functionName : List Char)

/-- What a declaration says the type of is. -/
def Declaration.annotated? : Declaration → Option LowerCaseIdentifier
  | typeAnnotationNode name _ => some name
  | portAnnotationNode name _ => some name
  | _ => none

/-- An Elm file; a name is annotated once. -/
structure ElmFile where
  filepath : List Char
  moduleDeclaration : Option (UpperCaseQid × ExposingList)
  declarations : List Declaration
  annotatedOnce : (declarations.filterMap Declaration.annotated?).Nodup

/-! ## `skeleton_parse` -/

/-- `SkeletonExports`, and what an import exposes. -/
structure SkeletonExports where
  exposeAll : Bool
  values : List (List Char)
  types : List (List Char)
  typesWithConstructors : List (List Char)

def SkeletonExports.none : SkeletonExports := ⟨false, [], [], []⟩

def SkeletonExports.add (exports : SkeletonExports) : ExposedItem → SkeletonExports
  | .exposedValue name => { exports with values := exports.values ++ [name.text] }
  | .exposedType name true =>
    { exports with typesWithConstructors := exports.typesWithConstructors ++ [name.text] }
  | .exposedType name false => { exports with types := exports.types ++ [name.text] }
  -- operators go to the values
  | .exposedOperator inside =>
    { exports with values := exports.values ++ ['(' :: inside ++ [')']] }

/-- The exposing list in `parse_module_declaration` and in `parse_import_declaration`. -/
def parseExposingList : ExposingList → SkeletonExports
  | .doubleDot => { SkeletonExports.none with exposeAll := true }
  | .items items => items.foldl SkeletonExports.add .none

structure SkeletonImport where
  moduleName : List Char
  asName : Option (List Char)
  exposing : SkeletonExports

def parseImportDeclaration (clause : ImportClause) : SkeletonImport where
  moduleName := clause.moduleName.text
  asName := clause.asClause.map UpperCaseIdentifier.text
  exposing := (clause.exposing.map parseExposingList).getD .none

/-- With `rawType`, the text of `type_node`. -/
structure SkeletonTypeAnnotation where
  name : List Char
  rawType : List Char
  qualifiedType : Option (List Char)
  canonicalType : Option (List Char)

/-- `parse_type_annotation`. The types are qualified by another command. -/
def parseTypeAnnotation (name : LowerCaseIdentifier) (type : TypeText) :
    SkeletonTypeAnnotation where
  name := name.text
  rawType := type.text
  qualifiedType := none
  canonicalType := none

structure SkeletonUnionType where
  name : List Char
  constructors : List (List Char)

structure SkeletonInfix where
  operator : List Char
  functionName : List Char

/-- The part of `SkeletonModule` that `extract_module_facts` reads. -/
structure SkeletonModule where
  filepath : List Char
  moduleName : Option (List Char)
  exports : SkeletonExports
  imports : List SkeletonImport
  typeAnnotations : List SkeletonTypeAnnotation
  typeAliases : List (List Char)
  unionTypes : List SkeletonUnionType
  infixes : List SkeletonInfix

/-- The annotation of a value declaration is its named sibling `prev`. -/
def annotationBefore : Option Declaration → Declaration → Option SkeletonTypeAnnotation
  | some (.typeAnnotationNode name type), .valueDeclaration =>
    some <| parseTypeAnnotation name type
  | _, _ => none

/-- The annotations of the value declarations, where `prev` stands in front. -/
def annotationsAfter (prev : Option Declaration) : List Declaration → List SkeletonTypeAnnotation
  | [] => []
  | declaration :: rest =>
    (annotationBefore prev declaration).toList ++ annotationsAfter (some declaration) rest

/-- `skeleton_parse`. -/
def skeletonParse (file : ElmFile) : SkeletonModule where
  filepath := file.filepath
  moduleName := file.moduleDeclaration.map fun declared => declared.1.text
  exports := (file.moduleDeclaration.map fun declared => parseExposingList declared.2).getD .none
  imports := file.declarations.filterMap fun
    | .importClause clause => some (parseImportDeclaration clause)
    | _ => none
  typeAnnotations := annotationsAfter none file.declarations
  typeAliases := file.declarations.filterMap fun
    | .typeAliasDeclaration name => some name.text
    | _ => none
  unionTypes := file.declarations.filterMap fun
    | .typeDeclaration name variants => some ⟨name.text, variants.map UpperCaseIdentifier.text⟩
    | _ => none
  infixes := file.declarations.filterMap fun
    | .infixDeclaration operator functionName => some ⟨operator, functionName⟩
    | _ => none

/-! ## `extract_module_facts` -/

/-- The predicates of the facts, and those of the rule. -/
inductive ReviewPred
  | filePath
  | module
  | exportAll
  | exportedValue
  | exportedType
  | exportedTypeWithConstructors
  | import_
  | importAlias
  | importExposeAll
  | importExposing
  | importExposingType
  | typeAnnotation_
  | sigUsesType
  | typeAlias
  | unionType
  | constructor
  | infix_
  | localType
  | exposedFuncUsesPrivateType
  | error
deriving DecidableEq

/-- A fact that is inserted. -/
abbrev Fact := ReviewPred × List (List Char)

/-- The characters `extract_type_references` reads a type name from. -/
def isTypeChar (c : Char) : Bool := c.isAlphanum || c = '_' || c = '.'

/-- The types `extract_type_references` finds in a text: from each upper-case letter on, up to
the first dot. -/
def extractTypeReferences (text : List Char) : List (List Char) :=
  (Lib.Runs.runs Char.isUpper isTypeChar text).map fun typeName => typeName.takeWhile (· ≠ '.')

/-- The type string of an annotation. -/
def SkeletonTypeAnnotation.typeStr (ann : SkeletonTypeAnnotation) : List Char :=
  (ann.canonicalType.or ann.qualifiedType).getD ann.rawType

def annotationFacts (ann : SkeletonTypeAnnotation) : List Fact :=
  (.typeAnnotation_, [ann.name, ann.typeStr]) ::
    if ann.typeStr = "(unknown)".toList then []
    else (extractTypeReferences ann.typeStr).map fun typeName =>
      (.sigUsesType, [ann.name, typeName])

def importFacts (imp : SkeletonImport) : List Fact :=
  (.import_, [imp.moduleName]) ::
    (imp.asName.toList.map fun asName => (.importAlias, [imp.moduleName, asName])) ++
    (if imp.exposing.exposeAll then [(.importExposeAll, [imp.moduleName, "true".toList])]
      else []) ++
    (imp.exposing.values.map fun value => (.importExposing, [imp.moduleName, value])) ++
    imp.exposing.types.map fun type => (.importExposingType, [imp.moduleName, type])

def exportFacts (exports : SkeletonExports) : List Fact :=
  (if exports.exposeAll then [(.exportAll, ["true".toList])] else []) ++
    (exports.values.map fun value => (.exportedValue, [value])) ++
    (exports.types.map fun type => (.exportedType, [type])) ++
    exports.typesWithConstructors.map fun type => (.exportedTypeWithConstructors, [type])

/-- `extract_module_facts`. -/
def extractModuleFacts (mod : SkeletonModule) : List Fact :=
  (.filePath, [mod.filepath]) ::
    (mod.moduleName.toList.map fun moduleName => (.module, [moduleName])) ++
    exportFacts mod.exports ++
    mod.imports.flatMap importFacts ++
    mod.typeAnnotations.flatMap annotationFacts ++
    (mod.typeAliases.map fun name => (.typeAlias, [name])) ++
    (mod.unionTypes.flatMap fun ut => (.unionType, [ut.name]) ::
      ut.constructors.map fun ctor => (.constructor, [ut.name, ctor])) ++
    mod.infixes.map fun inf => (.infix_, [inf.operator, inf.functionName])

end ElmWrap.Review.File
