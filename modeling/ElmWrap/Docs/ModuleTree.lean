import ElmWrap.Docs.ElmDocs

/-!
# Modules as trees

What the grammar says of the tree of a module, with the parts of the tree that matter for
its docs under their own names, and what the docs of the module are: the listed
declarations, each with its own annotation and its own comment. Comments may stand anywhere,
and nothing is said about the inside of a declaration beyond the parts that are named.
-/

namespace ElmWrap.Docs

open Lib.Siblings

/-! ## Comments -/

/-- A comment that documents nothing. -/
def IsPlain (node : TSNode) : Prop :=
  node.label.type = .lineComment ∨
    node.label.type = .blockComment ∧ isDocComment node.label.text = false

structure PlainComment where
  node : TSNode
  plain : IsPlain node

structure DocComment where
  node : TSNode
  text : String
  block : node.label.type = .blockComment
  delimited : node.label.text.toList = ['{', '-', '|'] ++ text.toList ++ ['-', '}']

/-- What a declaration or a module says in its own comment. -/
def docText (doc : Option DocComment) : String := doc.elim "" DocComment.text

/-- The nodes of some comments. -/
def plainNodes (comments : List PlainComment) : List TSNode := comments.map PlainComment.node

def docNodes (doc : Option DocComment) : List TSNode := doc.toList.map DocComment.node

/-! ## Declarations -/

/-- An operator is written with signs, the name of a value is not. -/
def isOperatorText (text : String) : Bool :=
  text.toList.head?.any fun c =>
    c ∈ ['+', '-', '*', '/', '^', '=', '<', '>', '&', '|', ':', '.', '?']

/-- The only child of a type is a name. -/
def Named (node : TSNode) (type : NodeType) (name : String) : Prop :=
  ∃ identifier, childrenOf node type = [identifier] ∧ identifier.label.text = name

/-- A field of a node is a name. -/
def FieldText (node : TSNode) (field : FieldName) (text : String) : Prop :=
  ∃ child, childByFieldName node field = some child ∧ child.label.text = text

structure Annotation where
  node : TSNode
  name : String
  type : TSNode
  kind : node.label.type = .typeAnnotationNode
  named : Named node .lowerCaseIdentifier name
  typed : childrenOf node .typeExpression = [type]

structure Function where
  node : TSNode
  name : String
  kind : node.label.type = .valueDeclaration
  named : ∃ left, childrenOf node .functionDeclarationLeft = [left] ∧
    Named left .lowerCaseIdentifier name
  value : isOperatorText name = false

/-- A value with the annotation in front of it, if it has one. -/
structure ValueDecl where
  annotatedBy : Option Annotation
  between : List PlainComment
  function : Function
  paired : ∀ a ∈ annotatedBy, a.name = function.name

structure TypeAlias where
  node : TSNode
  name : String
  type : TSNode
  kind : node.label.type = .typeAliasDeclaration
  named : Named node .upperCaseIdentifier name
  typed : childrenOf node .typeExpression = [type]

structure Variant where
  node : TSNode
  name : String
  named : Named node .upperCaseIdentifier name

structure UnionType where
  node : TSNode
  name : String
  variants : List Variant
  kind : node.label.type = .typeDeclaration
  named : Named node .upperCaseIdentifier name
  listed : childrenOf node .unionVariant = variants.map Variant.node

structure Port where
  node : TSNode
  kind : node.label.type = .portAnnotationNode

structure Operator where
  node : TSNode
  name : String
  associativity : String
  precedence : String
  function : String
  kind : node.label.type = .infixDeclaration
  named : FieldText node .operator name
  associates : FieldText node .associativity associativity
  binds : FieldText node .precedence precedence
  applies : Named node .valueExpr function
  sign : isOperatorText name = true

inductive Decl where
  | value (decl : ValueDecl)
  | typeAlias (decl : TypeAlias)
  | union (decl : UnionType)
  | port (decl : Port)
  | operator (decl : Operator)

/-- The nodes that lead to the main node of a declaration. -/
def Decl.lead : Decl → List TSNode
  | .value decl => decl.annotatedBy.toList.map Annotation.node ++ plainNodes decl.between
  | _ => []

def Decl.main : Decl → TSNode
  | .value decl => decl.function.node
  | .typeAlias decl => decl.node
  | .union decl => decl.node
  | .port decl => decl.node
  | .operator decl => decl.node

/-- A declaration with its own comment, and the comments around it. -/
structure Declaration where
  doc : Option DocComment
  gap : List PlainComment
  decl : Decl
  after : List PlainComment

def Declaration.nodes (d : Declaration) : List TSNode :=
  docNodes d.doc ++ plainNodes d.gap ++ d.decl.lead ++ d.decl.main :: plainNodes d.after

def Declaration.annotatedBy (d : Declaration) : Option Annotation :=
  match d.decl with
  | .value decl => decl.annotatedBy
  | _ => none

/-- The name of a value. -/
def Declaration.valueName (d : Declaration) : Option String :=
  match d.decl with
  | .value decl => some decl.function.name
  | _ => none

/-- The name of a type. -/
def Declaration.typeName (d : Declaration) : Option String :=
  match d.decl with
  | .typeAlias decl => some decl.name
  | .union decl => some decl.name
  | _ => none

def Declaration.operatorName (d : Declaration) : Option String :=
  match d.decl with
  | .operator decl => some decl.name
  | _ => none

/-! ## Modules -/

/-- `module_declaration`, with the items of its exposing list. -/
structure Header where
  node : TSNode
  items : List TSNode
  kind : node.label.type = .moduleDeclaration
  exposing : ∃ list, childrenOf node .exposingList = [list] ∧ list.children = items
  values : ∀ item ∈ items, item.label.type = .exposedValue → isOperatorText item.label.text = false
  operators : ∀ item ∈ items, item.label.type = .exposedOperator →
    ∃ name, FieldText item .operator name ∧ isOperatorText name = true
  types : ∀ item ∈ items, item.label.type = .exposedType →
    ∃ name, Named item .upperCaseIdentifier name

namespace Header

variable (header : Header)

def exposesAll : Bool := header.items.any fun item => item.label.type = .doubleDot

def exposesValue (name : String) : Bool :=
  header.exposesAll || header.items.any fun item =>
    item.label.type = .exposedValue ∧ item.label.text = name

def exposesOperator (name : String) : Bool :=
  header.exposesAll || header.items.any fun item =>
    item.label.type = .exposedOperator ∧
      (childByFieldName item .operator).any (·.label.text = name)

def exposesType (name : String) : Bool :=
  header.exposesAll || header.items.any fun item =>
    item.label.type = .exposedType ∧
      (childrenOf item .upperCaseIdentifier).any (·.label.text = name)

def exposesConstructors (name : String) : Bool :=
  header.exposesAll || header.items.any fun item =>
    item.label.type = .exposedType ∧
      (childrenOf item .upperCaseIdentifier).any (·.label.text = name) ∧
      (firstChild item .exposedUnionConstructors).isSome

end Header

/-- The declaration of a module with the comment of the module behind it. -/
structure Opening where
  header : Header
  gap : List PlainComment
  doc : Option DocComment
  after : List PlainComment

def Opening.nodes (opening : Opening) : List TSNode :=
  opening.header.node ::
    (plainNodes opening.gap ++ docNodes opening.doc ++ plainNodes opening.after)

structure Import where
  node : TSNode
  kind : node.label.type = .importClause
  after : List PlainComment

def Import.nodes (item : Import) : List TSNode := item.node :: plainNodes item.after

/-- A module. A comment behind the declaration of the module is the comment of the module, also
where the next thing is a declaration. -/
structure ElmModuleTree where
  first : List PlainComment
  opening : Option Opening
  imports : List Import
  declarations : List Declaration
  values_distinct : (declarations.filterMap Declaration.valueName).Nodup
  types_distinct : (declarations.filterMap Declaration.typeName).Nodup
  operators_distinct : (declarations.filterMap Declaration.operatorName).Nodup
  owned : ∀ o ∈ opening, o.doc = none → imports = [] → ∀ d ∈ declarations.head?, d.doc = none

namespace ElmModuleTree

variable (m : ElmModuleTree)

/-- What stands before the declarations. -/
def head : List TSNode :=
  plainNodes m.first ++ m.opening.toList.flatMap Opening.nodes ++ m.imports.flatMap Import.nodes

/-- The children of the root. -/
def tree : List TSNode := m.head ++ m.declarations.flatMap Declaration.nodes

/-- The comment of the module. -/
def comment : String := docText (m.opening.bind Opening.doc)

/-- A module without a declaration exposes everything. -/
def exposes (names : Header → Bool) : Bool := m.opening.all fun opening => names opening.header

/-! ## The docs of a module -/

variable (extractTypeExpression : TSNode → String)

def documentedValue (d : Declaration) : Option ElmValue :=
  match d.decl with
  | .value decl =>
    if m.exposes (·.exposesValue decl.function.name) then
      decl.annotatedBy.map fun a =>
        ⟨decl.function.name, docText d.doc, extractTypeExpression a.type⟩
    else none
  | _ => none

def documentedAlias (d : Declaration) : Option ElmAlias :=
  match d.decl with
  | .typeAlias decl =>
    if m.exposes (·.exposesType decl.name) then
      some ⟨decl.name, docText d.doc,
        (childrenOf decl.node .lowerTypeName).map (·.label.text), extractTypeExpression decl.type⟩
    else none
  | _ => none

def documentedCase (variant : Variant) : ElmUnionCase :=
  ⟨variant.name, (variant.node.children.filter fun child => isArgumentType child.label.type).map
    extractTypeExpression⟩

def documentedUnion (d : Declaration) : Option ElmUnion :=
  match d.decl with
  | .union decl =>
    if m.exposes (·.exposesType decl.name) then
      some ⟨decl.name, docText d.doc, (childrenOf decl.node .lowerTypeName).map (·.label.text),
        if m.exposes (·.exposesConstructors decl.name) then
          decl.variants.map (documentedCase extractTypeExpression)
        else []⟩
    else none
  | _ => none

/-- The annotated value of a name, with the comment of its declaration. -/
def annotated (name : String) : Option (Option DocComment × Annotation) :=
  m.declarations.findSome? fun d =>
    if d.valueName = some name then d.annotatedBy.map (d.doc, ·) else none

def documentedBinop (d : Declaration) : Option ElmBinop :=
  match d.decl with
  | .operator decl =>
    if m.exposes (·.exposesOperator decl.name) then
      (m.annotated decl.function).map fun (doc, a) =>
        ⟨decl.name, docText doc, extractTypeExpression a.type, atoi decl.precedence,
          decl.associativity⟩
    else none
  | _ => none

end ElmModuleTree

/-- A list of the docs holds these entries, each once, and in the order of their names. -/
structure Lists {α : Type} (name : α → String) (entries documented : List α) : Prop where
  each : entries.Perm documented
  sorted : entries.Pairwise fun a b => name a ≤ name b

/-- The docs say of a module what it says of itself. -/
structure Documents (extractTypeExpression : TSNode → String) (m : ElmModuleTree)
    (docs : ElmModuleDocs) : Prop where
  comment : docs.comment = m.comment
  values : Lists ElmValue.name docs.values
    (m.declarations.filterMap (m.documentedValue extractTypeExpression))
  aliases : Lists ElmAlias.name docs.aliases
    (m.declarations.filterMap (m.documentedAlias extractTypeExpression))
  unions : Lists ElmUnion.name docs.unions
    (m.declarations.filterMap (m.documentedUnion extractTypeExpression))
  binops : Lists ElmBinop.name docs.binops
    (m.declarations.filterMap (m.documentedBinop extractTypeExpression))

end ElmWrap.Docs
