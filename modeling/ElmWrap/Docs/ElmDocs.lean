import ElmWrap.Docs.DocsJson
import ElmWrap.Lib.LeastFirst
import ElmWrap.Lib.Siblings
import Mathlib.Data.String.Basic

/-!
# `parse_elm_file`

The docs of a module are read off its syntax tree: the exposing list, the comment of the
module, and for each declaration its annotation, searched by name in the whole tree, and
the comment above it. The import maps and the local types are filled before the first
declaration is read and serve `extract_type_expression` only, so what that function gives
for a type of the module is one function of its node.
-/

namespace ElmWrap.Docs

open Lib.Siblings
open Lib.LeastFirst (exchangeSort)

/-! ## The syntax tree -/

/-- `ts_node_type`, as far as the extraction tells types apart. -/
inductive NodeType where
  | moduleDeclaration | upperCaseQid | exposingList | doubleDot | exposedValue | exposedOperator
  | exposedType | exposedUnionConstructors | importClause | blockComment | lineComment
  | typeAnnotationNode | portAnnotationNode | valueDeclaration | functionDeclarationLeft
  | typeAliasDeclaration | typeDeclaration | unionVariant | infixDeclaration
  | lowerCaseIdentifier | upperCaseIdentifier | lowerTypeName
  | typeExpression | typeRef | recordType | tupleType | typeVariable | valueExpr
  /-- Any other type with a name. -/
  | other
  /-- A token, which is its own type. -/
  | token (text : String)
deriving DecidableEq

/-- The fields that are asked for by name. -/
inductive FieldName where
  | operator | associativity | precedence
deriving DecidableEq

structure NodeLabel where
  type : NodeType
  field : Option FieldName
  text : String
deriving DecidableEq

abbrev TSNode := Rose NodeLabel

/-- `ts_node_is_named`. -/
def isNamed (label : NodeLabel) : Bool :=
  match label.type with
  | .token _ => false
  | _ => true

/-- The first child of a type. -/
def firstChild (node : TSNode) (type : NodeType) : Option TSNode :=
  node.children.find? (·.label.type = type)

/-- The children of a type. -/
def childrenOf (node : TSNode) (type : NodeType) : List TSNode :=
  node.children.filter (·.label.type = type)

/-- `ts_node_child_by_field_name`. -/
def childByFieldName (node : TSNode) (field : FieldName) : Option TSNode :=
  node.children.find? (·.label.field = some field)

/-! ## The exposing list -/

structure ExportList where
  exposedValues : List String
  exposedTypes : List String
  exposedTypesWithConstructors : List String
  exposeAll : Bool

def isExportedValue (exports : ExportList) (name : String) : Bool :=
  exports.exposeAll || exports.exposedValues.contains name

def isExportedType (exports : ExportList) (name : String) : Bool :=
  exports.exposeAll || exports.exposedTypes.contains name

def isTypeExposedWithConstructors (exports : ExportList) (name : String) : Bool :=
  exports.exposeAll || exports.exposedTypesWithConstructors.contains name

/-- A child of the exposing list. -/
def exposeItem (exports : ExportList) (item : TSNode) : ExportList :=
  match item.label.type with
  | .doubleDot => { exports with exposeAll := true }
  | .exposedValue => { exports with exposedValues := exports.exposedValues ++ [item.label.text] }
  | .exposedOperator =>
    match childByFieldName item .operator with
    | some operator =>
      { exports with exposedValues := exports.exposedValues ++ [operator.label.text] }
    | none => exports
  | .exposedType =>
    match (childrenOf item .upperCaseIdentifier).getLast? with
    | some name =>
      { exports with
        exposedTypes := exports.exposedTypes ++ [name.label.text]
        exposedTypesWithConstructors :=
          if (firstChild item .exposedUnionConstructors).isSome then
            exports.exposedTypesWithConstructors ++ [name.label.text]
          else exports.exposedTypesWithConstructors }
    | none => exports
  | _ => exports

/-- A child of the module declaration. -/
def readModuleChild (info : Option String × ExportList) (child : TSNode) :
    Option String × ExportList :=
  match child.label.type with
  | .upperCaseQid => (some child.label.text, info.2)
  | .exposingList => (info.1, child.children.foldl exposeItem info.2)
  | _ => info

/-- A child of the root, in `extract_module_info`. -/
def readModuleDeclaration (info : Option String × ExportList) (child : TSNode) :
    Option String × ExportList :=
  if child.label.type = .moduleDeclaration then child.children.foldl readModuleChild info
  else info

def noExports : ExportList := ⟨[], [], [], false⟩

def extractModuleInfo (root : List TSNode) : String × ExportList :=
  let info := root.foldl readModuleDeclaration (none, noExports)
  (info.1.getD "Unknown", info.2)

/-! ## Comments -/

/-- The test for a doc comment. -/
def isDocComment (raw : String) : Bool := ['{', '-', '|'].isPrefixOf raw.toList

/-- `clean_comment`. -/
def cleanComment (raw : String) : String :=
  if raw.toList.length < 5 then ""
  else if ¬ isDocComment raw then ""
  else if ¬ ['-', '}'].isSuffixOf raw.toList then ""
  else String.ofList ((raw.toList.drop 3).take (raw.toList.length - 5))

/-- `find_preceding_comment`, given the siblings before the node, the nearest first. -/
def findPrecedingComment : List TSNode → String
  | [] => ""
  | sibling :: before =>
    if sibling.label.type = .blockComment then
      if isDocComment sibling.label.text then cleanComment sibling.label.text
      else findPrecedingComment before
    else if sibling.label.type ≠ .token "\n" ∧ sibling.label.type ≠ .lineComment then ""
    else findPrecedingComment before

/-- The search for the comment of the module, behind its declaration. -/
def commentAfter : List TSNode → Option String
  | [] => none
  | next :: rest =>
    if next.label.type = .blockComment then
      if isDocComment next.label.text then some (cleanComment next.label.text)
      else commentAfter rest
    else if next.label.type = .valueDeclaration ∨ next.label.type = .typeAliasDeclaration ∨
        next.label.type = .typeDeclaration then none
    else commentAfter rest

def moduleComment : List TSNode → String
  | [] => ""
  | child :: rest =>
    if child.label.type = .moduleDeclaration then (commentAfter rest).getD ""
    else moduleComment rest

/-! ## Annotations -/

/-- The test of a type annotation for the name of a function. -/
def annotates (node : TSNode) (funcName : String) : Bool :=
  (firstChild node .lowerCaseIdentifier).any (·.label.text = funcName)

/-- The loop over the children in `find_type_annotation_by_name_recursive`. -/
def searchChildren (funcName : String) (search : List TSNode → Option (Place TSNode))
    (before : List TSNode) : List TSNode → Option (Place TSNode)
  | [] => none
  | child :: rest =>
    if child.label.type = .typeAnnotationNode then
      if annotates child funcName then some ⟨before, child⟩
      else
        match search child.children with
        | some nested => some nested
        | none => searchChildren funcName search (child :: before) rest
    else if isNamed child.label then
      match search child.children with
      | some found => some found
      | none => searchChildren funcName search (child :: before) rest
    else searchChildren funcName search (child :: before) rest

/-- `find_type_annotation_by_name_recursive`, with the levels that are left. -/
def findTypeAnnotationByNameRecursive (funcName : String) :
    Nat → List TSNode → Option (Place TSNode)
  | 0, _ => none
  | levels + 1, nodes =>
    searchChildren funcName (findTypeAnnotationByNameRecursive funcName levels) [] nodes

/-- `find_type_annotation_by_name`: the depth goes from 0 to 10. -/
def findTypeAnnotationByName (root : List TSNode) (funcName : String) : Option (Place TSNode) :=
  findTypeAnnotationByNameRecursive funcName 11 root

/-! ## Declarations -/

/-- `atoi`, on a number of the grammar. -/
def atoi (text : String) : Int :=
  let digits := fun cs : List Char =>
    (cs.takeWhile Char.isDigit).foldl (fun n c => 10 * n + (c.toNat - '0'.toNat)) 0
  match text.toList with
  | '-' :: rest => -(digits rest : Int)
  | rest => (digits rest : Int)

section Extraction

variable (extractTypeExpression : TSNode → String)

def extractValueDecl (root : List TSNode) (node : TSNode) : Option ElmValue := do
  let left ← firstChild node .functionDeclarationLeft
  let funcName ← firstChild left .lowerCaseIdentifier
  let annotatedBy ← findTypeAnnotationByName root funcName.label.text
  let type ← firstChild annotatedBy.node .typeExpression
  some {
    name := funcName.label.text
    type := extractTypeExpression type
    comment := findPrecedingComment annotatedBy.before }

def extractTypeAlias (place : Place TSNode) : Option ElmAlias := do
  let name ← firstChild place.node .upperCaseIdentifier
  let type ← (childrenOf place.node .typeExpression).getLast?
  some {
    name := name.label.text
    args := (childrenOf place.node .lowerTypeName).map (·.label.text)
    type := extractTypeExpression type
    comment := findPrecedingComment place.before }

/-- The types of nodes that stand for an argument of a constructor. -/
def isArgumentType (type : NodeType) : Bool :=
  type = .typeExpression ∨ type = .typeRef ∨ type = .recordType ∨ type = .tupleType ∨
    type = .typeVariable

/-- A constructor of a union. -/
def extractUnionCase (variant : TSNode) : Option ElmUnionCase :=
  (firstChild variant .upperCaseIdentifier).map fun name => {
    name := name.label.text
    argTypes :=
      (variant.children.filter fun child => isArgumentType child.label.type).map
        extractTypeExpression }

def extractUnionType (place : Place TSNode) : Option ElmUnion := do
  let name ← firstChild place.node .upperCaseIdentifier
  some {
    name := name.label.text
    args := (childrenOf place.node .lowerTypeName).map (·.label.text)
    comment := findPrecedingComment place.before
    cases := (childrenOf place.node .unionVariant).filterMap
      (extractUnionCase extractTypeExpression) }

/-- The scan of the siblings for the annotation of the function of an operator. -/
def findSiblingAnnotationOf (root : List TSNode) (funcName : String) :
    Option (Place TSNode × TSNode) :=
  (places [] root).findSome? fun place =>
    if place.node.label.type = .typeAnnotationNode ∧
        (childrenOf place.node .lowerCaseIdentifier).any (·.label.text = funcName) then
      (firstChild place.node .typeExpression).map fun type => (place, type)
    else none

def extractBinop (root : List TSNode) (node : TSNode) : Option ElmBinop := do
  let operator ← childByFieldName node .operator
  let associativity ← childByFieldName node .associativity
  let precedence ← childByFieldName node .precedence
  let func ← firstChild node .valueExpr
  let (annotatedBy, type) ← findSiblingAnnotationOf root func.label.text
  some {
    name := operator.label.text
    comment := findPrecedingComment annotatedBy.before
    type := extractTypeExpression type
    precedence := atoi precedence.label.text
    associativity := associativity.label.text }

/-- A child of the root, in the second pass. -/
def addDeclaration (root : List TSNode) (exports : ExportList) (docs : ElmModuleDocs)
    (place : Place TSNode) : ElmModuleDocs :=
  match place.node.label.type with
  | .valueDeclaration =>
    match extractValueDecl extractTypeExpression root place.node with
    | some value =>
      if isExportedValue exports value.name then { docs with values := docs.values ++ [value] }
      else docs
    | none => docs
  | .typeAliasDeclaration =>
    match extractTypeAlias extractTypeExpression place with
    | some item =>
      if isExportedType exports item.name then { docs with aliases := docs.aliases ++ [item] }
      else docs
    | none => docs
  | .typeDeclaration =>
    match extractUnionType extractTypeExpression place with
    | some union =>
      if isExportedType exports union.name then
        -- An opaque type keeps no constructors.
        if isTypeExposedWithConstructors exports union.name then
          { docs with unions := docs.unions ++ [union] }
        else { docs with unions := docs.unions ++ [{ union with cases := [] }] }
      else docs
    | none => docs
  | .infixDeclaration =>
    match extractBinop extractTypeExpression root place.node with
    | some binop =>
      if isExportedValue exports binop.name then { docs with binops := docs.binops ++ [binop] }
      else docs
    | none => docs
  | _ => docs

/-- The sort of one of the lists of the docs. -/
def sortByName {α : Type} (name : α → String) (items : List α) : List α :=
  exchangeSort name items.length items

/-- `parse_elm_file`, from the root of the tree. -/
def parseElmFile (root : List TSNode) : ElmModuleDocs :=
  let (name, exports) := extractModuleInfo root
  let docs := (places [] root).foldl (addDeclaration extractTypeExpression root exports)
    ⟨name, moduleComment root, [], [], [], []⟩
  { docs with
    values := sortByName ElmValue.name docs.values
    aliases := sortByName ElmAlias.name docs.aliases
    unions := sortByName ElmUnion.name docs.unions
    binops := sortByName ElmBinop.name docs.binops }

/-! ## The annotation that is found -/

def annotatesPlace (funcName : String) (place : Place TSNode) : Bool :=
  place.node.label.type = .typeAnnotationNode ∧ annotates place.node funcName

theorem searchChildren_eq {funcName : String} {levels : Nat}
    {search : List TSNode → Option (Place TSNode)}
    (deeper : ∀ nodes, search nodes =
      (within isNamed levels nodes).find? (annotatesPlace funcName)) (before nodes : List TSNode) :
    searchChildren funcName search before nodes =
      ((places before nodes).flatMap fun place =>
        place :: if isNamed place.node.label then within isNamed levels place.node.children
          else []).find? (annotatesPlace funcName) := by
  induction nodes generalizing before with
  | nil => rfl
  | cons child rest ih =>
    rw [searchChildren, places, List.flatMap_cons, List.cons_append, List.find?_cons,
      List.find?_append, ← ih (child :: before)]
    by_cases annotatedBy : child.label.type = .typeAnnotationNode
    · have named : isNamed child.label = true := by
        unfold isNamed
        rw [annotatedBy]
      cases own : annotates child funcName with
      | true => simp [annotatesPlace, annotatedBy, own]
      | false =>
        simp only [annotatedBy, if_true, own, Bool.false_eq_true, if_false, annotatesPlace,
          and_false, decide_false, named]
        rw [deeper]
        cases (within isNamed levels child.children).find? (annotatesPlace funcName) <;> rfl
    · simp only [annotatedBy, if_false, annotatesPlace, false_and, decide_false]
      cases named : isNamed child.label with
      | true =>
        simp only [if_true]
        rw [deeper]
        cases (within isNamed levels child.children).find? (annotatesPlace funcName) <;> rfl
      | false => simp

/-- The search finds the first annotation of the name in the order of the text. -/
theorem findTypeAnnotationByNameRecursive_eq (funcName : String) (levels : Nat)
    (nodes : List TSNode) :
    findTypeAnnotationByNameRecursive funcName levels nodes =
      (within isNamed levels nodes).find? (annotatesPlace funcName) := by
  induction levels generalizing nodes with
  | zero => rfl
  | succ levels ih => exact searchChildren_eq ih [] nodes

/-! ## The lists of the docs -/

/-- The value that a child of the root adds to the docs, if any; then the alias, the union and the
operator. -/
def valueOf (root : List TSNode) (exports : ExportList) (node : TSNode) : Option ElmValue :=
  if node.label.type = .valueDeclaration then
    (extractValueDecl extractTypeExpression root node).filter fun value =>
      isExportedValue exports value.name
  else none

def aliasOf (exports : ExportList) (place : Place TSNode) : Option ElmAlias :=
  if place.node.label.type = .typeAliasDeclaration then
    (extractTypeAlias extractTypeExpression place).filter fun item =>
      isExportedType exports item.name
  else none

def unionOf (exports : ExportList) (place : Place TSNode) : Option ElmUnion :=
  if place.node.label.type = .typeDeclaration then
    ((extractUnionType extractTypeExpression place).filter fun union =>
      isExportedType exports union.name).map fun union =>
        if isTypeExposedWithConstructors exports union.name then union
        else { union with cases := [] }
  else none

def binopOf (root : List TSNode) (exports : ExportList) (node : TSNode) : Option ElmBinop :=
  if node.label.type = .infixDeclaration then
    (extractBinop extractTypeExpression root node).filter fun binop =>
      isExportedValue exports binop.name
  else none

variable {extractTypeExpression}

/-- A child adds to the list of its own type only. -/
theorem addDeclaration_eq (root : List TSNode) (exports : ExportList) (docs : ElmModuleDocs)
    (place : Place TSNode) :
    addDeclaration extractTypeExpression root exports docs place =
      { docs with
        values := docs.values ++ (valueOf extractTypeExpression root exports place.node).toList
        aliases := docs.aliases ++ (aliasOf extractTypeExpression exports place).toList
        unions := docs.unions ++ (unionOf extractTypeExpression exports place).toList
        binops := docs.binops ++
          (binopOf extractTypeExpression root exports place.node).toList } := by
  unfold addDeclaration valueOf aliasOf unionOf binopOf
  split
  · rename_i kind
    simp only [kind, if_true, reduceCtorEq, if_false, Option.toList_none, List.append_nil]
    cases extractValueDecl extractTypeExpression root place.node with
    | none => simp
    | some value => cases shown : isExportedValue exports value.name <;> simp [shown, Option.filter]
  · rename_i kind
    simp only [kind, if_true, reduceCtorEq, if_false, Option.toList_none, List.append_nil]
    cases extractTypeAlias extractTypeExpression place with
    | none => simp
    | some item => cases shown : isExportedType exports item.name <;> simp [shown, Option.filter]
  · rename_i kind
    simp only [kind, if_true, reduceCtorEq, if_false, Option.toList_none, List.append_nil]
    cases extractUnionType extractTypeExpression place with
    | none => simp
    | some union =>
      cases shown : isExportedType exports union.name with
      | false => simp [shown, Option.filter]
      | true =>
        cases whole : isTypeExposedWithConstructors exports union.name <;>
          simp [shown, whole, Option.filter]
  · rename_i kind
    simp only [kind, if_true, reduceCtorEq, if_false, Option.toList_none, List.append_nil]
    cases extractBinop extractTypeExpression root place.node with
    | none => simp
    | some binop => cases shown : isExportedValue exports binop.name <;> simp [shown, Option.filter]
  · rename_i value item union binop
    rw [if_neg value, if_neg item, if_neg union, if_neg binop]
    simp only [Option.toList_none, List.append_nil]

theorem foldl_addDeclaration (root : List TSNode) (exports : ExportList)
    (docs : ElmModuleDocs) (walked : List (Place TSNode)) :
    walked.foldl (addDeclaration extractTypeExpression root exports) docs =
      { docs with
        values := docs.values ++
          walked.filterMap fun place => valueOf extractTypeExpression root exports place.node
        aliases := docs.aliases ++ walked.filterMap (aliasOf extractTypeExpression exports)
        unions := docs.unions ++ walked.filterMap (unionOf extractTypeExpression exports)
        binops := docs.binops ++
          walked.filterMap fun place =>
            binopOf extractTypeExpression root exports place.node } := by
  induction walked generalizing docs with
  | nil => simp
  | cons place walked ih =>
    rw [List.foldl_cons, ih, addDeclaration_eq]
    simp only [filterMap_cons_toList, List.append_assoc]

/-- The docs, list by list. -/
theorem parseElmFile_eq (root : List TSNode) :
    parseElmFile extractTypeExpression root =
      { name := (extractModuleInfo root).1
        comment := moduleComment root
        values := sortByName ElmValue.name
          (root.filterMap (valueOf extractTypeExpression root (extractModuleInfo root).2))
        aliases := sortByName ElmAlias.name
          ((places [] root).filterMap (aliasOf extractTypeExpression (extractModuleInfo root).2))
        unions := sortByName ElmUnion.name
          ((places [] root).filterMap (unionOf extractTypeExpression (extractModuleInfo root).2))
        binops := sortByName ElmBinop.name
          (root.filterMap (binopOf extractTypeExpression root (extractModuleInfo root).2)) } := by
  unfold parseElmFile
  simp only [foldl_addDeclaration, filterMap_places, List.nil_append]

end Extraction

end ElmWrap.Docs
