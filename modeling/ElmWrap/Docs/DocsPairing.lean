import ElmWrap.Docs.ModuleTree

/-!
# What the docs say of a module

`parse_elm_file` finds annotations by name and comments by place. What each search finds in
the tree of a module is worked out here, and from it when the docs are those of the module.
-/

namespace ElmWrap.Docs

open Lib.Siblings

/-! ## Comments -/

/-- The types of nodes at which the search for a comment ends. -/
def StopsSearch (type : NodeType) : Prop :=
  type ≠ .blockComment ∧ type ≠ .token "\n" ∧ type ≠ .lineComment

theorem DocComment.isDoc (doc : DocComment) : isDocComment doc.node.label.text = true := by
  unfold isDocComment
  rw [doc.delimited]
  rfl

theorem DocComment.clean (doc : DocComment) : cleanComment doc.node.label.text = doc.text := by
  have ended : ['-', '}'].isSuffixOf doc.node.label.text.toList = true := by
    rw [List.isSuffixOf_iff_suffix, doc.delimited]
    exact List.suffix_append ..
  have long : doc.node.label.text.toList.length = doc.text.toList.length + 5 := by
    rw [doc.delimited]
    simp only [List.length_append, List.length_cons, List.length_nil]
    omega
  unfold cleanComment
  rw [if_neg (by omega), if_neg (by simp [doc.isDoc]), if_neg (by simp [ended]), long,
    Nat.add_sub_cancel, doc.delimited, List.append_assoc]
  have inner : (['{', '-', '|'] ++ (doc.text.toList ++ ['-', '}'])).drop 3 =
      doc.text.toList ++ ['-', '}'] := rfl
  rw [inner, List.take_left, String.ofList_toList]

theorem findPrecedingComment_append {nodes before : List TSNode}
    (plain : ∀ node ∈ nodes, IsPlain node) :
    findPrecedingComment (nodes ++ before) = findPrecedingComment before := by
  induction nodes with
  | nil => rfl
  | cons node nodes ih =>
    have rest := ih fun other member => plain other (List.mem_cons_of_mem _ member)
    rw [List.cons_append, findPrecedingComment]
    rcases plain node List.mem_cons_self with line | ⟨block, silent⟩
    · simp [line, rest]
    · simp [block, silent, rest]

theorem commentAfter_append {nodes rest : List TSNode} (plain : ∀ node ∈ nodes, IsPlain node) :
    commentAfter (nodes ++ rest) = commentAfter rest := by
  induction nodes with
  | nil => rfl
  | cons node nodes ih =>
    have later := ih fun other member => plain other (List.mem_cons_of_mem _ member)
    rw [List.cons_append, commentAfter]
    rcases plain node List.mem_cons_self with line | ⟨block, silent⟩
    · simp [line, later]
    · simp [block, silent, later]

theorem plain_of_mem_plainNodes {comments : List PlainComment} {node : TSNode}
    (member : node ∈ plainNodes comments) : IsPlain node := by
  obtain ⟨comment, _, rfl⟩ := List.mem_map.mp member
  exact comment.plain

@[simp] theorem findPrecedingComment_plainNodes (comments : List PlainComment)
    (before : List TSNode) :
    findPrecedingComment ((plainNodes comments).reverse ++ before) = findPrecedingComment before :=
  findPrecedingComment_append fun _ member =>
    plain_of_mem_plainNodes (List.mem_reverse.mp member)

@[simp] theorem commentAfter_plainNodes (comments : List PlainComment) (rest : List TSNode) :
    commentAfter (plainNodes comments ++ rest) = commentAfter rest :=
  commentAfter_append fun _ => plain_of_mem_plainNodes

theorem findPrecedingComment_docNodes (doc : Option DocComment) (before : List TSNode) :
    findPrecedingComment ((docNodes doc).reverse ++ before) =
      doc.elim (findPrecedingComment before) DocComment.text := by
  cases doc with
  | none => rfl
  | some doc =>
    have found : findPrecedingComment (doc.node :: before) = doc.text := by
      rw [findPrecedingComment, if_pos doc.block, if_pos doc.isDoc, doc.clean]
    exact found

theorem commentAfter_docNodes (doc : Option DocComment) (rest : List TSNode) :
    commentAfter (docNodes doc ++ rest) =
      doc.elim (commentAfter rest) fun doc => some doc.text := by
  cases doc with
  | none => rfl
  | some doc =>
    have found : commentAfter (doc.node :: rest) = some doc.text := by
      rw [commentAfter, if_pos doc.block, if_pos doc.isDoc, doc.clean]
    exact found

theorem findPrecedingComment_stop {node : TSNode} (stops : StopsSearch node.label.type)
    (before : List TSNode) : findPrecedingComment (node :: before) = "" := by
  obtain ⟨block, newline, line⟩ := stops
  rw [findPrecedingComment, if_neg block, if_pos ⟨newline, line⟩]

theorem Decl.stops (decl : Decl) : StopsSearch decl.main.label.type := by
  cases decl with
  | value decl => simp [StopsSearch, Decl.main, decl.function.kind]
  | typeAlias decl => simp [StopsSearch, Decl.main, decl.kind]
  | union decl => simp [StopsSearch, Decl.main, decl.kind]
  | port decl => simp [StopsSearch, Decl.main, decl.kind]
  | operator decl => simp [StopsSearch, Decl.main, decl.kind]

/-- Behind a declaration there is no comment to be found. -/
theorem findPrecedingComment_behind (d : Declaration) (before : List TSNode) :
    findPrecedingComment (d.nodes.reverse ++ before) = "" := by
  unfold Declaration.nodes
  rw [List.reverse_append, List.reverse_cons, List.append_assoc, List.append_assoc,
    findPrecedingComment_plainNodes]
  exact findPrecedingComment_stop d.decl.stops _

theorem findPrecedingComment_behind_import (item : Import) (before : List TSNode) :
    findPrecedingComment (item.nodes.reverse ++ before) = "" := by
  unfold Import.nodes
  rw [List.reverse_cons, List.append_assoc, findPrecedingComment_plainNodes]
  exact findPrecedingComment_stop (by simp [StopsSearch, item.kind]) _

/-- Behind a list of parts, of which each hides what is before it, there is no comment to be
found. -/
theorem findPrecedingComment_behind_all {β : Type} {nodes : β → List TSNode}
    (hides : ∀ b before, findPrecedingComment ((nodes b).reverse ++ before) = "")
    (items : List β) (before : List TSNode) :
    findPrecedingComment ((items.flatMap nodes).reverse ++ before) =
      if items = [] then findPrecedingComment before else "" := by
  rcases List.eq_nil_or_concat items with rfl | ⟨front, last, rfl⟩
  · rfl
  · rw [List.concat_eq_append, List.flatMap_append, List.flatMap_singleton, List.reverse_append,
      List.append_assoc, hides, if_neg (by simp)]

namespace ElmModuleTree

variable (m : ElmModuleTree)

/-- The nodes above the first node of a declaration that is no comment. -/
def nodesAbove (p : Place Declaration) : List TSNode :=
  m.head ++ p.before.reverse.flatMap Declaration.nodes ++ docNodes p.node.doc ++
    plainNodes p.node.gap

/-- The comment of the module is not there to be taken for the comment of a declaration. -/
def KeepsApart (p : Place Declaration) : Prop :=
  p.before = [] → m.imports = [] → p.node.doc = none → m.comment = ""

theorem findPrecedingComment_opening :
    findPrecedingComment ((m.opening.toList.flatMap Opening.nodes).reverse ++
      (plainNodes m.first).reverse) = m.comment := by
  unfold comment
  cases m.opening with
  | none =>
    have ended := findPrecedingComment_plainNodes m.first []
    rw [List.append_nil] at ended
    exact ended
  | some opening =>
    have nodes : (some opening).toList.flatMap Opening.nodes = opening.nodes := by simp
    rw [nodes, Opening.nodes, List.reverse_cons, List.reverse_append, List.reverse_append,
      List.append_assoc, List.append_assoc, List.append_assoc, findPrecedingComment_plainNodes,
      findPrecedingComment_docNodes]
    cases own : opening.doc with
    | some doc => simp [docText, own]
    | none =>
      simp only [Option.elim_none, findPrecedingComment_plainNodes, List.cons_append,
        List.nil_append]
      rw [findPrecedingComment_stop (by simp [StopsSearch, opening.header.kind])]
      simp [docText, own]

theorem findPrecedingComment_nodesAbove (p : Place Declaration) :
    findPrecedingComment (m.nodesAbove p).reverse =
      p.node.doc.elim (if p.before = [] ∧ m.imports = [] then m.comment else "")
        DocComment.text := by
  unfold nodesAbove head
  rw [List.reverse_append, List.reverse_append, List.reverse_append,
    findPrecedingComment_plainNodes, findPrecedingComment_docNodes,
    findPrecedingComment_behind_all findPrecedingComment_behind, List.reverse_append,
    List.reverse_append, findPrecedingComment_behind_all findPrecedingComment_behind_import,
    findPrecedingComment_opening]
  simp only [List.reverse_eq_nil_iff, ite_and]

/-- The comment above a declaration is its own, unless it has none and takes that of the module. -/
theorem findPrecedingComment_iff (p : Place Declaration) :
    findPrecedingComment (m.nodesAbove p).reverse = docText p.node.doc ↔ m.KeepsApart p := by
  rw [findPrecedingComment_nodesAbove]
  unfold KeepsApart docText
  cases p.node.doc with
  | some doc => simp
  | none =>
    by_cases first : p.before = [] ∧ m.imports = []
    · simp [first]
    · rw [not_and] at first
      by_cases begins : p.before = []
      · simp [begins, first begins]
      · simp [begins]

end ElmModuleTree

/-! ## The nodes of a tree -/

def IsComment (node : TSNode) : Prop :=
  node.label.type = .lineComment ∨ node.label.type = .blockComment

theorem isComment_of_mem_plainNodes {comments : List PlainComment} {node : TSNode}
    (member : node ∈ plainNodes comments) : IsComment node := by
  rcases plain_of_mem_plainNodes member with line | ⟨block, _⟩
  · exact .inl line
  · exact .inr block

theorem isComment_of_mem_docNodes {doc : Option DocComment} {node : TSNode}
    (member : node ∈ docNodes doc) : IsComment node := by
  obtain ⟨doc, _, rfl⟩ := List.mem_map.mp member
  exact .inr doc.block

theorem Declaration.mem_lead {d : Declaration} {node : TSNode} (member : node ∈ d.decl.lead) :
    IsComment node ∨ ∃ a, d.annotatedBy = some a ∧ node = a.node := by
  obtain ⟨_, _, decl, _⟩ := d
  cases decl with
  | value decl =>
    rcases List.mem_append.mp member with annotatedBy | between
    · obtain ⟨a, own, rfl⟩ := List.mem_map.mp annotatedBy
      exact .inr ⟨a, Option.mem_toList.mp own, rfl⟩
    · exact .inl (isComment_of_mem_plainNodes between)
  | _ => cases member

/-- A node of a declaration is a comment, its annotation, or its main node. -/
theorem Declaration.mem_nodes {d : Declaration} {node : TSNode} (member : node ∈ d.nodes) :
    IsComment node ∨ (∃ a, d.annotatedBy = some a ∧ node = a.node) ∨ node = d.decl.main := by
  unfold Declaration.nodes at member
  simp only [List.mem_append, List.mem_cons] at member
  rcases member with ((doc | gap) | lead) | main | after
  · exact .inl (isComment_of_mem_docNodes doc)
  · exact .inl (isComment_of_mem_plainNodes gap)
  · exact (Declaration.mem_lead lead).imp_right .inl
  · exact .inr (.inr main)
  · exact .inl (isComment_of_mem_plainNodes after)

theorem Decl.main_type (decl : Decl) :
    decl.main.label.type ∈ [.valueDeclaration, .typeAliasDeclaration, .typeDeclaration,
      .portAnnotationNode, .infixDeclaration] := by
  cases decl with
  | value decl => simp [Decl.main, decl.function.kind]
  | typeAlias decl => simp [Decl.main, decl.kind]
  | union decl => simp [Decl.main, decl.kind]
  | port decl => simp [Decl.main, decl.kind]
  | operator decl => simp [Decl.main, decl.kind]

theorem Import.mem_nodes {item : Import} {node : TSNode} (member : node ∈ item.nodes) :
    IsComment node ∨ node.label.type = .importClause := by
  rcases List.mem_cons.mp member with rfl | after
  · exact .inr item.kind
  · exact .inl (isComment_of_mem_plainNodes after)

/-- Of these nodes none declares the module. -/
def Undeclared (nodes : List TSNode) : Prop :=
  ∀ node ∈ nodes, node.label.type ≠ .moduleDeclaration

theorem IsComment.undeclared {node : TSNode} (comment : IsComment node) :
    node.label.type ≠ .moduleDeclaration := by
  rcases comment with line | block
  · simp [line]
  · simp [block]

theorem undeclared_plainNodes (comments : List PlainComment) : Undeclared (plainNodes comments) :=
  fun _ member => (isComment_of_mem_plainNodes member).undeclared

theorem undeclared_imports (imports : List Import) :
    Undeclared (imports.flatMap Import.nodes) := by
  intro node member
  obtain ⟨item, _, inside⟩ := List.mem_flatMap.mp member
  rcases Import.mem_nodes inside with comment | clause
  · exact comment.undeclared
  · simp [clause]

theorem undeclared_declarations (declarations : List Declaration) :
    Undeclared (declarations.flatMap Declaration.nodes) := by
  intro node member
  obtain ⟨d, _, inside⟩ := List.mem_flatMap.mp member
  rcases Declaration.mem_nodes inside with comment | ⟨a, _, rfl⟩ | rfl
  · exact comment.undeclared
  · simp [a.kind]
  · have type := d.decl.main_type
    intro declares
    simp [declares] at type

/-! ## The comment of the module -/

theorem moduleComment_append {front : List TSNode} (undeclared : Undeclared front)
    (rest : List TSNode) : moduleComment (front ++ rest) = moduleComment rest := by
  induction front with
  | nil => rfl
  | cons node front ih =>
    rw [List.cons_append, moduleComment, if_neg (undeclared node List.mem_cons_self)]
    exact ih fun other member => undeclared other (List.mem_cons_of_mem _ member)

/-- The first comment in front of a declaration, up to the first declaration of a value or a
type. -/
def leadingDoc : List Declaration → String
  | [] => ""
  | d :: rest =>
    match d.doc with
    | some doc => doc.text
    | none =>
      match d.decl with
      | .port _ => leadingDoc rest
      | .operator _ => leadingDoc rest
      | _ => ""

theorem commentAfter_pass {node : TSNode} {type : NodeType} (kind : node.label.type = type)
    (passes : type = .typeAnnotationNode ∨ type = .portAnnotationNode ∨ type = .infixDeclaration ∨
      type = .importClause) (rest : List TSNode) :
    commentAfter (node :: rest) = commentAfter rest := by
  rw [commentAfter, kind]
  rcases passes with rfl | rfl | rfl | rfl <;> simp

theorem commentAfter_stop {node : TSNode} {type : NodeType} (kind : node.label.type = type)
    (stops : type = .valueDeclaration ∨ type = .typeAliasDeclaration ∨ type = .typeDeclaration)
    (rest : List TSNode) : commentAfter (node :: rest) = none := by
  rw [commentAfter, kind]
  rcases stops with rfl | rfl | rfl <;> simp

theorem commentAfter_imports (imports : List Import) (rest : List TSNode) :
    commentAfter (imports.flatMap Import.nodes ++ rest) = commentAfter rest := by
  induction imports with
  | nil => rfl
  | cons item imports ih =>
    rw [List.flatMap_cons, List.append_assoc, Import.nodes, List.cons_append,
      commentAfter_pass item.kind (by simp), commentAfter_plainNodes, ih]

theorem commentAfter_declarations (declarations : List Declaration) :
    (commentAfter (declarations.flatMap Declaration.nodes)).getD "" = leadingDoc declarations := by
  induction declarations with
  | nil => rfl
  | cons d rest ih =>
    rw [List.flatMap_cons, Declaration.nodes]
    simp only [List.append_assoc]
    rw [commentAfter_docNodes, leadingDoc]
    cases d.doc with
    | some doc => rfl
    | none =>
      simp only [Option.elim_none, commentAfter_plainNodes]
      cases d.decl with
      | value decl =>
        have stop : ∀ nodes, commentAfter (decl.function.node :: nodes) = none :=
          commentAfter_stop decl.function.kind (by simp)
        simp only [Decl.lead, Decl.main, List.append_assoc]
        cases decl.annotatedBy with
        | none =>
          simp only [Option.toList_none, List.map_nil, List.nil_append, commentAfter_plainNodes]
          rw [List.cons_append, stop]
          rfl
        | some a =>
          simp only [Option.toList_some, List.map_cons, List.map_nil, List.cons_append,
            List.nil_append]
          rw [commentAfter_pass a.kind (by simp), commentAfter_plainNodes, stop]
          rfl
      | typeAlias decl =>
        simp only [Decl.lead, Decl.main, List.nil_append, List.cons_append]
        rw [commentAfter_stop decl.kind (by simp)]
        rfl
      | union decl =>
        simp only [Decl.lead, Decl.main, List.nil_append, List.cons_append]
        rw [commentAfter_stop decl.kind (by simp)]
        rfl
      | port decl =>
        simp only [Decl.lead, Decl.main, List.nil_append, List.cons_append]
        rw [commentAfter_pass decl.kind (by simp), commentAfter_plainNodes, ih]
      | operator decl =>
        simp only [Decl.lead, Decl.main, List.nil_append, List.cons_append]
        rw [commentAfter_pass decl.kind (by simp), commentAfter_plainNodes, ih]

/-- The comment of the module is its own, unless it has none and takes that of a declaration. -/
theorem moduleComment_iff (m : ElmModuleTree) :
    moduleComment m.tree = m.comment ↔
      ∀ o ∈ m.opening, o.doc = none → leadingDoc m.declarations = "" := by
  unfold ElmModuleTree.tree ElmModuleTree.head ElmModuleTree.comment
  simp only [List.append_assoc]
  rw [moduleComment_append (undeclared_plainNodes m.first)]
  cases m.opening with
  | none =>
    rw [moduleComment_append (fun _ member => by simp at member),
      moduleComment_append (undeclared_imports m.imports), ← List.append_nil (List.flatMap _ _),
      moduleComment_append (undeclared_declarations m.declarations)]
    simp [moduleComment, docText]
  | some o =>
    have nodes : (some o).toList.flatMap Opening.nodes = o.nodes := by simp
    rw [nodes, Opening.nodes, List.cons_append, moduleComment, if_pos o.header.kind]
    simp only [List.append_assoc, commentAfter_plainNodes]
    rw [commentAfter_docNodes, commentAfter_plainNodes, commentAfter_imports]
    cases own : o.doc with
    | some doc => simp [docText, own]
    | none =>
      simp only [Option.elim_none, commentAfter_declarations, Option.bind_some, docText, own,
        Option.mem_def, Option.some_inj, forall_eq', true_imp_iff]

/-! ## The exposing list -/

/-- An item of an exposing list shows a value or an operator. -/
def showsValue (name : String) (item : TSNode) : Bool :=
  item.label.type = .doubleDot ∨ item.label.type = .exposedValue ∧ item.label.text = name ∨
    item.label.type = .exposedOperator ∧
      (childByFieldName item .operator).any (·.label.text = name)

def showsType (name : String) (item : TSNode) : Bool :=
  item.label.type = .doubleDot ∨ item.label.type = .exposedType ∧
    (childrenOf item .upperCaseIdentifier).getLast?.any (·.label.text = name)

def showsConstructors (name : String) (item : TSNode) : Bool :=
  item.label.type = .doubleDot ∨ item.label.type = .exposedType ∧
    (childrenOf item .upperCaseIdentifier).getLast?.any (·.label.text = name) ∧
    (firstChild item .exposedUnionConstructors).isSome

theorem isExportedValue_exposeItem (exports : ExportList) (item : TSNode) (name : String) :
    isExportedValue (exposeItem exports item) name =
      (isExportedValue exports name || showsValue name item) := by
  unfold exposeItem isExportedValue showsValue
  cases kind : item.label.type with
  | doubleDot => simp
  | exposedValue =>
    have symm : item.label.text = name ↔ name = item.label.text := eq_comm
    rw [Bool.eq_iff_iff]
    simp [symm, or_assoc]
  | exposedOperator =>
    rw [Bool.eq_iff_iff]
    cases childByFieldName item .operator with
    | none => simp
    | some operator =>
      have symm : operator.label.text = name ↔ name = operator.label.text := eq_comm
      simp [symm, or_assoc]
  | exposedType => cases (childrenOf item .upperCaseIdentifier).getLast? <;> simp
  | _ => simp

theorem isExportedType_exposeItem (exports : ExportList) (item : TSNode) (name : String) :
    isExportedType (exposeItem exports item) name =
      (isExportedType exports name || showsType name item) := by
  unfold exposeItem isExportedType showsType
  cases kind : item.label.type with
  | doubleDot => simp
  | exposedOperator => cases childByFieldName item .operator <;> simp
  | exposedType =>
    rw [Bool.eq_iff_iff]
    cases (childrenOf item .upperCaseIdentifier).getLast? with
    | none => simp
    | some identifier =>
      have symm : identifier.label.text = name ↔ name = identifier.label.text := eq_comm
      simp [symm, or_assoc]
  | _ => simp

theorem isTypeExposedWithConstructors_exposeItem (exports : ExportList) (item : TSNode)
    (name : String) :
    isTypeExposedWithConstructors (exposeItem exports item) name =
      (isTypeExposedWithConstructors exports name || showsConstructors name item) := by
  unfold exposeItem isTypeExposedWithConstructors showsConstructors
  cases kind : item.label.type with
  | doubleDot => simp
  | exposedOperator => cases childByFieldName item .operator <;> simp
  | exposedType =>
    rw [Bool.eq_iff_iff]
    cases (childrenOf item .upperCaseIdentifier).getLast? with
    | none => simp
    | some identifier =>
      have symm : identifier.label.text = name ↔ name = identifier.label.text := eq_comm
      cases whole : firstChild item .exposedUnionConstructors <;> simp [symm, or_assoc]
  | _ => simp

/-- What each item adds to a test of the exports, the items add together. -/
theorem exports_foldl {test : ExportList → Bool} {shows : TSNode → Bool}
    (step : ∀ exports item, test (exposeItem exports item) = (test exports || shows item))
    (exports : ExportList) (items : List TSNode) :
    test (items.foldl exposeItem exports) = (test exports || items.any shows) := by
  induction items generalizing exports with
  | nil => simp
  | cons item items ih => rw [List.foldl_cons, ih, step, List.any_cons, Bool.or_assoc]

theorem any_eq_or {α : Type} {p q r : α → Bool} {items : List α}
    (each : ∀ a ∈ items, r a = (p a || q a)) : items.any r = (items.any p || items.any q) := by
  induction items with
  | nil => rfl
  | cons a items ih =>
    rw [List.any_cons, List.any_cons, List.any_cons, each a List.mem_cons_self,
      ih fun b member => each b (List.mem_cons_of_mem a member)]
    ac_rfl

theorem foldl_readModuleChild (children : List TSNode) (info : Option String × ExportList) :
    (children.foldl readModuleChild info).2 =
      (children.filter fun child => child.label.type = .exposingList).foldl
        (fun exports list => list.children.foldl exposeItem exports) info.2 := by
  induction children generalizing info with
  | nil => rfl
  | cons child children ih =>
    rw [List.foldl_cons, ih]
    by_cases list : child.label.type = .exposingList
    · rw [List.filter_cons_of_pos (by simp [list]), List.foldl_cons]
      simp [readModuleChild, list]
    · rw [List.filter_cons_of_neg (by simp [list])]
      have kept : (readModuleChild info child).2 = info.2 := by
        unfold readModuleChild
        split
        · rfl
        · contradiction
        · rfl
      rw [kept]

theorem foldl_readModuleDeclaration {nodes : List TSNode} (undeclared : Undeclared nodes)
    (info : Option String × ExportList) : nodes.foldl readModuleDeclaration info = info := by
  induction nodes generalizing info with
  | nil => rfl
  | cons node nodes ih =>
    have rest := ih fun other member => undeclared other (List.mem_cons_of_mem _ member)
    rw [List.foldl_cons, readModuleDeclaration, if_neg (undeclared node List.mem_cons_self), rest]

theorem undeclared_opening (o : Opening) :
    Undeclared (plainNodes o.gap ++ docNodes o.doc ++ plainNodes o.after) := by
  intro node member
  simp only [List.mem_append] at member
  rcases member with (gap | doc) | after
  · exact (isComment_of_mem_plainNodes gap).undeclared
  · exact (isComment_of_mem_docNodes doc).undeclared
  · exact (isComment_of_mem_plainNodes after).undeclared

/-- The exports are those of the declaration of the module. -/
theorem extractModuleInfo_exports (m : ElmModuleTree) :
    (extractModuleInfo m.tree).2 =
      m.opening.elim noExports fun o => o.header.items.foldl exposeItem noExports := by
  unfold extractModuleInfo ElmModuleTree.tree ElmModuleTree.head
  dsimp only
  rw [List.foldl_append, foldl_readModuleDeclaration (undeclared_declarations m.declarations),
    List.foldl_append, foldl_readModuleDeclaration (undeclared_imports m.imports),
    List.foldl_append, foldl_readModuleDeclaration (undeclared_plainNodes m.first)]
  cases m.opening with
  | none => rfl
  | some o =>
    obtain ⟨list, only, items⟩ := o.header.exposing
    have nodes : (some o).toList.flatMap Opening.nodes = o.nodes := by simp
    unfold childrenOf at only
    rw [nodes, Opening.nodes, List.foldl_cons, foldl_readModuleDeclaration (undeclared_opening o),
      readModuleDeclaration, if_pos o.header.kind, foldl_readModuleChild, only]
    simp [items]

namespace ElmModuleTree

variable (m : ElmModuleTree)

/-- A module is exposed as its declaration says; one without a declaration exposes nothing. -/
theorem exported_eq (test : ExportList → Bool) {shows : TSNode → Bool}
    {exposes : Header → Bool} (none : test noExports = false)
    (step : ∀ exports item, test (exposeItem exports item) = (test exports || shows item))
    (same : ∀ header : Header, header.items.any shows = exposes header) :
    test (extractModuleInfo m.tree).2 = (m.opening.isSome && m.exposes exposes) := by
  rw [extractModuleInfo_exports]
  unfold ElmModuleTree.exposes
  cases m.opening with
  | none => simpa using none
  | some o =>
    simp only [Option.elim_some, exports_foldl step, none, same, Bool.false_or, Option.isSome_some,
      Option.all_some, Bool.true_and]

theorem isExportedValue_value {name : String} (value : isOperatorText name = false) :
    isExportedValue (extractModuleInfo m.tree).2 name =
      (m.opening.isSome && m.exposes (·.exposesValue name)) := by
  refine m.exported_eq (fun exports => isExportedValue exports name) rfl
    (fun exports item => isExportedValue_exposeItem exports item name) fun header => ?_
  unfold Header.exposesValue Header.exposesAll
  refine any_eq_or fun item member => ?_
  unfold showsValue
  cases kind : item.label.type with
  | exposedOperator =>
    obtain ⟨sign, ⟨operator, found, rfl⟩, signed⟩ := header.operators item member kind
    have other : operator.label.text ≠ name := by
      rintro rfl
      rw [value] at signed
      cases signed
    simp [found, other]
  | _ => simp

theorem isExportedValue_operator {name : String} (sign : isOperatorText name = true) :
    isExportedValue (extractModuleInfo m.tree).2 name =
      (m.opening.isSome && m.exposes (·.exposesOperator name)) := by
  refine m.exported_eq (fun exports => isExportedValue exports name) rfl
    (fun exports item => isExportedValue_exposeItem exports item name) fun header => ?_
  unfold Header.exposesOperator Header.exposesAll
  refine any_eq_or fun item member => ?_
  unfold showsValue
  cases kind : item.label.type with
  | exposedValue =>
    have other : item.label.text ≠ name := by
      rintro rfl
      rw [header.values item member kind] at sign
      cases sign
    simp [other]
  | _ => simp

theorem isExportedType_eq (name : String) :
    isExportedType (extractModuleInfo m.tree).2 name =
      (m.opening.isSome && m.exposes (·.exposesType name)) := by
  refine m.exported_eq (fun exports => isExportedType exports name) rfl
    (fun exports item => isExportedType_exposeItem exports item name) fun header => ?_
  unfold Header.exposesType Header.exposesAll
  refine any_eq_or fun item member => ?_
  unfold showsType
  cases kind : item.label.type with
  | exposedType =>
    obtain ⟨_, identifier, only, _⟩ := header.types item member kind
    simp [only]
  | _ => simp

theorem isTypeExposedWithConstructors_eq (name : String) :
    isTypeExposedWithConstructors (extractModuleInfo m.tree).2 name =
      (m.opening.isSome && m.exposes (·.exposesConstructors name)) := by
  refine m.exported_eq (fun exports => isTypeExposedWithConstructors exports name) rfl
    (fun exports item => isTypeExposedWithConstructors_exposeItem exports item name)
    fun header => ?_
  unfold Header.exposesConstructors Header.exposesAll
  refine any_eq_or fun item member => ?_
  unfold showsConstructors
  cases kind : item.label.type with
  | exposedType =>
    obtain ⟨_, identifier, only, _⟩ := header.types item member kind
    simp [only]
  | _ => simp

end ElmModuleTree

/-! ## Places in the tree -/

theorem firstChild_of_childrenOf {node child : TSNode} {type : NodeType}
    (only : childrenOf node type = [child]) : firstChild node type = some child := by
  unfold childrenOf at only
  rw [firstChild, ← List.head?_filter, only, List.head?_cons]

theorem annotates_iff (a : Annotation) (name : String) :
    annotates a.node name = true ↔ a.name = name := by
  obtain ⟨identifier, only, named⟩ := a.named
  unfold annotates
  rw [firstChild_of_childrenOf only, Option.any_some, decide_eq_true_eq, named]

/-- The nodes that add nothing to the docs themselves. -/
def IsQuiet (node : TSNode) : Prop :=
  IsComment node ∨ node.label.type = .moduleDeclaration ∨ node.label.type = .importClause ∨
    node.label.type = .typeAnnotationNode

namespace ElmModuleTree

variable (m : ElmModuleTree)

/-- What stands before the declarations is a comment, the declaration of the module or an import. -/
theorem mem_head {node : TSNode} (member : node ∈ m.head) :
    IsComment node ∨ node.label.type = .moduleDeclaration ∨ node.label.type = .importClause := by
  unfold head at member
  simp only [List.mem_append, List.mem_flatMap] at member
  rcases member with (first | ⟨o, _, opening⟩) | ⟨item, _, clause⟩
  · exact .inl (isComment_of_mem_plainNodes first)
  · rcases List.mem_cons.mp opening with rfl | later
    · exact .inr (.inl o.header.kind)
    · simp only [List.mem_append] at later
      rcases later with (gap | doc) | after
      · exact .inl (isComment_of_mem_plainNodes gap)
      · exact .inl (isComment_of_mem_docNodes doc)
      · exact .inl (isComment_of_mem_plainNodes after)
  · exact (Import.mem_nodes clause).imp_right .inr

/-- The main node of a declaration in the tree. -/
def mainPlace (p : Place Declaration) : Place TSNode :=
  ⟨(m.nodesAbove p ++ p.node.decl.lead).reverse, p.node.decl.main⟩

theorem filterMap_declaration {γ : Type} {entry : Place TSNode → Option γ}
    (quiet : ∀ place, IsQuiet place.node → entry place = none) (before : List TSNode)
    (d : Declaration) :
    (places before d.nodes).filterMap entry =
      (entry ⟨(docNodes d.doc ++ plainNodes d.gap ++ d.decl.lead).reverse ++ before,
        d.decl.main⟩).toList := by
  unfold Declaration.nodes
  have lead : ∀ node ∈ docNodes d.doc ++ plainNodes d.gap ++ d.decl.lead, IsQuiet node := by
    intro node member
    simp only [List.mem_append] at member
    rcases member with (doc | gap) | lead
    · exact .inl (isComment_of_mem_docNodes doc)
    · exact .inl (isComment_of_mem_plainNodes gap)
    · rcases Declaration.mem_lead lead with comment | ⟨a, _, rfl⟩
      · exact .inl comment
      · exact .inr (.inr (.inr a.kind))
  have after : ∀ node ∈ plainNodes d.after, IsQuiet node :=
    fun node member => .inl (isComment_of_mem_plainNodes member)
  rw [places_append, List.filterMap_append, places, filterMap_cons_toList,
    filterMap_places_eq_nil fun place member => quiet place (lead _ member),
    filterMap_places_eq_nil fun place member => quiet place (after _ member), List.nil_append,
    List.append_nil]

/-- What is read of the main nodes of declarations is read declaration by declaration. -/
theorem filterMap_tree {γ : Type} {entry : Place TSNode → Option γ}
    (quiet : ∀ place, IsQuiet place.node → entry place = none) :
    (places [] m.tree).filterMap entry =
      (places [] m.declarations).filterMap fun p => entry (m.mainPlace p) := by
  have head : ∀ node ∈ m.head, IsQuiet node := by
    intro node member
    rcases m.mem_head member with comment | opening | clause
    · exact .inl comment
    · exact .inr (.inl opening)
    · exact .inr (.inr (.inl clause))
  have joined := places_flatMap Declaration.nodes m.head.reverse [] m.declarations
  rw [List.reverse_nil, List.flatMap_nil, List.reverse_nil, List.nil_append] at joined
  unfold tree
  rw [places_append, List.filterMap_append, List.append_nil, joined, List.filterMap_flatMap,
    filterMap_places_eq_nil fun place member => quiet place (head _ member), List.nil_append,
    List.filterMap_eq_flatMap_toList]
  refine congrArg (List.flatMap · _) (funext fun p => ?_)
  rw [filterMap_declaration quiet]
  unfold mainPlace nodesAbove
  simp only [List.reverse_append, List.append_assoc]

/-- A declaration splits the tree above its first node that is no comment. -/
theorem tree_split {p : Place Declaration} (member : p ∈ places [] m.declarations) :
    ∃ back, m.tree = m.nodesAbove p ++ (p.node.decl.lead ++ p.node.decl.main :: back) := by
  obtain ⟨front, back, split, before⟩ := exists_split_of_mem_places member
  rw [List.append_nil] at before
  refine ⟨plainNodes p.node.after ++ back.flatMap Declaration.nodes, ?_⟩
  unfold tree nodesAbove
  rw [split, before, List.reverse_reverse, List.flatMap_append, List.flatMap_cons]
  conv_lhs => rw [Declaration.nodes]
  simp only [List.append_assoc, List.cons_append]

end ElmModuleTree

/-! ## Annotations in the tree -/

theorem Declaration.valueName_of_annotatedBy {d : Declaration} {a : Annotation}
    (own : d.annotatedBy = some a) : d.valueName = some a.name := by
  obtain ⟨_, _, decl, _⟩ := d
  cases decl with
  | value decl =>
    have paired := decl.paired a own
    exact congrArg some paired.symm
  | _ => cases own

theorem Declaration.lead_of_annotatedBy {d : Declaration} {a : Annotation}
    (own : d.annotatedBy = some a) : ∃ rest, d.decl.lead = a.node :: rest := by
  obtain ⟨_, _, decl, _⟩ := d
  cases decl with
  | value decl =>
    refine ⟨plainNodes decl.between, ?_⟩
    have same : decl.annotatedBy = some a := own
    simp [Decl.lead, same]
  | _ => cases own

/-- Of these nodes none is an annotation of the name. -/
def Unannotated (name : String) (nodes : List TSNode) : Prop :=
  ∀ node ∈ nodes, node.label.type = .typeAnnotationNode →
    ∃ a : Annotation, node = a.node ∧ a.name ≠ name

theorem unannotated_of_declarations {name : String} {nodes : List TSNode}
    {declarations : List Declaration}
    (covered : ∀ node ∈ nodes, (IsComment node ∨ node.label.type = .moduleDeclaration ∨
      node.label.type = .importClause) ∨ ∃ d ∈ declarations, node ∈ d.nodes)
    (others : ∀ d ∈ declarations, ∀ a, d.annotatedBy = some a → a.name ≠ name) :
    Unannotated name nodes := by
  intro node member kind
  rcases covered node member with (comment | opening | clause) | ⟨d, on, inside⟩
  · rcases comment with line | block
    · simp [line] at kind
    · simp [block] at kind
  · simp [opening] at kind
  · simp [clause] at kind
  · rcases Declaration.mem_nodes inside with comment | ⟨a, own, rfl⟩ | rfl
    · rcases comment with line | block
      · simp [line] at kind
      · simp [block] at kind
    · exact ⟨a, rfl, others d on a own⟩
    · have type := d.decl.main_type
      simp [kind] at type

theorem Unannotated.annotatesPlace {name : String} {nodes : List TSNode}
    (unannotated : Unannotated name nodes) :
    ∀ place ∈ places [] nodes, annotatesPlace name place = false := by
  intro place member
  by_cases kind : place.node.label.type = .typeAnnotationNode
  · obtain ⟨a, same, other⟩ := unannotated place.node (node_mem_of_mem_places member) kind
    have no : annotates place.node name = false := by
      rw [same, ← Bool.not_eq_true, annotates_iff]
      exact other
    simp [Docs.annotatesPlace, no]
  · simp [Docs.annotatesPlace, kind]

/-- The first annotation of a name that is not at the top of the tree, in the order of the text and
within ten levels. -/
def annotationAt (name : String) (nodes : List TSNode) : Option (Place TSNode) :=
  (below isNamed 10 nodes).find? (annotatesPlace name)

theorem findTypeAnnotationByName_of_unannotated {name : String} {root : List TSNode}
    (unannotated : Unannotated name root) :
    findTypeAnnotationByName root name = annotationAt name root := by
  unfold findTypeAnnotationByName annotationAt
  rw [findTypeAnnotationByNameRecursive_eq, find?_within_of_unwanted unannotated.annotatesPlace]

theorem findTypeAnnotationByName_own {front back : List TSNode} (a : Annotation)
    (unannotated : Unannotated a.name front) :
    findTypeAnnotationByName (front ++ a.node :: back) a.name =
      (annotationAt a.name front).or (some ⟨front.reverse, a.node⟩) := by
  have here : annotatesPlace a.name ⟨front.reverse, a.node⟩ = true := by
    simp [annotatesPlace, a.kind, (annotates_iff a a.name).mpr rfl]
  unfold findTypeAnnotationByName annotationAt
  rw [findTypeAnnotationByNameRecursive_eq,
    find?_within_of_wanted unannotated.annotatesPlace here]

theorem annotationOf_iff (a : Annotation) (name : String) :
    (childrenOf a.node .lowerCaseIdentifier).any (·.label.text = name) = true ↔ a.name = name := by
  obtain ⟨identifier, only, named⟩ := a.named
  rw [only, ← named]
  simp

theorem findSiblingAnnotationOf_of_unannotated {name : String} {root : List TSNode}
    (unannotated : Unannotated name root) : findSiblingAnnotationOf root name = none := by
  unfold findSiblingAnnotationOf
  refine List.findSome?_eq_none_iff.mpr fun place member => if_neg ?_
  rintro ⟨kind, named⟩
  obtain ⟨a, same, other⟩ := unannotated place.node (node_mem_of_mem_places member) kind
  rw [same] at named
  exact other ((annotationOf_iff a name).mp named)

theorem findSiblingAnnotationOf_own {front back : List TSNode} (a : Annotation)
    (unannotated : Unannotated a.name front) :
    findSiblingAnnotationOf (front ++ a.node :: back) a.name =
      some (⟨front.reverse, a.node⟩, a.type) := by
  have before := findSiblingAnnotationOf_of_unannotated unannotated
  unfold findSiblingAnnotationOf at before ⊢
  rw [places_append, List.findSome?_append, before, Option.none_or, places, List.findSome?_cons,
    List.append_nil, if_pos ⟨a.kind, (annotationOf_iff a a.name).mpr rfl⟩,
    firstChild_of_childrenOf a.typed]
  rfl

namespace ElmModuleTree

variable (m : ElmModuleTree)

theorem covered_nodesAbove (p : Place Declaration) :
    ∀ node ∈ m.nodesAbove p, (IsComment node ∨ node.label.type = .moduleDeclaration ∨
      node.label.type = .importClause) ∨ ∃ d ∈ p.before, node ∈ d.nodes := by
  intro node member
  unfold nodesAbove at member
  simp only [List.mem_append, List.mem_flatMap, List.mem_reverse] at member
  rcases member with ((head | earlier) | doc) | gap
  · exact .inl (m.mem_head head)
  · exact .inr earlier
  · exact .inl (.inl (isComment_of_mem_docNodes doc))
  · exact .inl (.inl (isComment_of_mem_plainNodes gap))

theorem covered_tree :
    ∀ node ∈ m.tree, (IsComment node ∨ node.label.type = .moduleDeclaration ∨
      node.label.type = .importClause) ∨ ∃ d ∈ m.declarations, node ∈ d.nodes := by
  intro node member
  rcases List.mem_append.mp member with head | declared
  · exact .inl (m.mem_head head)
  · exact .inr (List.mem_flatMap.mp declared)

theorem unannotated_nodesAbove {p : Place Declaration} (member : p ∈ places [] m.declarations)
    {name : String} (named : p.node.valueName = some name) :
    Unannotated name (m.nodesAbove p) :=
  unannotated_of_declarations (m.covered_nodesAbove p) fun _ earlier _ own =>
    ne_of_mem_before m.values_distinct member earlier
      (Declaration.valueName_of_annotatedBy own) named

/-- The search for the annotation of a value that has one. -/
theorem findTypeAnnotationByName_annotated {p : Place Declaration}
    (member : p ∈ places [] m.declarations) {a : Annotation} (own : p.node.annotatedBy = some a) :
    findTypeAnnotationByName m.tree a.name =
      (annotationAt a.name (m.nodesAbove p)).or
        (some ⟨(m.nodesAbove p).reverse, a.node⟩) := by
  obtain ⟨back, split⟩ := m.tree_split member
  obtain ⟨rest, lead⟩ := Declaration.lead_of_annotatedBy own
  rw [split, lead]
  exact findTypeAnnotationByName_own a
    (m.unannotated_nodesAbove member (Declaration.valueName_of_annotatedBy own))

/-- The scan for the annotation of a function that has one. -/
theorem findSiblingAnnotationOf_annotated {p : Place Declaration}
    (member : p ∈ places [] m.declarations) {a : Annotation} (own : p.node.annotatedBy = some a) :
    findSiblingAnnotationOf m.tree a.name =
      some (⟨(m.nodesAbove p).reverse, a.node⟩, a.type) := by
  obtain ⟨back, split⟩ := m.tree_split member
  obtain ⟨rest, lead⟩ := Declaration.lead_of_annotatedBy own
  rw [split, lead]
  exact findSiblingAnnotationOf_own a
    (m.unannotated_nodesAbove member (Declaration.valueName_of_annotatedBy own))

/-- Where a name is annotated nowhere at the top of the tree. -/
theorem unannotated_tree {name : String}
    (others : ∀ d ∈ m.declarations, ∀ a, d.annotatedBy = some a → a.name ≠ name) :
    Unannotated name m.tree :=
  unannotated_of_declarations m.covered_tree others

end ElmModuleTree

end ElmWrap.Docs
