import ElmWrap.Docs.DocsPairing

/-!
# When the docs are those of the module

The docs of a module pair each listed declaration with its own annotation and its own
comment except in three cases: a module without a comment takes the first comment of a
declaration, the first declaration may take the comment of the module, and an annotation
inside a declaration may be taken for one at the top.
-/

namespace ElmWrap.Docs

open Lib.Siblings
open Lib.LeastFirst (exchangeSort_perm exchangeSort_sorted)

variable {extractTypeExpression : TSNode → String}

/-! ## Entries -/

theorem valueOf_function (root : List TSNode) (exports : ExportList) (f : Function) :
    valueOf extractTypeExpression root exports f.node =
      if isExportedValue exports f.name then
        (findTypeAnnotationByName root f.name).bind fun annotatedBy =>
          (firstChild annotatedBy.node .typeExpression).map fun type =>
            ⟨f.name, findPrecedingComment annotatedBy.before, extractTypeExpression type⟩
      else none := by
  obtain ⟨left, only, identifier, single, named⟩ := f.named
  unfold valueOf extractValueDecl
  rw [if_pos f.kind, firstChild_of_childrenOf only]
  simp only [Option.bind_eq_bind, Option.bind_some, firstChild_of_childrenOf single, named]
  cases findTypeAnnotationByName root f.name with
  | none => simp
  | some annotatedBy =>
    simp only [Option.bind_some]
    cases firstChild annotatedBy.node .typeExpression with
    | none => simp
    | some type => cases shown : isExportedValue exports f.name <;> simp [shown, Option.filter]

theorem aliasOf_typeAlias (exports : ExportList) (before : List TSNode) (decl : TypeAlias) :
    aliasOf extractTypeExpression exports ⟨before, decl.node⟩ =
      if isExportedType exports decl.name then
        some ⟨decl.name, findPrecedingComment before,
          (childrenOf decl.node .lowerTypeName).map (·.label.text),
          extractTypeExpression decl.type⟩
      else none := by
  obtain ⟨identifier, only, named⟩ := decl.named
  unfold aliasOf extractTypeAlias
  rw [if_pos decl.kind, firstChild_of_childrenOf only, decl.typed]
  cases shown : isExportedType exports decl.name <;> simp [named, shown, Option.filter]

theorem extractUnionCase_variant (variant : Variant) :
    extractUnionCase extractTypeExpression variant.node =
      some (ElmModuleTree.documentedCase extractTypeExpression variant) := by
  obtain ⟨identifier, only, named⟩ := variant.named
  unfold extractUnionCase ElmModuleTree.documentedCase
  rw [firstChild_of_childrenOf only, Option.map_some, named]

theorem unionOf_union (exports : ExportList) (before : List TSNode) (decl : UnionType) :
    unionOf extractTypeExpression exports ⟨before, decl.node⟩ =
      if isExportedType exports decl.name then
        some ⟨decl.name, findPrecedingComment before,
          (childrenOf decl.node .lowerTypeName).map (·.label.text),
          if isTypeExposedWithConstructors exports decl.name then
            decl.variants.map (ElmModuleTree.documentedCase extractTypeExpression)
          else []⟩
      else none := by
  obtain ⟨identifier, only, named⟩ := decl.named
  have cases_ : (childrenOf decl.node .unionVariant).filterMap
      (extractUnionCase extractTypeExpression) =
      decl.variants.map (ElmModuleTree.documentedCase extractTypeExpression) := by
    rw [decl.listed, List.filterMap_map, ← List.filterMap_eq_map]
    exact List.filterMap_congr fun variant _ => extractUnionCase_variant variant
  unfold unionOf extractUnionType
  rw [if_pos decl.kind, firstChild_of_childrenOf only, cases_]
  cases shown : isExportedType exports decl.name with
  | false => simp [named, shown, Option.filter]
  | true =>
    cases whole : isTypeExposedWithConstructors exports decl.name <;>
      simp [named, shown, whole, Option.filter]

theorem binopOf_operator (root : List TSNode) (exports : ExportList) (decl : Operator) :
    binopOf extractTypeExpression root exports decl.node =
      if isExportedValue exports decl.name then
        (findSiblingAnnotationOf root decl.function).map fun found =>
          ⟨decl.name, findPrecedingComment found.1.before, extractTypeExpression found.2,
            atoi decl.precedence, decl.associativity⟩
      else none := by
  obtain ⟨operator, signed, rfl_⟩ := decl.named
  obtain ⟨associativity, associates, same⟩ := decl.associates
  obtain ⟨precedence, binds, level⟩ := decl.binds
  obtain ⟨func, only, applied⟩ := decl.applies
  unfold binopOf extractBinop
  rw [if_pos decl.kind, signed, associates, binds, firstChild_of_childrenOf only]
  simp only [Option.bind_eq_bind, Option.bind_some, applied, rfl_, same, level]
  cases findSiblingAnnotationOf root decl.function with
  | none => simp
  | some found => cases shown : isExportedValue exports decl.name <;> simp [shown, Option.filter]

/-! ## Nodes that add nothing -/

theorem IsQuiet.type {node : TSNode} (quiet : IsQuiet node) :
    node.label.type ≠ .valueDeclaration ∧ node.label.type ≠ .typeAliasDeclaration ∧
      node.label.type ≠ .typeDeclaration ∧ node.label.type ≠ .infixDeclaration := by
  rcases quiet with (line | block) | opening | clause | annotatedBy
  · simp [line]
  · simp [block]
  · simp [opening]
  · simp [clause]
  · simp [annotatedBy]

theorem valueOf_quiet (root : List TSNode) (exports : ExportList) {node : TSNode}
    (other : node.label.type ≠ .valueDeclaration) :
    valueOf extractTypeExpression root exports node = none := if_neg other

theorem aliasOf_quiet (exports : ExportList) {place : Place TSNode}
    (other : place.node.label.type ≠ .typeAliasDeclaration) :
    aliasOf extractTypeExpression exports place = none := if_neg other

theorem unionOf_quiet (exports : ExportList) {place : Place TSNode}
    (other : place.node.label.type ≠ .typeDeclaration) :
    unionOf extractTypeExpression exports place = none := if_neg other

theorem binopOf_quiet (root : List TSNode) (exports : ExportList) {node : TSNode}
    (other : node.label.type ≠ .infixDeclaration) :
    binopOf extractTypeExpression root exports node = none := if_neg other

/-! ## Declarations whose entry is right -/

namespace ElmModuleTree

variable (m : ElmModuleTree) (extractTypeExpression : TSNode → String)

/-- Either no annotation inside the tree is found before that of the value, which then has its own
comment above it, or the one that is found says the same. A value without annotation has no
namesake inside the tree. -/
def ValueClear (p : Place Declaration) (decl : ValueDecl) : Prop :=
  match decl.annotatedBy with
  | some a =>
    m.opening.isSome ∧
      match annotationAt decl.function.name (m.nodesAbove p) with
      | some found =>
        (firstChild found.node .typeExpression).map extractTypeExpression =
            some (extractTypeExpression a.type) ∧
          findPrecedingComment found.before = docText p.node.doc
      | none => m.KeepsApart p
  | none =>
    m.opening.isSome → ∀ found, annotationAt decl.function.name m.tree = some found →
      firstChild found.node .typeExpression = none

/-- What is asked of a declaration that the module exposes. -/
def DeclarationClear (p : Place Declaration) : Prop :=
  match p.node.decl with
  | .value decl =>
    m.exposes (·.exposesValue decl.function.name) → m.ValueClear extractTypeExpression p decl
  | .typeAlias decl =>
    m.exposes (·.exposesType decl.name) → m.opening.isSome ∧ m.KeepsApart p
  | .union decl =>
    m.exposes (·.exposesType decl.name) → m.opening.isSome ∧ m.KeepsApart p
  | .port _ => True
  | .operator decl =>
    m.exposes (·.exposesOperator decl.name) →
      ∀ q ∈ places [] m.declarations, q.node.valueName = some decl.function →
        q.node.annotatedBy.isSome → m.opening.isSome ∧ m.KeepsApart q

/-- Comments and annotations are not taken from elsewhere. -/
structure Clear : Prop where
  comment : ∀ o ∈ m.opening, o.doc = none → leadingDoc m.declarations = ""
  declarations : ∀ p ∈ places [] m.declarations, m.DeclarationClear extractTypeExpression p

variable {extractTypeExpression}

/-- What the docs say of an exposed value with an annotation. -/
theorem annotatedValue_iff (extractTypeExpression : TSNode → String) {p : Place Declaration}
    (member : p ∈ places [] m.declarations) {a : Annotation} (own : p.node.annotatedBy = some a) :
    ((findTypeAnnotationByName m.tree a.name).bind fun annotatedBy =>
        (firstChild annotatedBy.node .typeExpression).map fun type =>
          (⟨a.name, findPrecedingComment annotatedBy.before, extractTypeExpression type⟩ :
            ElmValue)) =
        some ⟨a.name, docText p.node.doc, extractTypeExpression a.type⟩ ↔
      match annotationAt a.name (m.nodesAbove p) with
      | some found =>
        (firstChild found.node .typeExpression).map extractTypeExpression =
            some (extractTypeExpression a.type) ∧
          findPrecedingComment found.before = docText p.node.doc
      | none => m.KeepsApart p := by
  rw [m.findTypeAnnotationByName_annotated member own]
  cases annotationAt a.name (m.nodesAbove p) with
  | some found =>
    simp only [Option.some_or, Option.bind_some]
    cases firstChild found.node .typeExpression with
    | none => simp
    | some type => simp [and_comm]
  | none =>
    simp only [Option.none_or, Option.bind_some, firstChild_of_childrenOf a.typed,
      Option.map_some, Option.some_inj, ElmValue.mk.injEq, true_and, and_true]
    exact m.findPrecedingComment_iff p

/-- A value without annotation has no namesake with one. -/
theorem unannotated_of_none {p : Place Declaration} (member : p ∈ places [] m.declarations)
    {name : String} (named : p.node.valueName = some name) (bare : p.node.annotatedBy = none) :
    Unannotated name m.tree := by
  refine m.unannotated_tree fun d on a has same => ?_
  have other := Declaration.valueName_of_annotatedBy has
  rw [same] at other
  have on' : d ∈ (places [] m.declarations).map Place.node := by
    rwa [map_node_places]
  obtain ⟨q, listed, rfl⟩ := List.mem_map.mp on'
  obtain rfl := eq_of_mem_places m.values_distinct member listed named other
  rw [bare] at has
  cases has

theorem valueOf_iff (extractTypeExpression : TSNode → String) {p : Place Declaration}
    (member : p ∈ places [] m.declarations)
    {decl : ValueDecl} (value : p.node.decl = .value decl) :
    valueOf extractTypeExpression m.tree (extractModuleInfo m.tree).2 decl.function.node =
        m.documentedValue extractTypeExpression p.node ↔
      (m.exposes (·.exposesValue decl.function.name) →
        m.ValueClear extractTypeExpression p decl) := by
  have named : p.node.valueName = some decl.function.name := by
    unfold Declaration.valueName
    rw [value]
  have annotatedBy : p.node.annotatedBy = decl.annotatedBy := by
    unfold Declaration.annotatedBy
    rw [value]
  have documented : m.documentedValue extractTypeExpression p.node =
      if m.exposes (·.exposesValue decl.function.name) then
        decl.annotatedBy.map fun a =>
          ⟨decl.function.name, docText p.node.doc, extractTypeExpression a.type⟩
      else none := by
    unfold documentedValue
    rw [value]
  unfold ValueClear
  rw [valueOf_function, m.isExportedValue_value decl.function.value, documented]
  cases m.exposes (·.exposesValue decl.function.name) with
  | false => simp
  | true =>
    cases own : decl.annotatedBy with
    | some a =>
      have listed := m.annotatedValue_iff extractTypeExpression member (annotatedBy.trans own)
      rw [decl.paired a own] at listed
      cases m.opening.isSome with
      | false => simp
      | true =>
        simp only [Bool.and_self, if_true, Option.map_some, true_imp_iff, true_and]
        exact listed
    | none =>
      cases m.opening.isSome with
      | false => simp
      | true =>
        rw [findTypeAnnotationByName_of_unannotated
          (m.unannotated_of_none member named (annotatedBy.trans own))]
        cases annotationAt decl.function.name m.tree with
        | none => simp
        | some found =>
          cases firstChild found.node .typeExpression with
          | none => simp
          | some type => simp

theorem aliasOf_iff (extractTypeExpression : TSNode → String) {p : Place Declaration}
    {decl : TypeAlias}
    (alias_ : p.node.decl = .typeAlias decl) :
    aliasOf extractTypeExpression (extractModuleInfo m.tree).2 (m.mainPlace p) =
        m.documentedAlias extractTypeExpression p.node ↔
      (m.exposes (·.exposesType decl.name) → m.opening.isSome ∧ m.KeepsApart p) := by
  unfold documentedAlias mainPlace
  rw [alias_]
  simp only [Decl.main, Decl.lead, List.append_nil]
  rw [aliasOf_typeAlias, m.isExportedType_eq, ← m.findPrecedingComment_iff]
  cases m.exposes (·.exposesType decl.name) with
  | false => simp
  | true => cases m.opening.isSome <;> simp

theorem unionOf_iff (extractTypeExpression : TSNode → String) {p : Place Declaration}
    {decl : UnionType}
    (union : p.node.decl = .union decl) :
    unionOf extractTypeExpression (extractModuleInfo m.tree).2 (m.mainPlace p) =
        m.documentedUnion extractTypeExpression p.node ↔
      (m.exposes (·.exposesType decl.name) → m.opening.isSome ∧ m.KeepsApart p) := by
  unfold documentedUnion mainPlace
  rw [union]
  simp only [Decl.main, Decl.lead, List.append_nil]
  rw [unionOf_union, m.isExportedType_eq, m.isTypeExposedWithConstructors_eq,
    ← m.findPrecedingComment_iff]
  cases m.exposes (·.exposesType decl.name) with
  | false => simp
  | true => cases m.opening.isSome <;> simp

theorem annotated_eq_some {q : Place Declaration} (member : q ∈ places [] m.declarations)
    {a : Annotation} (own : q.node.annotatedBy = some a) :
    m.annotated a.name = some (q.node.doc, a) := by
  obtain ⟨front, back, split, before⟩ := exists_split_of_mem_places member
  have name := Declaration.valueName_of_annotatedBy own
  have earlier : front.findSome? (fun d =>
      if d.valueName = some a.name then d.annotatedBy.map (d.doc, ·) else none) = none := by
    refine List.findSome?_eq_none_iff.mpr fun d on => if_neg fun same => ?_
    have listed : d ∈ q.before := by
      rw [before, List.append_nil]
      exact List.mem_reverse.mpr on
    exact ne_of_mem_before m.values_distinct member listed same name rfl
  unfold annotated
  rw [split, List.findSome?_append, earlier, Option.none_or, List.findSome?_cons, if_pos name, own]
  rfl

/-- The operators of a function without annotation are not listed. -/
theorem annotated_eq_none {name : String}
    (bare : ∀ d ∈ m.declarations, ∀ a, d.annotatedBy = some a → a.name ≠ name) :
    m.annotated name = none := by
  refine List.findSome?_eq_none_iff.mpr fun d on => ?_
  by_cases named : d.valueName = some name
  · cases own : d.annotatedBy with
    | none => simp
    | some a =>
      have same := Declaration.valueName_of_annotatedBy own
      rw [named] at same
      exact absurd (Option.some_inj.mp same).symm (bare d on a own)
  · exact if_neg named

theorem binopOf_iff (extractTypeExpression : TSNode → String) {p : Place Declaration}
    {decl : Operator}
    (operator : p.node.decl = .operator decl) :
    binopOf extractTypeExpression m.tree (extractModuleInfo m.tree).2 decl.node =
        m.documentedBinop extractTypeExpression p.node ↔
      (m.exposes (·.exposesOperator decl.name) →
        ∀ q ∈ places [] m.declarations, q.node.valueName = some decl.function →
          q.node.annotatedBy.isSome → m.opening.isSome ∧ m.KeepsApart q) := by
  have documented : m.documentedBinop extractTypeExpression p.node =
      if m.exposes (·.exposesOperator decl.name) then
        (m.annotated decl.function).map fun found =>
          ⟨decl.name, docText found.1, extractTypeExpression found.2.type, atoi decl.precedence,
            decl.associativity⟩
      else none := by
    unfold documentedBinop
    rw [operator]
  rw [binopOf_operator, m.isExportedValue_operator decl.sign, documented]
  cases m.exposes (·.exposesOperator decl.name) with
  | false => simp
  | true =>
    by_cases has : ∃ q ∈ places [] m.declarations, q.node.valueName = some decl.function ∧
        q.node.annotatedBy.isSome
    · obtain ⟨q, member, named, annotated⟩ := has
      obtain ⟨a, own⟩ := Option.isSome_iff_exists.mp annotated
      have same : a.name = decl.function := by
        have name := Declaration.valueName_of_annotatedBy own
        rw [named] at name
        exact (Option.some_inj.mp name).symm
      have only : (∀ r ∈ places [] m.declarations, r.node.valueName = some decl.function →
          r.node.annotatedBy.isSome → m.opening.isSome ∧ m.KeepsApart r) ↔
          m.opening.isSome ∧ m.KeepsApart q := by
        refine ⟨fun all => all q member named annotated, fun holds r listed name _ => ?_⟩
        obtain rfl := eq_of_mem_places m.values_distinct member listed named name
        exact holds
      rw [only, ← same, m.findSiblingAnnotationOf_annotated member own,
        m.annotated_eq_some member own, ← m.findPrecedingComment_iff]
      cases m.opening.isSome <;> simp
    · have bare : ∀ d ∈ m.declarations, ∀ a, d.annotatedBy = some a → a.name ≠ decl.function := by
        intro d on a own same
        have on' : d ∈ (places [] m.declarations).map Place.node := by
          rwa [map_node_places]
        obtain ⟨q, listed, rfl⟩ := List.mem_map.mp on'
        have name := Declaration.valueName_of_annotatedBy own
        rw [same] at name
        exact has ⟨q, listed, name, by rw [own]; rfl⟩
      have vacuous : ∀ q ∈ places [] m.declarations, q.node.valueName = some decl.function →
          q.node.annotatedBy.isSome → m.opening.isSome ∧ m.KeepsApart q :=
        fun q member named annotated => absurd ⟨q, member, named, annotated⟩ has
      rw [findSiblingAnnotationOf_of_unannotated (m.unannotated_tree bare),
        m.annotated_eq_none bare]
      simpa using vacuous

/-- The four lists have the right entry of a declaration exactly when it is clear. -/
theorem entries_iff {p : Place Declaration} (member : p ∈ places [] m.declarations) :
    (valueOf extractTypeExpression m.tree (extractModuleInfo m.tree).2 p.node.decl.main =
        m.documentedValue extractTypeExpression p.node ∧
      aliasOf extractTypeExpression (extractModuleInfo m.tree).2 (m.mainPlace p) =
        m.documentedAlias extractTypeExpression p.node ∧
      unionOf extractTypeExpression (extractModuleInfo m.tree).2 (m.mainPlace p) =
        m.documentedUnion extractTypeExpression p.node ∧
      binopOf extractTypeExpression m.tree (extractModuleInfo m.tree).2 p.node.decl.main =
        m.documentedBinop extractTypeExpression p.node) ↔
      m.DeclarationClear extractTypeExpression p := by
  have main : (m.mainPlace p).node = p.node.decl.main := rfl
  unfold DeclarationClear
  cases kind : p.node.decl with
  | value decl =>
    have type : (Decl.value decl).main.label.type = .valueDeclaration := decl.function.kind
    rw [aliasOf_quiet _ (by rw [main, kind, type]; simp),
      unionOf_quiet _ (by rw [main, kind, type]; simp), binopOf_quiet _ _ (by rw [type]; simp)]
    have value := m.valueOf_iff extractTypeExpression member kind
    simpa [documentedAlias, documentedUnion, documentedBinop, kind, Decl.main] using value
  | typeAlias decl =>
    have type : (Decl.typeAlias decl).main.label.type = .typeAliasDeclaration := decl.kind
    rw [valueOf_quiet _ _ (by rw [type]; simp), unionOf_quiet _ (by rw [main, kind, type]; simp),
      binopOf_quiet _ _ (by rw [type]; simp)]
    have alias_ := m.aliasOf_iff extractTypeExpression kind
    simpa [documentedValue, documentedUnion, documentedBinop, kind] using alias_
  | union decl =>
    have type : (Decl.union decl).main.label.type = .typeDeclaration := decl.kind
    rw [valueOf_quiet _ _ (by rw [type]; simp), aliasOf_quiet _ (by rw [main, kind, type]; simp),
      binopOf_quiet _ _ (by rw [type]; simp)]
    have union := m.unionOf_iff extractTypeExpression kind
    simpa [documentedValue, documentedAlias, documentedBinop, kind] using union
  | port decl =>
    have type : (Decl.port decl).main.label.type = .portAnnotationNode := decl.kind
    rw [valueOf_quiet _ _ (by rw [type]; simp), aliasOf_quiet _ (by rw [main, kind, type]; simp),
      unionOf_quiet _ (by rw [main, kind, type]; simp), binopOf_quiet _ _ (by rw [type]; simp)]
    simp [documentedValue, documentedAlias, documentedUnion, documentedBinop, kind]
  | operator decl =>
    have type : (Decl.operator decl).main.label.type = .infixDeclaration := decl.kind
    rw [valueOf_quiet _ _ (by rw [type]; simp), aliasOf_quiet _ (by rw [main, kind, type]; simp),
      unionOf_quiet _ (by rw [main, kind, type]; simp)]
    have binop := m.binopOf_iff extractTypeExpression kind
    simpa [documentedValue, documentedAlias, documentedUnion, kind, Decl.main] using binop

/-! ## The lists -/

theorem lists_sortByName {α : Type} {name : α → String} {entries documented : List α} :
    Lists name (sortByName name entries) documented ↔ entries.Perm documented := by
  have perm : (sortByName name entries).Perm entries := exchangeSort_perm name _ entries
  exact ⟨fun lists => perm.symm.trans lists.each,
    fun each => ⟨perm.trans each, exchangeSort_sorted name le_rfl⟩⟩

/-- A list of the docs is right exactly when its entry of each declaration is. -/
theorem lists_iff {α : Type} (name : α → String) (entry : Place TSNode → Option α)
    (documented : Declaration → Option α) {key : Declaration → Option String}
    (apart : (m.declarations.filterMap key).Nodup)
    (quiet : ∀ place, IsQuiet place.node → entry place = none)
    (left : ∀ p a, entry (m.mainPlace p) = some a → key p.node = some (name a))
    (right : ∀ d a, documented d = some a → key d = some (name a)) :
    Lists name (sortByName name ((places [] m.tree).filterMap entry))
        (m.declarations.filterMap documented) ↔
      ∀ p ∈ places [] m.declarations, entry (m.mainPlace p) = documented p.node := by
  rw [lists_sortByName, m.filterMap_tree quiet, ← filterMap_places documented []]
  exact perm_filterMap_places_iff apart left fun p a => right p.node a

theorem documentedValue_name {d : Declaration} {value : ElmValue}
    (listed : m.documentedValue extractTypeExpression d = some value) :
    d.valueName = some value.name := by
  unfold documentedValue at listed
  unfold Declaration.valueName
  cases kind : d.decl with
  | value decl =>
    simp only [kind, Option.ite_none_right_eq_some, Option.map_eq_some_iff] at listed
    obtain ⟨_, a, _, rfl⟩ := listed
    rfl
  | _ => simp [kind] at listed

theorem documentedAlias_name {d : Declaration} {item : ElmAlias}
    (listed : m.documentedAlias extractTypeExpression d = some item) :
    d.typeName = some item.name := by
  unfold documentedAlias at listed
  unfold Declaration.typeName
  cases kind : d.decl with
  | typeAlias decl =>
    simp only [kind, Option.ite_none_right_eq_some, Option.some_inj] at listed
    obtain ⟨_, rfl⟩ := listed
    rfl
  | _ => simp [kind] at listed

theorem documentedUnion_name {d : Declaration} {union : ElmUnion}
    (listed : m.documentedUnion extractTypeExpression d = some union) :
    d.typeName = some union.name := by
  unfold documentedUnion at listed
  unfold Declaration.typeName
  cases kind : d.decl with
  | union decl =>
    simp only [kind, Option.ite_none_right_eq_some, Option.some_inj] at listed
    obtain ⟨_, rfl⟩ := listed
    rfl
  | _ => simp [kind] at listed

theorem documentedBinop_name {d : Declaration} {binop : ElmBinop}
    (listed : m.documentedBinop extractTypeExpression d = some binop) :
    d.operatorName = some binop.name := by
  unfold documentedBinop at listed
  unfold Declaration.operatorName
  cases kind : d.decl with
  | operator decl =>
    simp only [kind, Option.ite_none_right_eq_some, Option.map_eq_some_iff] at listed
    obtain ⟨_, found, _, rfl⟩ := listed
    rfl
  | _ => simp [kind] at listed

theorem valueOf_name {root : List TSNode} {exports : ExportList} {d : Declaration}
    {value : ElmValue}
    (listed : valueOf extractTypeExpression root exports d.decl.main = some value) :
    d.valueName = some value.name := by
  unfold Declaration.valueName
  cases kind : d.decl with
  | value decl =>
    rw [kind, Decl.main, valueOf_function] at listed
    simp only [Option.ite_none_right_eq_some, Option.bind_eq_some_iff,
      Option.map_eq_some_iff] at listed
    obtain ⟨_, _, _, _, _, rfl⟩ := listed
    rfl
  | typeAlias decl =>
    rw [kind, valueOf_quiet _ _ (by simp [Decl.main, decl.kind])] at listed
    cases listed
  | union decl =>
    rw [kind, valueOf_quiet _ _ (by simp [Decl.main, decl.kind])] at listed
    cases listed
  | port decl =>
    rw [kind, valueOf_quiet _ _ (by simp [Decl.main, decl.kind])] at listed
    cases listed
  | operator decl =>
    rw [kind, valueOf_quiet _ _ (by simp [Decl.main, decl.kind])] at listed
    cases listed

theorem aliasOf_name {exports : ExportList} {before : List TSNode} {d : Declaration}
    {item : ElmAlias}
    (listed : aliasOf extractTypeExpression exports ⟨before, d.decl.main⟩ = some item) :
    d.typeName = some item.name := by
  unfold Declaration.typeName
  cases kind : d.decl with
  | typeAlias decl =>
    rw [kind, Decl.main, aliasOf_typeAlias] at listed
    simp only [Option.ite_none_right_eq_some, Option.some_inj] at listed
    obtain ⟨_, rfl⟩ := listed
    rfl
  | value decl =>
    rw [kind, aliasOf_quiet _ (by simp [Decl.main, decl.function.kind])] at listed
    cases listed
  | union decl =>
    rw [kind, aliasOf_quiet _ (by simp [Decl.main, decl.kind])] at listed
    cases listed
  | port decl =>
    rw [kind, aliasOf_quiet _ (by simp [Decl.main, decl.kind])] at listed
    cases listed
  | operator decl =>
    rw [kind, aliasOf_quiet _ (by simp [Decl.main, decl.kind])] at listed
    cases listed

theorem unionOf_name {exports : ExportList} {before : List TSNode} {d : Declaration}
    {union : ElmUnion}
    (listed : unionOf extractTypeExpression exports ⟨before, d.decl.main⟩ = some union) :
    d.typeName = some union.name := by
  unfold Declaration.typeName
  cases kind : d.decl with
  | union decl =>
    rw [kind, Decl.main, unionOf_union] at listed
    simp only [Option.ite_none_right_eq_some, Option.some_inj] at listed
    obtain ⟨_, rfl⟩ := listed
    rfl
  | value decl =>
    rw [kind, unionOf_quiet _ (by simp [Decl.main, decl.function.kind])] at listed
    cases listed
  | typeAlias decl =>
    rw [kind, unionOf_quiet _ (by simp [Decl.main, decl.kind])] at listed
    cases listed
  | port decl =>
    rw [kind, unionOf_quiet _ (by simp [Decl.main, decl.kind])] at listed
    cases listed
  | operator decl =>
    rw [kind, unionOf_quiet _ (by simp [Decl.main, decl.kind])] at listed
    cases listed

theorem binopOf_name {root : List TSNode} {exports : ExportList} {d : Declaration}
    {binop : ElmBinop}
    (listed : binopOf extractTypeExpression root exports d.decl.main = some binop) :
    d.operatorName = some binop.name := by
  unfold Declaration.operatorName
  cases kind : d.decl with
  | operator decl =>
    rw [kind, Decl.main, binopOf_operator] at listed
    simp only [Option.ite_none_right_eq_some, Option.map_eq_some_iff] at listed
    obtain ⟨_, _, _, rfl⟩ := listed
    rfl
  | value decl =>
    rw [kind, binopOf_quiet _ _ (by simp [Decl.main, decl.function.kind])] at listed
    cases listed
  | typeAlias decl =>
    rw [kind, binopOf_quiet _ _ (by simp [Decl.main, decl.kind])] at listed
    cases listed
  | union decl =>
    rw [kind, binopOf_quiet _ _ (by simp [Decl.main, decl.kind])] at listed
    cases listed
  | port decl =>
    rw [kind, binopOf_quiet _ _ (by simp [Decl.main, decl.kind])] at listed
    cases listed

end ElmModuleTree

/-- The docs of a module are right exactly when nothing in it is taken for something else: a
comment of a declaration for that of the module, the comment of the module for that of the first
declaration, or an annotation inside a declaration for one at the top. -/
theorem parseElmFile_documents_iff (extractTypeExpression : TSNode → String)
    (m : ElmModuleTree) :
    Documents extractTypeExpression m (parseElmFile extractTypeExpression m.tree) ↔
      m.Clear extractTypeExpression := by
  have values := m.lists_iff ElmValue.name
    (fun place => valueOf extractTypeExpression m.tree (extractModuleInfo m.tree).2
      place.node) (m.documentedValue extractTypeExpression) m.values_distinct
    (fun place quiet => valueOf_quiet _ _ quiet.type.1)
    (fun _ _ => ElmModuleTree.valueOf_name)
    fun _ _ => m.documentedValue_name
  have aliases := m.lists_iff ElmAlias.name
    (aliasOf extractTypeExpression (extractModuleInfo m.tree).2)
    (m.documentedAlias extractTypeExpression) m.types_distinct
    (fun place quiet => aliasOf_quiet _ quiet.type.2.1) (fun _ _ => ElmModuleTree.aliasOf_name)
    fun _ _ => m.documentedAlias_name
  have unions := m.lists_iff ElmUnion.name
    (unionOf extractTypeExpression (extractModuleInfo m.tree).2)
    (m.documentedUnion extractTypeExpression) m.types_distinct
    (fun place quiet => unionOf_quiet _ quiet.type.2.2.1) (fun _ _ => ElmModuleTree.unionOf_name)
    fun _ _ => m.documentedUnion_name
  have binops := m.lists_iff ElmBinop.name
    (fun place => binopOf extractTypeExpression m.tree (extractModuleInfo m.tree).2
      place.node) (m.documentedBinop extractTypeExpression) m.operators_distinct
    (fun place quiet => binopOf_quiet _ _ quiet.type.2.2.2)
    (fun _ _ => ElmModuleTree.binopOf_name)
    fun _ _ => m.documentedBinop_name
  rw [filterMap_places] at values binops
  rw [parseElmFile_eq]
  constructor
  · intro documents
    refine ⟨(moduleComment_iff m).mp documents.comment, fun p member => ?_⟩
    exact (m.entries_iff member).mp ⟨values.mp documents.values p member,
      aliases.mp documents.aliases p member, unions.mp documents.unions p member,
      binops.mp documents.binops p member⟩
  · intro clear
    have entries := fun p member => (m.entries_iff member).mpr (clear.declarations p member)
    exact {
      comment := (moduleComment_iff m).mpr clear.comment
      values := values.mpr fun p member => (entries p member).1
      aliases := aliases.mpr fun p member => (entries p member).2.1
      unions := unions.mpr fun p member => (entries p member).2.2.1
      binops := binops.mpr fun p member => (entries p member).2.2.2 }

/-! A module without a comment of its own, with an import and a documented value. -/

def leaf (type : NodeType) (text : String) : TSNode := .node ⟨type, none, text⟩ []

def plainHeader : Header where
  node := .node ⟨.moduleDeclaration, none, "module Main exposing (f)"⟩
    [leaf (.token "module") "module", leaf .upperCaseQid "Main",
      .node ⟨.exposingList, none, "exposing (f)"⟩ [leaf .exposedValue "f"]]
  items := [leaf .exposedValue "f"]
  kind := rfl
  exposing := ⟨_, rfl, rfl⟩
  values := by decide
  operators := by simp [leaf, Rose.label]
  types := by simp [leaf, Rose.label]

def documentedF : Declaration where
  doc := some ⟨leaf .blockComment "{-|Doc of f-}", "Doc of f", rfl, by decide⟩
  gap := []
  decl := .value {
    annotatedBy := some ⟨.node ⟨.typeAnnotationNode, none, "f : Int"⟩
      [leaf .lowerCaseIdentifier "f", leaf .typeExpression "Int"], "f",
      leaf .typeExpression "Int", rfl, ⟨_, rfl, rfl⟩, rfl⟩
    between := []
    function := ⟨.node ⟨.valueDeclaration, none, "f = 1"⟩
      [.node ⟨.functionDeclarationLeft, none, "f"⟩ [leaf .lowerCaseIdentifier "f"],
        leaf .other "1"], "f", rfl, ⟨_, rfl, _, rfl, rfl⟩, by decide⟩
    paired := by simp }
  after := []

def uncommentedModule : ElmModuleTree where
  first := []
  opening := some ⟨plainHeader, [], none, []⟩
  imports := [⟨leaf .importClause "import Dict", rfl, []⟩]
  declarations := [documentedF]
  values_distinct := by decide
  types_distinct := by decide
  operators_distinct := by decide
  owned := by simp

/-- Its docs have the comment of the value as the comment of the module. -/
theorem parseElmFile_documents_fails :
    ¬ ∀ extractTypeExpression m,
      Documents extractTypeExpression m (parseElmFile extractTypeExpression m.tree) := by
  intro claim
  have comment := (claim (fun node => node.label.text) uncommentedModule).comment
  have taken : moduleComment uncommentedModule.tree = "Doc of f" := by decide
  rw [parseElmFile_eq, taken] at comment
  exact absurd comment (by decide)

end ElmWrap.Docs
