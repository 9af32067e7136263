import ElmWrap.Lib.Datalog
import ElmWrap.Lib.Keyed
import ElmWrap.Review.ModuleFacts

/-!
# Types that are missing from an exposing list

The rule `no_missing_type_expose` over the facts about a module, and when its errors are
the exposed values whose signatures use a private type.
-/

namespace ElmWrap.Review.File

open Lib
open Runs (runs words mem_runs)

/-! ## The rule -/

abbrev ReviewRule := Datalog.Rule ReviewPred (List Char)

/-- `local_type(T) :- union_type(T).` -/
def localUnionType : ReviewRule where
  head := ⟨.localType, [.var "T"]⟩
  body := [⟨.unionType, [.var "T"]⟩]
  negated := []

/-- `local_type(T) :- type_alias(T).` -/
def localTypeAlias : ReviewRule where
  head := ⟨.localType, [.var "T"]⟩
  body := [⟨.typeAlias, [.var "T"]⟩]
  negated := []

/-- `exposed_func_uses_private_type(Func, Type) :- exported_value(Func), sig_uses_type(Func, Type),
local_type(Type), not exported_type(Type).` -/
def exposedFuncUsesPrivate : ReviewRule where
  head := ⟨.exposedFuncUsesPrivateType, [.var "Func", .var "Type"]⟩
  body := [⟨.exportedValue, [.var "Func"]⟩, ⟨.sigUsesType, [.var "Func", .var "Type"]⟩,
    ⟨.localType, [.var "Type"]⟩]
  negated := [⟨.exportedType, [.var "Type"]⟩]

/-- The text of the errors. -/
def privateTypeMessage : List Char := "Private type used in exposed function signature".toList

/-- `error("…", Func, Type) :- exposed_func_uses_private_type(Func, Type).` -/
def errorPrivateType : ReviewRule where
  head := ⟨.error, [.const privateTypeMessage, .var "Func", .var "Type"]⟩
  body := [⟨.exposedFuncUsesPrivateType, [.var "Func", .var "Type"]⟩]
  negated := []

/-- `no_missing_type_expose.dl`. -/
def noMissingTypeExpose : Datalog.Program ReviewPred (List Char) where
  rules := [localUnionType, localTypeAlias, exposedFuncUsesPrivate, errorPrivateType]
  stratum
    | .exposedFuncUsesPrivateType => 1
    | .error => 1
    | _ => 0
  positive := by
    simp [localUnionType, localTypeAlias, exposedFuncUsesPrivate, errorPrivateType]
  negative := by
    simp [localUnionType, localTypeAlias, exposedFuncUsesPrivate, errorPrivateType]

/-- The errors about a file. -/
def reviewErrors (file : ElmFile) (tuple : List (List Char)) : Prop :=
  noMissingTypeExpose.model (fun pred tuple => (pred, tuple) ∈ extractModuleFacts
    (skeletonParse file)) .error tuple

/-! ## What is meant -/

namespace ElmFile

variable (file : ElmFile)

/-- The items of the exposing list. -/
def exposed : List ExposedItem :=
  match file.moduleDeclaration with
  | some (_, .items items) => items
  | _ => []

def Names (f : LowerCaseIdentifier) : Prop := .exposedValue f ∈ file.exposed

/-- The type stands in the exposing list, as `T`. -/
def ExposesName (T : UpperCaseIdentifier) : Prop := .exposedType T false ∈ file.exposed

/-- The type stands in the exposing list, as `T(..)`. -/
def ExposesConstructors (T : UpperCaseIdentifier) : Prop := .exposedType T true ∈ file.exposed

def Declares (T : UpperCaseIdentifier) : Prop :=
  .typeAliasDeclaration T ∈ file.declarations ∨
    ∃ variants, .typeDeclaration T variants ∈ file.declarations

/-- The annotation of a value, or of a port. -/
def Annotates (f : LowerCaseIdentifier) (a : TypeText) : Prop :=
  .typeAnnotationNode f a ∈ file.declarations ∨ .portAnnotationNode f a ∈ file.declarations

/-- The annotation stands right in front of a value declaration. -/
def AnnotatesNext (f : LowerCaseIdentifier) (a : TypeText) : Prop :=
  ∃ before after, file.declarations =
    before ++ .typeAnnotationNode f a :: .valueDeclaration :: after

/-- An exposed value whose signature uses a type of the module that is not exposed. -/
def PrivateInSignature (f : LowerCaseIdentifier) (T : UpperCaseIdentifier) : Prop :=
  file.Names f ∧ (∃ a, file.Annotates f a ∧ T.unqualified ∈ a.type.references) ∧
    file.Declares T ∧ ¬ file.ExposesName T ∧ ¬ file.ExposesConstructors T

end ElmFile

/-! ## What is found in an annotation -/

/-- The part of a word from its first capital letter on, up to the next dot. -/
def capitalPart (word : List Char) : List Char :=
  (word.dropWhile fun c => !c.isUpper).takeWhile (· ≠ '.')

example : capitalPart "toModel.Msg".toList = "Model".toList := by decide

def UpperCaseIdentifier.IsAscii (T : UpperCaseIdentifier) : Prop := T.text.all isAscii = true

/-- The name is the capital part of a word of the text. -/
def Occurs (T : UpperCaseIdentifier) (text : List Char) : Prop :=
  ∃ word ∈ words isTypeChar text, capitalPart word = T.text

/-- Something else than a reference to the type has its name for the capital part of a word: a
qualified name, a longer name, a variable, a field or a comment. -/
def TypeText.Strays (a : TypeText) (T : UpperCaseIdentifier) : Prop :=
  ∃ p ∈ a.pieces, p.token? ≠ some (.upperCaseQid T.unqualified) ∧ Occurs T p.text

/-- The rule is right about a value with its annotation, and a type that does not stand in the
exposing list by its bare name. -/
structure ElmFile.Judges (file : ElmFile) (f : LowerCaseIdentifier) (a : TypeText)
    (T : UpperCaseIdentifier) : Prop where
  constructors : file.ExposesConstructors T → file.AnnotatesNext f a →
    ¬ a.Strays T ∧ ¬ (T.unqualified ∈ a.type.references ∧ T.IsAscii)
  missed : ¬ file.ExposesConstructors T → T.unqualified ∈ a.type.references →
    file.AnnotatesNext f a ∧ T.IsAscii
  strays : ¬ file.ExposesConstructors T → file.AnnotatesNext f a → a.Strays T →
    T.unqualified ∈ a.type.references

/-! ## What the rule derives -/

/-- The facts have none of the predicates of the rule. -/
structure GivenFacts (facts : List Fact) : Prop where
  localType : ∀ tuple, (ReviewPred.localType, tuple) ∉ facts
  exposedFunc : ∀ tuple, (ReviewPred.exposedFuncUsesPrivateType, tuple) ∉ facts
  error : ∀ tuple, (ReviewPred.error, tuple) ∉ facts

theorem mem_layer_zero {r : ReviewRule} :
    r ∈ noMissingTypeExpose.layer 0 ↔ r = localUnionType ∨ r = localTypeAlias := by
  rw [Datalog.Program.mem_layer]
  constructor
  · rintro ⟨member, stratum⟩
    simp only [noMissingTypeExpose, List.mem_cons, List.not_mem_nil, or_false] at member
    rcases member with rfl | rfl | rfl | rfl
    · exact Or.inl rfl
    · exact Or.inr rfl
    · cases stratum
    · cases stratum
  · rintro (rfl | rfl) <;> simp [noMissingTypeExpose, localUnionType, localTypeAlias]

theorem mem_layer_one {r : ReviewRule} :
    r ∈ noMissingTypeExpose.layer 1 ↔ r = exposedFuncUsesPrivate ∨ r = errorPrivateType := by
  rw [Datalog.Program.mem_layer]
  constructor
  · rintro ⟨member, stratum⟩
    simp only [noMissingTypeExpose, List.mem_cons, List.not_mem_nil, or_false] at member
    rcases member with rfl | rfl | rfl | rfl
    · cases stratum
    · cases stratum
    · exact Or.inl rfl
    · exact Or.inr rfl
  · rintro (rfl | rfl) <;> simp [noMissingTypeExpose, exposedFuncUsesPrivate, errorPrivateType]

section Rule

variable {facts : List Fact}

/-- The first stratum: the local types. -/
def settled (facts : List Fact) : Datalog.Interp ReviewPred (List Char) :=
  noMissingTypeExpose.upTo (fun pred tuple => (pred, tuple) ∈ facts) 0

theorem settled_given {pred : ReviewPred} (given : pred ≠ .localType) {tuple : List (List Char)} :
    settled facts pred tuple ↔ (pred, tuple) ∈ facts := by
  apply Datalog.Derives.of_no_head
  intro r member same
  rcases mem_layer_zero.1 member with rfl | rfl <;> exact given same.symm

theorem settled_localType (given : GivenFacts facts) {T : List Char} :
    settled facts .localType [T] ↔
      (ReviewPred.unionType, [T]) ∈ facts ∨ (ReviewPred.typeAlias, [T]) ∈ facts := by
  constructor
  · intro derived
    rcases Datalog.Derives.inversion derived with fact | ⟨r, member, σ, same, tuple, body, -⟩
    · exact absurd fact (given.localType _)
    · rcases mem_layer_zero.1 member with rfl | rfl
      · have fact := (settled_given (by decide)).mp (body _ List.mem_cons_self)
        exact Or.inl (tuple ▸ fact)
      · have fact := (settled_given (by decide)).mp (body _ List.mem_cons_self)
        exact Or.inr (tuple ▸ fact)
  · rintro (fact | fact)
    · exact Datalog.Derives.unary (fun _ => T) (mem_layer_zero.2 (Or.inl rfl)) rfl rfl
        ((settled_given (by decide)).mpr fact)
    · exact Datalog.Derives.unary (fun _ => T) (mem_layer_zero.2 (Or.inr rfl)) rfl rfl
        ((settled_given (by decide)).mpr fact)

/-- A tuple of the second stratum that no rule derives there comes from the first. -/
theorem upTo_one_given {pred : ReviewPred} (func : pred ≠ .exposedFuncUsesPrivateType)
    (error : pred ≠ .error) {tuple : List (List Char)} :
    noMissingTypeExpose.upTo (fun pred tuple => (pred, tuple) ∈ facts) 1 pred tuple ↔
      settled facts pred tuple := by
  apply Datalog.Derives.of_no_head
  intro r member same
  rcases mem_layer_one.1 member with rfl | rfl
  · exact func same.symm
  · exact error same.symm

/-- The values of the variables in the rule. -/
def funcTypeValues (func type : List Char) (name : String) : List Char :=
  if name = "Func" then func else type

theorem exposedFunc_iff (given : GivenFacts facts) {f T : List Char} :
    noMissingTypeExpose.upTo (fun pred tuple => (pred, tuple) ∈ facts) 1
        .exposedFuncUsesPrivateType [f, T] ↔
      (ReviewPred.exportedValue, [f]) ∈ facts ∧ (ReviewPred.sigUsesType, [f, T]) ∈ facts ∧
        ((ReviewPred.unionType, [T]) ∈ facts ∨ (ReviewPred.typeAlias, [T]) ∈ facts) ∧
        (ReviewPred.exportedType, [T]) ∉ facts := by
  rw [← settled_localType given]
  constructor
  · intro derived
    rcases Datalog.Derives.inversion derived with fact | ⟨r, member, σ, same, tuple, body, negated⟩
    · exact absurd ((settled_given (by decide)).mp fact) (given.exposedFunc _)
    · rcases mem_layer_one.1 member with rfl | rfl
      · obtain ⟨rfl, rest⟩ := List.cons.inj tuple
        obtain ⟨rfl, -⟩ := List.cons.inj rest
        have value := (upTo_one_given (by decide) (by decide)).mp (body _ List.mem_cons_self)
        have used := (upTo_one_given (by decide) (by decide)).mp
          (body _ (List.mem_cons_of_mem _ List.mem_cons_self))
        have here := (upTo_one_given (by decide) (by decide)).mp
          (body _ (List.mem_cons_of_mem _ (List.mem_cons_of_mem _ List.mem_cons_self)))
        refine ⟨(settled_given (by decide)).mp value, (settled_given (by decide)).mp used, here,
          fun exported => ?_⟩
        exact negated _ List.mem_cons_self ((settled_given (by decide)).mpr exported)
      · cases same
  · rintro ⟨value, used, here, private_⟩
    refine @Datalog.Derives.rule _ _ _ _ _ exposedFuncUsesPrivate (funcTypeValues f T)
      (mem_layer_one.2 (Or.inl rfl)) ?_ ?_
    · intro a member
      simp only [exposedFuncUsesPrivate, List.mem_cons, List.not_mem_nil, or_false] at member
      rcases member with rfl | rfl | rfl
      · exact (upTo_one_given (by decide) (by decide)).mpr ((settled_given (by decide)).mpr value)
      · exact (upTo_one_given (by decide) (by decide)).mpr ((settled_given (by decide)).mpr used)
      · exact (upTo_one_given (by decide) (by decide)).mpr here
    · intro a member exported
      simp only [exposedFuncUsesPrivate, List.mem_cons, List.not_mem_nil, or_false] at member
      subst member
      exact private_ ((settled_given (by decide)).mp exported)

/-- The errors that the rule derives from facts. -/
theorem error_iff (given : GivenFacts facts) {tuple : List (List Char)} :
    noMissingTypeExpose.model (fun pred tuple => (pred, tuple) ∈ facts) .error tuple ↔
      ∃ f T, tuple = [privateTypeMessage, f, T] ∧
        (ReviewPred.exportedValue, [f]) ∈ facts ∧ (ReviewPred.sigUsesType, [f, T]) ∈ facts ∧
        ((ReviewPred.unionType, [T]) ∈ facts ∨ (ReviewPred.typeAlias, [T]) ∈ facts) ∧
        (ReviewPred.exportedType, [T]) ∉ facts := by
  constructor
  · intro derived
    rcases Datalog.Derives.inversion derived with fact | ⟨r, member, σ, same, rfl, body, -⟩
    · exact absurd ((settled_given (by decide)).mp fact) (given.error _)
    · rcases mem_layer_one.1 member with rfl | rfl
      · cases same
      · exact ⟨σ "Func", σ "Type", rfl, (exposedFunc_iff given).mp (body _ List.mem_cons_self)⟩
  · rintro ⟨f, T, rfl, found⟩
    exact Datalog.Derives.unary (funcTypeValues f T) (mem_layer_one.2 (Or.inr rfl)) rfl rfl
      ((exposedFunc_iff given).mpr found)

end Rule

/-! ## The facts of a file -/

theorem UpperCaseIdentifier.text_inj {T T' : UpperCaseIdentifier} (same : T.text = T'.text) :
    T = T' := by
  cases T
  cases T'
  cases same
  rfl

theorem LowerCaseIdentifier.text_inj {f f' : LowerCaseIdentifier} (same : f.text = f'.text) :
    f = f' := by
  cases f
  cases f'
  cases same
  rfl

/-- No name is an operator in parentheses. -/
theorem LowerCaseIdentifier.text_ne_operator (f : LowerCaseIdentifier) (inside : List Char) :
    f.text ≠ '(' :: inside ++ [')'] := by
  intro same
  have first := f.first
  rw [same] at first
  change false = true at first
  cases first

theorem mem_values_foldl {items : List ExposedItem} {exports : SkeletonExports}
    {f : LowerCaseIdentifier} : f.text ∈ (items.foldl SkeletonExports.add exports).values ↔
      f.text ∈ exports.values ∨ .exposedValue f ∈ items := by
  induction items generalizing exports with
  | nil => simp
  | cons item items ih =>
    rw [List.foldl_cons, ih, List.mem_cons, ← or_assoc]
    refine or_congr_left ?_
    rcases item with name | ⟨T, _ | _⟩ | inside
    · simp only [SkeletonExports.add, List.mem_append, List.mem_singleton,
        ExposedItem.exposedValue.injEq]
      exact or_congr_right ⟨LowerCaseIdentifier.text_inj, congrArg _⟩
    · simp [SkeletonExports.add]
    · simp [SkeletonExports.add]
    · have different := f.text_ne_operator inside
      simp only [List.cons_append] at different
      simp [SkeletonExports.add, different]

theorem mem_types_foldl {items : List ExposedItem} {exports : SkeletonExports}
    {T : UpperCaseIdentifier} : T.text ∈ (items.foldl SkeletonExports.add exports).types ↔
      T.text ∈ exports.types ∨ .exposedType T false ∈ items := by
  induction items generalizing exports with
  | nil => simp
  | cons item items ih =>
    rw [List.foldl_cons, ih, List.mem_cons, ← or_assoc]
    refine or_congr_left ?_
    rcases item with name | ⟨T', _ | _⟩ | inside
    · simp [SkeletonExports.add]
    · simp only [SkeletonExports.add, List.mem_append, List.mem_singleton,
        ExposedItem.exposedType.injEq, and_true]
      exact or_congr_right ⟨UpperCaseIdentifier.text_inj, congrArg _⟩
    · simp [SkeletonExports.add]
    · simp [SkeletonExports.add]

theorem annotationBefore_iff {prev : Option Declaration} {declaration : Declaration}
    {ann : SkeletonTypeAnnotation} : annotationBefore prev declaration = some ann ↔
      ∃ f a, prev = some (.typeAnnotationNode f a) ∧ declaration = .valueDeclaration ∧
        ann = parseTypeAnnotation f a := by
  unfold annotationBefore
  split
  · rename_i f a
    simp [eq_comm]
  · rename_i other
    refine iff_of_false (fun wrong => nomatch wrong) ?_
    rintro ⟨f, a, rfl, rfl, -⟩
    exact other f a rfl rfl

/-- The annotations that are kept are those right in front of a value declaration. -/
theorem mem_annotationsAfter {prev : Option Declaration} {declarations : List Declaration}
    {ann : SkeletonTypeAnnotation} : ann ∈ annotationsAfter prev declarations ↔
      ∃ f a before after, prev.toList ++ declarations =
        before ++ .typeAnnotationNode f a :: .valueDeclaration :: after ∧
          ann = parseTypeAnnotation f a := by
  induction declarations generalizing prev with
  | nil =>
    rw [annotationsAfter]
    refine iff_of_false List.not_mem_nil ?_
    rintro ⟨f, a, before, after, same, -⟩
    have long := congrArg List.length same
    rw [List.length_append, List.length_append, List.length_cons, List.length_cons] at long
    have short : prev.toList.length ≤ 1 := Option.length_toList_le
    rw [List.length_nil] at long
    omega
  | cons declaration rest ih =>
    rw [annotationsAfter, List.mem_append, Option.mem_toList, annotationBefore_iff, ih]
    cases prev with
    | none => simp
    | some p =>
      constructor
      · rintro (⟨f, a, same, rfl, rfl⟩ | ⟨f, a, before, after, same, rfl⟩)
        · cases same
          exact ⟨f, a, [], rest, rfl, rfl⟩
        · exact ⟨f, a, p :: before, after, congrArg (p :: ·) same, rfl⟩
      · rintro ⟨f, a, before, after, same, rfl⟩
        cases before with
        | nil =>
          cases same
          exact Or.inl ⟨f, a, rfl, rfl, rfl⟩
        | cons q before =>
          exact Or.inr ⟨f, a, before, after, (List.cons.inj same).2, rfl⟩

/-- `(unknown)` has no type names. -/
theorem annotationFacts_eq (ann : SkeletonTypeAnnotation) : annotationFacts ann =
    (.typeAnnotation_, [ann.name, ann.typeStr]) ::
      (extractTypeReferences ann.typeStr).map fun type => (.sigUsesType, [ann.name, type]) := by
  unfold annotationFacts
  refine congrArg _ ?_
  split
  · rename_i unknown
    have none : extractTypeReferences ann.typeStr = [] := by
      rw [unknown]
      simp [extractTypeReferences, runs]
    rw [none]
    rfl
  · rfl

section Facts

variable (file : ElmFile)

theorem givenFacts : GivenFacts (extractModuleFacts (skeletonParse file)) where
  localType := by simp [extractModuleFacts, exportFacts, importFacts, annotationFacts_eq]
  exposedFunc := by simp [extractModuleFacts, exportFacts, importFacts, annotationFacts_eq]
  error := by simp [extractModuleFacts, exportFacts, importFacts, annotationFacts_eq]

variable {file}

theorem exportedValue_iff {f : LowerCaseIdentifier} :
    (ReviewPred.exportedValue, [f.text]) ∈ extractModuleFacts (skeletonParse file) ↔
      file.Names f := by
  have exported : (ReviewPred.exportedValue, [f.text]) ∈ extractModuleFacts (skeletonParse file) ↔
      f.text ∈ (skeletonParse file).exports.values := by
    simp [extractModuleFacts, exportFacts, importFacts, annotationFacts_eq]
  rw [exported]
  unfold skeletonParse ElmFile.Names ElmFile.exposed
  rcases file.moduleDeclaration with _ | ⟨_, _ | items⟩
  · simp [SkeletonExports.none]
  · simp [SkeletonExports.none, parseExposingList]
  · simp [SkeletonExports.none, parseExposingList, mem_values_foldl]

theorem exportedType_iff {T : UpperCaseIdentifier} :
    (ReviewPred.exportedType, [T.text]) ∈ extractModuleFacts (skeletonParse file) ↔
      file.ExposesName T := by
  have exported : (ReviewPred.exportedType, [T.text]) ∈ extractModuleFacts (skeletonParse file) ↔
      T.text ∈ (skeletonParse file).exports.types := by
    simp [extractModuleFacts, exportFacts, importFacts, annotationFacts_eq]
  rw [exported]
  unfold skeletonParse ElmFile.ExposesName ElmFile.exposed
  rcases file.moduleDeclaration with _ | ⟨_, _ | items⟩
  · simp [SkeletonExports.none]
  · simp [SkeletonExports.none, parseExposingList]
  · simp [SkeletonExports.none, parseExposingList, mem_types_foldl]

theorem sigUsesType_iff {func type : List Char} :
    (ReviewPred.sigUsesType, [func, type]) ∈ extractModuleFacts (skeletonParse file) ↔
      ∃ f a, file.AnnotatesNext f a ∧ func = f.text ∧ type ∈ extractTypeReferences a.text := by
  have used : (ReviewPred.sigUsesType, [func, type]) ∈ extractModuleFacts (skeletonParse file) ↔
      ∃ ann ∈ (skeletonParse file).typeAnnotations,
        type ∈ extractTypeReferences ann.typeStr ∧ ann.name = func := by
    simp [extractModuleFacts, exportFacts, importFacts, annotationFacts_eq]
  rw [used]
  constructor
  · rintro ⟨ann, member, found, rfl⟩
    obtain ⟨f, a, before, after, whole, rfl⟩ := mem_annotationsAfter.1 member
    exact ⟨f, a, ⟨before, after, whole⟩, rfl, found⟩
  · rintro ⟨f, a, ⟨before, after, whole⟩, rfl, found⟩
    exact ⟨_, mem_annotationsAfter.2 ⟨f, a, before, after, whole, rfl⟩,
      found, rfl⟩

theorem unionType_iff {type : List Char} :
    (ReviewPred.unionType, [type]) ∈ extractModuleFacts (skeletonParse file) ↔
      ∃ T variants, .typeDeclaration T variants ∈ file.declarations ∧ type = T.text := by
  have declared : (ReviewPred.unionType, [type]) ∈ extractModuleFacts (skeletonParse file) ↔
      ∃ ut ∈ (skeletonParse file).unionTypes, type = ut.name := by
    simp [extractModuleFacts, exportFacts, importFacts, annotationFacts_eq]
  rw [declared]
  unfold skeletonParse
  simp only [List.mem_filterMap]
  constructor
  · rintro ⟨ut, ⟨declaration, member, same⟩, rfl⟩
    split at same
    · rename_i T variants
      cases same
      exact ⟨T, variants, member, rfl⟩
    · cases same
  · rintro ⟨T, variants, member, rfl⟩
    exact ⟨_, ⟨_, member, rfl⟩, rfl⟩

theorem typeAlias_iff {type : List Char} :
    (ReviewPred.typeAlias, [type]) ∈ extractModuleFacts (skeletonParse file) ↔
      ∃ T, .typeAliasDeclaration T ∈ file.declarations ∧ type = T.text := by
  have declared : (ReviewPred.typeAlias, [type]) ∈ extractModuleFacts (skeletonParse file) ↔
      type ∈ (skeletonParse file).typeAliases := by
    simp [extractModuleFacts, exportFacts, importFacts, annotationFacts_eq]
  rw [declared]
  unfold skeletonParse
  simp only [List.mem_filterMap]
  constructor
  · rintro ⟨declaration, member, same⟩
    split at same
    · rename_i T
      cases same
      exact ⟨T, member, rfl⟩
    · cases same
  · rintro ⟨T, member, rfl⟩
    exact ⟨_, member, rfl⟩

/-- The errors about a file, in terms of its syntax. -/
theorem reviewErrors_iff {tuple : List (List Char)} : reviewErrors file tuple ↔
    ∃ f T, tuple = [privateTypeMessage, f.text, T.text] ∧ file.Names f ∧
      (∃ a, file.AnnotatesNext f a ∧ T.text ∈ extractTypeReferences a.text) ∧
      file.Declares T ∧ ¬ file.ExposesName T := by
  unfold reviewErrors
  rw [error_iff (givenFacts file)]
  constructor
  · rintro ⟨func, type, rfl, value, used, here, hidden⟩
    obtain ⟨f, a, annotated, rfl, found⟩ := sigUsesType_iff.1 used
    have named := exportedValue_iff.1 value
    rcases here with union | renamed
    · obtain ⟨T, variants, declared, rfl⟩ := unionType_iff.1 union
      exact ⟨f, T, rfl, named, ⟨a, annotated, found⟩, Or.inr ⟨variants, declared⟩,
        fun exposed => hidden (exportedType_iff.2 exposed)⟩
    · obtain ⟨T, declared, rfl⟩ := typeAlias_iff.1 renamed
      exact ⟨f, T, rfl, named, ⟨a, annotated, found⟩, Or.inl declared,
        fun exposed => hidden (exportedType_iff.2 exposed)⟩
  · rintro ⟨f, T, rfl, named, ⟨a, annotated, found⟩, declared, hidden⟩
    refine ⟨f.text, T.text, rfl, exportedValue_iff.2 named,
      sigUsesType_iff.2 ⟨f, a, annotated, rfl, found⟩, ?_,
      fun exported => hidden (exportedType_iff.1 exported)⟩
    rcases declared with renamed | ⟨variants, union⟩
    · exact Or.inr (typeAlias_iff.2 ⟨T, renamed, rfl⟩)
    · exact Or.inl (unionType_iff.2 ⟨T, variants, union, rfl⟩)

end Facts

/-! ## The names in a text -/

theorem UpperCaseIdentifier.text_ne_nil (T : UpperCaseIdentifier) : T.text ≠ [] := by
  intro empty
  have first := T.first
  rw [empty] at first
  cases first

theorem LowerCaseIdentifier.text_ne_nil (f : LowerCaseIdentifier) : f.text ≠ [] := by
  intro empty
  have first := f.first
  rw [empty] at first
  cases first

theorem isAscii_of_isTypeChar {c : Char} (letter : isTypeChar c = true) : isAscii c = true := by
  unfold isTypeChar at letter
  rw [Bool.or_eq_true, Bool.or_eq_true, decide_eq_true_eq, decide_eq_true_eq] at letter
  rcases letter with (letter | rfl) | rfl
  · unfold isAscii
    delta Char.isAlphanum Char.isAlpha Char.isUpper Char.isLower at letter
    simp only [Char.isDigit, Bool.or_eq_true, Bool.and_eq_true, decide_eq_true_eq, ge_iff_le,
      UInt32.le_iff_toNat_le] at letter ⊢
    have upper : 'Z'.val.toNat = 90 := rfl
    have lower : 'z'.val.toNat = 122 := rfl
    have digit : '9'.val.toNat = 57 := rfl
    change c.val.toNat < 128
    omega
  · rfl
  · rfl

theorem isTypeChar_of_isExtraSpace {c : Char} (blank : isExtraSpace c = true) :
    isTypeChar c = false := by
  unfold isExtraSpace at blank
  simp only [Bool.or_eq_true, decide_eq_true_eq, Bool.not_eq_true'] at blank
  cases letter : isTypeChar c with
  | false => rfl
  | true =>
    rcases blank with (((space | tab) | feed) | rfl) | beyond
    · simp only [Char.isWhitespace, Bool.or_eq_true, decide_eq_true_eq, or_assoc] at space
      rcases space with rfl | rfl | rfl | rfl <;> cases letter
    · rw [← Char.ofNat_toNat c, tab] at letter
      cases letter
    · rw [← Char.ofNat_toNat c, feed] at letter
      cases letter
    · cases letter
    · rw [isAscii_of_isTypeChar letter] at beyond
      cases beyond

theorem isTypeChar_of_isUpper {c : Char} (upper : c.isUpper = true) : isTypeChar c = true := by
  unfold isTypeChar
  delta Char.isAlphanum Char.isAlpha
  rw [upper]
  rfl

theorem mem_extractTypeReferences {T : UpperCaseIdentifier} {text : List Char} :
    T.text ∈ extractTypeReferences text ↔ Occurs T text := by
  unfold extractTypeReferences Occurs
  rw [List.mem_map]
  constructor
  · rintro ⟨run, member, same⟩
    obtain ⟨word, on, rfl, -⟩ := (mem_runs fun _ => isTypeChar_of_isUpper).mp member
    exact ⟨word, on, same⟩
  · rintro ⟨word, on, same⟩
    refine ⟨_, (mem_runs fun _ => isTypeChar_of_isUpper).mpr ⟨word, on, rfl, ?_⟩, same⟩
    intro empty
    apply T.text_ne_nil
    rw [← same, capitalPart, empty]
    rfl

/-- What occurs is the part of a word. -/
theorem Occurs.isAscii {T : UpperCaseIdentifier} {text : List Char} (occurs : Occurs T text) :
    T.IsAscii := by
  obtain ⟨word, on, same⟩ := occurs
  unfold UpperCaseIdentifier.IsAscii
  rw [List.all_eq_true, ← same]
  intro c member
  apply isAscii_of_isTypeChar
  apply Runs.mem_words on
  exact (List.dropWhile_suffix _).subset ((List.takeWhile_prefix _).subset member)

/-- An ASCII name is one word. -/
theorem occurs_self {T : UpperCaseIdentifier} (ascii : T.IsAscii) : Occurs T T.text := by
  unfold UpperCaseIdentifier.IsAscii at ascii
  have plain : ∀ c ∈ T.text, isTypeChar c = true ∧ c ≠ '.' := by
    intro c member
    have name := List.all_eq_true.mp T.characters c member
    have known := List.all_eq_true.mp ascii c member
    unfold isNameChar at name
    rw [known, Bool.not_true, Bool.or_false] at name
    refine ⟨by rw [isTypeChar, name, Bool.true_or], ?_⟩
    rintro rfl
    cases name
  refine ⟨T.text, ?_, ?_⟩
  · rw [Runs.words_of_all fun c member => (plain c member).1]
    exact List.mem_singleton_self _
  · have first := T.first
    obtain ⟨c, rest, text⟩ := List.exists_cons_of_ne_nil T.text_ne_nil
    rw [text, List.head?_cons, Option.any_some] at first
    have known := List.all_eq_true.mp ascii c (text ▸ List.mem_cons_self)
    rw [known, Bool.not_true, Bool.or_false] at first
    have kept : (T.text.dropWhile fun c => !c.isUpper) = T.text := by
      rw [text, List.dropWhile_cons_of_neg]
      rw [first]
      exact Bool.false_ne_true
    unfold capitalPart
    rw [kept, List.takeWhile_eq_self_iff]
    intro c member
    exact decide_eq_true (plain c member).2

/-! ## The pieces of a type -/

theorem Piece.outside {p : Piece} (plain : p.isName = false) :
    (∀ c ∈ p.text.head?, isTypeChar c = false) ∧ ∀ c ∈ p.text.getLast?, isTypeChar c = false := by
  rcases p with (name | name | s) | (⟨c, blank⟩ | content | content)
  · cases plain
  · cases plain
  · cases s <;> exact ⟨by rintro c ⟨⟩; rfl, by rintro c ⟨⟩; rfl⟩
  · have outside := isTypeChar_of_isExtraSpace blank
    exact ⟨by rintro d ⟨⟩; exact outside, by rintro d ⟨⟩; exact outside⟩
  · refine ⟨by rintro c ⟨⟩; rfl, ?_⟩
    intro c last
    rw [Piece.text, Extra.text, List.getLast?_concat] at last
    cases last
    rfl
  · refine ⟨by rintro c ⟨⟩; rfl, ?_⟩
    intro c last
    rw [Piece.text, Extra.text, List.getLast?_append] at last
    cases last
    rfl

theorem Piece.text_ne_nil (p : Piece) : p.text ≠ [] := by
  rcases p with (name | name | s) | (⟨c, blank⟩ | content | content)
  · exact List.append_ne_nil_of_left_ne_nil name.first.text_ne_nil _
  · exact name.text_ne_nil
  · cases s <;> exact List.cons_ne_nil _ _
  · exact List.cons_ne_nil _ _
  · exact List.cons_ne_nil _ _
  · exact List.cons_ne_nil _ _

/-- No word goes from one piece to the next. -/
theorem TypeText.extractTypeReferences_text (a : TypeText) :
    extractTypeReferences a.text = a.pieces.flatMap fun p => extractTypeReferences p.text := by
  have nonempty : ∀ text ∈ a.pieces.map Piece.text, text ≠ [] := by
    intro text member
    obtain ⟨p, -, rfl⟩ := List.mem_map.mp member
    exact p.text_ne_nil
  have apart : (a.pieces.map Piece.text).IsChain (Runs.Apart isTypeChar) := by
    rw [List.isChain_map]
    refine a.apart.imp fun p q meet c last d first within => ?_
    cases name : p.isName with
    | true => exact (Piece.outside (meet name)).1 d first
    | false =>
      rw [(Piece.outside name).2 c last] at within
      cases within
  have pieces := Runs.runs_flatten (fun _ => isTypeChar_of_isUpper) nonempty apart
  unfold extractTypeReferences TypeText.text
  rw [List.flatMap_def, pieces, List.flatMap_map, List.map_flatMap]

/-- A separator in front is no name. -/
theorem TypeNode.mem_tail_tokensAfter {q : UpperCaseQid} (s : Symbol) (types : List TypeNode) :
    .upperCaseQid q ∈ (TypeNode.tokensAfter [.symbol s] types).tail ↔
      .upperCaseQid q ∈ TypeNode.tokensAfter [.symbol s] types := by
  cases types with
  | nil => rfl
  | cons type types => simp [TypeNode.tokensAfter]

mutual

theorem TypeNode.mem_tokens {q : UpperCaseQid} :
    (type : TypeNode) → (.upperCaseQid q ∈ type.tokens ↔ q ∈ type.references)
  | .typeRef name args => by
      have rest : .upperCaseQid q ∈ TypeNode.tokensAfter [] args ↔
          q ∈ TypeNode.allReferences args := TypeNode.mem_tokensAfter List.not_mem_nil args
      rw [TypeNode.tokens, TypeNode.references, List.mem_cons, List.mem_cons, rest,
        Token.upperCaseQid.injEq]
  | .typeVariable name => by
      rw [TypeNode.tokens, TypeNode.references]
      simp
  | .recordType base fields => by
      have rest := (TypeNode.mem_tail_tokensAfter .comma fields).trans
        (TypeNode.mem_tokensAfter (q := q) (by simp) fields)
      cases base with
      | none =>
        rw [TypeNode.tokens, TypeNode.references, ← rest]
        simp
      | some base =>
        rw [TypeNode.tokens, TypeNode.references, ← rest]
        simp
  | .fieldType name type => by
      rw [TypeNode.tokens, TypeNode.references, ← type.mem_tokens]
      simp
  | .tupleType parts => by
      have rest := (TypeNode.mem_tail_tokensAfter .comma parts).trans
        (TypeNode.mem_tokensAfter (q := q) (by simp) parts)
      rw [TypeNode.tokens, TypeNode.references, ← rest]
      simp
  | .typeExpression parts => by
      have rest := (TypeNode.mem_tail_tokensAfter .arrow parts).trans
        (TypeNode.mem_tokensAfter (q := q) (by simp) parts)
      rw [TypeNode.tokens, TypeNode.references, rest]

theorem TypeNode.mem_tokensAfter {q : UpperCaseQid} {separator : List Token}
    (plain : .upperCaseQid q ∉ separator) :
    (types : List TypeNode) →
      (.upperCaseQid q ∈ TypeNode.tokensAfter separator types ↔
        q ∈ TypeNode.allReferences types)
  | [] => by
      rw [TypeNode.tokensAfter, TypeNode.allReferences]
      simp
  | type :: types => by
      rw [TypeNode.tokensAfter, TypeNode.allReferences, List.mem_append, List.mem_append,
        List.mem_append, type.mem_tokens, TypeNode.mem_tokensAfter plain types,
        or_iff_right plain]

end

/-- The names in the pieces are those that the type refers to. -/
theorem TypeText.mem_references {a : TypeText} {q : UpperCaseQid} :
    q ∈ a.type.references ↔ ∃ p ∈ a.pieces, p.token? = some (.upperCaseQid q) := by
  rw [← TypeNode.mem_tokens, ← a.leaves, List.mem_filterMap]

theorem Piece.text_of_reference {p : Piece} {T : UpperCaseIdentifier}
    (reference : p.token? = some (.upperCaseQid T.unqualified)) : p.text = T.text := by
  cases p with
  | token t =>
    cases reference
    exact List.append_nil _
  | extra e => cases reference

/-- What is found for a type: the references to it, and what strays. -/
theorem TypeText.found_iff {a : TypeText} {T : UpperCaseIdentifier} :
    T.text ∈ extractTypeReferences a.text ↔
      T.unqualified ∈ a.type.references ∧ T.IsAscii ∨ a.Strays T := by
  rw [a.extractTypeReferences_text, List.mem_flatMap, TypeText.mem_references]
  constructor
  · rintro ⟨p, member, found⟩
    have occurs := mem_extractTypeReferences.1 found
    by_cases reference : p.token? = some (.upperCaseQid T.unqualified)
    · exact Or.inl ⟨⟨p, member, reference⟩, occurs.isAscii⟩
    · exact Or.inr ⟨p, member, reference, occurs⟩
  · rintro (⟨⟨p, member, reference⟩, ascii⟩ | ⟨p, member, -, occurs⟩)
    · refine ⟨p, member, mem_extractTypeReferences.2 ?_⟩
      rw [Piece.text_of_reference reference]
      exact occurs_self ascii
    · exact ⟨p, member, mem_extractTypeReferences.2 occurs⟩

/-! ## When the rule is right -/

theorem ElmFile.AnnotatesNext.annotates {file : ElmFile} {f : LowerCaseIdentifier} {a : TypeText}
    (next : file.AnnotatesNext f a) : file.Annotates f a := by
  obtain ⟨before, after, whole⟩ := next
  refine Or.inl ?_
  rw [whole]
  simp

/-- A name is annotated once. -/
theorem ElmFile.Annotates.unique {file : ElmFile} {f : LowerCaseIdentifier} {a a' : TypeText}
    (annotated : file.Annotates f a) (annotated' : file.Annotates f a') : a = a' := by
  have same {x y : Declaration} (hx : x ∈ file.declarations) (hy : y ∈ file.declarations)
      (named : x.annotated? = some f) (named' : y.annotated? = some f) : x = y :=
    Keyed.eq_of_nodup_filterMap file.annotatedOnce hx hy named named'
  rcases annotated with value | port
  · rcases annotated' with value' | port'
    · cases same value value' rfl rfl
      rfl
    · cases same value port' rfl rfl
  · rcases annotated' with value' | port'
    · cases same port value' rfl rfl
    · cases same port port' rfl rfl
      rfl

theorem tuple_inj {f f' : LowerCaseIdentifier} {T T' : UpperCaseIdentifier}
    (same : [privateTypeMessage, f.text, T.text] = [privateTypeMessage, f'.text, T'.text]) :
    f = f' ∧ T = T' := by
  obtain ⟨func, type⟩ := List.cons.inj (List.cons.inj same).2
  exact ⟨LowerCaseIdentifier.text_inj func, UpperCaseIdentifier.text_inj (List.cons.inj type).1⟩

/-- The rule is right where it finds the type just where it should. -/
theorem ElmFile.judges_iff {file : ElmFile} {f : LowerCaseIdentifier} {a : TypeText}
    {T : UpperCaseIdentifier} : file.Judges f a T ↔
      (file.AnnotatesNext f a ∧ T.text ∈ extractTypeReferences a.text ↔
        T.unqualified ∈ a.type.references ∧ ¬ file.ExposesConstructors T) := by
  have ascii : a.Strays T → T.IsAscii := fun ⟨_, _, _, occurs⟩ => occurs.isAscii
  rw [TypeText.found_iff]
  constructor
  · rintro ⟨constructors, missed, strays⟩
    constructor
    · rintro ⟨next, found⟩
      have closed : ¬ file.ExposesConstructors T := by
        intro opened
        obtain ⟨stray, reference⟩ := constructors opened next
        rcases found with found | found
        · exact reference found
        · exact stray found
      rcases found with ⟨reference, -⟩ | found
      · exact ⟨reference, closed⟩
      · exact ⟨strays closed next found, closed⟩
    · rintro ⟨reference, closed⟩
      obtain ⟨next, plain⟩ := missed closed reference
      exact ⟨next, Or.inl ⟨reference, plain⟩⟩
  · intro agrees
    refine ⟨fun opened next => ⟨fun stray => ?_, fun reference => ?_⟩, fun closed reference => ?_,
      fun closed next stray => ?_⟩
    · exact (agrees.mp ⟨next, Or.inr stray⟩).2 opened
    · exact (agrees.mp ⟨next, Or.inl reference⟩).2 opened
    · obtain ⟨next, found⟩ := agrees.mpr ⟨reference, closed⟩
      rcases found with ⟨-, plain⟩ | stray
      · exact ⟨next, plain⟩
      · exact ⟨next, ascii stray⟩
    · exact (agrees.mp ⟨next, Or.inr stray⟩).1

/-- The errors about a file are the exposed values whose signatures use a private type, just where
the rule is right about each of its annotations. -/
theorem noMissingTypeExpose_iff (file : ElmFile) :
    (∀ tuple, reviewErrors file tuple ↔
      ∃ f T, tuple = [privateTypeMessage, f.text, T.text] ∧ file.PrivateInSignature f T) ↔
    ∀ f a T, file.Names f → file.Annotates f a → file.Declares T → ¬ file.ExposesName T →
      file.Judges f a T := by
  constructor
  · intro right f a T named annotated declared hidden
    rw [ElmFile.judges_iff]
    have here := right [privateTypeMessage, f.text, T.text]
    constructor
    · rintro ⟨next, found⟩
      obtain ⟨f', T', same, _, ⟨a', annotated', reference⟩, _, _, closed⟩ := here.mp
        (reviewErrors_iff.2 ⟨f, T, rfl, named, ⟨a, next, found⟩, declared, hidden⟩)
      obtain ⟨rfl, rfl⟩ := tuple_inj same
      cases annotated.unique annotated'
      exact ⟨reference, closed⟩
    · rintro ⟨reference, closed⟩
      obtain ⟨f', T', same, _, ⟨a', next, found⟩, _⟩ := reviewErrors_iff.1
        (here.mpr ⟨f, T, rfl, named, ⟨a, annotated, reference⟩, declared, hidden, closed⟩)
      obtain ⟨rfl, rfl⟩ := tuple_inj same
      cases annotated.unique next.annotates
      exact ⟨next, found⟩
  · intro judges tuple
    rw [reviewErrors_iff]
    refine exists_congr fun f => exists_congr fun T => and_congr_right fun _ => ?_
    constructor
    · rintro ⟨named, ⟨a, next, found⟩, declared, hidden⟩
      have right := ElmFile.judges_iff.mp (judges f a T named next.annotates declared hidden)
      obtain ⟨reference, closed⟩ := right.mp ⟨next, found⟩
      exact ⟨named, ⟨a, next.annotates, reference⟩, declared, hidden, closed⟩
    · rintro ⟨named, ⟨a, annotated, reference⟩, declared, hidden, closed⟩
      have right := ElmFile.judges_iff.mp (judges f a T named annotated declared hidden)
      obtain ⟨next, found⟩ := right.mpr ⟨reference, closed⟩
      exact ⟨named, ⟨a, next, found⟩, declared, hidden⟩

def modelName : UpperCaseIdentifier := ⟨"Model".toList, by decide, by decide⟩

def viewName : LowerCaseIdentifier := ⟨"view".toList, by decide, by decide⟩

/-- `Model`. -/
def modelType : TypeText where
  type := .typeExpression [.typeRef modelName.unqualified []]
  pieces := [.token (.upperCaseQid modelName.unqualified)]
  leaves := rfl
  apart := List.isChain_singleton _

/-- `module Model exposing (Model(..), view)`, where `view : Model`. -/
def openModel : ElmFile where
  filepath := "src/Model.elm".toList
  moduleDeclaration := some (modelName.unqualified,
    .items [.exposedType modelName true, .exposedValue viewName])
  declarations := [.typeDeclaration modelName [modelName], .typeAnnotationNode viewName modelType,
    .valueDeclaration]
  annotatedOnce := List.pairwise_singleton _ viewName

/-- A type that is exposed with its constructors is taken for a private one. -/
theorem noMissingTypeExpose_constructors : ¬ ∀ file tuple, reviewErrors file tuple ↔
    ∃ f T, tuple = [privateTypeMessage, f.text, T.text] ∧ file.PrivateInSignature f T := by
  intro claim
  have hidden : ¬ openModel.ExposesName modelName := by
    intro exposed
    rcases List.mem_cons.mp exposed with same | later
    · exact Bool.false_ne_true (ExposedItem.exposedType.inj same).2
    · exact nomatch List.mem_singleton.mp later
  have reference : modelName.unqualified ∈ modelType.type.references := List.mem_cons_self
  have ascii : modelName.IsAscii := by
    unfold UpperCaseIdentifier.IsAscii
    decide
  have found := TypeText.found_iff.mpr (Or.inl ⟨reference, ascii⟩)
  have named : openModel.Names viewName := List.mem_cons_of_mem _ List.mem_cons_self
  have next : openModel.AnnotatesNext viewName modelType :=
    ⟨[.typeDeclaration modelName [modelName]], [], rfl⟩
  have declared : openModel.Declares modelName := Or.inr ⟨[modelName], List.mem_cons_self⟩
  have error := reviewErrors_iff.2
    ⟨viewName, modelName, rfl, named, ⟨modelType, next, found⟩, declared, hidden⟩
  obtain ⟨f, T, same, _, _, _, _, closed⟩ := (claim openModel _).mp error
  obtain ⟨-, rfl⟩ := tuple_inj same
  exact closed List.mem_cons_self

end ElmWrap.Review.File
