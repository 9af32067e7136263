import ElmWrap.Docs.ImportTables
import ElmWrap.Lib.Keyed

/-!
# Where a type name is written to come from

The name that the documentation generator writes for a reference, against the module that
the reference means.
-/

namespace ElmWrap

/-- The context in which the types of a module are written. -/
def ElmModule.context (elmModule : ElmModule) (cache : Option DependencyCache) : QualifyContext :=
  qualifyContextCreateFromMaps elmModule.name (moduleMaps cache elmModule.imports)
    elmModule.localTypes cache

/-- When the tables find the module of a reference. -/
def ElmModule.Found (elmModule : ElmModule) (cache : Option DependencyCache)
    (reference : TypeReference) (home : String) : Prop :=
  match reference.qualifier with
  | none =>
    reference.name ∈ elmModule.localTypes ∨ Known cache home reference.name ∨ home = "Basics" ∨
      ∃ clause ∈ elmModule.allImports, Exposed.type reference.name ∈ clause.exposing ∧
        clause.moduleName = home
  | some qualifier =>
    if qualifier = "Cmd" ∨ qualifier = "Sub" then
      -- the implicit alias hides every other use of its name as an alias
      home = "Platform." ++ qualifier ∨
        home = qualifier ∧
          isDirectlyImported (moduleMaps cache elmModule.imports).directImports qualifier ∧
          Known cache home reference.name
    else
      match (modulesUnder elmModule.imports qualifier).head? with
      | none => True
      | some first => first = home ∨ Known cache home reference.name

/-! ## Texts -/

theorem qualified_inj {left right name : String}
    (same : left ++ "." ++ name = right ++ "." ++ name) : left = right := by
  have texts := congrArg String.toList same
  simp only [String.toList_append, List.append_left_inj] at texts
  exact String.toList_inj.mp texts

theorem qualified_ne (left name : String) : left ++ "." ++ name ≠ name := by
  intro same
  have lengths := congrArg (List.length ∘ String.toList) same
  simp [String.toList_append] at lengths
  omega

theorem splitLastDot_none {text : List Char} (simple : '.' ∉ text) :
    QualifyContext.splitLastDot text = none := by
  induction text with
  | nil => rfl
  | cons c text ih =>
    obtain ⟨other, later⟩ := not_or.mp (List.mem_cons.not.mp simple)
    unfold QualifyContext.splitLastDot
    rw [ih later, if_neg (Ne.symm other)]

theorem splitLastDot_append {before behind : List Char} (simple : '.' ∉ behind) :
    QualifyContext.splitLastDot (before ++ '.' :: behind) = some (before, behind) := by
  induction before with
  | nil =>
    rw [List.nil_append]
    unfold QualifyContext.splitLastDot
    rw [splitLastDot_none simple, if_pos rfl]
  | cons c before ih =>
    rw [List.cons_append]
    unfold QualifyContext.splitLastDot
    rw [ih]

theorem qualifyUpperCaseQid_text (ctx : QualifyContext) (reference : TypeReference) :
    ctx.qualifyUpperCaseQid reference.text reference.arity =
      ctx.qualifySingleTypeName reference.name reference.qualifier reference.arity := by
  unfold QualifyContext.qualifyUpperCaseQid TypeReference.text
  cases reference.qualifier with
  | none =>
    dsimp only
    rw [splitLastDot_none reference.simple]
  | some qualifier =>
    have text : (qualifier ++ "." ++ reference.name).toList =
        qualifier.toList ++ '.' :: reference.name.toList := by
      rw [String.toList_append, String.toList_append, List.append_assoc]
      rfl
    dsimp only
    rw [text, splitLastDot_append reference.simple]
    dsimp only
    rw [String.ofList_toList, String.ofList_toList]

/-! ## Names without a qualifier -/

/-- The types that the implicit imports expose, with their modules. -/
def defaultTypes : List TypeImport :=
  [⟨"Int", "Basics"⟩, ⟨"Float", "Basics"⟩, ⟨"Bool", "Basics"⟩, ⟨"Order", "Basics"⟩,
    ⟨"Never", "Basics"⟩, ⟨"List", "List"⟩, ⟨"Maybe", "Maybe"⟩, ⟨"Result", "Result"⟩,
    ⟨"String", "String"⟩, ⟨"Char", "Char"⟩, ⟨"Program", "Platform"⟩, ⟨"Cmd", "Platform.Cmd"⟩,
    ⟨"Sub", "Platform.Sub"⟩]

/-- What the implicit imports put into the table of a context. -/
def implicitTypes (cache : Option DependencyCache) : List TypeImport :=
  qualifyImplicitImports ++ (applyImplicitImports cache).importMap

theorem addBasics_spec (cache : Option DependencyCache) (map : List TypeImport) :
    ∃ added, addBasics cache map = map ++ added ∧ ∀ entry ∈ added, entry.moduleName = "Basics" := by
  unfold addBasics
  induction exportedTypes cache "Basics" generalizing map with
  | nil => exact ⟨[], (List.append_nil map).symm, fun _ on => absurd on List.not_mem_nil⟩
  | cons exported rest ih =>
    rw [List.foldl_cons]
    split
    · obtain ⟨added, split, basics⟩ := ih (addImport map exported.name "Basics")
      refine ⟨⟨exported.name, "Basics"⟩ :: added, ?_, ?_⟩
      · rw [split]
        unfold addImport
        rw [List.append_assoc]
        rfl
      · exact List.forall_mem_cons.mpr ⟨rfl, basics⟩
    · exact ih map

/-- An entry of the implicit imports is of `Basics`, or a type or a constructor of another
module. -/
theorem mem_implicitTypes {cache : Option DependencyCache} {entry : TypeImport}
    (member : entry ∈ implicitTypes cache) :
    entry.moduleName = "Basics" ∨ entry ∈ implicitNames := by
  unfold implicitTypes applyImplicitImports at member
  dsimp only at member
  obtain ⟨added, split, basics⟩ := addBasics_spec cache (addImports [] basicsNames "Basics")
  rw [split] at member
  rcases List.mem_append.mp member with own | copied
  · rcases List.mem_append.mp own with basic | other
    · obtain ⟨name, -, rfl⟩ := List.mem_map.mp basic
      exact .inl rfl
    · exact .inr other
  · rcases List.mem_append.mp copied with basic | other
    · rcases List.mem_append.mp basic with first | more
      · rw [addImports_eq] at first
        obtain ⟨name, -, rfl⟩ := List.mem_map.mp first
        exact .inl rfl
      · exact .inl (basics entry more)
    · exact .inr other

theorem lookupImport_implicit {cache : Option DependencyCache} {typeName moduleName : String}
    (default_ : ⟨typeName, moduleName⟩ ∈ defaultTypes) :
    lookupImport (implicitTypes cache) typeName = some moduleName := by
  have tables : ∀ entry ∈ defaultTypes,
      lookupImport implicitNames entry.typeName = some entry.moduleName ∨
        lookupImport implicitNames entry.typeName = none ∧ entry.moduleName = "Basics" ∧
          (lookupImport (addImports [] basicsNames "Basics") entry.typeName).isSome := by
    decide
  unfold implicitTypes applyImplicitImports
  dsimp only
  rw [← List.append_assoc, lookupImport_append]
  rcases tables _ default_ with found | ⟨missing, basics, known⟩
  · dsimp only at found
    rw [found]
    rfl
  · dsimp only at missing basics known
    obtain ⟨added, split, all⟩ := addBasics_spec cache (addImports [] basicsNames "Basics")
    obtain ⟨base, listed⟩ := Option.isSome_iff_exists.mp known
    have inBasics : ∀ {found}, lookupImport (addBasics cache (addImports [] basicsNames "Basics"))
        typeName = some found → found = "Basics" := by
      intro found lookup
      have on := lookupImport_some lookup
      rw [split, addImports_eq] at on
      rcases List.mem_append.mp on with first | more
      · obtain ⟨name, -, same⟩ := List.mem_map.mp first
        exact (TypeImport.mk.inj same).2.symm
      · exact all _ more
    rw [missing, Option.none_or, lookupImport_append]
    cases lookup : lookupImport (addBasics cache (addImports [] basicsNames "Basics")) typeName with
    | some found =>
      rw [inBasics lookup, basics]
      rfl
    | none =>
      rw [split, lookupImport_append, Option.or_eq_none_iff, listed] at lookup
      cases lookup.2

theorem defaultImports_expose {exported : ModuleExports} (core : CoreExports exported)
    {clause : ImportClause} (default_ : clause ∈ defaultImports) {typeName : String}
    (exposes : clause.Exposes exported typeName) :
    ⟨typeName, clause.moduleName⟩ ∈ defaultTypes := by
  unfold defaultImports at default_
  unfold ImportClause.Exposes at exposes
  simp only [List.mem_cons, List.not_mem_nil, or_false] at default_
  rcases default_ with rfl | rfl | rfl | rfl | rfl | rfl | rfl | rfl | rfl | rfl | rfl
  all_goals simp [plainImport, core.basics] at exposes
  · rcases exposes with rfl | rfl | rfl | rfl | rfl
    all_goals decide
  all_goals
    rw [exposes]
    decide

theorem defaultTypes_exposed {typeName moduleName : String}
    (default_ : ⟨typeName, moduleName⟩ ∈ defaultTypes) :
    moduleName = "Basics" ∨ ∃ clause ∈ defaultImports,
      Exposed.type typeName ∈ clause.exposing ∧ clause.moduleName = moduleName := by
  unfold defaultTypes at default_
  unfold defaultImports
  simp only [List.mem_cons, List.not_mem_nil, or_false, TypeImport.mk.injEq] at default_
  rcases default_ with ⟨rfl, rfl⟩ | ⟨rfl, rfl⟩ | ⟨rfl, rfl⟩ | ⟨rfl, rfl⟩ | ⟨rfl, rfl⟩ | ⟨rfl, rfl⟩ |
    ⟨rfl, rfl⟩ | ⟨rfl, rfl⟩ | ⟨rfl, rfl⟩ | ⟨rfl, rfl⟩ | ⟨rfl, rfl⟩ | ⟨rfl, rfl⟩ | ⟨rfl, rfl⟩
  all_goals simp [plainImport]

/-- The constructors among the implicit names. -/
theorem implicitNames_default {entry : TypeImport} (member : entry ∈ implicitNames) :
    entry ∈ defaultTypes ∨ entry.moduleName = "Maybe" ∧ entry.typeName ≠ "Maybe" ∨
      entry.moduleName = "Result" ∧ entry.typeName ≠ "Result" := by
  have all : ∀ entry ∈ implicitNames, entry ∈ defaultTypes ∨
      entry.moduleName = "Maybe" ∧ entry.typeName ≠ "Maybe" ∨
        entry.moduleName = "Result" ∧ entry.typeName ≠ "Result" := by
    decide
  exact all entry member

section Unqualified

variable {elmModule : ElmModule} {exported : ModuleExports} {cache : Option DependencyCache}
  {name home : String}

/-- The imports in the table of a context. -/
theorem context_imports (elmModule : ElmModule) (cache : Option DependencyCache) :
    (elmModule.context cache).imports =
      implicitTypes cache ++ elmModule.imports.flatMap (clauseImports cache) := by
  unfold ElmModule.context qualifyContextCreateFromMaps moduleMaps implicitTypes
  dsimp only
  rw [extractImports_importMap, List.append_assoc]

/-- An entry of a clause exposes what it says. -/
theorem clauseImports_exposes (sound : CacheSound cache exported) {clause : ImportClause}
    (member : ⟨name, home⟩ ∈ clauseImports cache clause) :
    clause.Exposes exported name ∧ clause.moduleName = home := by
  obtain ⟨same, byName | ⟨all, entry, known, named⟩⟩ := mem_clauseImports.mp member
  · exact ⟨.inl byName, same⟩
  · obtain ⟨n, there, -⟩ := sound home entry known
    refine ⟨.inr ⟨all, ?_⟩, same⟩
    rw [same, ← named, there]
    rfl

/-- A name that the table finds where exactly one module exposes it. -/
theorem lookupImport_context (core : CoreExports exported) (sound : CacheSound cache exported)
    (candidate : ∃ clause ∈ elmModule.allImports, clause.Exposes exported name ∧
      clause.moduleName = home)
    (unique : ∀ clause ∈ elmModule.allImports, clause.Exposes exported name →
      clause.moduleName = home) :
    (elmModule.context cache).lookupImport name = some home ↔
      Known cache home name ∨ home = "Basics" ∨
        ∃ clause ∈ elmModule.allImports, Exposed.type name ∈ clause.exposing ∧
          clause.moduleName = home := by
  unfold QualifyContext.lookupImport
  rw [context_imports, lookupImport_append]
  constructor
  · intro found
    rcases Option.or_eq_some_iff.mp found with user | ⟨-, implicit⟩
    · obtain ⟨clause, on, member⟩ := List.mem_flatMap.mp (lookupImport_some user)
      obtain ⟨same, byName | ⟨-, known⟩⟩ := mem_clauseImports.mp member
      · exact .inr (.inr ⟨clause, List.mem_append_right _ on, byName, same⟩)
      · exact .inl known
    · right
      rcases mem_implicitTypes (lookupImport_some implicit) with basics | named
      · exact .inl basics
      obtain ⟨clause, on, exposes, same⟩ := candidate
      have constructor_ : ∀ moduleName, home = moduleName ∧ name ≠ moduleName →
          (∀ name, (exported moduleName name).isSome ↔ name = moduleName) →
          ∃ clause ∈ elmModule.allImports, Exposed.type name ∈ clause.exposing ∧
            clause.moduleName = home := by
        intro moduleName ⟨is, other⟩ only
        rcases exposes with byName | ⟨-, there⟩
        · exact ⟨clause, on, byName, same⟩
        · rw [same, is, only] at there
          exact absurd there other
      rcases implicitNames_default named with default_ | maybe | result
      · rcases defaultTypes_exposed default_ with basics | ⟨clause, on, byName, same⟩
        · exact .inl basics
        · exact .inr ⟨clause, List.mem_append_left _ on, byName, same⟩
      · exact .inr (constructor_ "Maybe" maybe core.maybe)
      · exact .inr (constructor_ "Result" result core.result)
  · intro condition
    cases user : lookupImport (elmModule.imports.flatMap (clauseImports cache)) name with
    | some found =>
      obtain ⟨clause, on, member⟩ := List.mem_flatMap.mp (lookupImport_some user)
      obtain ⟨exposes, same⟩ := clauseImports_exposes sound member
      rw [← same, unique clause (List.mem_append_right _ on) exposes]
      rfl
    | none =>
      rw [Option.none_or]
      apply lookupImport_implicit
      have missing : ∀ clause ∈ elmModule.imports, ⟨name, home⟩ ∉ clauseImports cache clause := by
        intro clause on member
        exact lookupImport_none user (List.mem_flatMap.mpr ⟨clause, on, member⟩) rfl
      have byDefault : ∀ clause ∈ elmModule.allImports, clause.moduleName = home →
          (Exposed.type name ∈ clause.exposing ∨
            Exposed.doubleDot ∈ clause.exposing ∧ Known cache home name) →
          clause ∈ defaultImports := by
        intro clause on same exposed
        rcases List.mem_append.mp on with default_ | user
        · exact default_
        · exact absurd (mem_clauseImports.mpr ⟨same, exposed⟩) (missing clause user)
      obtain ⟨clause, on, exposes, same⟩ := candidate
      rcases condition with known | basics | ⟨named, on', byName, same'⟩
      · have default_ : clause ∈ defaultImports := by
          apply byDefault clause on same
          rcases exposes with byName | ⟨all, -⟩
          · exact .inl byName
          · exact .inr ⟨all, known⟩
        exact same ▸ defaultImports_expose core default_ exposes
      · rcases exposes with byName | ⟨-, there⟩
        · have default_ := byDefault clause on same (.inl byName)
          exact same ▸ defaultImports_expose core default_ (.inl byName)
        · rw [same, basics] at there
          rw [basics]
          exact @defaultImports_expose exported core (plainImport "Basics" [.doubleDot])
            List.mem_cons_self name (.inr ⟨List.mem_singleton_self _, there⟩)
      · have default_ := byDefault named on' same' (.inl byName)
        exact same' ▸ defaultImports_expose core default_ (.inl byName)

end Unqualified

/-! ## Names with a qualifier -/

section Qualified

variable {elmModule : ElmModule} {exported : ModuleExports} {cache : Option DependencyCache}
  {name qualifier home : String} {arity : Nat}

/-- The entry of the implicit imports goes before those that are copied. -/
theorem context_aliases (elmModule : ElmModule) (cache : Option DependencyCache)
    (qualifier : String) :
    (elmModule.context cache).aliases.find? (·.aliasName = qualifier) =
      (findAlias qualifyImplicitAliases qualifier).or
        (findAlias (moduleMaps cache elmModule.imports).aliasMap qualifier) := by
  unfold ElmModule.context qualifyContextCreateFromMaps findAlias
  dsimp only
  rw [List.find?_append]

theorem findAlias_implicit (qualifier : String) :
    findAlias qualifyImplicitAliases qualifier =
      if qualifier = "Cmd" ∨ qualifier = "Sub" then
        some ⟨qualifier, "Platform." ++ qualifier, []⟩
      else none := by
  unfold findAlias qualifyImplicitAliases
  by_cases cmd : qualifier = "Cmd"
  · rw [cmd]
    rfl
  by_cases sub : qualifier = "Sub"
  · rw [sub]
    rfl
  rw [if_neg (not_or.mpr ⟨cmd, sub⟩), List.find?_eq_none]
  intro entry member
  rcases List.mem_cons.mp member with first | second
  · simpa [first] using Ne.symm cmd
  · simpa [List.mem_singleton.mp second] using Ne.symm sub

/-- The modules that are in scope under their own names from the start. -/
theorem mem_implicitModules {moduleName : String}
    (direct : moduleName ∈ qualifyImplicitModules ++ (applyImplicitImports cache).directImports)
    (simple : '.' ∉ moduleName.toList) :
    ∃ clause ∈ defaultImports, clause.moduleAlias = none ∧ clause.moduleName = moduleName := by
  have names : ∀ other ∈ qualifyImplicitModules ++
      ["Basics", "List", "Maybe", "Result", "String", "Char", "Tuple", "Debug", "Platform",
        "Platform.Cmd", "Platform.Sub"].foldl addDirectImport [],
      '.' ∈ other.toList ∨
        other ∈ (defaultImports.filter (·.moduleAlias = none)).map (·.moduleName) := by
    decide
  rcases names moduleName direct with dotted | plain
  · exact absurd dotted simple
  · obtain ⟨clause, on, same⟩ := List.mem_map.mp plain
    obtain ⟨on, none_⟩ := List.mem_filter.mp on
    exact ⟨clause, on, of_decide_eq_true none_, same⟩

/-- A module that is in scope under its own name. -/
theorem isDirectImport_clause (simple : '.' ∉ qualifier.toList)
    (direct : (elmModule.context cache).isDirectImport qualifier = true) :
    ∃ clause ∈ elmModule.allImports, clause.localName = qualifier ∧
      clause.moduleName = qualifier := by
  unfold QualifyContext.isDirectImport ElmModule.context qualifyContextCreateFromMaps at direct
  dsimp only at direct
  rw [List.contains_iff_mem] at direct
  have implicit : ∀ {clause : ImportClause}, clause.moduleAlias = none →
      clause.moduleName = qualifier → clause.localName = qualifier := by
    intro clause plain same
    unfold ImportClause.localName
    rw [plain, same]
    rfl
  have start : qualifier ∈ qualifyImplicitModules ++ (applyImplicitImports cache).directImports →
      ∃ clause ∈ elmModule.allImports, clause.localName = qualifier ∧
        clause.moduleName = qualifier := by
    intro there
    obtain ⟨clause, on, plain, same⟩ := mem_implicitModules there simple
    exact ⟨clause, List.mem_append_left _ on, implicit plain same, same⟩
  rcases List.mem_append.mp direct with fixed | copied
  · exact start (List.mem_append_left _ fixed)
  · rcases extractImports_direct copied with first | ⟨clause, on, plain, same⟩
    · exact start (List.mem_append_right _ first)
    · exact ⟨clause, List.mem_append_right _ on, implicit plain same, same⟩

/-- The module of the name of an alias is preferred where it is the one that is meant. -/
theorem prefersModule_iff (sound : CacheSound cache exported) (simple : '.' ∉ qualifier.toList)
    (unique : ∀ clause ∈ elmModule.allImports, clause.localName = qualifier →
      (exported clause.moduleName name).isSome → clause.moduleName = home)
    (arities : ∀ n, exported home name = some n → n = arity) :
    (elmModule.context cache).prefersModule name qualifier arity = true ↔
      home = qualifier ∧ (elmModule.context cache).isDirectImport qualifier = true ∧
        Known cache home name := by
  have own : (elmModule.context cache).depCache = cache := rfl
  unfold QualifyContext.prefersModule
  rw [Bool.and_eq_true, own]
  cases found : (exportedTypes cache qualifier).find? (·.name = name) with
  | none =>
    refine iff_of_false (fun both => Bool.false_ne_true both.2) ?_
    intro ⟨is, _, entry, on, same⟩
    rw [is] at on
    have other := List.find?_eq_none.mp found entry on
    simp [same] at other
  | some entry =>
    have on := List.mem_of_find?_eq_some found
    have same : entry.name = name := by simpa using List.find?_some found
    obtain ⟨n, there, arity_⟩ := sound qualifier entry on
    rw [same] at there
    constructor
    · intro ⟨direct, _⟩
      obtain ⟨clause, imported, named, is⟩ := isDirectImport_clause simple direct
      have meant := unique clause imported named (by rw [is, there]; rfl)
      rw [is] at meant
      exact ⟨meant.symm, direct, entry, meant ▸ on, same⟩
    · intro ⟨is, direct, _⟩
      refine ⟨direct, ?_⟩
      rw [← arities n (is ▸ there)]
      simpa using arity_

/-- A module under whose name a reference is looked for. -/
theorem exports_iff (ctx : QualifyContext) (moduleName : String) :
    ctx.exports name moduleName = true ↔ Known ctx.depCache moduleName name := by
  unfold QualifyContext.exports Known
  simp [List.any_eq_true]

/-- An alias is resolved to the module that is meant where the cache knows the type of it, and else
to the first module. -/
theorem lookupAlias_holds {entry : ModuleAlias} {modules : List String}
    (holds : entry.Holds modules) {ctx : QualifyContext}
    (found : ctx.aliases.find? (·.aliasName = qualifier) = some entry)
    (unique : ∀ moduleName ∈ modules, Known ctx.depCache moduleName name → moduleName = home) :
    (Known ctx.depCache home name ∧ home ∈ modules → ctx.lookupAlias qualifier name = some home) ∧
      (¬ (Known ctx.depCache home name ∧ home ∈ modules) →
        ctx.lookupAlias qualifier name = some entry.first) := by
  have known : ∀ moduleName ∈ entry.fullModules.filter (ctx.exports name), moduleName = home := by
    intro moduleName member
    obtain ⟨on, is⟩ := List.mem_filter.mp member
    exact unique moduleName ((holds.all moduleName).mp on) ((exports_iff ctx moduleName).mp is)
  unfold QualifyContext.lookupAlias
  rw [found]
  dsimp only
  constructor
  · intro ⟨is, on⟩
    have there : home ∈ entry.fullModules := (holds.all home).mpr on
    split
    · rename_i single
      unfold ModuleAlias.fullModules at there
      rw [single] at there
      rw [List.mem_singleton.mp there]
    · have one : entry.fullModules.filter (ctx.exports name) = [home] :=
        Lib.Keyed.eq_singleton (holds.distinct.filter _)
          (List.mem_filter.mpr ⟨there, (exports_iff ctx home).mpr is⟩) known
      rw [one]
  · intro other
    split
    · rfl
    · have none_ : entry.fullModules.filter (ctx.exports name) = [] := by
        rw [List.filter_eq_nil_iff]
        intro moduleName on is
        have meant := known moduleName (List.mem_filter.mpr ⟨on, is⟩)
        rw [meant] at on is
        exact other ⟨(exports_iff ctx home).mp is, (holds.all home).mp on⟩
      rw [none_]

/-- A module in scope under a name that is no implicit alias has the name as an alias or is the
module of the name. -/
theorem localName_iff (other : ¬ (qualifier = "Cmd" ∨ qualifier = "Sub")) {clause : ImportClause}
    (imported : clause ∈ elmModule.allImports) (named : clause.localName = qualifier) :
    clause.moduleName ∈ modulesUnder elmModule.imports qualifier ∨
      clause.moduleAlias = none ∧ clause.moduleName = qualifier := by
  unfold ImportClause.localName at named
  cases aliased : clause.moduleAlias with
  | none =>
    rw [aliased] at named
    exact .inr ⟨rfl, named⟩
  | some name =>
    rw [aliased, Option.getD_some] at named
    rw [named] at aliased
    left
    rcases List.mem_append.mp imported with default_ | user
    · have implicit : ∀ c ∈ defaultImports, c.moduleAlias = none ∨ c.moduleAlias = some "Cmd" ∨
          c.moduleAlias = some "Sub" := by
        decide
      have own := implicit clause default_
      rw [aliased] at own
      simp only [reduceCtorEq, Option.some_inj, false_or] at own
      exact absurd own other
    · unfold modulesUnder
      exact List.mem_map_of_mem (List.mem_filter.mpr ⟨user, decide_eq_true aliased⟩)

/-- The modules in scope under a name that is an alias. -/
theorem mem_modulesUnder {moduleName : String}
    (member : moduleName ∈ modulesUnder elmModule.imports qualifier) :
    '.' ∉ qualifier.toList ∧ ∃ clause ∈ elmModule.allImports, clause.localName = qualifier ∧
      clause.moduleName = moduleName := by
  unfold modulesUnder at member
  obtain ⟨clause, on, same⟩ := List.mem_map.mp member
  obtain ⟨on, aliased⟩ := List.mem_filter.mp on
  rw [decide_eq_true_eq] at aliased
  refine ⟨clause.simple qualifier aliased, clause, List.mem_append_right _ on, ?_, same⟩
  unfold ImportClause.localName
  rw [aliased]
  rfl

/-- A module that is imported without alias stays in scope under its own name. -/
theorem isDirectImport_or (cache : Option DependencyCache) {clause : ImportClause}
    (imported : clause ∈ elmModule.allImports) (plain : clause.moduleAlias = none)
    (named : clause.moduleName = qualifier) :
    (elmModule.context cache).isDirectImport qualifier = true ∨
      qualifier ∈ modulesUnder elmModule.imports qualifier := by
  unfold QualifyContext.isDirectImport ElmModule.context qualifyContextCreateFromMaps
  dsimp only
  rw [List.contains_iff_mem, List.mem_append]
  rcases List.mem_append.mp imported with default_ | user
  · have names : ∀ c ∈ defaultImports, c.moduleAlias = none →
        c.moduleName ∈ qualifyImplicitModules := by
      decide
    exact .inl (.inl (named ▸ names clause default_ plain))
  · have kept := extractImports_keeps_direct cache (applyImplicitImports cache)
      (.inr ⟨clause, user, plain, named⟩)
    rcases kept with direct | ⟨c, on, aliased, same⟩
    · exact .inl (.inr direct)
    · right
      unfold modulesUnder
      exact same ▸ List.mem_map_of_mem (List.mem_filter.mpr ⟨on, decide_eq_true (same ▸ aliased)⟩)

theorem qualifySingleTypeName_alias {ctx : QualifyContext} (full : qualifier ≠ "")
    {fullModule : String} (found : ctx.lookupAlias qualifier name = some fullModule) :
    ctx.qualifySingleTypeName name (some qualifier) arity =
      if ctx.prefersModule name qualifier arity then qualifier ++ "." ++ name
      else fullModule ++ "." ++ name := by
  have some_ : (some qualifier).filter (· ≠ "") = some qualifier := by
    simpa [Option.filter] using full
  unfold QualifyContext.qualifySingleTypeName
  rw [some_]
  dsimp only
  rw [found]

/-- A name with an implicit alias is written with the module of the implicit alias, or with the
module that has the name. -/
theorem qualifySingleTypeName_implicit (sound : CacheSound cache exported)
    (implicit : qualifier = "Cmd" ∨ qualifier = "Sub")
    (unique : ∀ clause ∈ elmModule.allImports, clause.localName = qualifier →
      (exported clause.moduleName name).isSome → clause.moduleName = home)
    (arities : ∀ n, exported home name = some n → n = arity) :
    (elmModule.context cache).qualifySingleTypeName name (some qualifier) arity =
        home ++ "." ++ name ↔
      home = "Platform." ++ qualifier ∨
        home = qualifier ∧
          isDirectlyImported (moduleMaps cache elmModule.imports).directImports qualifier ∧
          Known cache home name := by
  have parts : qualifier ≠ "" ∧ '.' ∉ qualifier.toList ∧ qualifier ∉ qualifyImplicitModules := by
    rcases implicit with cmd | sub
    · rw [cmd]
      decide
    · rw [sub]
      decide
  obtain ⟨full, simple, new⟩ := parts
  have found : (elmModule.context cache).lookupAlias qualifier name =
      some ("Platform." ++ qualifier) := by
    unfold QualifyContext.lookupAlias
    rw [context_aliases, findAlias_implicit, if_pos implicit]
    rfl
  have direct : (elmModule.context cache).isDirectImport qualifier =
      isDirectlyImported (moduleMaps cache elmModule.imports).directImports qualifier := by
    unfold QualifyContext.isDirectImport isDirectlyImported ElmModule.context
      qualifyContextCreateFromMaps
    rw [Bool.eq_iff_iff, List.contains_iff_mem, List.contains_iff_mem, List.mem_append,
      or_iff_right new]
  have prefers := prefersModule_iff sound simple unique arities
  rw [direct] at prefers
  rw [qualifySingleTypeName_alias full found]
  split
  · rename_i preferred
    obtain ⟨is, own, known⟩ := prefers.mp preferred
    exact iff_of_true (by rw [is]) (.inr ⟨is, own, known⟩)
  · rename_i other
    constructor
    · exact fun same => .inl (qualified_inj same).symm
    · intro either
      rcases either with is | own
      · rw [is]
      · exact absurd (prefers.mpr own) other

/-- A name with another qualifier. -/
theorem qualifySingleTypeName_other (sound : CacheSound cache exported) (full : qualifier ≠ "")
    (other : ¬ (qualifier = "Cmd" ∨ qualifier = "Sub"))
    (candidate : ∃ clause ∈ elmModule.allImports, clause.localName = qualifier ∧
      clause.moduleName = home)
    (unique : ∀ clause ∈ elmModule.allImports, clause.localName = qualifier →
      (exported clause.moduleName name).isSome → clause.moduleName = home)
    (arities : ∀ n, exported home name = some n → n = arity) :
    (elmModule.context cache).qualifySingleTypeName name (some qualifier) arity =
        home ++ "." ++ name ↔
      match (modulesUnder elmModule.imports qualifier).head? with
      | none => True
      | some first => first = home ∨ Known cache home name := by
  have start : findAlias (applyImplicitImports cache).aliasMap qualifier = none := by
    have table : (applyImplicitImports cache).aliasMap = qualifyImplicitAliases := by
      unfold applyImplicitImports
      dsimp only
      decide
    rw [table, findAlias_implicit, if_neg other]
  have entries := extractImports_alias cache elmModule.imports start
  have find : (elmModule.context cache).aliases.find? (·.aliasName = qualifier) =
      findAlias (moduleMaps cache elmModule.imports).aliasMap qualifier := by
    rw [context_aliases, findAlias_implicit, if_neg other, Option.none_or]
  obtain ⟨clause, imported, named, is⟩ := candidate
  have place := localName_iff other imported named
  rw [is] at place
  cases found : findAlias (moduleMaps cache elmModule.imports).aliasMap qualifier with
  | none =>
    unfold moduleMaps at found
    rw [found] at entries
    rw [entries] at place ⊢
    have own : home = qualifier := by
      rcases place with under | ⟨-, own⟩
      · exact absurd under List.not_mem_nil
      · exact own
    have missing : (elmModule.context cache).lookupAlias qualifier name = none := by
      unfold QualifyContext.lookupAlias
      unfold moduleMaps at find
      rw [find, found]
    refine iff_of_true ?_ trivial
    have some_ : (some qualifier).filter (· ≠ "") = some qualifier := by
      simpa [Option.filter] using full
    unfold QualifyContext.qualifySingleTypeName
    rw [some_]
    dsimp only
    rw [missing, own]
  | some entry =>
    rw [found] at find
    unfold moduleMaps at found
    rw [found] at entries
    have holds : entry.Holds (modulesUnder elmModule.imports qualifier) := entries
    have first : entry.first ∈ modulesUnder elmModule.imports qualifier :=
      List.mem_of_mem_head? (by rw [holds.first]; rfl)
    have simple := (mem_modulesUnder first).1
    have own : (elmModule.context cache).depCache = cache := rfl
    have only : ∀ moduleName ∈ modulesUnder elmModule.imports qualifier,
        Known cache moduleName name → moduleName = home := by
      intro moduleName on ⟨known, there, same⟩
      obtain ⟨-, c, imported', named', is'⟩ := mem_modulesUnder on
      obtain ⟨n, exports, -⟩ := sound moduleName known there
      rw [same] at exports
      exact is' ▸ unique c imported' named' (by rw [is', exports]; rfl)
    have resolved := lookupAlias_holds holds find only
    rw [own] at resolved
    have prefers := prefersModule_iff sound simple unique arities
    rw [holds.first]
    dsimp only
    by_cases meant : Known cache home name ∧ home ∈ modulesUnder elmModule.imports qualifier
    · rw [qualifySingleTypeName_alias full (resolved.1 meant)]
      refine iff_of_true ?_ (.inr meant.1)
      split
      · rename_i preferred
        rw [(prefers.mp preferred).1]
      · rfl
    · rw [qualifySingleTypeName_alias full (resolved.2 meant)]
      split
      · rename_i preferred
        obtain ⟨is, -, known⟩ := prefers.mp preferred
        exact iff_of_true (by rw [is]) (.inr known)
      · rename_i notPreferred
        constructor
        · exact fun same => .inl (qualified_inj same)
        · intro either
          rcases either with same | known
          · rw [same]
          · rcases place with under | ⟨plain, same⟩
            · exact absurd ⟨known, under⟩ meant
            · rcases isDirectImport_or cache imported plain (is.trans same) with direct | under
              · exact absurd (prefers.mpr ⟨same, direct, known⟩) notPreferred
              · exact absurd ⟨known, same ▸ under⟩ meant

end Qualified

/-! ## References -/

/-- A name without a qualifier that does not begin in lower case. -/
theorem qualifySingleTypeName_plain (elmModule : ElmModule) (cache : Option DependencyCache)
    {name : String} {arity : Nat}
    (upper : ¬ name.toList.head?.any (fun c => 'a' ≤ c && c ≤ 'z') = true) :
    (elmModule.context cache).qualifySingleTypeName name none arity =
      if name ∈ elmModule.localTypes then elmModule.name ++ "." ++ name
      else
        match (elmModule.context cache).lookupImport name with
        | some moduleName => moduleName ++ "." ++ name
        | none => name := by
  have own : (elmModule.context cache).isLocalType name = elmModule.localTypes.contains name := rfl
  unfold QualifyContext.qualifySingleTypeName
  rw [Option.filter_none]
  dsimp only
  rw [if_neg upper, own]
  simp only [List.contains_iff_mem]
  rfl

/-- A reference is written with the module that it means exactly if the tables find it. -/
theorem qualifyUpperCaseQid_home (elmModule : ElmModule) {exported : ModuleExports}
    (core : CoreExports exported) {cache : Option DependencyCache}
    (sound : CacheSound cache exported) {reference : TypeReference} {home : String}
    (resolves : elmModule.Resolves exported reference home) :
    (elmModule.context cache).qualifyUpperCaseQid reference.text reference.arity =
        home ++ "." ++ reference.name ↔
      elmModule.Found cache reference home := by
  obtain ⟨candidate, unique, arities⟩ := resolves
  have full := reference.qualified
  rw [qualifyUpperCaseQid_text]
  unfold ElmModule.Candidate at candidate unique
  unfold ElmModule.Found
  cases qualifier : reference.qualifier with
  | none =>
    rw [qualifier] at candidate unique
    dsimp only at candidate unique ⊢
    have lower : ¬ reference.name.toList.head?.any (fun c => 'a' ≤ c && c ≤ 'z') = true := by
      intro is
      cases first : reference.name.toList.head? with
      | none =>
        rw [first] at is
        cases is
      | some c =>
        rw [first, Option.any_some, Bool.and_eq_true, decide_eq_true_eq,
          decide_eq_true_eq] at is
        exact reference.upper c first is
    rw [qualifySingleTypeName_plain elmModule cache lower]
    by_cases own : reference.name ∈ elmModule.localTypes
    · rw [if_pos own] at candidate ⊢
      exact iff_of_true (by rw [candidate]) (.inl own)
    · simp only [if_neg own] at candidate unique
      have found := lookupImport_context core sound candidate
        fun clause on exposes => unique _ ⟨clause, on, exposes, rfl⟩
      rw [if_neg own, or_iff_right own, ← found]
      cases (elmModule.context cache).lookupImport reference.name with
      | none =>
        exact iff_of_false (Ne.symm (qualified_ne home reference.name)) (by simp)
      | some moduleName =>
        rw [Option.some_inj]
        exact ⟨qualified_inj, fun same => by rw [same]⟩
  | some name =>
    rw [qualifier] at candidate unique full
    dsimp only at candidate unique ⊢
    obtain ⟨clause, on, named, is, -⟩ := candidate
    have only : ∀ clause ∈ elmModule.allImports, clause.localName = name →
        (exported clause.moduleName reference.name).isSome → clause.moduleName = home :=
      fun clause on named there => unique _ ⟨clause, on, named, rfl, there⟩
    have nonempty : name ≠ "" := fun empty => full (congrArg some empty)
    split
    · rename_i implicit
      exact qualifySingleTypeName_implicit sound implicit only arities
    · rename_i other
      exact qualifySingleTypeName_other sound nonempty other ⟨clause, on, named, is⟩ only arities

/-- `elm/core`, and a module with a type of its own. -/
def effectExports : ModuleExports := fun moduleName typeName =>
  if moduleName = "Basics" then
    if typeName ∈ ["Int", "Float", "Bool", "Order", "Never"] then some 0 else none
  else if moduleName = "Maybe" then if typeName = "Maybe" then some 1 else none
  else if moduleName = "Result" then if typeName = "Result" then some 2 else none
  else if moduleName = "App.Cmd" then if typeName = "Effect" then some 0 else none
  else none

/-- A cache that knows the module. -/
def effectCache : Option DependencyCache :=
  some fun moduleName =>
    if moduleName = "App.Cmd" then some ⟨true, [⟨"Effect", 0⟩]⟩ else none

/-- A module that imports it under an alias. -/
def effectModule (aliasName : String) (simple : '.' ∉ aliasName.toList) : ElmModule where
  name := "Main"
  imports := [⟨"App.Cmd", some aliasName, [], fun _ is => Option.some_inj.mp is ▸ simple⟩]
  localTypes := []

/-- A reference to the type by the alias. -/
def effectReference (aliasName : String) (full : aliasName ≠ "") : TypeReference where
  qualifier := some aliasName
  name := "Effect"
  arity := 0
  upper := by
    intro c first
    cases first
    decide
  simple := by decide
  qualified := fun same => full (Option.some_inj.mp same)

theorem effectExports_effect : effectExports "App.Cmd" "Effect" = some 0 := by decide

theorem effectExports_core : CoreExports effectExports where
  basics name := by
    unfold effectExports
    rw [if_pos rfl]
    split
    · rename_i member
      exact iff_of_true rfl member
    · rename_i other
      exact iff_of_false Bool.false_ne_true other
  maybe name := by
    unfold effectExports
    rw [if_neg (by decide), if_pos rfl]
    split
    · rename_i same
      exact iff_of_true rfl same
    · rename_i other
      exact iff_of_false Bool.false_ne_true other
  result name := by
    unfold effectExports
    rw [if_neg (by decide), if_neg (by decide), if_pos rfl]
    split
    · rename_i same
      exact iff_of_true rfl same
    · rename_i other
      exact iff_of_false Bool.false_ne_true other

theorem effectCache_sound : CacheSound effectCache effectExports := by
  intro moduleName entry member
  unfold exportedTypes effectCache at member
  dsimp only at member
  split at member
  · exact absurd member List.not_mem_nil
  · rename_i exports found
    split at found
    · rename_i same
      cases found
      rw [if_pos rfl, List.mem_singleton] at member
      rw [member, same]
      exact ⟨0, by decide, .inr rfl⟩
    · cases found

theorem effectModule_resolves {aliasName : String} (simple : '.' ∉ aliasName.toList)
    (full : aliasName ≠ "") :
    (effectModule aliasName simple).Resolves effectExports (effectReference aliasName full)
      "App.Cmd" where
  candidate :=
    ⟨⟨"App.Cmd", some aliasName, [], fun _ is => Option.some_inj.mp is ▸ simple⟩,
      List.mem_append_right _ (List.mem_singleton_self _), rfl, rfl,
      congrArg Option.isSome effectExports_effect⟩
  unique other candidate := by
    obtain ⟨clause, -, -, -, there⟩ := candidate
    have name : (effectReference aliasName full).name = "Effect" := rfl
    rw [name] at there
    unfold effectExports at there
    split at there
    · exact absurd there (by decide)
    split at there
    · exact absurd there (by decide)
    split at there
    · exact absurd there (by decide)
    split at there
    · assumption
    · cases there
  arity n is := by
    exact (Option.some_inj.mp (effectExports_effect.symm.trans is)).symm

theorem qualifyUpperCaseQid_home_effect :
    ((effectModule "Fx" (by decide)).context effectCache).qualifyUpperCaseQid "Fx.Effect" 0 =
      "App.Cmd.Effect" :=
  (qualifyUpperCaseQid_home (effectModule "Fx" (by decide)) effectExports_core effectCache_sound
    (effectModule_resolves (by decide) (by decide))).mpr (.inl rfl)

/-- `import App.Cmd as Cmd` does not reach `Cmd.Effect`. -/
theorem qualifyUpperCaseQid_home_fails :
    ¬ ∀ (elmModule : ElmModule) (exported : ModuleExports), CoreExports exported →
      ∀ cache : Option DependencyCache, CacheSound cache exported →
      ∀ (reference : TypeReference) (home : String), elmModule.Resolves exported reference home →
        (elmModule.context cache).qualifyUpperCaseQid reference.text reference.arity =
          home ++ "." ++ reference.name := by
  intro all
  have written := all (effectModule "Cmd" (by decide)) effectExports effectExports_core effectCache
    effectCache_sound (effectReference "Cmd" (by decide)) "App.Cmd"
    (effectModule_resolves (by decide) (by decide))
  revert written
  decide

end ElmWrap
