import Mathlib.Data.List.Induction
import Mathlib.Data.List.Nodup
import ElmWrap.Docs.Scope

/-!
# What the import tables hold

The tables that the import extraction fills, against the import clauses they come from.
-/

namespace ElmWrap

/-! ## Exposed types -/

theorem lookupImport_append (first second : List TypeImport) (typeName : String) :
    lookupImport (first ++ second) typeName =
      (lookupImport second typeName).or (lookupImport first typeName) := by
  unfold lookupImport
  rw [List.reverse_append, List.find?_append]
  cases second.reverse.find? (·.typeName = typeName) with
  | none => rfl
  | some entry => rfl

theorem lookupImport_some {map : List TypeImport} {typeName moduleName : String}
    (found : lookupImport map typeName = some moduleName) : ⟨typeName, moduleName⟩ ∈ map := by
  unfold lookupImport at found
  obtain ⟨entry, first, rfl⟩ := Option.map_eq_some_iff.mp found
  have same := List.find?_some first
  rw [decide_eq_true_eq] at same
  rw [← same]
  exact List.mem_reverse.mp (List.mem_of_find?_eq_some first)

theorem lookupImport_none {map : List TypeImport} {typeName : String}
    (missing : lookupImport map typeName = none) {entry : TypeImport} (member : entry ∈ map) :
    entry.typeName ≠ typeName := by
  unfold lookupImport at missing
  rw [Option.map_eq_none_iff, List.find?_eq_none] at missing
  have other := missing entry (List.mem_reverse.mpr member)
  simpa using other

/-- The imports that an item of an exposing list adds. -/
def exposedImports (cache : Option DependencyCache) (moduleName : String) :
    Exposed → List TypeImport
  | .doubleDot => (exportedTypes cache moduleName).map (⟨·.name, moduleName⟩)
  | .type name => [⟨name, moduleName⟩]
  | .value _ => []
  | .operator => []

theorem addImports_eq (map : List TypeImport) (typeNames : List String) (moduleName : String) :
    addImports map typeNames moduleName = map ++ typeNames.map (⟨·, moduleName⟩) := by
  unfold addImports
  induction typeNames generalizing map with
  | nil => rw [List.map_nil, List.append_nil, List.foldl_nil]
  | cons name typeNames ih =>
    rw [List.foldl_cons, ih, List.map_cons]
    unfold addImport
    rw [List.append_assoc]
    rfl

theorem addExposed_eq (cache : Option DependencyCache) (moduleName : String)
    (map : List TypeImport) (item : Exposed) :
    addExposed cache moduleName map item = map ++ exposedImports cache moduleName item := by
  cases item with
  | doubleDot =>
    unfold addExposed exposedImports
    rw [addImports_eq, List.map_map]
    rfl
  | type name => rfl
  | value name =>
    have lower : ¬ name.text.toList.head?.any (fun c => 'A' ≤ c && c ≤ 'Z') = true := by
      intro upper
      cases first : name.text.toList.head? with
      | none =>
        rw [first] at upper
        cases upper
      | some c =>
        rw [first, Option.any_some, Bool.and_eq_true, decide_eq_true_eq,
          decide_eq_true_eq] at upper
        exact name.lower c first upper
    unfold addExposed exposedImports
    dsimp only
    rw [if_neg lower, List.append_nil]
  | operator => exact (List.append_nil map).symm

/-- The imports that a clause adds. -/
def clauseImports (cache : Option DependencyCache) (clause : ImportClause) : List TypeImport :=
  clause.exposing.flatMap (exposedImports cache clause.moduleName)

theorem foldl_addExposed (cache : Option DependencyCache) (moduleName : String)
    (items : List Exposed) (map : List TypeImport) :
    items.foldl (addExposed cache moduleName) map =
      map ++ items.flatMap (exposedImports cache moduleName) := by
  induction items generalizing map with
  | nil => exact (List.append_nil map).symm
  | cons item items ih =>
    rw [List.foldl_cons, ih, addExposed_eq, List.flatMap_cons, List.append_assoc]

theorem extractImports_importMap (cache : Option DependencyCache) (maps : TypeMaps)
    (clauses : List ImportClause) :
    (extractImports cache maps clauses).importMap =
      maps.importMap ++ clauses.flatMap (clauseImports cache) := by
  unfold extractImports
  induction clauses generalizing maps with
  | nil => exact (List.append_nil _).symm
  | cons clause clauses ih =>
    rw [List.foldl_cons, ih, List.flatMap_cons, ← List.append_assoc]
    unfold extractImport clauseImports
    dsimp only
    rw [foldl_addExposed]

/-- What a clause adds is exposed by it, by its name or because the cache knows it. -/
theorem mem_clauseImports {cache : Option DependencyCache} {clause : ImportClause}
    {typeName moduleName : String} :
    ⟨typeName, moduleName⟩ ∈ clauseImports cache clause ↔
      clause.moduleName = moduleName ∧ (Exposed.type typeName ∈ clause.exposing ∨
        Exposed.doubleDot ∈ clause.exposing ∧ Known cache moduleName typeName) := by
  unfold clauseImports
  rw [List.mem_flatMap]
  constructor
  · intro ⟨item, on, member⟩
    cases item with
    | doubleDot =>
      obtain ⟨exported, known, same⟩ := List.mem_map.mp member
      obtain ⟨name, home⟩ := TypeImport.mk.inj same
      exact ⟨home, .inr ⟨on, exported, home ▸ known, name⟩⟩
    | type name =>
      obtain ⟨same, home⟩ := TypeImport.mk.inj (List.mem_singleton.mp member)
      exact ⟨home.symm, .inl (same ▸ on)⟩
    | value name => exact absurd member List.not_mem_nil
    | operator => exact absurd member List.not_mem_nil
  · intro ⟨home, exposed⟩
    rw [← home]
    rcases exposed with byName | ⟨all, entry, known, same⟩
    · exact ⟨.type typeName, byName, List.mem_singleton_self _⟩
    · rw [← home] at known
      exact ⟨.doubleDot, all, List.mem_map.mpr ⟨entry, known, by rw [same]⟩⟩

/-! ## Directly imported modules -/

theorem mem_addDirectImport {imports : List String} {moduleName other : String} :
    other ∈ addDirectImport imports moduleName ↔ other ∈ imports ∨ other = moduleName := by
  unfold addDirectImport isDirectlyImported
  split
  · rename_i there
    rw [List.contains_iff_mem] at there
    constructor
    · exact .inl
    · intro either
      rcases either with on | same
      · exact on
      · exact same ▸ there
  · rw [List.mem_append, List.mem_singleton]

theorem extractImports_snoc (cache : Option DependencyCache) (maps : TypeMaps)
    (clauses : List ImportClause) (clause : ImportClause) :
    extractImports cache maps (clauses ++ [clause]) =
      extractImport cache (extractImports cache maps clauses) clause := by
  unfold extractImports
  rw [List.foldl_append]
  rfl

/-- A module is imported directly only by a clause without alias. -/
theorem extractImports_direct {cache : Option DependencyCache} {maps : TypeMaps}
    {clauses : List ImportClause} {moduleName : String}
    (direct : moduleName ∈ (extractImports cache maps clauses).directImports) :
    moduleName ∈ maps.directImports ∨
      ∃ clause ∈ clauses, clause.moduleAlias = none ∧ clause.moduleName = moduleName := by
  induction clauses using List.reverseRecOn with
  | nil => exact .inl direct
  | append_singleton clauses clause ih =>
    rw [extractImports_snoc] at direct
    have earlier : moduleName ∈ (extractImports cache maps clauses).directImports →
        moduleName ∈ maps.directImports ∨
          ∃ c ∈ clauses ++ [clause], c.moduleAlias = none ∧ c.moduleName = moduleName := by
      intro before
      rcases ih before with first | ⟨c, on, plain, same⟩
      · exact .inl first
      · exact .inr ⟨c, List.mem_append_left _ on, plain, same⟩
    unfold extractImport at direct
    dsimp only at direct
    split at direct
    · rename_i plain
      rcases mem_addDirectImport.mp direct with before | same
      · exact earlier before
      · exact .inr ⟨clause, List.mem_append_right _ (List.mem_singleton_self _), plain, same.symm⟩
    · split at direct
      · exact earlier (List.mem_of_mem_erase direct)
      · exact earlier direct

/-- A module that is imported directly stays so, or is imported again under its own name. -/
theorem extractImports_keeps_direct (cache : Option DependencyCache) (maps : TypeMaps)
    {clauses : List ImportClause} {moduleName : String}
    (direct : moduleName ∈ maps.directImports ∨
      ∃ clause ∈ clauses, clause.moduleAlias = none ∧ clause.moduleName = moduleName) :
    moduleName ∈ (extractImports cache maps clauses).directImports ∨
      ∃ clause ∈ clauses, clause.moduleAlias = some moduleName ∧
        clause.moduleName = moduleName := by
  induction clauses using List.reverseRecOn with
  | nil =>
    rcases direct with before | ⟨clause, on, -⟩
    · exact .inl before
    · exact absurd on List.not_mem_nil
  | append_singleton clauses clause ih =>
    have last : clause ∈ clauses ++ [clause] :=
      List.mem_append_right _ (List.mem_singleton_self _)
    rw [extractImports_snoc]
    by_cases again : clause.moduleAlias = some moduleName ∧ clause.moduleName = moduleName
    · exact .inr ⟨clause, last, again⟩
    by_cases here : clause.moduleAlias = none ∧ clause.moduleName = moduleName
    · left
      unfold extractImport
      dsimp only
      rw [here.1]
      exact mem_addDirectImport.mpr (.inr here.2.symm)
    have before : moduleName ∈ (extractImports cache maps clauses).directImports ∨
        ∃ c ∈ clauses, c.moduleAlias = some moduleName ∧ c.moduleName = moduleName := by
      apply ih
      rcases direct with first | ⟨c, on, plain, same⟩
      · exact .inl first
      · rcases List.mem_append.mp on with on | single
        · exact .inr ⟨c, on, plain, same⟩
        · rw [List.mem_singleton.mp single] at plain same
          exact absurd ⟨plain, same⟩ here
    rcases before with kept | ⟨c, on, both⟩
    · left
      unfold extractImport
      dsimp only
      split
      · exact mem_addDirectImport.mpr (.inl kept)
      · rename_i aliasName aliased
        split
        · rename_i removes
          rw [Bool.and_eq_true, decide_eq_true_eq] at removes
          have other : moduleName ≠ aliasName := by
            intro same
            rw [← same] at aliased removes
            exact again ⟨aliased, removes.2.symm⟩
          exact (List.mem_erase_of_ne other).mpr kept
        · exact kept
    · exact .inr ⟨c, List.mem_append_left _ on, both⟩

/-! ## Aliases -/

/-- An entry with one more module. -/
def ModuleAlias.add (entry : ModuleAlias) (fullModule : String) : ModuleAlias :=
  if entry.fullModules.contains fullModule then entry
  else { entry with others := entry.others ++ [fullModule] }

/-- The entry of an alias. -/
def findAlias (map : List ModuleAlias) (aliasName : String) : Option ModuleAlias :=
  map.find? (·.aliasName = aliasName)

theorem findAlias_addModuleAlias (map : List ModuleAlias) (added fullModule aliasName : String) :
    findAlias (addModuleAlias map added fullModule) aliasName =
      if added = aliasName then
        some (match findAlias map aliasName with
          | none => ⟨added, fullModule, []⟩
          | some entry => entry.add fullModule)
      else findAlias map aliasName := by
  unfold findAlias
  induction map with
  | nil =>
    unfold addModuleAlias
    rw [List.find?_cons]
    by_cases same : added = aliasName
    · rw [if_pos same, decide_eq_true same]
      rfl
    · rw [if_neg same, decide_eq_false same]
  | cons entry map ih =>
    unfold addModuleAlias
    by_cases here : entry.aliasName = added
    · have changed : (if entry.aliasName = added then
          if entry.fullModules.contains fullModule then entry :: map
          else { entry with others := entry.others ++ [fullModule] } :: map
        else entry :: addModuleAlias map added fullModule) = entry.add fullModule :: map := by
        rw [if_pos here]
        unfold ModuleAlias.add
        split
        · rfl
        · rfl
      have name : (entry.add fullModule).aliasName = added := by
        unfold ModuleAlias.add
        split
        · exact here
        · exact here
      rw [changed, List.find?_cons, List.find?_cons, name, here]
      by_cases same : added = aliasName
      · rw [if_pos same, decide_eq_true same]
      · rw [if_neg same, decide_eq_false same]
    · rw [if_neg here, List.find?_cons, List.find?_cons, ih]
      by_cases same : entry.aliasName = aliasName
      · have other : added ≠ aliasName := fun equal => here (same.trans equal.symm)
        rw [decide_eq_true same]
        dsimp only
        rw [if_neg other]
      · rw [decide_eq_false same]

/-- The modules that are imported under an alias, in the order of the imports. -/
def modulesUnder (clauses : List ImportClause) (aliasName : String) : List String :=
  (clauses.filter (·.moduleAlias = some aliasName)).map (·.moduleName)

/-- An entry that has the modules of an alias. -/
structure ModuleAlias.Holds (entry : ModuleAlias) (modules : List String) : Prop where
  first : modules.head? = some entry.first
  all : ∀ moduleName, moduleName ∈ entry.fullModules ↔ moduleName ∈ modules
  distinct : entry.fullModules.Nodup

theorem ModuleAlias.holds_one (aliasName fullModule : String) :
    (ModuleAlias.mk aliasName fullModule []).Holds [fullModule] where
  first := rfl
  all _ := Iff.rfl
  distinct := List.nodup_singleton _

theorem ModuleAlias.Holds.add {entry : ModuleAlias} {modules : List String}
    (holds : entry.Holds modules) (fullModule : String) :
    (entry.add fullModule).Holds (modules ++ [fullModule]) := by
  have first : (modules ++ [fullModule]).head? = some entry.first := by
    rw [List.head?_append, holds.first]
    rfl
  unfold ModuleAlias.add
  split
  · rename_i there
    refine ⟨first, ?_, holds.distinct⟩
    rw [List.contains_iff_mem, holds.all] at there
    intro moduleName
    rw [holds.all, List.mem_append, List.mem_singleton]
    constructor
    · exact .inl
    · intro either
      rcases either with on | same
      · exact on
      · exact same ▸ there
  · rename_i new
    rw [List.contains_iff_mem] at new
    refine ⟨first, ?_, ?_⟩
    · intro moduleName
      have split : moduleName ∈ entry.fullModules ++ [fullModule] ↔
          moduleName ∈ modules ++ [fullModule] := by
        rw [List.mem_append, List.mem_append, holds.all]
      exact split
    · have distinct : (entry.fullModules ++ [fullModule]).Nodup := by
        apply List.nodup_append.mpr
        refine ⟨holds.distinct, List.nodup_singleton _, ?_⟩
        intro a on b single same
        rw [same, List.mem_singleton.mp single] at on
        exact new on
      exact distinct

/-- The alias table against the clauses. -/
theorem extractImports_alias (cache : Option DependencyCache) {maps : TypeMaps}
    (clauses : List ImportClause) {aliasName : String}
    (new : findAlias maps.aliasMap aliasName = none) :
    match findAlias (extractImports cache maps clauses).aliasMap aliasName with
    | none => modulesUnder clauses aliasName = []
    | some entry => entry.Holds (modulesUnder clauses aliasName) := by
  induction clauses using List.reverseRecOn with
  | nil =>
    have start : findAlias (extractImports cache maps []).aliasMap aliasName = none := new
    rw [start]
    rfl
  | append_singleton clauses clause ih =>
    have modules : modulesUnder (clauses ++ [clause]) aliasName =
        modulesUnder clauses aliasName ++ modulesUnder [clause] aliasName := by
      unfold modulesUnder
      rw [List.filter_append, List.map_append]
    rw [extractImports_snoc, modules]
    by_cases own : clause.moduleAlias = some aliasName
    · have last : modulesUnder [clause] aliasName = [clause.moduleName] := by
        unfold modulesUnder
        rw [List.filter_cons, if_pos (decide_eq_true own)]
        rfl
      have found := findAlias_addModuleAlias (extractImports cache maps clauses).aliasMap
        aliasName
        clause.moduleName aliasName
      rw [if_pos rfl] at found
      unfold extractImport
      dsimp only
      rw [own, last]
      dsimp only
      rw [found]
      cases before : findAlias (extractImports cache maps clauses).aliasMap aliasName with
      | none =>
        rw [before] at ih
        dsimp only at ih ⊢
        rw [ih]
        exact ModuleAlias.holds_one aliasName clause.moduleName
      | some entry =>
        rw [before] at ih
        exact ih.add clause.moduleName
    · have last : modulesUnder [clause] aliasName = [] := by
        unfold modulesUnder
        rw [List.filter_cons, if_neg (by simpa using own)]
        rfl
      have same : findAlias (extractImport cache (extractImports cache maps clauses)
          clause).aliasMap aliasName =
          findAlias (extractImports cache maps clauses).aliasMap aliasName := by
        unfold extractImport
        dsimp only
        split
        · rfl
        · rename_i added aliased
          rw [findAlias_addModuleAlias, if_neg]
          intro equal
          exact own (equal ▸ aliased)
      rw [same, last, List.append_nil]
      exact ih

end ElmWrap
