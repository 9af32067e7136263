import ElmWrap.ImportTree.Redundant

/-!
# The redundant files of a review

`review package` inserts what it finds in a package as facts, and the rule
`no_redundant_elm_files` derives from them the files that no exposed module needs. The
tree of the imports computes them without facts, by a search over files.
-/

namespace ElmWrap.Review

open Lib
open Publish (Entries RealPath FileAt isElmName collectAllElmFiles)
open ImportTree (Disk SourceDirectory moduleNameToPath elmJsonPath pathBuffer stripTrailingSlash
  importTreeAnalyze ImportTreeAnalysis)

/-! ## The facts of `review package` -/

/-- The predicates of `no_redundant_elm_files.dl`. -/
inductive RedundantPred
  | exposedModule
  | fileModule
  | fileImport
  | sourceFile
  | reachableModule
  | reachableFile
  | redundantFile
  | error
deriving DecidableEq

/-- A fact that is inserted. -/
abbrev Fact := RedundantPred × List (List Char)

/-- `src_dir` of `cmd_review_package`. -/
def srcDir (packageDir : String) : String :=
  pathBuffer (stripTrailingSlash packageDir ++ "/src")

/-- `pkg_extract_file_facts`. `pkg_module_name_to_path` is the `module_name_to_path` of the import
tree. -/
def pkgExtractFileFacts (dir : SourceDirectory) (file : RealPath) : List Fact :=
  match dir.skeletonParse file with
  | none => []
  | some mod =>
    (mod.moduleName.toList.map fun moduleName =>
        (RedundantPred.fileModule, [file.text, moduleName.toList])) ++
      ((mod.imports.filter fun moduleName => dir.fileExists (moduleNameToPath moduleName)).map
        fun moduleName => (RedundantPred.fileImport, [file.text, moduleName.toList]))

/-- The facts about a source directory; `pkg_collect_all_elm_files` is the walk of
`collect_all_elm_files`. -/
def sourceFacts (dir : SourceDirectory) (exposedModules : List String) : List Fact :=
  (exposedModules.map fun moduleName => (RedundantPred.exposedModule, [moduleName.toList])) ++
    (collectAllElmFiles dir.entries).flatMap fun file =>
      (RedundantPred.sourceFile, [file.text]) :: pkgExtractFileFacts dir file

/-- The facts `cmd_review_package` inserts for these predicates; `none` where it ends first. -/
def packageFacts (disk : Disk) (packageDir : String) : Option (List Fact) :=
  if disk.fileExists (elmJsonPath packageDir) then
    -- `pkg_parse_exposed_modules`
    (elmParseExposedModules (disk.readJson (elmJsonPath packageDir))).map
      (sourceFacts (disk.sourceDirectory (srcDir packageDir)))
  else none

/-! ## The rule -/

abbrev RedundantRule := Datalog.Rule RedundantPred (List Char)

/-- `reachable_module(Module) :- exposed_module(Module).` -/
def reachableExposed : RedundantRule where
  head := ⟨.reachableModule, [.var "Module"]⟩
  body := [⟨.exposedModule, [.var "Module"]⟩]
  negated := []

/-- `reachable_module(Module) :- reachable_file(File), file_import(File, Module).` -/
def reachableImported : RedundantRule where
  head := ⟨.reachableModule, [.var "Module"]⟩
  body := [⟨.reachableFile, [.var "File"]⟩, ⟨.fileImport, [.var "File", .var "Module"]⟩]
  negated := []

/-- `reachable_file(File) :- file_module(File, Module), reachable_module(Module).` -/
def reachableDeclared : RedundantRule where
  head := ⟨.reachableFile, [.var "File"]⟩
  body := [⟨.fileModule, [.var "File", .var "Module"]⟩, ⟨.reachableModule, [.var "Module"]⟩]
  negated := []

/-- `redundant_file(File) :- source_file(File), not reachable_file(File).` -/
def redundantUnreached : RedundantRule where
  head := ⟨.redundantFile, [.var "File"]⟩
  body := [⟨.sourceFile, [.var "File"]⟩]
  negated := [⟨.reachableFile, [.var "File"]⟩]

/-- `error(File) :- redundant_file(File).` -/
def errorRedundant : RedundantRule where
  head := ⟨.error, [.var "File"]⟩
  body := [⟨.redundantFile, [.var "File"]⟩]
  negated := []

/-- `no_redundant_elm_files.dl`. -/
def noRedundantElmFiles : Datalog.Program RedundantPred (List Char) where
  rules := [reachableExposed, reachableImported, reachableDeclared, redundantUnreached,
    errorRedundant]
  stratum
    | .redundantFile => 1
    | .error => 1
    | _ => 0
  positive := by
    simp [reachableExposed, reachableImported, reachableDeclared, redundantUnreached,
      errorRedundant]
  negative := by
    simp [reachableExposed, reachableImported, reachableDeclared, redundantUnreached,
      errorRedundant]

/-- What is derived from facts. -/
def evaluated (facts : List Fact) : Datalog.Interp RedundantPred (List Char) :=
  noRedundantElmFiles.model fun pred tuple => (pred, tuple) ∈ facts

/-! ## What the relations mean -/

section Meaning

variable {dir : SourceDirectory} {exposedModules : List String}

/-- A module is exposed, or a file of a reachable module imports it and there is a file at its
place. -/
inductive ReachableModule (dir : SourceDirectory) (exposedModules : List String) : String → Prop
  | exposed {moduleName : String} :
    moduleName ∈ exposedModules → ReachableModule dir exposedModules moduleName
  | imported {file : RealPath} {mod : SkeletonModule} {importer moduleName : String} :
    file ∈ collectAllElmFiles dir.entries → dir.skeletonParse file = some mod →
    mod.moduleName = some importer → ReachableModule dir exposedModules importer →
    moduleName ∈ mod.imports → dir.fileExists (moduleNameToPath moduleName) = true →
    ReachableModule dir exposedModules moduleName

/-- A source file declares a reachable module. -/
def ReachableFile (dir : SourceDirectory) (exposedModules : List String) (file : RealPath) : Prop :=
  file ∈ collectAllElmFiles dir.entries ∧ ∃ mod moduleName, dir.skeletonParse file = some mod ∧
    mod.moduleName = some moduleName ∧ ReachableModule dir exposedModules moduleName

variable {file : RealPath} {tuple : List (List Char)} {moduleName : String}

theorem mem_pkgExtractFileFacts {pred : RedundantPred} :
    (pred, tuple) ∈ pkgExtractFileFacts dir file ↔ ∃ mod, dir.skeletonParse file = some mod ∧
      ((pred = .fileModule ∧ ∃ moduleName, mod.moduleName = some moduleName ∧
          tuple = [file.text, moduleName.toList]) ∨
        (pred = .fileImport ∧ ∃ moduleName ∈ mod.imports,
          dir.fileExists (moduleNameToPath moduleName) = true ∧
          tuple = [file.text, moduleName.toList])) := by
  unfold pkgExtractFileFacts
  cases dir.skeletonParse file with
  | none => simp
  | some mod =>
    simp only [List.mem_append, List.mem_map, List.mem_filter, Option.mem_toList, Prod.mk.injEq,
      Option.some.injEq, exists_eq_left']
    constructor
    · rintro (⟨moduleName, declares, rfl, rfl⟩ | ⟨moduleName, ⟨imports, there⟩, rfl, rfl⟩)
      · exact Or.inl ⟨rfl, moduleName, declares, rfl⟩
      · exact Or.inr ⟨rfl, moduleName, imports, there, rfl⟩
    · rintro (⟨rfl, moduleName, declares, rfl⟩ | ⟨rfl, moduleName, imports, there, rfl⟩)
      · exact Or.inl ⟨moduleName, declares, rfl, rfl⟩
      · exact Or.inr ⟨moduleName, ⟨imports, there⟩, rfl, rfl⟩

theorem exposedModule_iff {tuple : List (List Char)} :
    (RedundantPred.exposedModule, tuple) ∈ sourceFacts dir exposedModules ↔
      ∃ moduleName ∈ exposedModules, tuple = [moduleName.toList] := by
  unfold sourceFacts
  simp only [List.mem_append, List.mem_map, List.mem_flatMap, List.mem_cons,
    mem_pkgExtractFileFacts, Prod.mk.injEq, reduceCtorEq, true_and, false_and, or_false,
    and_false, exists_false]
  exact exists_congr fun _ => and_congr_right fun _ => eq_comm

theorem sourceFile_iff :
    (RedundantPred.sourceFile, tuple) ∈ sourceFacts dir exposedModules ↔
      ∃ file ∈ collectAllElmFiles dir.entries, tuple = [file.text] := by
  unfold sourceFacts
  simp [mem_pkgExtractFileFacts]

theorem fileModule_iff {tuple : List (List Char)} :
    (RedundantPred.fileModule, tuple) ∈ sourceFacts dir exposedModules ↔
      ∃ file ∈ collectAllElmFiles dir.entries, ∃ mod, dir.skeletonParse file = some mod ∧
        ∃ moduleName, mod.moduleName = some moduleName ∧
          tuple = [file.text, moduleName.toList] := by
  unfold sourceFacts
  simp [mem_pkgExtractFileFacts]

theorem fileImport_iff {tuple : List (List Char)} :
    (RedundantPred.fileImport, tuple) ∈ sourceFacts dir exposedModules ↔
      ∃ file ∈ collectAllElmFiles dir.entries, ∃ mod, dir.skeletonParse file = some mod ∧
        ∃ moduleName ∈ mod.imports, dir.fileExists (moduleNameToPath moduleName) = true ∧
          tuple = [file.text, moduleName.toList] := by
  unfold sourceFacts
  simp [mem_pkgExtractFileFacts]

/-- What the first stratum derives from the facts about a source directory. -/
def Meaning (dir : SourceDirectory) (exposedModules : List String) :
    RedundantPred → List (List Char) → Prop
  | .reachableModule, tuple =>
    ∃ moduleName, tuple = [moduleName.toList] ∧ ReachableModule dir exposedModules moduleName
  | .reachableFile, tuple =>
    ∃ file, tuple = [file.text] ∧ ReachableFile dir exposedModules file
  | .redundantFile, _ => False
  | .error, _ => False
  | pred, tuple => (pred, tuple) ∈ sourceFacts dir exposedModules

abbrev FirstStratum (dir : SourceDirectory) (exposedModules : List String) :
    Datalog.Interp RedundantPred (List Char) :=
  Datalog.Derives (fun pred tuple => (pred, tuple) ∈ sourceFacts dir exposedModules)
    (noRedundantElmFiles.layer 0) fun _ _ => False

theorem mem_layer_zero {r : RedundantRule} : r ∈ noRedundantElmFiles.layer 0 ↔
    r = reachableExposed ∨ r = reachableImported ∨ r = reachableDeclared := by
  rw [Datalog.Program.mem_layer]
  constructor
  · rintro ⟨rules, stratum⟩
    simp only [noRedundantElmFiles, List.mem_cons, List.not_mem_nil, or_false] at rules
    rcases rules with rfl | rfl | rfl | rfl | rfl
    · exact Or.inl rfl
    · exact Or.inr (Or.inl rfl)
    · exact Or.inr (Or.inr rfl)
    · cases stratum
    · cases stratum
  · rintro (rfl | rfl | rfl) <;> exact ⟨by simp [noRedundantElmFiles], rfl⟩

theorem mem_layer_one {r : RedundantRule} : r ∈ noRedundantElmFiles.layer 1 ↔
    r = redundantUnreached ∨ r = errorRedundant := by
  rw [Datalog.Program.mem_layer]
  constructor
  · rintro ⟨rules, stratum⟩
    simp only [noRedundantElmFiles, List.mem_cons, List.not_mem_nil, or_false] at rules
    rcases rules with rfl | rfl | rfl | rfl | rfl
    · cases stratum
    · cases stratum
    · cases stratum
    · exact Or.inl rfl
    · exact Or.inr rfl
  · rintro (rfl | rfl) <;> exact ⟨by simp [noRedundantElmFiles], rfl⟩

/-- The rules of the first stratum keep to what is meant. -/
theorem Meaning.closed {r : RedundantRule} (member : r ∈ noRedundantElmFiles.layer 0)
    {σ : String → List Char} (body : ∀ a ∈ r.body, Meaning dir exposedModules a.pred (a.tuple σ)) :
    Meaning dir exposedModules r.head.pred (r.head.tuple σ) := by
  rcases mem_layer_zero.mp member with rfl | rfl | rfl
  · obtain ⟨moduleName, exposed, same⟩ := exposedModule_iff.mp (body _ List.mem_cons_self)
    exact ⟨moduleName, same, .exposed exposed⟩
  · -- a file that declares a reachable module imports another one
    obtain ⟨file, here, listed, mod, importer, parsed, declares, reachable⟩ :=
      body _ List.mem_cons_self
    obtain ⟨file', -, mod', parsed', moduleName, imports, there, same⟩ :=
      fileImport_iff.mp (body _ (List.mem_cons_of_mem _ List.mem_cons_self))
    obtain ⟨path, imported⟩ := List.cons.inj same
    obtain rfl : file = file' := Publish.RealPath.ext ((List.cons.inj here).1.symm.trans path)
    cases Option.some_inj.mp (parsed.symm.trans parsed')
    exact ⟨moduleName, imported, .imported listed parsed declares reachable imports there⟩
  · obtain ⟨file, listed, mod, parsed, moduleName, declares, same⟩ :=
      fileModule_iff.mp (body _ List.mem_cons_self)
    obtain ⟨moduleName', same', reachable⟩ := body _ (List.mem_cons_of_mem _ List.mem_cons_self)
    obtain ⟨path, same⟩ := List.cons.inj same
    obtain rfl : moduleName = moduleName' := String.toList_inj.mp
      ((List.cons.inj same).1.symm.trans (List.cons.inj same').1)
    exact ⟨file, congrArg (fun text => [text]) path, listed, mod, moduleName, parsed, declares,
      reachable⟩

theorem derived_means {pred : RedundantPred}
    (derived : FirstStratum dir exposedModules pred tuple) :
    Meaning dir exposedModules pred tuple := by
  refine derived.least ?_ fun r member σ body _ => Meaning.closed member body
  intro pred tuple fact
  cases pred with
  | exposedModule | fileModule | fileImport | sourceFile => exact fact
  | reachableModule | reachableFile | redundantFile | error =>
    simp [sourceFacts, mem_pkgExtractFileFacts] at fact

/-- The values of the variables in the rules. -/
def moduleValues (file moduleName : List Char) : String → List Char :=
  fun v => if v = "File" then file else moduleName

theorem reachableFile_derived {mod : SkeletonModule}
    (listed : file ∈ collectAllElmFiles dir.entries) (parsed : dir.skeletonParse file = some mod)
    (declares : mod.moduleName = some moduleName)
    (reachable : FirstStratum dir exposedModules .reachableModule [moduleName.toList]) :
    FirstStratum dir exposedModules .reachableFile [file.text] := by
  have fact := (@fileModule_iff dir exposedModules _).mpr
    ⟨file, listed, mod, parsed, moduleName, declares, rfl⟩
  exact Datalog.Derives.binary (moduleValues file.text moduleName.toList)
    (mem_layer_zero.mpr (Or.inr (Or.inr rfl))) rfl rfl (.fact fact) reachable

theorem reachableModule_derived (reachable : ReachableModule dir exposedModules moduleName) :
    FirstStratum dir exposedModules .reachableModule [moduleName.toList] := by
  induction reachable with
  | @exposed moduleName exposed =>
    have fact := (@exposedModule_iff dir exposedModules _).mpr ⟨moduleName, exposed, rfl⟩
    exact Datalog.Derives.unary (moduleValues [] moduleName.toList)
      (mem_layer_zero.mpr (Or.inl rfl)) rfl rfl (.fact fact)
  | @imported file mod importer moduleName listed parsed declares _ imports there ih =>
    have fact := (@fileImport_iff dir exposedModules _).mpr
      ⟨file, listed, mod, parsed, moduleName, imports, there, rfl⟩
    exact Datalog.Derives.binary (moduleValues file.text moduleName.toList)
      (mem_layer_zero.mpr (Or.inr (Or.inl rfl))) rfl rfl
      (reachableFile_derived listed parsed declares ih) (.fact fact)

/-- The rule derives the source files that are not reachable. -/
theorem redundantFile_iff :
    evaluated (sourceFacts dir exposedModules) .redundantFile tuple ↔
      ∃ file ∈ collectAllElmFiles dir.entries, tuple = [file.text] ∧
        ¬ ReachableFile dir exposedModules file := by
  constructor
  · intro derived
    rcases Datalog.Derives.inversion derived with below | ⟨r, member, σ, same, rfl, body, negated⟩
    · exact (derived_means below).elim
    · rcases mem_layer_one.mp member with rfl | rfl
      swap
      · cases same
      have none : ∀ r ∈ noRedundantElmFiles.layer 1, r.head.pred ≠ .sourceFile := by
        intro r member
        rcases mem_layer_one.mp member with rfl | rfl <;> decide
      have fact := (Datalog.Derives.of_no_head none).mp (body _ List.mem_cons_self)
      obtain ⟨file, listed, same⟩ := sourceFile_iff.mp (derived_means fact)
      refine ⟨file, listed, same, fun reachable => ?_⟩
      obtain ⟨_, mod, moduleName, parsed, declares, reachable⟩ := reachable
      have derived := reachableFile_derived listed parsed declares
        (reachableModule_derived reachable)
      rw [← same] at derived
      exact negated _ List.mem_cons_self derived
  · rintro ⟨file, listed, rfl, unreached⟩
    refine @Datalog.Derives.rule _ _ _ _ _ redundantUnreached (moduleValues file.text [])
      (mem_layer_one.mpr (Or.inl rfl)) ?_ ?_
    · refine List.forall_mem_singleton.mpr (.fact (.fact ?_))
      exact sourceFile_iff.mpr ⟨file, listed, rfl⟩
    · refine List.forall_mem_singleton.mpr fun derived => unreached ?_
      obtain ⟨other, same, reachable⟩ := derived_means derived
      rwa [Publish.RealPath.ext (List.cons.inj same).1]

end Meaning

/-! ## Modules and their paths -/

/-- The name of a module: its parts are not empty, and there is no slash. -/
def IsModuleName (moduleName : String) : Prop :=
  '/' ∉ moduleName.toList ∧ [] ∉ moduleName.toList.splitOn '.'

/-- A dot becomes a slash. -/
def slashed (c : Char) : Char := if c = '.' then '/' else c

theorem map_slashed_injective {text other : List Char} (plain : '/' ∉ text) (plain' : '/' ∉ other)
    (same : text.map slashed = other.map slashed) : text = other := by
  have back : ∀ l : List Char, '/' ∉ l →
      (l.map slashed).map (fun c => if c = '/' then '.' else c) = l := by
    intro l plain
    rw [List.map_map]
    conv_rhs => rw [← List.map_id l]
    refine List.map_congr_left fun c member => ?_
    unfold slashed
    by_cases dot : c = '.'
    · simp [dot]
    · have slash : c ≠ '/' := fun same => plain (same ▸ member)
      simp [dot, slash]
  rw [← back text plain, same, back other plain']

/-- The parts of a path are empty only where those of the name are. -/
theorem splitOn_path (text : List Char) (plain : '/' ∉ text) :
    ∃ first others part parts, text.splitOn '.' = first :: others ∧
      (text.map slashed ++ ".elm".toList).splitOn '/' = part :: parts ∧
      (part = [] → first = []) ∧ ([] ∈ parts → [] ∈ others) := by
  induction text with
  | nil =>
    refine ⟨[], [], ".elm".toList, [], rfl, ?_, fun _ => rfl,
      (fun empty => nomatch empty)⟩
    exact List.splitOn_eq_singleton (by decide)
  | cons c text ih =>
    obtain ⟨first, others, part, parts, name, path, head, tail⟩ :=
      ih fun member => plain (List.mem_cons_of_mem c member)
    rw [List.splitOn_cons_eq_if_modifyHead, name, List.map_cons, List.cons_append,
      List.splitOn_cons_eq_if_modifyHead, path]
    by_cases dot : c = '.'
    · subst dot
      refine ⟨[], first :: others, [], part :: parts, rfl, rfl, fun _ => rfl, ?_⟩
      intro empty
      rcases List.mem_cons.mp empty with here | later
      · exact List.mem_cons.mpr (Or.inl (head here.symm).symm)
      · exact List.mem_cons_of_mem first (tail later)
    · have slash : slashed c ≠ '/' := by
        unfold slashed
        rw [if_neg dot]
        exact fun same => plain (same ▸ List.mem_cons_self)
      rw [if_neg (by simpa using dot), if_neg (by simpa using slash)]
      exact ⟨c :: first, others, slashed c :: part, parts, rfl, rfl,
        (fun empty => nomatch empty), tail⟩

/-- A module is found at one path only, and a path has one module. -/
theorem moduleNameToPath_injective {moduleName other : String} (named : IsModuleName moduleName)
    (named' : IsModuleName other) (same : moduleNameToPath moduleName = moduleNameToPath other) :
    moduleName = other := by
  have whole : ∀ m, IsModuleName m → moduleNameToPath m =
      ((m.toList.map slashed ++ ".elm".toList).splitOn '/').map String.ofList := by
    intro m ⟨plain, full⟩
    obtain ⟨first, others, part, parts, name, path, head, tail⟩ := splitOn_path m.toList plain
    rw [name, List.mem_cons, not_or] at full
    unfold moduleNameToPath
    dsimp only
    change ((List.splitOn '/' (m.toList.map slashed ++ ".elm".toList)).filter _).map _ = _
    rw [List.filter_eq_self.mpr]
    intro other member
    rw [path] at member
    rw [decide_eq_true_eq]
    rintro rfl
    rcases List.mem_cons.mp member with here | later
    · exact full.1 (head here.symm).symm
    · exact full.2 (tail later)
  rw [whole _ named, whole _ named'] at same
  have parts := List.map_injective_iff.mpr (fun _ _ => String.ofList_inj.mp) same
  have paths := congrArg (List.intercalate ['/']) parts
  rw [List.intercalate_splitOn, List.intercalate_splitOn] at paths
  exact String.toList_inj.mp
    (map_slashed_injective named.1 named'.1 (List.append_cancel_right paths))

/-! ## The files of a directory -/

/-- The names in a directory. -/
def entryNames : Entries → List String
  | .done => []
  | .file name _ rest => name :: entryNames rest
  | .directory name _ _ rest => name :: entryNames rest
  | .other name _ rest => name :: entryNames rest

/-- `readdir` returns a name once. -/
def ListedOnce : Entries → Prop
  | .done => True
  | .file name _ rest => name ∉ entryNames rest ∧ ListedOnce rest
  | .directory name _ below rest =>
    name ∉ entryNames rest ∧ ListedOnce below ∧ ListedOnce rest
  | .other name _ rest => name ∉ entryNames rest ∧ ListedOnce rest

theorem fileAt_head {entries : Entries} {name : String} {dirs : List String}
    (there : FileAt name file entries dirs) : (dirs ++ [name]).headD "" ∈ entryNames entries := by
  induction entries generalizing dirs with
  | done => exact there.elim
  | file n real rest ih =>
    rcases there with ⟨rfl, rfl, -⟩ | later
    · exact List.mem_cons_self
    · exact List.mem_cons_of_mem n (ih later)
  | directory n real below rest _ ih =>
    rcases there with ⟨more, rfl, -⟩ | later
    · exact List.mem_cons_self
    · exact List.mem_cons_of_mem n (ih later)
  | other n real rest ih => exact List.mem_cons_of_mem n (ih there)

/-- Only the entry of the first name matters. -/
theorem lookup_congr {entries others : Entries} {names : List String}
    (same : entries.child (names.headD "") = others.child (names.headD "")) :
    ImportTree.lookup entries names = ImportTree.lookup others names := by
  cases names with
  | nil => rfl
  | cons name names =>
    cases names with
    | nil => exact same
    | cons next names =>
      unfold ImportTree.lookup
      rw [show entries.child name = others.child name from same]

/-- A file is found at its place. -/
theorem lookup_of_place {entries : Entries} (once : ListedOnce entries) {name : String}
    {dirs : List String} (there : FileAt name file entries dirs) :
    ImportTree.lookup entries (dirs ++ [name]) = some (.file (some file)) := by
  induction entries generalizing dirs with
  | done => exact there.elim
  | file n real rest ih =>
    rcases there with ⟨rfl, rfl, rfl⟩ | later
    · unfold ImportTree.lookup Entries.child
      exact if_pos rfl
    · rw [← ih once.2 later]
      refine lookup_congr (if_neg fun same => once.1 ?_)
      exact same ▸ fileAt_head later
  | directory n real below rest ihBelow ih =>
    rcases there with ⟨more, rfl, inside⟩ | later
    · have step := ihBelow once.2.1 inside
      obtain ⟨next, names, cut⟩ := List.exists_cons_of_ne_nil
        (List.append_ne_nil_of_right_ne_nil more (List.cons_ne_nil name []))
      rw [List.cons_append, cut]
      unfold ImportTree.lookup Entries.child
      rw [if_pos rfl]
      exact cut ▸ step
    · rw [← ih once.2.2 later]
      refine lookup_congr (if_neg fun same => once.1 ?_)
      exact same ▸ fileAt_head later
  | other n real rest ih =>
    rw [← ih once.2 there]
    refine lookup_congr (if_neg fun same => once.1 ?_)
    exact same ▸ fileAt_head there

/-- The last part of a path ends as the path does. -/
theorem splitOn_append_plain (text last : List Char) (plain : '/' ∉ last) :
    ∃ parts part, (text ++ last).splitOn '/' = parts ++ [part ++ last] := by
  induction text with
  | nil => exact ⟨[], [], List.splitOn_eq_singleton plain⟩
  | cons c text ih =>
    obtain ⟨parts, part, split⟩ := ih
    rw [List.cons_append, List.splitOn_cons_eq_if_modifyHead, split]
    by_cases slash : c = '/'
    · rw [if_pos (by simpa using slash)]
      exact ⟨[] :: parts, part, rfl⟩
    · rw [if_neg (by simpa using slash)]
      cases parts with
      | nil => exact ⟨[], c :: part, rfl⟩
      | cons first parts => exact ⟨(c :: first) :: parts, part, rfl⟩

theorem isElmName_of_path {moduleName name : String} {dirs : List String}
    (path : moduleNameToPath moduleName = dirs ++ [name]) : isElmName name = true := by
  obtain ⟨parts, part, split⟩ :=
    splitOn_append_plain (moduleName.toList.map slashed) ".elm".toList (by decide)
  have cut : moduleNameToPath moduleName = ((parts.filter (· ≠ [])).map String.ofList) ++
      [String.ofList (part ++ ".elm".toList)] := by
    unfold moduleNameToPath
    dsimp only
    change ((List.splitOn '/' (moduleName.toList.map slashed ++ ".elm".toList)).filter _).map _ = _
    rw [split, List.filter_append, List.map_append, List.filter_cons_of_pos (by simp)]
    rfl
  rw [cut] at path
  obtain ⟨-, same⟩ := List.append_inj' path rfl
  rw [← List.singleton_inj.mp same, ImportTree.isElmName_iff]
  exact ⟨part, String.toList_ofList.symm⟩

/-! ## Agreement -/

/-- The names `skeleton_parse` returns are names of modules. -/
structure ParsesNames (dir : SourceDirectory) : Prop where
  declared : ∀ file mod, dir.skeletonParse file = some mod →
    ∀ moduleName, mod.moduleName = some moduleName → IsModuleName moduleName
  imported : ∀ file mod, dir.skeletonParse file = some mod →
    ∀ moduleName ∈ mod.imports, IsModuleName moduleName

/-- Every source file declares the module its path says. -/
def DeclaresPaths (dir : SourceDirectory) : Prop :=
  ∀ name dirs file, FileAt name file dir.entries dirs → isElmName name = true →
    ∃ mod moduleName, dir.skeletonParse file = some mod ∧ mod.moduleName = some moduleName ∧
      moduleNameToPath moduleName = dirs ++ [name]

section Agreement

variable {dir : SourceDirectory} {exposedModules : List String}

theorem moduleFile_iff :
    dir.moduleFile moduleName = some file ↔
      ImportTree.lookup dir.entries (moduleNameToPath moduleName) = some (.file (some file)) := by
  unfold SourceDirectory.moduleFile SourceDirectory.fileExists SourceDirectory.realpath
  cases ImportTree.lookup dir.entries (moduleNameToPath moduleName) with
  | none => simp
  | some child => cases child <;> simp [Publish.Child.real]

/-- The module that a source file declares is found in the file. -/
theorem moduleFile_of_declared (once : ListedOnce dir.entries) (declares : DeclaresPaths dir)
    (listed : file ∈ collectAllElmFiles dir.entries) {mod : SkeletonModule}
    (parsed : dir.skeletonParse file = some mod) (declared : mod.moduleName = some moduleName) :
    dir.moduleFile moduleName = some file := by
  obtain ⟨name, dirs, there, elm⟩ := Publish.mem_collectAllElmFiles.mp listed
  obtain ⟨mod', moduleName', parsed', declared', path⟩ := declares name dirs file there elm
  cases Option.some_inj.mp (parsed.symm.trans parsed')
  cases Option.some_inj.mp (declared.symm.trans declared')
  rw [moduleFile_iff, path]
  exact lookup_of_place once there

/-- The file of a module is a source file that declares it. -/
theorem declared_of_moduleFile (names : ParsesNames dir) (declares : DeclaresPaths dir)
    (named : IsModuleName moduleName) (found : dir.moduleFile moduleName = some file) :
    file ∈ collectAllElmFiles dir.entries ∧
      ∃ mod, dir.skeletonParse file = some mod ∧ mod.moduleName = some moduleName := by
  obtain ⟨name, dirs, path, there⟩ := ImportTree.lookup_place (moduleFile_iff.mp found)
  have elm := isElmName_of_path path
  refine ⟨Publish.mem_collectAllElmFiles.mpr ⟨name, dirs, there, elm⟩, ?_⟩
  obtain ⟨mod, other, parsed, declared, path'⟩ := declares name dirs file there elm
  have same := moduleNameToPath_injective (names.declared file mod parsed other declared) named
    (path'.trans path.symm)
  exact ⟨mod, parsed, same ▸ declared⟩

/-- The file of a reachable module is reached from an exposed one. -/
theorem ReachableModule.reachedFrom (once : ListedOnce dir.entries) (declares : DeclaresPaths dir)
    (reachable : ReachableModule dir exposedModules moduleName) :
    ∀ file, dir.moduleFile moduleName = some file →
      ∃ exposed ∈ exposedModules, dir.ReachedFrom exposed file := by
  induction reachable with
  | @exposed moduleName exposed =>
    intro file found
    exact ⟨moduleName, exposed, file, found, .refl⟩
  | @imported importer mod _ moduleName listed parsed declared _ imports _ ih =>
    intro file found
    obtain ⟨exposed, member, start, begins, leads⟩ :=
      ih importer (moduleFile_of_declared once declares listed parsed declared)
    exact ⟨exposed, member, start, begins, leads.tail ⟨mod, parsed, moduleName, imports, found⟩⟩

/-- A file that is reached from an exposed module is that of a reachable module. -/
theorem reachableModule_of_reachedFrom (names : ParsesNames dir) (declares : DeclaresPaths dir)
    {exposed : String} (member : exposed ∈ exposedModules) (named : IsModuleName exposed)
    (reached : dir.ReachedFrom exposed file) :
    ∃ moduleName, IsModuleName moduleName ∧ dir.moduleFile moduleName = some file ∧
      ReachableModule dir exposedModules moduleName := by
  obtain ⟨start, begins, leads⟩ := reached
  induction leads with
  | refl => exact ⟨exposed, named, begins, .exposed member⟩
  | @tail importer file _ step ih =>
    obtain ⟨moduleName, named, found, reachable⟩ := ih
    obtain ⟨listed, mod, parsed, declared⟩ := declared_of_moduleFile names declares named found
    obtain ⟨mod', parsed', imported, imports, there⟩ := step
    cases Option.some_inj.mp (parsed.symm.trans parsed')
    have exists_ : dir.fileExists (moduleNameToPath imported) = true := by
      unfold SourceDirectory.fileExists
      rw [moduleFile_iff.mp there]
    exact ⟨imported, names.imported importer mod parsed imported imports, there,
      .imported listed parsed declared reachable imports exists_⟩

theorem reachableFile_iff (once : ListedOnce dir.entries) (names : ParsesNames dir)
    (declares : DeclaresPaths dir) (exposed : ∀ m ∈ exposedModules, IsModuleName m)
    (listed : file ∈ collectAllElmFiles dir.entries) :
    ReachableFile dir exposedModules file ↔
      ∃ moduleName ∈ exposedModules, dir.ReachedFrom moduleName file := by
  constructor
  · rintro ⟨-, mod, moduleName, parsed, declared, reachable⟩
    exact reachable.reachedFrom once declares file
      (moduleFile_of_declared once declares listed parsed declared)
  · rintro ⟨start, member, reached⟩
    obtain ⟨moduleName, named, found, reachable⟩ :=
      reachableModule_of_reachedFrom names declares member (exposed start member) reached
    obtain ⟨-, mod, parsed, declared⟩ := declared_of_moduleFile names declares named found
    exact ⟨listed, mod, moduleName, parsed, declared, reachable⟩

end Agreement

/-- A package tree in which every source file below `src` declares the module its path says. -/
structure PackageTree (disk : Disk) (packageDir : String) : Prop where
  once : ListedOnce (disk.sourceDirectory (srcDir packageDir)).entries
  names : ParsesNames (disk.sourceDirectory (srcDir packageDir))
  declares : DeclaresPaths (disk.sourceDirectory (srcDir packageDir))

/-- The rule derives the files that the import tree finds redundant. -/
def FindsSame (facts : List Fact) (analysis : ImportTreeAnalysis) : Prop :=
  ∀ tuple, evaluated facts .redundantFile tuple ↔
    ∃ file ∈ analysis.redundantFiles, tuple = [file.text]

/-- Where the source directory is `src` and the exposed modules have names of modules, the import
tree and the rule find the same redundant files. -/
theorem redundantFiles_agree {disk : Disk} {packageDir : String}
    (tree : PackageTree disk packageDir)
    (source : disk.sourceDirectory (ImportTree.srcDir disk packageDir) =
      disk.sourceDirectory (srcDir packageDir))
    (exposed : ∀ root, disk.readJson (elmJsonPath packageDir) = some root →
      ∀ moduleName ∈ exposedModulesOf root, IsModuleName moduleName) (depth : Nat)
    (enough : (disk.sourceDirectory (srcDir packageDir)).files.length ≤ depth) :
    (packageFacts disk packageDir = none ↔
        importTreeAnalyze disk depth packageDir = some none) ∧
      ∀ facts, packageFacts disk packageDir = some facts → ∃ analysis,
        importTreeAnalyze disk depth packageDir = some (some analysis) ∧
          FindsSame facts analysis := by
  unfold packageFacts importTreeAnalyze
  by_cases exists_ : disk.fileExists (elmJsonPath packageDir) = true
  swap
  · rw [if_neg exists_, if_neg exists_]
    exact ⟨⟨fun _ => rfl, fun _ => rfl⟩, fun _ none => nomatch none⟩
  rw [if_pos exists_, if_pos exists_]
  cases parsed : disk.readJson (elmJsonPath packageDir) with
  | none => exact ⟨⟨fun _ => rfl, fun _ => rfl⟩, fun _ none => nomatch none⟩
  | some root =>
    obtain ⟨included, ran, all⟩ := ImportTree.included_spec enough (exposedModulesOf root) []
    dsimp only [elmParseExposedModules, Option.map_some]
    rw [source, ran]
    refine ⟨⟨(fun none => nomatch none), (fun none => nomatch none)⟩, ?_⟩
    rintro facts ⟨⟩
    refine ⟨_, rfl, fun tuple => ?_⟩
    rw [redundantFile_iff]
    refine exists_congr fun file => ?_
    rw [List.mem_filter, and_assoc, and_comm (a := tuple = _)]
    refine and_congr_right fun listed => and_congr_left fun _ => ?_
    rw [reachableFile_iff tree.once tree.names tree.declares (exposed root parsed) listed,
      Bool.not_eq_true', List.contains_eq_mem, decide_eq_false_iff_not, all file]
    simp

/-! ## Three package trees -/

def modulePath (name : Char) : RealPath := ⟨"/p/src/".toList ++ name :: ".elm".toList, rfl⟩

/-- `A`, `B` and `C`, of which `A` imports `B`. -/
def treeDirectory : SourceDirectory where
  entries := .file "A.elm" (some (modulePath 'A')) (.file "B.elm" (some (modulePath 'B'))
    (.file "C.elm" (some (modulePath 'C')) .done))
  skeletonParse path :=
    if path = modulePath 'A' then some ⟨some "A", ["B"], []⟩
    else if path = modulePath 'B' then some ⟨some "B", [], []⟩
    else some ⟨some "C", [], []⟩

/-- The package, with this `elm.json`. -/
def treeDisk (elmJson : Json) (src : SourceDirectory) : Disk where
  fileExists _ := true
  readJson _ := some elmJson
  sourceDirectory path := if path = "/p/src" then src else ⟨.done, fun _ => none⟩

theorem srcDir_tree : srcDir "/p" = "/p/src" := by decide

theorem treeDisk_src (elmJson : Json) (src : SourceDirectory) :
    (treeDisk elmJson src).sourceDirectory (srcDir "/p") = src := by
  rw [srcDir_tree]
  change (if "/p/src" = "/p/src" then src else ⟨.done, fun _ => none⟩) = src
  exact if_pos rfl

theorem packageFacts_tree {elmJson : Json} (src : SourceDirectory) {exposedModules : List String}
    (exposed : exposedModulesOf elmJson = exposedModules) :
    packageFacts (treeDisk elmJson src) "/p" = some (sourceFacts src exposedModules) := by
  unfold packageFacts
  rw [treeDisk_src, ← exposed]
  exact if_pos rfl

theorem treeDirectory_parses {mod : SkeletonModule}
    (parsed : treeDirectory.skeletonParse file = some mod) :
    mod = ⟨some "A", ["B"], []⟩ ∨ mod = ⟨some "B", [], []⟩ ∨ mod = ⟨some "C", [], []⟩ := by
  unfold treeDirectory at parsed
  dsimp only at parsed
  split at parsed
  · exact Or.inl (Option.some.inj parsed).symm
  · split at parsed
    · exact Or.inr (Or.inl (Option.some.inj parsed).symm)
    · exact Or.inr (Or.inr (Option.some.inj parsed).symm)

theorem isModuleName_letter : IsModuleName "A" ∧ IsModuleName "B" ∧ IsModuleName "C" := by
  unfold IsModuleName
  decide

theorem treeDirectory_tree (elmJson : Json) :
    PackageTree (treeDisk elmJson treeDirectory) "/p" := by
  constructor
  · rw [treeDisk_src]
    exact ⟨by decide, by decide, by decide, trivial⟩
  · rw [treeDisk_src]
    obtain ⟨a, b, c⟩ := isModuleName_letter
    constructor
    · intro file mod parsed moduleName declared
      rcases treeDirectory_parses parsed with rfl | rfl | rfl <;> cases declared
      · exact a
      · exact b
      · exact c
    · intro file mod parsed moduleName member
      rcases treeDirectory_parses parsed with rfl | rfl | rfl
      · rw [List.mem_singleton.mp member]
        exact b
      · cases member
      · cases member
  · rw [treeDisk_src]
    rintro name dirs file (⟨rfl, rfl, same⟩ | ⟨rfl, rfl, same⟩ | ⟨rfl, rfl, same⟩ | none) -
    · cases same
      exact ⟨_, "A", rfl, rfl, by decide⟩
    · cases same
      exact ⟨_, "B", rfl, rfl, by decide⟩
    · cases same
      exact ⟨_, "C", rfl, rfl, by decide⟩
    · exact none.elim

/-- `A` is exposed. -/
def exposedA : Json := .object [("exposed-modules", .array [.string "A"])]

theorem exposedModulesOf_exposedA : exposedModulesOf exposedA = ["A"] := by decide

theorem redundantFiles_agree_tree :
    ∃ facts analysis, packageFacts (treeDisk exposedA treeDirectory) "/p" = some facts ∧
      importTreeAnalyze (treeDisk exposedA treeDirectory) 3 "/p" = some (some analysis) ∧
        FindsSame facts analysis := by
  have agree := redundantFiles_agree (treeDirectory_tree exposedA)
    (by rw [show ImportTree.srcDir _ "/p" = "/p/src" by decide, srcDir_tree])
    (by
      rintro root ⟨⟩ moduleName member
      rw [exposedModulesOf_exposedA] at member
      rw [List.mem_singleton.mp member]
      exact isModuleName_letter.1)
    3 (by
      rw [treeDisk_src]
      decide)
  have facts := packageFacts_tree treeDirectory exposedModulesOf_exposedA
  obtain ⟨analysis, ran, same⟩ := agree.2 _ facts
  exact ⟨_, analysis, facts, ran, same⟩

def nestedPath : RealPath := ⟨"/p/src/A/B.elm".toList, rfl⟩

/-- `A.B`. -/
def nestedDirectory : SourceDirectory where
  entries := .directory "A" none (.file "B.elm" (some nestedPath) .done) .done
  skeletonParse _ := some ⟨some "A.B", [], []⟩

/-- `A.B` is exposed as `A/B`. -/
def slashedDisk : Disk :=
  treeDisk (.object [("exposed-modules", .array [.string "A/B"])]) nestedDirectory

/-- The source directory is not `src`. -/
def libDisk : Disk :=
  treeDisk (.object [("source-directories", .array [.string "lib"])]) treeDirectory

theorem slashedDisk_tree : PackageTree slashedDisk "/p" := by
  unfold slashedDisk
  constructor
  · rw [treeDisk_src]
    exact ⟨by decide, ⟨by decide, trivial⟩, trivial⟩
  · rw [treeDisk_src]
    constructor
    · rintro file mod ⟨⟩ moduleName ⟨⟩
      unfold IsModuleName
      decide
    · rintro file mod ⟨⟩ moduleName member
      cases member
  · rw [treeDisk_src]
    rintro name dirs file (⟨more, rfl, ⟨rfl, rfl, same⟩ | none⟩ | none) -
    · cases same
      exact ⟨_, "A.B", rfl, rfl, by decide⟩
    · exact none.elim
    · exact none.elim

/-- The rule finds a file redundant that the import tree does not. -/
theorem not_findsSame {dir : SourceDirectory} {exposedModules : List String}
    {analysis : ImportTreeAnalysis} (listed : file ∈ collectAllElmFiles dir.entries)
    (unreached : ¬ ReachableFile dir exposedModules file) (kept : analysis.redundantFiles = []) :
    ¬ FindsSame (sourceFacts dir exposedModules) analysis := by
  intro same
  obtain ⟨other, member, -⟩ := (same [file.text]).mp
    (redundantFile_iff.mpr ⟨file, listed, rfl, unreached⟩)
  rw [kept] at member
  cases member

/-- A module that is not exposed under its name, and a source directory that is not `src`. -/
theorem redundantFiles_disagree :
    (PackageTree slashedDisk "/p" ∧ ∃ facts analysis,
      packageFacts slashedDisk "/p" = some facts ∧
      importTreeAnalyze slashedDisk 1 "/p" = some (some analysis) ∧ ¬ FindsSame facts analysis) ∧
    PackageTree libDisk "/p" ∧ ∃ facts analysis, packageFacts libDisk "/p" = some facts ∧
      importTreeAnalyze libDisk 3 "/p" = some (some analysis) ∧ ¬ FindsSame facts analysis := by
  refine ⟨⟨slashedDisk_tree, sourceFacts nestedDirectory ["A/B"],
      ⟨[nestedPath], [], 1, "/p", "/p/src", ["A/B"]⟩, ?_, by decide, ?_⟩,
    treeDirectory_tree _, sourceFacts treeDirectory [],
      ⟨[], [], 0, "/p", "/p/lib", []⟩, ?_, by decide, ?_⟩
  · exact packageFacts_tree nestedDirectory (by decide)
  · refine not_findsSame (List.mem_singleton_self nestedPath) ?_ rfl
    rintro ⟨-, mod, moduleName, ⟨⟩, ⟨⟩, reachable⟩
    cases reachable with
    | exposed member => exact absurd member (by decide)
    | imported _ parsed _ _ imports _ =>
      cases parsed
      cases imports
  · exact packageFacts_tree treeDirectory (by decide)
  · refine not_findsSame (List.mem_cons_self : modulePath 'A' ∈ _) ?_ rfl
    have never : ∀ moduleName, ¬ ReachableModule treeDirectory [] moduleName := by
      intro moduleName reachable
      induction reachable with
      | exposed member => cases member
      | imported _ _ _ _ _ _ ih => exact ih
    rintro ⟨-, mod, moduleName, -, -, reachable⟩
    exact never moduleName reachable

end ElmWrap.Review
