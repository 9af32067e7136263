import ElmWrap.ImportTree.ImportTree
import ElmWrap.Lib.DepthFirst
import ElmWrap.Publish.PublishSet

/-!
# The redundant files of a package

The files that `import_tree_analyze` reports are those that no chain of imports leads to
from an exposed module. Every traversal is a depth-first search over the imports of
files, and the printed tree visits what the analysis does.
-/

namespace ElmWrap.ImportTree

open Lib.DepthFirst
open Publish (Entries RealPath Child FileAt isElmName strrchr collectAllElmFiles)

/-! ## Files and imports -/

namespace SourceDirectory

/-- A file is an Elm source file of a directory. -/
def SourceFile (dir : SourceDirectory) (path : RealPath) : Prop :=
  ∃ name dirs, FileAt name path dir.entries dirs ∧ ".elm".toList <:+ name.toList

/-- The file of a module. -/
def moduleFile (dir : SourceDirectory) (moduleName : String) : Option RealPath :=
  if dir.fileExists (moduleNameToPath moduleName) then dir.realpath (moduleNameToPath moduleName)
  else none

/-- A file imports the module that another is the file of. -/
def Imports (dir : SourceDirectory) (a b : RealPath) : Prop :=
  ∃ mod, dir.skeletonParse a = some mod ∧
    ∃ moduleName ∈ mod.imports, dir.moduleFile moduleName = some b

/-- Imports lead to a file from the file of a module. -/
def ReachedFrom (dir : SourceDirectory) (moduleName : String) (path : RealPath) : Prop :=
  ∃ start, dir.moduleFile moduleName = some start ∧ Relation.ReflTransGen dir.Imports start path

/-- The regular files of a directory. -/
def files (dir : SourceDirectory) : List RealPath :=
  (Publish.collectAllFilesWithSkippedDirs [] dir.entries).files

/-- The files that the imports of a file lead to. -/
def importedFiles (dir : SourceDirectory) (path : RealPath) : List RealPath :=
  match dir.skeletonParse path with
  | none => []
  | some mod => mod.imports.filterMap dir.moduleFile

end SourceDirectory

theorem strrchr_suffix {c : Char} {text found : List Char} (last : strrchr c text = some found) :
    found <:+ text := by
  induction text with
  | nil => cases last
  | cons d text ih =>
    unfold strrchr at last
    split at last
    · rename_i later
      rw [Option.some.injEq] at last
      exact (ih (last ▸ later)).trans (List.suffix_cons d text)
    · split at last
      · cases last
        exact List.suffix_rfl
      · cases last

theorem isElmName_iff {name : String} : isElmName name = true ↔ ".elm".toList <:+ name.toList := by
  unfold isElmName
  rw [decide_eq_true_iff]
  constructor
  · exact strrchr_suffix
  · rintro ⟨front, same⟩
    rw [← same]
    exact Publish.strrchr_append (by decide)

theorem child_fileAt {entries : Entries} {name : String} {path : RealPath}
    (found : entries.child name = some (.file (some path))) : FileAt name path entries [] := by
  induction entries with
  | done => cases found
  | file n real rest ih =>
    unfold Entries.child at found
    split at found
    · rename_i same
      cases found
      exact Or.inl ⟨rfl, same, rfl⟩
    · exact Or.inr (ih found)
  | directory n real below rest _ ih =>
    unfold Entries.child at found
    split at found
    · cases found
    · exact Or.inr (ih found)
  | other n real rest ih =>
    unfold Entries.child at found
    split at found
    · cases found
    · exact ih found

theorem child_below {entries below : Entries} {name file : String} {real : Option RealPath}
    {path : RealPath} {dirs : List String}
    (found : entries.child name = some (.directory real below))
    (inside : FileAt file path below dirs) : FileAt file path entries (name :: dirs) := by
  induction entries with
  | done => cases found
  | file n real rest ih =>
    unfold Entries.child at found
    split at found
    · cases found
    · exact Or.inr (ih found)
  | directory n real below rest _ ih =>
    unfold Entries.child at found
    split at found
    · rename_i same
      cases found
      exact Or.inl ⟨dirs, by rw [same], inside⟩
    · exact Or.inr (ih found)
  | other n real rest ih =>
    unfold Entries.child at found
    split at found
    · cases found
    · exact ih found

/-- A path that leads to a file is the place of the file. -/
theorem lookup_place {entries : Entries} {names : List String} {path : RealPath}
    (found : lookup entries names = some (.file (some path))) :
    ∃ name dirs, names = dirs ++ [name] ∧ FileAt name path entries dirs := by
  induction names generalizing entries with
  | nil => cases found
  | cons name names ih =>
    cases names with
    | nil => exact ⟨name, [], rfl, child_fileAt found⟩
    | cons next names =>
      unfold lookup at found
      split at found
      · rename_i real below there
        obtain ⟨file, dirs, same, inside⟩ := ih found
        exact ⟨file, name :: dirs, congrArg (name :: ·) same, child_below there inside⟩
      · cases found

theorem lookup_fileAt {entries : Entries} {names : List String} {path : RealPath}
    (found : lookup entries names = some (.file (some path))) :
    ∃ name dirs, FileAt name path entries dirs := by
  obtain ⟨name, dirs, -, inside⟩ := lookup_place found
  exact ⟨name, dirs, inside⟩

namespace SourceDirectory

variable {dir : SourceDirectory}

theorem sourceFile_iff {path : RealPath} :
    path ∈ collectAllElmFiles dir.entries ↔ dir.SourceFile path := by
  rw [Publish.mem_collectAllElmFiles]
  unfold SourceFile
  simp only [isElmName_iff]

theorem moduleFile_mem {moduleName : String} {path : RealPath}
    (found : dir.moduleFile moduleName = some path) : path ∈ dir.files := by
  unfold moduleFile at found
  split at found
  · rename_i exists_
    unfold fileExists at exists_
    unfold realpath at found
    split at exists_
    · rename_i real there
      rw [there] at found
      change real = some path at found
      rw [found] at there
      obtain ⟨name, dirs, at_⟩ := lookup_fileAt there
      exact Publish.mem_collectAllFiles.mpr ⟨name, dirs, at_, fun _ _ => List.not_mem_nil⟩
    · cases exists_
  · cases found

theorem edge_iff {a b : RealPath} : Edge dir.importedFiles a b ↔ dir.Imports a b := by
  unfold Edge importedFiles Imports
  cases dir.skeletonParse a with
  | none => simp
  | some mod => simp [List.mem_filterMap]

theorem edge_eq : Edge dir.importedFiles = dir.Imports := by
  funext a b
  exact propext edge_iff

theorem importedFiles_closed (a : RealPath) {b : RealPath} (edge : b ∈ dir.importedFiles a) :
    b ∈ dir.files := by
  obtain ⟨_, -, moduleName, -, found⟩ := edge_iff.mp edge
  exact moduleFile_mem found

/-! ## The traversal -/

/-- The loop over the imports of a file follows those that have a file. -/
theorem imports_visit {depth : Nat}
    (one : ∀ (filePath : List String) (visited : List RealPath),
      dir.collectReachableFiles depth filePath visited =
        match dir.realpath filePath with
        | none => some visited
        | some absPath => visit dir.importedFiles depth absPath visited)
    (imports : List String) (visited : List RealPath) :
    imports.foldlM (fun visited moduleName =>
        if dir.fileExists (moduleNameToPath moduleName) then
          dir.collectReachableFiles depth (moduleNameToPath moduleName) visited
        else some visited) visited =
      (imports.filterMap dir.moduleFile).foldlM
        (fun visited b => visit dir.importedFiles depth b visited) visited := by
  induction imports generalizing visited with
  | nil => rfl
  | cons moduleName rest ih =>
    rw [List.foldlM_cons]
    have file : dir.moduleFile moduleName =
        if dir.fileExists (moduleNameToPath moduleName) then
          dir.realpath (moduleNameToPath moduleName) else none := rfl
    by_cases exists_ : dir.fileExists (moduleNameToPath moduleName) = true
    · rw [if_pos exists_] at file ⊢
      rw [one]
      cases found : dir.realpath (moduleNameToPath moduleName) with
      | none =>
        rw [List.filterMap_cons_none (file.trans found)]
        exact ih visited
      | some absPath =>
        rw [List.filterMap_cons_some (file.trans found), List.foldlM_cons]
        exact congrArg _ (funext ih)
    · rw [if_neg exists_] at file ⊢
      rw [List.filterMap_cons_none file]
      exact ih visited

theorem collectReachableFiles_visit (depth : Nat) (filePath : List String)
    (visited : List RealPath) :
    dir.collectReachableFiles depth filePath visited =
      match dir.realpath filePath with
      | none => some visited
      | some absPath => visit dir.importedFiles depth absPath visited := by
  induction depth generalizing filePath visited with
  | zero =>
    unfold collectReachableFiles visit
    rfl
  | succ depth ih =>
    unfold collectReachableFiles
    cases dir.realpath filePath with
    | none => rfl
    | some absPath =>
      dsimp only
      by_cases on : absPath ∈ visited
      · rw [if_pos on, visit_visited _ on]
      · rw [if_neg on, visit_new _ on]
        unfold importedFiles
        cases dir.skeletonParse absPath with
        | none => rfl
        | some mod => exact imports_visit ih mod.imports _

theorem traverse_visit {depth : Nat} {moduleName : String} {start : RealPath}
    (found : dir.moduleFile moduleName = some start) :
    dir.traverse depth moduleName = visit dir.importedFiles depth start [] := by
  unfold moduleFile at found
  unfold traverse
  split at found
  · rename_i exists_
    rw [if_pos exists_, collectReachableFiles_visit, found]
  · cases found

/-- What is visited for an exposed module is what imports lead to, each file once. -/
theorem traverse_spec {depth : Nat} (enough : dir.files.length ≤ depth) (moduleName : String) :
    ∃ visited, dir.traverse depth moduleName = some visited ∧ visited.Nodup ∧
      ∀ path, path ∈ visited ↔ dir.ReachedFrom moduleName path := by
  cases found : dir.moduleFile moduleName with
  | none =>
    refine ⟨[], ?_, List.nodup_nil, by simp [ReachedFrom, found]⟩
    unfold moduleFile at found
    unfold traverse
    split
    · rename_i exists_
      rw [if_pos exists_] at found
      rw [collectReachableFiles_visit, found]
    · rfl
  | some start =>
    obtain ⟨visited, ran⟩ := visit_returns (fun a _ b => importedFiles_closed a)
      (moduleFile_mem found) ((List.length_filter_le _ _).trans enough)
    obtain ⟨nodup, reached⟩ := visit_reached ran
    refine ⟨visited, (traverse_visit found).trans ran, nodup, fun path => ?_⟩
    rw [reached path, edge_eq]
    simp [ReachedFrom, found]

/-! ## The printed tree -/

/-- The paths of the local imports of a file have a place in `local_import_paths`. -/
def FitsPaths (dir : SourceDirectory) (path : RealPath) : Prop :=
  ((dir.importedFiles path).filter (· ≠ path)).length ≤ localImportsCapacity

theorem splitImports_paths (current : RealPath) (showExternal : Bool) (imports : List String) :
    (dir.splitImports current showExternal imports).localImports.map Prod.snd =
      (imports.filterMap dir.moduleFile).filter (· ≠ current) := by
  induction imports with
  | nil => rfl
  | cons moduleName rest ih =>
    unfold splitImports
    have file : dir.moduleFile moduleName =
        if dir.fileExists (moduleNameToPath moduleName) then
          dir.realpath (moduleNameToPath moduleName) else none := rfl
    by_cases exists_ : dir.fileExists (moduleNameToPath moduleName) = true
    · rw [if_pos exists_] at file
      dsimp only
      rw [if_pos exists_]
      cases found : dir.realpath (moduleNameToPath moduleName) with
      | none =>
        rw [List.filterMap_cons_none (file.trans found)]
        exact ih
      | some absPath =>
        rw [List.filterMap_cons_some (file.trans found), List.filter_cons]
        dsimp only
        by_cases same : absPath = current
        · rw [if_pos same, if_neg (by simpa using same)]
          exact ih
        · rw [if_neg same, if_pos (by simpa using same)]
          exact congrArg (absPath :: ·) ih
    · rw [if_neg exists_] at file
      dsimp only
      rw [if_neg exists_, List.filterMap_cons_none file]
      split
      · exact ih
      · exact ih

/-- The loop over the local imports visits what the search does. -/
theorem printLocal_visits {depth : Nat} {current : RealPath}
    {recurse : RealPath → String → Printed → Except PrintFault Printed}
    (one : ∀ b, dir.Imports current b → ∀ above printed result,
      visit dir.importedFiles depth b printed.visited = some result →
        ∃ lines, recurse b above printed = .ok ⟨result, lines⟩)
    (above : String) (totalImports : Nat) (successors : List RealPath)
    (edges : ∀ b ∈ successors, dir.Imports current b) (n : Nat)
    (localImports : List (String × RealPath))
    (paths : localImports.map Prod.snd = successors.filter (· ≠ current)) (printed : Printed)
    (on : current ∈ printed.visited) {result : List RealPath}
    (ran : successors.foldlM (fun visited b => visit dir.importedFiles depth b visited)
      printed.visited = some result) :
    ∃ lines, (localImports.zipIdx n).foldlM (printLocal recurse above totalImports) printed =
      .ok ⟨result, lines⟩ := by
  induction successors generalizing n localImports printed with
  | nil =>
    rw [List.map_eq_nil_iff.mp paths]
    cases ran
    exact ⟨printed.lines, rfl⟩
  | cons b rest ih =>
    rw [List.foldlM_cons] at ran
    obtain ⟨first, here, later⟩ := Option.bind_eq_some_iff.mp ran
    obtain ⟨edge, later_⟩ := List.forall_mem_cons.mp edges
    by_cases same : b = current
    · -- a file that imports itself is left out, and has been visited
      rw [List.filter_cons_of_neg (by simpa using same)] at paths
      rw [same, visit_visited _ on] at here
      cases here
      exact ih later_ n localImports paths printed on later
    · rw [List.filter_cons_of_pos (by simpa using same)] at paths
      obtain ⟨⟨moduleName, path⟩, others, rfl, named, tail⟩ := List.map_eq_cons_iff.mp paths
      obtain rfl : path = b := named
      rw [List.zipIdx_cons, List.foldlM_cons]
      have kept := (visit_visits here).2.grows.subset on
      obtain ⟨lines, step⟩ : ∃ lines, printLocal recurse above totalImports printed
          ((moduleName, path), n) = .ok ⟨first, lines⟩ := by
        unfold printLocal
        by_cases visited : path ∈ printed.visited
        · rw [visit_visited _ visited] at here
          cases here
          dsimp only
          rw [List.contains_eq_mem, decide_eq_true visited]
          exact ⟨_, rfl⟩
        · dsimp only
          rw [List.contains_eq_mem, decide_eq_false visited]
          exact one _ edge _ _ _ here
      rw [step]
      exact ih later_ (n + 1) others tail ⟨first, lines⟩ kept later

/-- The printed tree visits what the search does, where the paths fit. -/
theorem printTree_visits (showExternal : Bool) (depth : Nat) {a : RealPath} (above : String)
    (printed : Printed) {result : List RealPath}
    (fits : ∀ b, Relation.ReflTransGen dir.Imports a b → dir.FitsPaths b)
    (ran : visit dir.importedFiles depth a printed.visited = some result) :
    ∃ lines, dir.printTreeRecursive showExternal depth a above printed =
      .ok ⟨result, lines⟩ := by
  induction depth generalizing a above printed result with
  | zero =>
    unfold visit at ran
    unfold printTreeRecursive
    split at ran
    · rename_i on
      cases ran
      rw [if_pos on]
      exact ⟨printed.lines, rfl⟩
    · cases ran
  | succ depth ih =>
    unfold printTreeRecursive
    by_cases on : a ∈ printed.visited
    · rw [visit_visited _ on] at ran
      cases ran
      rw [if_pos on]
      exact ⟨printed.lines, rfl⟩
    · rw [visit_new _ on] at ran
      rw [if_neg on]
      have here := fits a .refl
      have one : ∀ b, dir.Imports a b → ∀ above printed result,
          visit dir.importedFiles depth b printed.visited = some result →
            ∃ lines, dir.printTreeRecursive showExternal depth b above printed =
              .ok ⟨result, lines⟩ :=
        fun b edge above printed result ran =>
          ih above printed (fun c path => fits c (.head edge path)) ran
      have edges : ∀ b ∈ dir.importedFiles a, dir.Imports a b := fun b => edge_iff.mp
      unfold FitsPaths at here
      unfold importedFiles at ran here edges
      cases parsed : dir.skeletonParse a with
      | none =>
        rw [parsed] at ran
        cases ran
        exact ⟨printed.lines, rfl⟩
      | some mod =>
        rw [parsed] at ran here edges
        dsimp only at ran here edges ⊢
        have paths := dir.splitImports_paths a showExternal mod.imports
        rw [← paths, List.length_map] at here
        rw [if_neg (Nat.not_lt.mpr here)]
        obtain ⟨lines, step⟩ := printLocal_visits one above _ _ edges 0 _ paths
          ⟨printed.visited ++ [a], printed.lines⟩
          (List.mem_append_right _ (List.mem_singleton.mpr rfl)) ran
        rw [step]
        exact ⟨_, rfl⟩

end SourceDirectory

/-! ## The analysis -/

theorem mem_addIncluded {included visited : List RealPath} {path : RealPath} :
    path ∈ addIncluded included visited ↔ path ∈ included ∨ path ∈ visited := by
  unfold addIncluded
  induction visited generalizing included with
  | nil => simp
  | cons first rest ih =>
    rw [List.foldl_cons, ih, List.mem_cons]
    split
    · rename_i on
      rw [List.contains_eq_mem, decide_eq_true_iff] at on
      constructor
      · rintro (old | new)
        · exact Or.inl old
        · exact Or.inr (Or.inr new)
      · rintro (old | same | new)
        · exact Or.inl old
        · exact Or.inl (same ▸ on)
        · exact Or.inr new
    · rw [List.mem_append, List.mem_singleton, or_assoc]

/-- The included files are those reached from the exposed modules. -/
theorem included_spec {dir : SourceDirectory} {depth : Nat} (enough : dir.files.length ≤ depth)
    (exposedModules : List String) (start : List RealPath) :
    ∃ included, exposedModules.foldlM (fun included moduleName =>
        (dir.traverse depth moduleName).map (addIncluded included)) start = some included ∧
      ∀ path, path ∈ included ↔
        path ∈ start ∨ ∃ moduleName ∈ exposedModules, dir.ReachedFrom moduleName path := by
  induction exposedModules generalizing start with
  | nil => exact ⟨start, rfl, by simp⟩
  | cons moduleName rest ih =>
    obtain ⟨visited, ran, -, reached⟩ := SourceDirectory.traverse_spec enough moduleName
    obtain ⟨included, runs, all⟩ := ih (addIncluded start visited)
    refine ⟨included, ?_, fun path => ?_⟩
    · rw [List.foldlM_cons, ran]
      exact runs
    · rw [all path, mem_addIncluded, reached path, or_assoc]
      simp

/-- The redundant files are the Elm files that imports do not lead to from an exposed module. What
is visited for one exposed module is what imports lead to from it, each file once, and the printed
tree visits the same where the paths fit. -/
theorem importTreeAnalyze_exact (disk : Disk) (packageDir : String) {depth : Nat}
    (enough : (disk.sourceDirectory (srcDir disk packageDir)).files.length ≤ depth) :
    ∃ result, importTreeAnalyze disk depth packageDir = some result ∧
      (result ≠ none ↔ disk.fileExists (elmJsonPath packageDir) = true ∧
        disk.readJson (elmJsonPath packageDir) ≠ none) ∧
      ∀ analysis, result = some analysis →
        let dir := disk.sourceDirectory (srcDir disk packageDir)
        analysis.srcDir = srcDir disk packageDir ∧
        elmParseExposedModules (disk.readJson (elmJsonPath packageDir)) =
          some analysis.exposedModules ∧
        (∀ path, path ∈ analysis.redundantFiles ↔ dir.SourceFile path ∧
          ∀ moduleName ∈ analysis.exposedModules, ¬ dir.ReachedFrom moduleName path) ∧
        analysis.redundantFiles.Sublist (collectAllElmFiles dir.entries) ∧
        ∀ moduleName ∈ analysis.exposedModules, ∃ visited,
          dir.traverse depth moduleName = some visited ∧ visited.Nodup ∧
          (∀ path, path ∈ visited ↔ dir.ReachedFrom moduleName path) ∧
          ∀ start, dir.moduleFile moduleName = some start →
            (∀ path, dir.ReachedFrom moduleName path → dir.FitsPaths path) →
            ∀ showExternal, ∃ lines,
              dir.printTreeRecursive showExternal depth start "" ⟨[], []⟩ =
                .ok ⟨visited, lines⟩ := by
  unfold importTreeAnalyze
  by_cases exists_ : disk.fileExists (elmJsonPath packageDir) = true
  swap
  · rw [if_neg exists_]
    exact ⟨none, rfl, by simp [exists_], by simp⟩
  rw [if_pos exists_]
  cases parsed : disk.readJson (elmJsonPath packageDir) with
  | none => exact ⟨none, rfl, by simp, by simp⟩
  | some root =>
    obtain ⟨included, ran, all⟩ := included_spec enough (exposedModulesOf root) []
    dsimp only [elmParseExposedModules, Option.map_some]
    rw [ran]
    refine ⟨some _, rfl, by simp [exists_], ?_⟩
    rintro _ ⟨⟩
    refine ⟨rfl, rfl, fun path => ?_, List.filter_sublist, fun moduleName _ => ?_⟩
    · rw [List.mem_filter, SourceDirectory.sourceFile_iff, Bool.not_eq_true',
        List.contains_eq_mem, decide_eq_false_iff_not, all path]
      simp
    · obtain ⟨visited, runs, nodup, reached⟩ := SourceDirectory.traverse_spec enough moduleName
      refine ⟨visited, runs, nodup, reached, fun start found fits showExternal => ?_⟩
      refine SourceDirectory.printTree_visits showExternal depth "" ⟨[], []⟩ ?_
        ((SourceDirectory.traverse_visit found).symm.trans runs)
      exact fun path leads => fits path ⟨start, found, leads⟩

/-! ## A module that two exposed modules import -/

def sharedPath (name : Char) : RealPath := ⟨['/', name], rfl⟩

/-- `A` imports `B` and `C`, they import `D`, and that imports `A`; nothing imports `E`. -/
def diamondDirectory : SourceDirectory where
  entries := "ABCDE".toList.foldr
    (fun c rest => .file (String.ofList [c] ++ ".elm") (some (sharedPath c)) rest) .done
  skeletonParse path := some ⟨none,
    if path = sharedPath 'A' then ["B", "C"]
    else if path = sharedPath 'D' then ["A"]
    else if path = sharedPath 'E' then []
    else ["D"], []⟩

/-- A package that exposes `A` and `C`. -/
def diamondDisk : Disk where
  fileExists _ := true
  readJson _ := some (.object [("exposed-modules", .array [.string "A", .string "C"])])
  sourceDirectory _ := diamondDirectory

theorem importTreeAnalyze_exact_diamond :
    ∃ result, importTreeAnalyze diamondDisk 5 "/p" = some result ∧
      ∀ analysis, result = some analysis → ∀ path, path ∈ analysis.redundantFiles ↔
        diamondDirectory.SourceFile path ∧ ∀ moduleName ∈ analysis.exposedModules,
          ¬ diamondDirectory.ReachedFrom moduleName path := by
  obtain ⟨result, ran, -, all⟩ := @importTreeAnalyze_exact diamondDisk "/p" 5 (by decide)
  exact ⟨result, ran, fun analysis found => (all analysis found).2.2.1⟩

/-- `A` and `B` import `C`. -/
def sharedDirectory : SourceDirectory where
  entries := .file "A.elm" (some (sharedPath 'A')) (.file "B.elm" (some (sharedPath 'B'))
    (.file "C.elm" (some (sharedPath 'C')) .done))
  skeletonParse path :=
    if path = sharedPath 'C' then some ⟨some "C", [], []⟩ else some ⟨none, ["C"], []⟩

def sharedDisk : Disk where
  fileExists _ := true
  readJson _ := some (.object [("exposed-modules", .array [.string "A", .string "B"])])
  sourceDirectory _ := sharedDirectory

/-- `C` is visited for `A` and for `B`. -/
theorem importTreeAnalyze_visits_twice :
    (∃ analysis, importTreeAnalyze sharedDisk 3 "/p" = some (some analysis) ∧
      analysis.exposedModules = ["A", "B"] ∧ analysis.redundantFiles = []) ∧
    (["A", "B"].mapM (sharedDirectory.traverse 3)).map List.flatten =
      some [sharedPath 'A', sharedPath 'C', sharedPath 'B', sharedPath 'C'] := by
  refine ⟨⟨⟨[sharedPath 'A', sharedPath 'C', sharedPath 'B'], [], 3, "/p", "/p/src", ["A", "B"]⟩,
    ?_, rfl, rfl⟩, ?_⟩
  · decide
  · decide

end ElmWrap.ImportTree
