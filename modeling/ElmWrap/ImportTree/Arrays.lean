import Mathlib.Data.List.Nodup
import ElmWrap.DynArray
import ElmWrap.ImportTree.Redundant

/-!
# The arrays of `print_tree_recursive`

The tree is printed from arrays that grow. The names and the paths of the local imports
of a file share one count and one capacity, and only the names are ever moved to a larger
block. Where every file that is reached fits, each is printed under the first line that
names it, and nowhere else.
-/

namespace ElmWrap.ImportTree

open Lib (Block)
open Lib.DepthFirst
open Publish (RealPath)

/-! ## Memory -/

/-- The array of the files visited, and the lines printed. -/
structure PrintedArrays where
  visited : Block RealPath
  visitedCount : Nat
  visitedCapacity : Nat
  lines : List String

/-- The arrays of the imports of a file. -/
structure ImportArrays where
  localImportNames : Block String
  localImportPaths : Block RealPath
  localImportsCount : Nat
  localImportsCapacity : Nat
  externalImportNames : Block String
  externalImportsCount : Nat
  externalImportsCapacity : Nat

/-- The array `import_tree_print` begins with. -/
def PrintedArrays.start : PrintedArrays where
  visited := .fresh 64
  visitedCount := 0
  visitedCapacity := 64
  lines := []

/-- The arrays a file begins with. -/
def ImportArrays.start : ImportArrays where
  localImportNames := .fresh 16
  localImportPaths := .fresh 16
  localImportsCount := 0
  localImportsCapacity := 16
  externalImportNames := .fresh 16
  externalImportsCount := 0
  externalImportsCapacity := 16

namespace ImportArrays

/-- The two pushes for a local import. -/
def pushLocal (arrays : ImportArrays) (moduleName : String) (absPath : RealPath) :
    Option ImportArrays := do
  let (names, count, capacity) ← dynarrayPush arrays.localImportNames arrays.localImportsCount
    arrays.localImportsCapacity moduleName
  -- `local_imports_count--`
  let (paths, count, capacity) ← dynarrayPush arrays.localImportPaths (count - 1) capacity absPath
  return { arrays with
    localImportNames := names
    localImportPaths := paths
    localImportsCount := count
    localImportsCapacity := capacity }

/-- The push for an external import. -/
def pushExternal (arrays : ImportArrays) (moduleName : String) : Option ImportArrays := do
  let (names, count, capacity) ← dynarrayPush arrays.externalImportNames
    arrays.externalImportsCount arrays.externalImportsCapacity moduleName
  return { arrays with
    externalImportNames := names
    externalImportsCount := count
    externalImportsCapacity := capacity }

/-- The local imports, name and path. -/
def localImports (arrays : ImportArrays) : List (String × RealPath) :=
  (arrays.localImportNames.items arrays.localImportsCount).zip
    (arrays.localImportPaths.items arrays.localImportsCount)

/-- The external imports. -/
def externalImports (arrays : ImportArrays) : List String :=
  arrays.externalImportNames.items arrays.externalImportsCount

end ImportArrays

namespace SourceDirectory

/-- The loop of `print_tree_recursive` over the imports of a file: one import. -/
def pushImport (dir : SourceDirectory) (current : RealPath) (showExternal : Bool)
    (arrays : ImportArrays) (moduleName : String) : Option ImportArrays :=
  let modulePath := moduleNameToPath moduleName
  if dir.fileExists modulePath then
    match dir.realpath modulePath with
    | some absPath =>
      if absPath = current then some arrays else arrays.pushLocal moduleName absPath
    | none => some arrays
  else if showExternal then arrays.pushExternal moduleName
  else some arrays

/-- The loop of `print_tree_recursive` over the local imports: one import. -/
def printLocalArrays
    (recurse : RealPath → String → PrintedArrays → Except PrintFault PrintedArrays)
    (above : String) (totalImports : Nat) (printed : PrintedArrays) :
    (String × RealPath) × Nat → Except PrintFault PrintedArrays
  | ((moduleName, modAbsPath), i) =>
    let alreadyVisited := (printed.visited.items printed.visitedCount).contains modAbsPath
    let isLast := decide (i + 1 = totalImports)
    let shown := moduleName ++ (if alreadyVisited then " (↩ already shown)" else "")
    let printed := { printed with lines := printed.lines ++ [treeLine above isLast shown] }
    if alreadyVisited then .ok printed
    else recurse modAbsPath (above ++ (if isLast then "    " else "│   ")) printed

/-- `print_tree_recursive`, at a path that `realpath` has returned. -/
def printTreeArrays (dir : SourceDirectory) (showExternal : Bool) :
    Nat → RealPath → String → PrintedArrays → Except PrintFault PrintedArrays
  | depth, absPath, above, printed =>
    if absPath ∈ printed.visited.items printed.visitedCount then .ok printed
    else
      match depth with
      | 0 => .error .depth
      | depth + 1 =>
        match dynarrayPush printed.visited printed.visitedCount printed.visitedCapacity
            absPath with
        | none => .error .overrun
        | some (visited, visitedCount, visitedCapacity) =>
          let printed := { printed with visited, visitedCount, visitedCapacity }
          match dir.skeletonParse absPath with
          | none => .ok printed
          | some mod =>
            match mod.imports.foldlM (dir.pushImport absPath showExternal) .start with
            | none => .error .overrun
            | some imports => do
              let totalImports := imports.localImportsCount +
                if showExternal then imports.externalImportsCount else 0
              let recurse := dir.printTreeArrays showExternal depth
              let printed ← imports.localImports.zipIdx.foldlM
                (printLocalArrays recurse above totalImports) printed
              if showExternal then
                let others := imports.externalImports.zipIdx imports.localImportsCount
                let lines := others.map fun (moduleName, i) =>
                  treeLine above (decide (i + 1 = totalImports)) (moduleName ++ " (📦 external)")
                return { printed with lines := printed.lines ++ lines }
              else return printed

end SourceDirectory

/-! ## The arrays hold what the lists say -/

/-- The arrays of the files visited hold a list. -/
structure PrintedArrays.Stores (arrays : PrintedArrays) (printed : Printed) : Prop where
  visited : arrays.visited.Holds printed.visited
  counted : arrays.visitedCount = printed.visited.length
  sized : arrays.visitedCapacity = arrays.visited.size
  lines : arrays.lines = printed.lines

/-- The arrays of the imports of a file hold two lists. The capacity is that of the names. -/
structure ImportArrays.Stores (arrays : ImportArrays) (imports : SplitImports) : Prop where
  names : arrays.localImportNames.Holds (imports.localImports.map Prod.fst)
  paths : arrays.localImportPaths.Holds (imports.localImports.map Prod.snd)
  counted : arrays.localImportsCount = imports.localImports.length
  namesSized : arrays.localImportsCapacity = arrays.localImportNames.size
  pathsSized : arrays.localImportPaths.size = ImportTree.localImportsCapacity
  externals : arrays.externalImportNames.Holds imports.externalImports
  externalCounted : arrays.externalImportsCount = imports.externalImports.length
  externalSized : arrays.externalImportsCapacity = arrays.externalImportNames.size

theorem PrintedArrays.start_stores : PrintedArrays.start.Stores ⟨[], []⟩ where
  visited := Block.holds_nil _
  counted := rfl
  sized := (Block.size_fresh 64).symm
  lines := rfl

namespace ImportArrays

theorem start_stores : ImportArrays.start.Stores ⟨[], []⟩ where
  names := Block.holds_nil _
  paths := Block.holds_nil _
  counted := rfl
  namesSized := (Block.size_fresh 16).symm
  pathsSized := Block.size_fresh 16
  externals := Block.holds_nil _
  externalCounted := rfl
  externalSized := (Block.size_fresh 16).symm

variable {arrays : ImportArrays} {imports : SplitImports}

theorem Stores.localImports_eq (stores : arrays.Stores imports) :
    arrays.localImports = imports.localImports := by
  have names := stores.names.items_eq
  have paths := stores.paths.items_eq
  rw [List.length_map] at names paths
  unfold localImports
  rw [stores.counted, names, paths, List.zip_map', List.map_id']

theorem Stores.externalImports_eq (stores : arrays.Stores imports) :
    arrays.externalImports = imports.externalImports := by
  unfold externalImports
  rw [stores.externalCounted, stores.externals.items_eq]

/-- The push of a name, after which there is room under the capacity. -/
theorem Stores.pushName (stores : arrays.Stores imports) (moduleName : String) :
    ∃ names capacity,
      dynarrayPush arrays.localImportNames arrays.localImportsCount arrays.localImportsCapacity
        moduleName = some (names, imports.localImports.length + 1, capacity) ∧
      names.Holds (imports.localImports.map Prod.fst ++ [moduleName]) ∧ names.size = capacity ∧
      imports.localImports.length < capacity := by
  obtain ⟨names, capacity, pushed, held, sized⟩ := dynarrayPush_holds stores.names moduleName
  have longer := held.length_le
  rw [List.length_append, List.length_map, List.length_singleton] at longer
  rw [List.length_map, ← stores.namesSized, ← stores.counted] at pushed
  refine ⟨names, capacity, ?_, held, sized, by omega⟩
  rw [pushed, stores.counted]

/-- A local import is stored where its path has a place. -/
theorem Stores.pushLocal (stores : arrays.Stores imports)
    (room : imports.localImports.length < ImportTree.localImportsCapacity) (moduleName : String)
    (absPath : RealPath) :
    ∃ after, arrays.pushLocal moduleName absPath = some after ∧
      after.Stores { imports with
        localImports := imports.localImports ++ [(moduleName, absPath)] } := by
  obtain ⟨names, capacity, pushed, held, sized, less⟩ := stores.pushName moduleName
  obtain ⟨paths, wrote, same, held'⟩ :=
    stores.paths.write (by rw [List.length_map, stores.pathsSized]; exact room) absPath
  rw [List.length_map] at wrote
  unfold ImportArrays.pushLocal
  dsimp only [bind, Option.bind]
  rw [pushed]
  dsimp only
  rw [Nat.add_sub_cancel, dynarrayPush_room less, wrote]
  refine ⟨_, rfl, ?_⟩
  exact {
    names := by rwa [List.map_append]
    paths := by rwa [List.map_append]
    counted := by rw [List.length_append]; rfl
    namesSized := sized.symm
    pathsSized := same.trans stores.pathsSized
    externals := stores.externals
    externalCounted := stores.externalCounted
    externalSized := stores.externalSized }

/-- The path of the import behind the last place is written behind the end of the array. -/
theorem Stores.pushLocal_full (stores : arrays.Stores imports)
    (full : ImportTree.localImportsCapacity ≤ imports.localImports.length) (moduleName : String)
    (absPath : RealPath) : arrays.pushLocal moduleName absPath = none := by
  obtain ⟨names, capacity, pushed, -, -, less⟩ := stores.pushName moduleName
  unfold ImportArrays.pushLocal
  dsimp only [bind, Option.bind]
  rw [pushed]
  dsimp only
  rw [Nat.add_sub_cancel, dynarrayPush_room less,
    Block.write_outside (stores.pathsSized.trans_le full)]
  rfl

theorem Stores.pushExternal (stores : arrays.Stores imports) (moduleName : String) :
    ∃ after, arrays.pushExternal moduleName = some after ∧
      after.Stores { imports with externalImports := imports.externalImports ++ [moduleName] } := by
  obtain ⟨names, capacity, pushed, held, sized⟩ :=
    dynarrayPush_holds stores.externals moduleName
  rw [← stores.externalSized, ← stores.externalCounted] at pushed
  unfold ImportArrays.pushExternal
  dsimp only [bind, Option.bind]
  rw [pushed]
  refine ⟨_, rfl, ?_⟩
  exact {
    names := stores.names
    paths := stores.paths
    counted := stores.counted
    namesSized := stores.namesSized
    pathsSized := stores.pathsSized
    externals := held
    externalCounted := by rw [List.length_append, ← stores.externalCounted]; rfl
    externalSized := sized.symm }

end ImportArrays

/-- The imports of a file are stored where the paths have a place. -/
def StoredImports (result : Option ImportArrays) (imports : SplitImports) : Prop :=
  (localImportsCapacity < imports.localImports.length → result = none) ∧
    (imports.localImports.length ≤ localImportsCapacity →
      ∃ after, result = some after ∧ after.Stores imports)

namespace SourceDirectory

variable {dir : SourceDirectory}

/-- The loop over the imports stores what `splitImports` says. -/
theorem pushImports_stores (current : RealPath) (showExternal : Bool) (names : List String)
    {arrays : ImportArrays} {imports : SplitImports} (stores : arrays.Stores imports)
    (fits : imports.localImports.length ≤ localImportsCapacity) :
    StoredImports (names.foldlM (dir.pushImport current showExternal) arrays)
      ⟨imports.localImports ++ (dir.splitImports current showExternal names).localImports,
        imports.externalImports ++
          (dir.splitImports current showExternal names).externalImports⟩ := by
  induction names generalizing arrays imports with
  | nil =>
    dsimp only [splitImports]
    rw [List.append_nil, List.append_nil]
    exact ⟨fun more => absurd fits (Nat.not_le.mpr more), fun _ => ⟨arrays, rfl, stores⟩⟩
  | cons moduleName rest ih =>
    rw [List.foldlM_cons]
    unfold splitImports
    have step : dir.pushImport current showExternal arrays moduleName =
        if dir.fileExists (moduleNameToPath moduleName) then
          match dir.realpath (moduleNameToPath moduleName) with
          | some absPath =>
            if absPath = current then some arrays else arrays.pushLocal moduleName absPath
          | none => some arrays
        else if showExternal then arrays.pushExternal moduleName
        else some arrays := rfl
    rw [step]
    dsimp only
    by_cases exists_ : dir.fileExists (moduleNameToPath moduleName) = true
    · rw [if_pos exists_, if_pos exists_]
      cases found : dir.realpath (moduleNameToPath moduleName) with
      | none => exact ih stores fits
      | some absPath =>
        dsimp only
        by_cases same : absPath = current
        · rw [if_pos same, if_pos same]
          exact ih stores fits
        · rw [if_neg same, if_neg same]
          by_cases full : localImportsCapacity ≤ imports.localImports.length
          · rw [stores.pushLocal_full full]
            refine ⟨fun _ => rfl, fun less => absurd less ?_⟩
            rw [List.length_append, List.length_cons]
            omega
          · obtain ⟨first, pushed, stores'⟩ :=
              stores.pushLocal (Nat.not_le.mp full) moduleName absPath
            have later := ih stores' (by rw [List.length_append]; exact Nat.not_le.mp full)
            rw [pushed]
            dsimp only at later
            rw [List.append_assoc] at later
            exact later
    · rw [if_neg exists_, if_neg exists_]
      cases showExternal with
      | false => exact ih stores fits
      | true =>
        obtain ⟨first, pushed, stores'⟩ := stores.pushExternal moduleName
        have later := ih stores' fits
        rw [if_pos rfl, if_pos rfl, pushed]
        dsimp only at later
        rw [List.append_assoc] at later
        exact later

end SourceDirectory

/-! ## The printed tree, from arrays and from lists -/

/-- Two runs end alike. -/
def Agrees : Except PrintFault PrintedArrays → Except PrintFault Printed → Prop
  | .ok arrays, .ok printed => arrays.Stores printed
  | .error fault, .error fault' => fault = fault'
  | _, _ => False

theorem Agrees.bind {first : Except PrintFault PrintedArrays} {first' : Except PrintFault Printed}
    (agrees : Agrees first first') {f : PrintedArrays → Except PrintFault PrintedArrays}
    {g : Printed → Except PrintFault Printed}
    (later : ∀ arrays printed, arrays.Stores printed → Agrees (f arrays) (g printed)) :
    Agrees (first >>= f) (first' >>= g) := by
  cases first with
  | error fault =>
    cases first' with
    | error fault' => exact agrees
    | ok printed => exact agrees.elim
  | ok arrays =>
    cases first' with
    | error fault' => exact agrees.elim
    | ok printed => exact later arrays printed agrees

theorem Agrees.foldlM {α : Type} {f : PrintedArrays → α → Except PrintFault PrintedArrays}
    {g : Printed → α → Except PrintFault Printed}
    (step : ∀ a arrays printed, arrays.Stores printed → Agrees (f arrays a) (g printed a))
    (items : List α) {arrays : PrintedArrays} {printed : Printed} (stores : arrays.Stores printed) :
    Agrees (items.foldlM f arrays) (items.foldlM g printed) := by
  induction items generalizing arrays printed with
  | nil => exact stores
  | cons a rest ih =>
    rw [List.foldlM_cons, List.foldlM_cons]
    exact (step a arrays printed stores).bind fun _ _ stores => ih stores

theorem PrintedArrays.Stores.items_eq {arrays : PrintedArrays} {printed : Printed}
    (stores : arrays.Stores printed) :
    arrays.visited.items arrays.visitedCount = printed.visited := by
  rw [stores.counted, stores.visited.items_eq]

theorem PrintedArrays.Stores.print {arrays : PrintedArrays} {printed : Printed}
    (stores : arrays.Stores printed) (lines : List String) :
    ({ arrays with lines := arrays.lines ++ lines } : PrintedArrays).Stores
      { printed with lines := printed.lines ++ lines } where
  visited := stores.visited
  counted := stores.counted
  sized := stores.sized
  lines := congrArg (· ++ lines) stores.lines

namespace SourceDirectory

variable {dir : SourceDirectory}

theorem splitImports_hidden (current : RealPath) (names : List String) :
    (dir.splitImports current false names).externalImports = [] := by
  induction names with
  | nil => rfl
  | cons moduleName rest ih =>
    unfold splitImports
    dsimp only
    split
    · split
      · split
        · exact ih
        · exact ih
      · exact ih
    · exact ih

theorem printLocal_agrees
    {recurse : RealPath → String → PrintedArrays → Except PrintFault PrintedArrays}
    {recurse' : RealPath → String → Printed → Except PrintFault Printed}
    (recurses : ∀ path above arrays printed, PrintedArrays.Stores arrays printed →
      Agrees (recurse path above arrays) (recurse' path above printed))
    (above : String) (totalImports : Nat) (item : (String × RealPath) × Nat)
    (arrays : PrintedArrays) (printed : Printed) (stores : arrays.Stores printed) :
    Agrees (printLocalArrays recurse above totalImports arrays item)
      (printLocal recurse' above totalImports printed item) := by
  obtain ⟨⟨moduleName, path⟩, i⟩ := item
  unfold printLocalArrays printLocal
  rw [stores.items_eq]
  dsimp only
  by_cases visited : printed.visited.contains path = true
  · rw [visited]
    exact stores.print _
  · rw [Bool.not_eq_true] at visited
    rw [visited]
    exact recurses _ _ _ _ (stores.print _)

/-- The arrays print what the lists print. -/
theorem printTreeArrays_agrees (showExternal : Bool) (depth : Nat) (absPath : RealPath)
    (above : String) {arrays : PrintedArrays} {printed : Printed}
    (stores : arrays.Stores printed) :
    Agrees (dir.printTreeArrays showExternal depth absPath above arrays)
      (dir.printTreeRecursive showExternal depth absPath above printed) := by
  induction depth generalizing absPath above arrays printed with
  | zero =>
    unfold printTreeArrays printTreeRecursive
    rw [stores.items_eq]
    by_cases visited : absPath ∈ printed.visited
    · rw [if_pos visited, if_pos visited]
      exact stores
    · rw [if_neg visited, if_neg visited]
      rfl
  | succ depth ih =>
    unfold printTreeArrays printTreeRecursive
    rw [stores.items_eq]
    by_cases visited : absPath ∈ printed.visited
    · rw [if_pos visited, if_pos visited]
      exact stores
    rw [if_neg visited, if_neg visited]
    obtain ⟨visited, capacity, pushed, held, sized⟩ := dynarrayPush_holds stores.visited absPath
    rw [← stores.counted, ← stores.sized] at pushed
    rw [pushed]
    have begins : PrintedArrays.Stores
        { arrays with
          visited := visited
          visitedCount := arrays.visitedCount + 1
          visitedCapacity := capacity }
        { printed with visited := printed.visited ++ [absPath] } := {
      visited := held
      counted := by rw [List.length_append, ← stores.counted]; rfl
      sized := sized.symm
      lines := stores.lines }
    dsimp only
    cases parsed : dir.skeletonParse absPath with
    | none => exact begins
    | some mod =>
      dsimp only
      obtain ⟨tooMany, within⟩ := @pushImports_stores dir absPath showExternal mod.imports _ _
        ImportArrays.start_stores (Nat.zero_le _)
      by_cases more : localImportsCapacity <
          (dir.splitImports absPath showExternal mod.imports).localImports.length
      · rw [if_pos more, tooMany more]
        rfl
      · rw [if_neg more]
        obtain ⟨imports, ran, imported⟩ := within (Nat.not_lt.mp more)
        rw [ran]
        dsimp only [ImportArrays.start, List.nil_append] at imported ⊢
        rw [imported.localImports_eq, imported.counted, imported.externalCounted,
          imported.externalImports_eq]
        cases showExternal with
        | true =>
          refine Agrees.bind ?_ fun _ _ stores => stores.print _
          exact Agrees.foldlM (printLocal_agrees ih above _) _ begins
        | false =>
          rw [splitImports_hidden]
          refine Agrees.bind ?_ fun arrays printed stores => ?_
          · exact Agrees.foldlM (printLocal_agrees ih above _) _ begins
          · exact (List.append_nil printed.lines).symm ▸ stores

end SourceDirectory

/-! ## What is printed -/

/-- What stands under a file: its imports, and under a file that is named for the first time what
stands under it. -/
inductive ImportForest
  | external (moduleNames : List String)
  | shown (moduleName : String) (path : RealPath) (rest : ImportForest)
  | under (moduleName : String) (path : RealPath) (below rest : ImportForest)

namespace ImportForest

/-- The imports of the file. -/
def imports : ImportForest → SplitImports
  | .external moduleNames => ⟨[], moduleNames⟩
  | .shown moduleName path rest =>
    ⟨(moduleName, path) :: rest.imports.localImports, rest.imports.externalImports⟩
  | .under moduleName path _ rest =>
    ⟨(moduleName, path) :: rest.imports.localImports, rest.imports.externalImports⟩

/-- The files whose imports are printed. -/
def files : ImportForest → List RealPath
  | .external _ => []
  | .shown _ _ rest => rest.files
  | .under _ path below rest => path :: below.files ++ rest.files

/-- There are no imports. -/
def isEmpty (forest : ImportForest) : Bool :=
  decide (forest.imports.localImports.length + forest.imports.externalImports.length = 0)

/-- The lines of external imports. -/
def externalLines (above : String) : List String → List String
  | [] => []
  | moduleName :: rest =>
    treeLine above rest.isEmpty (moduleName ++ " (📦 external)") :: externalLines above rest

/-- The lines. -/
def lines (above : String) : ImportForest → List String
  | .external moduleNames => externalLines above moduleNames
  | .shown moduleName _ rest =>
    treeLine above rest.isEmpty (moduleName ++ " (↩ already shown)") :: rest.lines above
  | .under moduleName _ below rest =>
    treeLine above rest.isEmpty moduleName ::
      below.lines (above ++ if rest.isEmpty then "    " else "│   ") ++ rest.lines above

end ImportForest

namespace SourceDirectory

/-- The imports of a file, as they are printed. -/
def importsOf (dir : SourceDirectory) (showExternal : Bool) (path : RealPath) : SplitImports :=
  match dir.skeletonParse path with
  | none => ⟨[], []⟩
  | some mod => dir.splitImports path showExternal mod.imports

/-- Where files have been visited, a forest shows the imports of each further file under the first
line that names it. -/
def ShowsOnce (dir : SourceDirectory) (showExternal : Bool) :
    List RealPath → ImportForest → Prop
  | _, .external _ => True
  | visited, .shown _ path rest => path ∈ visited ∧ dir.ShowsOnce showExternal visited rest
  | visited, .under _ path below rest =>
    path ∉ visited ∧ below.imports = dir.importsOf showExternal path ∧
      dir.ShowsOnce showExternal (visited ++ [path]) below ∧
      dir.ShowsOnce showExternal (visited ++ path :: below.files) rest

variable {dir : SourceDirectory}

theorem ShowsOnce.nodup {showExternal : Bool} {visited : List RealPath} {forest : ImportForest}
    (shows : dir.ShowsOnce showExternal visited forest) (nodup : visited.Nodup) :
    (visited ++ forest.files).Nodup := by
  induction forest generalizing visited with
  | external moduleNames => rwa [ImportForest.files, List.append_nil]
  | shown moduleName path rest ih => exact ih shows.2 nodup
  | under moduleName path below rest ihBelow ihRest =>
    obtain ⟨new, -, showsBelow, showsRest⟩ := shows
    have begins : (visited ++ [path]).Nodup :=
      nodup.append (List.nodup_singleton path) (List.disjoint_singleton.mpr new)
    have below := ihBelow showsBelow begins
    rw [List.append_assoc] at below
    have all := ihRest showsRest below
    rw [List.append_assoc] at all
    exact all

/-- Every import of a file is one that has been visited or is printed with its own imports, and so
is every import of a file that is printed. -/
theorem ShowsOnce.closed {showExternal : Bool} {visited : List RealPath} {forest : ImportForest}
    (shows : dir.ShowsOnce showExternal visited forest) :
    (∀ c ∈ forest.imports.localImports.map Prod.snd, c ∈ visited ++ forest.files) ∧
      ∀ b ∈ forest.files, ∀ c ∈ (dir.importsOf showExternal b).localImports.map Prod.snd,
        c ∈ visited ++ forest.files := by
  induction forest generalizing visited with
  | external moduleNames => exact ⟨nofun, nofun⟩
  | shown moduleName path rest ih =>
    obtain ⟨here, later⟩ := ih shows.2
    refine ⟨fun c on => ?_, later⟩
    rcases List.mem_cons.mp on with rfl | on
    · exact List.mem_append_left _ shows.1
    · exact here c on
  | under moduleName path below rest ihBelow ihRest =>
    obtain ⟨-, imports, showsBelow, showsRest⟩ := shows
    obtain ⟨hereBelow, laterBelow⟩ := ihBelow showsBelow
    obtain ⟨hereRest, laterRest⟩ := ihRest showsRest
    have grows : ∀ c ∈ visited ++ [path] ++ below.files,
        c ∈ visited ++ (path :: below.files ++ rest.files) := by
      intro c on
      simp only [List.mem_append, List.mem_cons, List.not_mem_nil, or_false] at on ⊢
      tauto
    have same : visited ++ path :: below.files ++ rest.files =
        visited ++ (path :: below.files ++ rest.files) := List.append_assoc _ _ _
    rw [same] at hereRest laterRest
    refine ⟨fun c on => ?_, fun b on c edge => ?_⟩
    · rcases List.mem_cons.mp on with rfl | on
      · exact List.mem_append_right _ (List.mem_cons_self ..)
      · exact hereRest c on
    · rcases List.mem_append.mp on with on | on
      · rcases List.mem_cons.mp on with rfl | on
        · exact grows c (hereBelow c (imports ▸ edge))
        · exact grows c (laterBelow b on c edge)
      · exact laterRest b on c edge

theorem importsOf_paths (showExternal : Bool) (path : RealPath) :
    (dir.importsOf showExternal path).localImports.map Prod.snd =
      (dir.importedFiles path).filter (· ≠ path) := by
  unfold importsOf importedFiles
  cases dir.skeletonParse path with
  | none => rfl
  | some mod => exact splitImports_paths path showExternal mod.imports

theorem importsOf_imports {showExternal : Bool} {a b : RealPath}
    (on : b ∈ (dir.importsOf showExternal a).localImports.map Prod.snd) : dir.Imports a b := by
  rw [importsOf_paths] at on
  exact edge_iff.mp (List.mem_of_mem_filter on)

theorem imports_importsOf (showExternal : Bool) {a b : RealPath} (imports : dir.Imports a b)
    (other : b ≠ a) : b ∈ (dir.importsOf showExternal a).localImports.map Prod.snd := by
  rw [importsOf_paths, List.mem_filter]
  exact ⟨edge_iff.mpr imports, by simpa using other⟩

/-- What a forest names is reached from the file it stands under. -/
theorem ShowsOnce.reached {showExternal : Bool} {start : RealPath} {visited : List RealPath}
    {forest : ImportForest} (shows : dir.ShowsOnce showExternal visited forest)
    (imports : ∀ c ∈ forest.imports.localImports.map Prod.snd,
      Relation.ReflTransGen dir.Imports start c) :
    ∀ b ∈ forest.files, Relation.ReflTransGen dir.Imports start b := by
  induction forest generalizing visited with
  | external moduleNames => exact nofun
  | shown moduleName path rest ih =>
    exact ih shows.2 fun c on => imports c (List.mem_cons_of_mem _ on)
  | under moduleName path below rest ihBelow ihRest =>
    obtain ⟨-, same, showsBelow, showsRest⟩ := shows
    have here := imports path (List.mem_cons_self ..)
    have below := ihBelow showsBelow fun c on => here.tail (importsOf_imports (same ▸ on))
    have rest := ihRest showsRest fun c on => imports c (List.mem_cons_of_mem _ on)
    intro b on
    rcases List.mem_append.mp on with on | on
    · rcases List.mem_cons.mp on with rfl | on
      · exact here
      · exact below b on
    · exact rest b on

/-- A forest under a file shows what is reached from it, each file once. -/
theorem ShowsOnce.exact {showExternal : Bool} {start : RealPath} {forest : ImportForest}
    (shows : dir.ShowsOnce showExternal [start] forest)
    (imports : forest.imports = dir.importsOf showExternal start) :
    (start :: forest.files).Nodup ∧
      ∀ path, path ∈ start :: forest.files ↔ Relation.ReflTransGen dir.Imports start path := by
  refine ⟨shows.nodup (List.nodup_singleton start), fun path => ⟨fun on => ?_, fun reached => ?_⟩⟩
  · rcases List.mem_cons.mp on with rfl | on
    · exact .refl
    · exact shows.reached (fun c on => .single (importsOf_imports (imports ▸ on))) path on
  · obtain ⟨here, later⟩ := shows.closed
    induction reached with
    | refl => exact List.mem_cons_self ..
    | @tail b c _ edge on =>
      by_cases other : c = b
      · exact other ▸ on
      · have named := imports_importsOf showExternal edge other
        rcases List.mem_cons.mp on with rfl | on
        · exact here c (imports ▸ named)
        · exact later b on c named

/-- A run that goes well prints what stands under a file, and every file it prints fits. -/
structure Shows (dir : SourceDirectory) (showExternal : Bool) (a : RealPath) (above : String)
    (printed result : Printed) (forest : ImportForest) : Prop where
  imports : forest.imports = dir.importsOf showExternal a
  once : dir.ShowsOnce showExternal (printed.visited ++ [a]) forest
  visited : result.visited = printed.visited ++ a :: forest.files
  lines : result.lines = printed.lines ++ forest.lines above
  fits : ∀ b ∈ a :: forest.files, dir.FitsPaths b

theorem externalLines_eq (above : String) (names : List String) (n : Nat) :
    ((names.zipIdx n).map fun (moduleName, i) =>
      treeLine above (decide (i + 1 = n + names.length)) (moduleName ++ " (📦 external)")) =
        ImportForest.externalLines above names := by
  induction names generalizing n with
  | nil => rfl
  | cons moduleName rest ih =>
    rw [List.zipIdx_cons, List.map_cons, List.length_cons]
    have same : n + (rest.length + 1) = n + 1 + rest.length := by omega
    have last : decide (n + 1 = n + 1 + rest.length) = rest.isEmpty := by
      cases rest with
      | nil => simp
      | cons _ rest => simp
    rw [same, ih (n + 1)]
    dsimp only
    rw [last]
    rfl

theorem printLocal_visited
    (recurse : RealPath → String → Printed → Except PrintFault Printed) (above : String)
    (totalImports i : Nat) {printed : Printed} {path : RealPath} (visited : path ∈ printed.visited)
    (moduleName : String) :
    printLocal recurse above totalImports printed ((moduleName, path), i) =
      .ok { printed with
        lines := printed.lines ++
          [treeLine above (decide (i + 1 = totalImports))
            (moduleName ++ " (↩ already shown)")] } := by
  unfold printLocal
  dsimp only
  rw [List.contains_eq_mem, decide_eq_true visited]
  rfl

theorem printLocal_new
    (recurse : RealPath → String → Printed → Except PrintFault Printed) (above : String)
    (totalImports i : Nat) {printed : Printed} {path : RealPath} (new : path ∉ printed.visited)
    (moduleName : String) :
    printLocal recurse above totalImports printed ((moduleName, path), i) =
      recurse path (above ++ if decide (i + 1 = totalImports) then "    " else "│   ")
        { printed with lines := printed.lines ++
          [treeLine above (decide (i + 1 = totalImports)) moduleName] } := by
  unfold printLocal
  dsimp only
  rw [List.contains_eq_mem, decide_eq_false new]
  rw [if_neg Bool.false_ne_true, if_neg Bool.false_ne_true, String.append_empty]

/-- The loop over the local imports prints a forest, up to its external imports. -/
theorem printLocal_shows {showExternal : Bool}
    {recurse : RealPath → String → Printed → Except PrintFault Printed}
    (one : ∀ a above printed result, a ∉ printed.visited → recurse a above printed = .ok result →
      ∃ forest, dir.Shows showExternal a above printed result forest)
    (above : String) (externals : List String) (localImports : List (String × RealPath)) (n : Nat)
    {printed result : Printed}
    (ran : (localImports.zipIdx n).foldlM
      (printLocal recurse above (n + localImports.length + externals.length)) printed =
        .ok result) :
    ∃ forest, forest.imports = ⟨localImports, externals⟩ ∧
      dir.ShowsOnce showExternal printed.visited forest ∧
      result.visited = printed.visited ++ forest.files ∧
      result.lines ++ ImportForest.externalLines above externals =
        printed.lines ++ forest.lines above ∧
      ∀ b ∈ forest.files, dir.FitsPaths b := by
  induction localImports generalizing n printed with
  | nil =>
    cases ran
    exact ⟨.external externals, rfl, trivial, (List.append_nil _).symm, rfl, nofun⟩
  | cons item rest ih =>
    obtain ⟨moduleName, path⟩ := item
    have total : n + (rest.length + 1) + externals.length =
        n + 1 + rest.length + externals.length := by omega
    rw [List.zipIdx_cons, List.foldlM_cons, List.length_cons, total] at ran
    -- the last import has nothing behind it
    have last : ∀ forest : ImportForest, forest.imports = ⟨rest, externals⟩ →
        decide (n + 1 = n + 1 + rest.length + externals.length) = forest.isEmpty := by
      intro forest imports
      unfold ImportForest.isEmpty
      rw [imports]
      exact decide_eq_decide.mpr (by dsimp only; omega)
    by_cases visited : path ∈ printed.visited
    · rw [printLocal_visited recurse above _ n visited] at ran
      obtain ⟨forest, imports, once, files, lines, fits⟩ := ih (n + 1) ran
      refine ⟨.shown moduleName path forest, ?_, ⟨visited, once⟩, files, ?_, fits⟩
      · unfold ImportForest.imports
        rw [imports]
      · rw [lines, last forest imports, List.append_assoc]
        rfl
    · rw [printLocal_new recurse above _ n visited] at ran
      cases first : recurse path (above ++ if decide (n + 1 = n + 1 + rest.length +
          externals.length) then "    " else "│   ") { printed with lines := printed.lines ++
            [treeLine above (decide (n + 1 = n + 1 + rest.length + externals.length))
              moduleName] } with
      | error fault =>
        rw [first] at ran
        cases ran
      | ok middle =>
        rw [first] at ran
        obtain ⟨below, shows⟩ := one _ _ _ _ (by exact visited) first
        obtain ⟨forest, imports, once, files, lines, fits⟩ := ih (n + 1) ran
        rw [shows.visited] at once files
        rw [last forest imports] at shows
        refine ⟨.under moduleName path below forest, ?_, ?_, ?_, ?_, ?_⟩
        · unfold ImportForest.imports
          rw [imports]
        · exact ⟨visited, shows.imports, shows.once, once⟩
        · rw [files, List.append_assoc]
          rfl
        · rw [lines, shows.lines, List.append_assoc, List.append_assoc]
          rfl
        · intro b on
          rcases List.mem_append.mp on with on | on
          · exact shows.fits b on
          · exact fits b on

theorem printTree_shows (showExternal : Bool) (depth : Nat) {a : RealPath} (above : String)
    {printed result : Printed} (new : a ∉ printed.visited)
    (ran : dir.printTreeRecursive showExternal depth a above printed = .ok result) :
    ∃ forest, dir.Shows showExternal a above printed result forest := by
  induction depth generalizing a above printed result with
  | zero =>
    unfold printTreeRecursive at ran
    rw [if_neg new] at ran
    cases ran
  | succ depth ih =>
    unfold printTreeRecursive at ran
    rw [if_neg new] at ran
    dsimp only at ran
    cases parsed : dir.skeletonParse a with
    | none =>
      rw [parsed] at ran
      cases ran
      refine ⟨.external [], ?_, trivial, rfl, (List.append_nil _).symm, ?_⟩
      · unfold importsOf
        rw [parsed]
        rfl
      · intro b on
        obtain rfl := List.mem_singleton.mp on
        unfold FitsPaths importedFiles
        rw [parsed]
        exact Nat.zero_le _
    | some mod =>
      rw [parsed] at ran
      dsimp only at ran
      split at ran
      · cases ran
      · rename_i within
        cases looped : (dir.splitImports a showExternal mod.imports).localImports.zipIdx.foldlM
            (printLocal (dir.printTreeRecursive showExternal depth) above
              ((dir.splitImports a showExternal mod.imports).localImports.length +
                (dir.splitImports a showExternal mod.imports).externalImports.length))
            { printed with visited := printed.visited ++ [a] } with
        | error fault =>
          rw [looped] at ran
          cases ran
        | ok middle =>
          rw [looped] at ran
          obtain ⟨forest, imports, once, files, lines, fits⟩ :=
            printLocal_shows (fun _ above _ _ new ran => ih above new ran) above _ _ 0
              (by rw [Nat.zero_add]; exact looped)
          cases ran
          refine ⟨forest, ?_, once, ?_, ?_, ?_⟩
          · unfold importsOf
            rw [parsed, imports]
          · rw [files, List.append_assoc]
            rfl
          · rw [← lines, ← externalLines_eq above _
              (dir.splitImports a showExternal mod.imports).localImports.length]
          · intro b on
            rcases List.mem_cons.mp on with rfl | on
            · have paths := dir.splitImports_paths b showExternal mod.imports
              unfold FitsPaths importedFiles
              rw [parsed]
              dsimp only
              rw [← paths, List.length_map]
              exact Nat.not_lt.mp within
            · exact fits b on

/-- The tree of an exposed module is printed to its end, with every element written inside its array
and the imports of every file that is reached under the first line that names it, just where no
file that is reached has more local imports than `local_import_paths` has places. -/
theorem printTreeArrays_exact (dir : SourceDirectory) (showExternal : Bool) {depth : Nat}
    (enough : dir.files.length ≤ depth) {moduleName : String} {start : RealPath}
    (found : dir.moduleFile moduleName = some start) :
    (∃ (printed : PrintedArrays) (forest : ImportForest),
      dir.printTreeArrays showExternal depth start "" .start = .ok printed ∧
      printed.lines = forest.lines "" ∧
      forest.imports = dir.importsOf showExternal start ∧
      dir.ShowsOnce showExternal [start] forest ∧
      (start :: forest.files).Nodup ∧
      ∀ path, path ∈ start :: forest.files ↔ dir.ReachedFrom moduleName path) ↔
    ∀ path, dir.ReachedFrom moduleName path → dir.FitsPaths path := by
  have reached : ∀ path, dir.ReachedFrom moduleName path ↔
      Relation.ReflTransGen dir.Imports start path := by
    intro path
    simp [ReachedFrom, found]
  simp only [reached]
  have agrees := @printTreeArrays_agrees dir showExternal depth start "" _ _
    PrintedArrays.start_stores
  constructor
  · rintro ⟨printed, forest, ran, -, -, -, -, files⟩
    rw [ran] at agrees
    cases listed : dir.printTreeRecursive showExternal depth start "" ⟨[], []⟩ with
    | error fault =>
      rw [listed] at agrees
      exact agrees.elim
    | ok result =>
      obtain ⟨forest', shows⟩ := printTree_shows showExternal depth "" List.not_mem_nil listed
      intro path leads
      exact shows.fits path ((shows.once.exact shows.imports).2 path |>.mpr leads)
  · intro fits
    obtain ⟨visited, visits⟩ := visit_returns (fun a _ b => importedFiles_closed a)
      (moduleFile_mem found) ((List.length_filter_le _ _).trans enough)
    obtain ⟨lines, listed⟩ := printTree_visits showExternal depth "" ⟨[], []⟩ fits visits
    obtain ⟨forest, shows⟩ := printTree_shows showExternal depth "" List.not_mem_nil listed
    rw [listed] at agrees
    cases ran : dir.printTreeArrays showExternal depth start "" .start with
    | error fault =>
      rw [ran] at agrees
      exact agrees.elim
    | ok printed =>
      rw [ran] at agrees
      obtain ⟨nodup, files⟩ := shows.once.exact shows.imports
      exact ⟨printed, forest, rfl, agrees.lines.trans shows.lines, shows.imports, shows.once,
        nodup, files⟩

end SourceDirectory

/-! ## A cycle, and a module with seventeen local imports -/

theorem diamondDirectory_fits (path : RealPath) : diamondDirectory.FitsPaths path := by
  unfold SourceDirectory.FitsPaths SourceDirectory.importedFiles diamondDirectory
  refine (List.length_filter_le _ _).trans ((List.length_filterMap_le _ _).trans ?_)
  dsimp only
  split_ifs <;> decide

theorem printTreeArrays_exact_diamond :
    ∃ (printed : PrintedArrays) (forest : ImportForest),
      diamondDirectory.printTreeArrays true 5 (sharedPath 'A') "" .start = .ok printed ∧
      printed.lines = forest.lines "" ∧ (sharedPath 'A' :: forest.files).Nodup := by
  obtain ⟨printed, forest, ran, lines, -, -, nodup, -⟩ :=
    (@SourceDirectory.printTreeArrays_exact diamondDirectory true 5 (by decide) "A"
      (sharedPath 'A') (by decide)).mpr fun path _ => diamondDirectory_fits path
  exact ⟨printed, forest, ran, lines, nodup⟩

/-- The modules `B` to `R`. -/
def manyNames : List Char := "BCDEFGHIJKLMNOPQR".toList

/-- `A` imports all the other modules. -/
def manyDirectory : SourceDirectory where
  entries := ('A' :: manyNames).foldr
    (fun c rest => .file (String.ofList [c] ++ ".elm") (some (sharedPath c)) rest) .done
  skeletonParse path :=
    if path = sharedPath 'A' then some ⟨none, manyNames.map fun c => String.ofList [c], []⟩
    else some ⟨none, [], []⟩

/-- The path of the last import is written behind the end of `local_import_paths`. -/
theorem printTreeArrays_overrun :
    manyDirectory.moduleFile "A" = some (sharedPath 'A') ∧ manyDirectory.files.length = 18 ∧
      (match manyDirectory.printTreeArrays false 18 (sharedPath 'A') "" .start with
        | .ok _ => false
        | .error fault => fault = .overrun) = true := by
  exact ⟨by decide, by decide, by decide⟩

end ElmWrap.ImportTree
