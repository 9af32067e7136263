import ElmWrap.Extract.Demotion
import ElmWrap.Lib.Relocation

/-!
# The files that are moved into the package

`package extract` selects the files below its PATH arguments, checks that they import no
other module of the application, makes the package and then moves one file after the
other into its `src`. The functions are those of `extract_cmd.c` up to the last move.
The characters of a path stand for its bytes.
-/

namespace ElmWrap.Extract

open Lib.Relocation (Trees)
open Publish (Child Entries RealPath)

/-! ## Paths -/

/-- `path_is_elm_file`. -/
def pathIsElmFile (path : List Char) : Bool :=
  4 < path.length && path.drop (path.length - 4) = ".elm".toList

/-- `compute_relative_path`. -/
def computeRelativePath (base file : List Char) : Option (List Char) :=
  if file.length ≤ base.length || !base.isPrefixOf file then none
  else some ((file.drop base.length).dropWhile (· = '/'))

/-- `best_base`: the first of the longest source directories that the file is below. -/
def bestBase (file : List Char) (srcDirs : List (List Char)) : Option (List Char) :=
  srcDirs.foldl (fun best base =>
    if base.isPrefixOf file && file[base.length]? = some '/' &&
        (best.elim 0 List.length : Nat) < base.length then some base
    else best) none

/-- `compute_dest_relative_from_app_srcdirs`. -/
def computeDestRelativeFromAppSrcdirs (file : List Char) (srcDirs : List (List Char)) :
    Option (List Char) :=
  (bestBase file srcDirs).bind (computeRelativePath · file)

/-- `basename`, for a path that is not empty. -/
def basename (path : List Char) : List Char :=
  match (path.reverse.dropWhile (· = '/')).takeWhile (· ≠ '/') with
  | [] => ['/']
  | name => name.reverse

/-- The names on a path. -/
def components (path : List Char) : List (List Char) := (path.splitOn '/').filter (· ≠ [])

/-! ## The selection -/

/-- An entry of `SelectedFiles`. -/
structure SelectedFile where
  absPath : RealPath
  destRelative : List Char
deriving DecidableEq

/-- A PATH argument, and what `stat` and `realpath` say of it. -/
structure PathArgument where
  text : String
  stat : Option Child

/-- A file with its destination: as in the source directory it is in, or else this one. -/
def selectFile (srcDirs : List (List Char)) (fallback : Option (List Char)) (file : RealPath) :
    Option SelectedFile :=
  match computeDestRelativeFromAppSrcdirs file.text srcDirs with
  | some rel => some ⟨file, rel⟩
  | none => fallback.map fun rel => ⟨file, rel⟩

/-- `DIR_BASENAME/RELATIVE_FROM_ROOT`. -/
def destBelow (rootAbs dirBasename file : List Char) : Option (List Char) :=
  (computeRelativePath rootAbs file).bind fun rel =>
    if maxPathLength ≤ dirBasename.length + 1 + rel.length then none
    else some (dirBasename ++ '/' :: rel)

/-- `collect_files_recursive`. -/
def collectFilesRecursive (srcDirs : List (List Char)) (rootAbs dirBasename : List Char) :
    List Char → Entries → List SelectedFile
  | _, .done => []
  | dir, .file name real rest =>
    let others := collectFilesRecursive srcDirs rootAbs dirBasename dir rest
    if maxPathLength ≤ dir.length + 1 + name.toList.length then others
    else
      (real.bind fun file =>
        selectFile srcDirs (destBelow rootAbs dirBasename file.text) file).toList ++ others
  | dir, .directory name _ below rest =>
    let others := collectFilesRecursive srcDirs rootAbs dirBasename dir rest
    if maxPathLength ≤ dir.length + 1 + name.toList.length then others
    else
      collectFilesRecursive srcDirs rootAbs dirBasename (dir ++ '/' :: name.toList) below ++ others
  | dir, .other _ _ rest => collectFilesRecursive srcDirs rootAbs dirBasename dir rest

/-- The checks of an argument: it exists, and is a directory or has the name of an Elm file. -/
def PathArgument.valid (argument : PathArgument) : Bool :=
  match argument.stat with
  | none => false
  | some (.directory _ _) => true
  | some _ => pathIsElmFile argument.text.toList

/-- The files of an argument; `none` where it cannot be resolved. -/
def PathArgument.selected (srcDirs : List (List Char)) (argument : PathArgument) :
    Option (List SelectedFile) :=
  match argument.stat with
  | none => none
  | some (.directory real entries) =>
    real.map fun dir =>
      collectFilesRecursive srcDirs dir.text (basename dir.text) dir.text entries
  | some child =>
    child.real.map fun file => (selectFile srcDirs (some (basename file.text)) file).toList

/-- No violation: every Elm file that is selected can be parsed, and each module of the application
that it imports is selected. -/
def importsSelected (disk : AppDisk) (srcDirs : List String) (selected : List SelectedFile) :
    Bool :=
  selected.all fun s =>
    !pathIsElmFile s.absPath.text ||
      match disk.skeletonParse s.absPath with
      | none => false
      | some mod => mod.imports.all fun importName =>
        match resolveLocalImportToFile disk importName srcDirs with
        | none => true
        | some resolved => selected.any (·.absPath.text = resolved.toList)

/-! ## Moves -/

/-- What goes wrong with a move. -/
inductive MoveFault
  /-- A directory cannot be made, or the file cannot be renamed. -/
  | refused
  /-- To another device it is copied. The copy stops, with this left of it. -/
  | copyStops (left : Option String)
  /-- It has been copied and cannot be removed. -/
  | remains
deriving DecidableEq

/-- What the command is called with and what it meets. -/
structure ExtractCommand where
  disk : AppDisk
  appRootDir : String
  /-- `parse_package_install_spec` accepts PACKAGE. -/
  specified : Bool
  targetPath : List Char
  targetExists : Bool
  paths : List PathArgument
  confirmed : Bool
  /-- `mkdir_p`. -/
  makesTarget : Bool
  /-- `package_init_at_path`. Its templates have no file below `src`. -/
  initializes : Bool
  /-- What the moves meet, in their order. -/
  fault : Nat → Option MoveFault

/-- The files outside the package by their paths, and those below its `src` by the names on their
paths from there. -/
abbrev FileTrees := Trees RealPath (List (List Char)) String

/-- `DEST_RELATIVE` below `src`. -/
def SelectedFile.dest (s : SelectedFile) : List (List Char) := components s.destRelative

/-- One of two paths leads through the other. -/
def Crosses (d e : List (List Char)) : Prop := d ≠ e ∧ (d <+: e ∨ e <+: d)

instance (d e : List (List Char)) : Decidable (Crosses d e) := inferInstanceAs (Decidable (_ ∧ _))

/-- A destination has a file on its way, or is a directory. -/
def Blocked (trees : FileTrees) (dest : List (List Char)) : Prop :=
  dest = [] ∨ ∃ d ∈ trees.target.keys, Crosses d dest

instance (trees : FileTrees) (dest : List (List Char)) : Decidable (Blocked trees dest) :=
  inferInstanceAs (Decidable (_ ∨ _))

/-- `move_file`. A rename replaces what is there. -/
def moveFile (trees : FileTrees) (s : SelectedFile) (fault : Option MoveFault) :
    FileTrees × Bool :=
  match trees.source.lookup s.absPath with
  | none => (trees, false)
  | some contents =>
    if Blocked trees s.dest then (trees, false)
    else
      match fault with
      | some .refused => (trees, false)
      | some (.copyStops none) => (trees, false)
      | some (.copyStops (some left)) =>
        ({ trees with target := trees.target.insert s.dest left }, false)
      | some .remains => ({ trees with target := trees.target.insert s.dest contents }, false)
      | none => (trees.move s.absPath s.dest contents, true)

/-- `snprintf` has room for the destination. -/
def ExtractCommand.fits (command : ExtractCommand) (s : SelectedFile) : Bool :=
  command.targetPath.length + "/src".length + 1 + s.destRelative.length < maxPathLength

/-- The loop over the selected files, from an index on. -/
def moveFiles (command : ExtractCommand) :
    Nat → List SelectedFile → FileTrees → FileTrees × Bool
  | _, [], trees => (trees, true)
  | i, s :: rest, trees =>
    if !command.fits s then (trees, false)
    else
      match moveFile trees s (command.fault i) with
      | (trees, false) => (trees, false)
      | (trees, true) => moveFiles command (i + 1) rest trees

/-- The selected files; `none` where the command ends with an error before it asks. -/
def ExtractCommand.selection (command : ExtractCommand) : Option (List SelectedFile) :=
  match command.disk.elmJson with
  | none => none
  | some appJson =>
    if appJson.type ≠ .application || !command.specified || command.targetExists ||
        !command.paths.all PathArgument.valid then none
    else
      match getAppSourceDirsAbs command.disk command.appRootDir with
      | none => none
      | some srcDirs =>
        match command.paths.mapM (PathArgument.selected (srcDirs.map String.toList)) with
        | none => none
        | some selected =>
          let selected := selected.flatten
          if !selected.any fun s => pathIsElmFile s.absPath.text then none
          else if !importsSelected command.disk srcDirs selected then none
          else some selected

/-- The answer is yes, and there is a package to move files to. -/
def ExtractCommand.proceeds (command : ExtractCommand) : Bool :=
  command.confirmed && command.makesTarget && command.initializes &&
    command.targetPath.length + "/src".length < maxPathLength

/-- How far the command comes. -/
inductive ExtractEnd
  /-- It ends before it moves a file. -/
  | stopped
  /-- It ends at a file that it cannot move. -/
  | failed
  | moved
deriving DecidableEq

/-- `cmd_extract`, up to the last move. -/
def cmdExtract (command : ExtractCommand) (app : Finmap fun _ : RealPath => String) :
    FileTrees × ExtractEnd :=
  match command.selection with
  | none => (⟨app, ∅⟩, .stopped)
  | some selected =>
    if !command.proceeds then (⟨app, ∅⟩, .stopped)
    else
      match moveFiles command 0 selected ⟨app, ∅⟩ with
      | (trees, true) => (trees, .moved)
      | (trees, false) => (trees, .failed)

/-! ## When all files are moved -/

/-- A selected file as a move between the trees. -/
def SelectedFile.move (s : SelectedFile) : RealPath × List (List Char) := (s.absPath, s.dest)

/-- No move is blocked or meets a fault. -/
structure Placed (command : ExtractCommand) (i : Nat) (selected : List SelectedFile)
    (trees : FileTrees) : Prop where
  fits : ∀ s ∈ selected, command.fits s = true
  faultless : ∀ j < selected.length, command.fault (i + j) = none
  free : ∀ s ∈ selected, ¬ Blocked trees s.dest
  apart : selected.Pairwise fun s t => ¬ Crosses s.dest t.dest

section

variable {command : ExtractCommand} {trees after : FileTrees}

theorem moveFile_true {s : SelectedFile} {fault : Option MoveFault} :
    moveFile trees s fault = (after, true) ↔
      ¬ Blocked trees s.dest ∧ fault = none ∧
        ∃ contents, trees.source.lookup s.absPath = some contents ∧
          trees.move s.absPath s.dest contents = after := by
  unfold moveFile
  cases found : trees.source.lookup s.absPath with
  | none => simp
  | some contents =>
    by_cases blocked : Blocked trees s.dest
    · simp [blocked]
    · rcases fault with _ | _ | left | _
      · simp [blocked]
      · simp [blocked]
      · cases left with
        | none => simp [blocked]
        | some left => simp [blocked]
      · simp [blocked]

/-- A move that fails leaves the source files. -/
theorem moveFile_false {s : SelectedFile} {fault : Option MoveFault}
    (fails : (moveFile trees s fault).2 = false) :
    (moveFile trees s fault).1.source = trees.source := by
  unfold moveFile at fails ⊢
  split
  · rfl
  · rename_i contents found
    rw [found] at fails
    dsimp only at fails
    split
    · rfl
    · rename_i free
      rw [if_neg free] at fails
      rcases fault with _ | _ | left | _
      · cases fails
      · rfl
      · cases left <;> rfl
      · rfl

theorem blocked_move {s t : SelectedFile} {contents : String} :
    Blocked (trees.move s.absPath s.dest contents) t.dest ↔
      Blocked trees t.dest ∨ Crosses s.dest t.dest := by
  unfold Blocked Trees.move
  simp only [Finmap.mem_keys, Finmap.mem_insert]
  rw [or_assoc]
  refine or_congr_right ?_
  constructor
  · rintro ⟨d, rfl | there, crosses⟩
    · exact Or.inr crosses
    · exact Or.inl ⟨d, there, crosses⟩
  · rintro (⟨d, there, crosses⟩ | crosses)
    · exact ⟨d, Or.inr there, crosses⟩
    · exact ⟨s.dest, Or.inl rfl, crosses⟩

theorem placed_cons {i : Nat} {s : SelectedFile} {rest : List SelectedFile} (contents : String) :
    Placed command i (s :: rest) trees ↔
      command.fits s = true ∧ ¬ Blocked trees s.dest ∧ command.fault i = none ∧
        Placed command (i + 1) rest (trees.move s.absPath s.dest contents) := by
  constructor
  · intro placed
    obtain ⟨fits, fitsRest⟩ := List.forall_mem_cons.mp placed.fits
    obtain ⟨free, freeRest⟩ := List.forall_mem_cons.mp placed.free
    obtain ⟨apart, apartRest⟩ := List.pairwise_cons.mp placed.apart
    refine ⟨fits, free, placed.faultless 0 (Nat.zero_lt_succ _), fitsRest, ?_, ?_, apartRest⟩
    · intro j below
      rw [Nat.add_right_comm, Nat.add_assoc]
      exact placed.faultless (j + 1) (Nat.succ_lt_succ below)
    · intro t member blocked
      rcases blocked_move.mp blocked with blocked | crosses
      · exact freeRest t member blocked
      · exact apart t member crosses
  · rintro ⟨fits, free, faultless, placed⟩
    refine ⟨List.forall_mem_cons.mpr ⟨fits, placed.fits⟩, ?_, ?_, ?_⟩
    · intro j below
      cases j with
      | zero => exact faultless
      | succ j =>
        rw [Nat.add_comm j 1, ← Nat.add_assoc]
        exact placed.faultless j (Nat.lt_of_succ_lt_succ below)
    · refine List.forall_mem_cons.mpr ⟨free, fun t member blocked => ?_⟩
      exact placed.free t member (blocked_move.mpr (Or.inl blocked))
    · refine List.pairwise_cons.mpr ⟨fun t member crosses => ?_, placed.apart⟩
      exact placed.free t member (blocked_move.mpr (Or.inr crosses))

/-- The loop comes to its end just where nothing is blocked and each file is there to be moved. -/
theorem moveFiles_true {i : Nat} {selected : List SelectedFile} :
    moveFiles command i selected trees = (after, true) ↔
      Placed command i selected trees ∧
        Trees.moveAll (selected.map SelectedFile.move) trees = some after := by
  induction selected generalizing i trees with
  | nil =>
    unfold moveFiles
    rw [List.map_nil, Trees.moveAll, Option.some.injEq, Prod.mk.injEq, and_iff_left rfl]
    refine (and_iff_right ⟨?_, ?_, ?_, .nil⟩).symm
    · exact List.forall_mem_nil _
    · exact fun j below => absurd below (Nat.not_lt_zero j)
    · exact List.forall_mem_nil _
  | cons s rest ih =>
    rw [List.map_cons, Trees.moveAll_cons]
    unfold moveFiles
    by_cases fits : command.fits s = true
    · rw [fits, if_neg (by decide)]
      constructor
      · intro ran
        split at ran
        · cases ran
        · rename_i middle moved
          obtain ⟨free, faultless, contents, found, rfl⟩ := moveFile_true.mp moved
          obtain ⟨placed, others⟩ := ih.mp ran
          have all := (placed_cons contents).mpr ⟨fits, free, faultless, placed⟩
          exact ⟨all, contents, found, others⟩
      · rintro ⟨placed, contents, found, others⟩
        obtain ⟨-, free, faultless, placed⟩ := (placed_cons contents).mp placed
        rw [moveFile_true.mpr ⟨free, faultless, contents, found, rfl⟩]
        exact ih.mpr ⟨placed, others⟩
    · have short := Bool.eq_false_of_not_eq_true fits
      rw [short, Bool.not_false, if_pos rfl]
      constructor
      · intro ran
        cases ran
      · rintro ⟨placed, -⟩
        exact absurd (placed.fits s List.mem_cons_self) fits

/-- What has been moved does not come back. -/
theorem moveFiles_source {i : Nat} {selected : List SelectedFile} {path : RealPath}
    (gone : path ∉ trees.source) : path ∉ (moveFiles command i selected trees).1.source := by
  induction selected generalizing i trees with
  | nil => exact gone
  | cons s rest ih =>
    unfold moveFiles
    split
    · exact gone
    · have kept : (moveFile trees s (command.fault i)).2 = false →
          (moveFile trees s (command.fault i)).1.source = trees.source := moveFile_false
      split
      · rename_i middle moved
        rw [moved] at kept
        rwa [kept rfl]
      · rename_i middle moved
        obtain ⟨-, -, contents, -, rfl⟩ := moveFile_true.mp moved
        apply ih
        unfold Trees.move
        rw [Finmap.mem_erase, not_and]
        exact fun _ => gone

end

/-! ## The command -/

/-- A command that moves the selected files moves each of them once and loses nothing, and one that
ends before leaves the source files as they are. -/
structure ExtractsWhole (command : ExtractCommand) (app : Finmap fun _ : RealPath => String) :
    Prop where
  moved : (cmdExtract command app).2 = .moved → ∃ selected, command.selection = some selected ∧
    Trees.Moved (selected.map SelectedFile.move) ⟨app, ∅⟩ (cmdExtract command app).1
  otherwise : (cmdExtract command app).2 ≠ .moved → (cmdExtract command app).1.source = app

/-- Every selected file can be moved: it is there and selected once, its destination has a name that
fits and is neither that of another one nor a directory on its way, and nothing else goes
wrong. -/
structure AllMove (command : ExtractCommand) (app : Finmap fun _ : RealPath => String)
    (selected : List SelectedFile) : Prop where
  there : ∀ s ∈ selected, s.absPath ∈ app
  once : (selected.map SelectedFile.absPath).Nodup
  apart : selected.Pairwise fun s t => ¬ s.dest <+: t.dest ∧ ¬ t.dest <+: s.dest
  named : ∀ s ∈ selected, s.dest ≠ []
  fits : ∀ s ∈ selected, command.fits s = true
  faultless : ∀ i < selected.length, command.fault i = none

/-- The first file cannot be moved. -/
def FirstStuck (command : ExtractCommand) (app : Finmap fun _ : RealPath => String)
    (selected : List SelectedFile) : Prop :=
  ∃ s rest, selected = s :: rest ∧
    (s.absPath ∉ app ∨ s.dest = [] ∨ command.fits s = false ∨ command.fault 0 ≠ none)

section

variable {command : ExtractCommand} {app : Finmap fun _ : RealPath => String}
  {selected : List SelectedFile}

theorem blocked_empty {dest : List (List Char)} :
    Blocked (⟨app, ∅⟩ : FileTrees) dest ↔ dest = [] := by
  unfold Blocked
  rw [Finmap.keys_empty]
  simp

/-- All can be moved just where the loop comes to its end and the destinations are distinct. -/
theorem allMove_iff :
    AllMove command app selected ↔
      Placed command 0 selected ⟨app, ∅⟩ ∧
        (Trees.moveAll (selected.map SelectedFile.move) ⟨app, ∅⟩).isSome = true ∧
        (selected.map SelectedFile.dest).Nodup := by
  rw [Trees.moveAll_isSome, List.map_map, List.forall_mem_map]
  constructor
  · intro all
    have distinct : selected.Pairwise fun s t => s.dest ≠ t.dest := by
      refine all.apart.imp ?_
      rintro s t ⟨apart, -⟩ same
      rw [same] at apart
      exact apart List.prefix_rfl
    refine ⟨⟨all.fits, ?_, ?_, ?_⟩, ⟨all.there, all.once⟩, List.pairwise_map.mpr distinct⟩
    · intro j below
      rw [Nat.zero_add]
      exact all.faultless j below
    · exact fun s member blocked => all.named s member (blocked_empty.mp blocked)
    · exact all.apart.imp fun apart crosses => crosses.2.elim apart.1 apart.2
  · rintro ⟨placed, ⟨there, once⟩, distinct⟩
    refine ⟨there, once, ?_, ?_, placed.fits, ?_⟩
    · refine (placed.apart.and (List.pairwise_map.mp distinct)).imp ?_
      rintro s t ⟨free, other⟩
      exact ⟨fun leads => free ⟨other, Or.inl leads⟩, fun leads => free ⟨other, Or.inr leads⟩⟩
    · exact fun s member empty => placed.free s member (blocked_empty.mpr empty)
    · intro i below
      rw [← Nat.zero_add i]
      exact placed.faultless i below

theorem moveFiles_firstStuck (stuck : FirstStuck command app selected) :
    ∃ after, moveFiles command 0 selected ⟨app, ∅⟩ = (after, false) ∧ after.source = app := by
  obtain ⟨s, rest, rfl, why⟩ := stuck
  unfold moveFiles
  by_cases fits : command.fits s = true
  · rw [fits, if_neg (by decide)]
    cases moved : moveFile ⟨app, ∅⟩ s (command.fault 0) with
    | mk after works =>
      cases works with
      | false =>
        have kept := moveFile_false (congrArg Prod.snd moved)
        rw [moved] at kept
        exact ⟨after, rfl, kept⟩
      | true =>
        obtain ⟨free, faultless, contents, found, -⟩ := moveFile_true.mp moved
        rcases why with absent | empty | long | fault
        · exact absurd (Finmap.mem_of_lookup_eq_some found) absent
        · exact absurd (blocked_empty.mpr empty) free
        · rw [long] at fits
          cases fits
        · exact absurd faultless fault
  · have short := Bool.eq_false_of_not_eq_true fits
    rw [short]
    exact ⟨_, rfl, rfl⟩

/-- A loop that ends early leaves the source files as they are only where it ends at the first
one. -/
theorem firstStuck_of_source {after : FileTrees}
    (ran : moveFiles command 0 selected ⟨app, ∅⟩ = (after, false)) (kept : after.source = app) :
    FirstStuck command app selected := by
  cases selected with
  | nil => cases ran
  | cons s rest =>
    refine ⟨s, rest, rfl, ?_⟩
    by_contra moves
    push Not at moves
    obtain ⟨there, named, fits, faultless⟩ := moves
    obtain ⟨contents, found⟩ := Finmap.mem_iff.mp there
    have moved : moveFile ⟨app, ∅⟩ s (command.fault 0) =
        ((⟨app, ∅⟩ : FileTrees).move s.absPath s.dest contents, true) :=
      moveFile_true.mpr ⟨fun blocked => named (blocked_empty.mp blocked), faultless, contents,
        found, rfl⟩
    have gone : s.absPath ∉ (moveFiles command 1 rest
        ((⟨app, ∅⟩ : FileTrees).move s.absPath s.dest contents)).1.source :=
      moveFiles_source Finmap.notMem_erase_self
    unfold moveFiles at ran
    rw [Bool.eq_true_of_not_eq_false fits, if_neg (by decide), moved] at ran
    dsimp only at ran
    rw [Nat.zero_add] at ran
    rw [ran, kept] at gone
    exact gone there

theorem cmdExtract_proceeds (app : Finmap fun _ : RealPath => String)
    (chosen : command.selection = some selected) (proceeds : command.proceeds = true) :
    cmdExtract command app =
      match moveFiles command 0 selected ⟨app, ∅⟩ with
      | (trees, true) => (trees, .moved)
      | (trees, false) => (trees, .failed) := by
  unfold cmdExtract
  rw [chosen, proceeds]
  rfl

theorem cmdExtract_stopped (app : Finmap fun _ : RealPath => String)
    (stops : ¬ ∃ selected, command.selection = some selected ∧ command.proceeds = true) :
    cmdExtract command app = (⟨app, ∅⟩, .stopped) := by
  unfold cmdExtract
  cases chosen : command.selection with
  | none => rfl
  | some selected =>
    have asked : command.proceeds = false :=
      Bool.eq_false_of_not_eq_true fun proceeds => stops ⟨selected, chosen, proceeds⟩
    rw [asked]
    rfl

/-- `package extract` moves all or nothing just where, once it begins to move, every selected file
can be moved or the first cannot. -/
theorem cmdExtract_iff (command : ExtractCommand) (app : Finmap fun _ : RealPath => String) :
    ExtractsWhole command app ↔
      ∀ selected, command.selection = some selected → command.proceeds = true →
        AllMove command app selected ∨ FirstStuck command app selected := by
  constructor
  · intro whole selected chosen proceeds
    have result := cmdExtract_proceeds app chosen proceeds
    cases ran : moveFiles command 0 selected ⟨app, ∅⟩ with
    | mk after works =>
      rw [ran] at result
      cases works with
      | true =>
        left
        obtain ⟨others, same, moved⟩ := whole.moved (congrArg Prod.snd result)
        rw [chosen] at same
        cases same
        obtain ⟨placed, all⟩ := moveFiles_true.mp ran
        refine allMove_iff.mpr ⟨placed, Option.isSome_iff_exists.mpr ⟨after, all⟩, ?_⟩
        have distinct := moved.distinct
        rwa [List.map_map] at distinct
      | false =>
        right
        have kept := whole.otherwise
        rw [result] at kept
        exact firstStuck_of_source ran (kept (fun wrong => nomatch wrong))
  · intro condition
    by_cases moves : ∃ selected, command.selection = some selected ∧ command.proceeds = true
    · obtain ⟨selected, chosen, proceeds⟩ := moves
      rcases condition selected chosen proceeds with all | stuck
      · obtain ⟨placed, moves, distinct⟩ := allMove_iff.mp all
        obtain ⟨after, all⟩ := Option.isSome_iff_exists.mp moves
        have moved := Trees.moveAll_moved all
          (by rwa [List.map_map]) (fun m _ => Finmap.notMem_empty)
        have result : cmdExtract command app = (after, .moved) := by
          rw [cmdExtract_proceeds app chosen proceeds, moveFiles_true.mpr ⟨placed, all⟩]
        refine ⟨?_, ?_⟩
        · rw [result]
          exact fun _ => ⟨selected, chosen, moved⟩
        · rw [result]
          exact fun other => absurd rfl other
      · obtain ⟨after, ran, kept⟩ := moveFiles_firstStuck stuck
        have result : cmdExtract command app = (after, .failed) := by
          rw [cmdExtract_proceeds app chosen proceeds, ran]
        refine ⟨?_, ?_⟩
        · rw [result]
          exact fun other => nomatch other
        · rw [result]
          exact fun _ => kept
    · have result := cmdExtract_stopped app moves
      refine ⟨?_, ?_⟩
      · rw [result]
        exact fun other => nomatch other
      · rw [result]
        exact fun _ => rfl

end

/-! ## A file that is selected twice, and two of one name -/

/-- `Util.elm` in a source directory. -/
def utilFile (dir : String) : RealPath := ⟨'/' :: (dir ++ "/Util.elm").toList, rfl⟩

/-- A command with these arguments, in an application with the source directories `src` and
`lib`. -/
def extractUtil (paths : List PathArgument) : ExtractCommand where
  disk := { browserDisk browserApplication [] with
    root := some (.object [("source-directories", .array [.string "src", .string "lib"])]) }
  appRootDir := "/app"
  specified := true
  targetPath := "../util".toList
  targetExists := false
  paths := paths
  confirmed := true
  makesTarget := true
  initializes := true
  fault _ := none

/-- The argument `src`, with `Util.elm` in it. -/
def srcArgument : PathArgument where
  text := "src"
  stat := some (.directory (some ⟨"/app/src".toList, rfl⟩)
    (.file "Util.elm" (some (utilFile "app/src")) .done))

/-- `Util.elm` as an argument. -/
def utilArgument (dir : String) : PathArgument where
  text := dir ++ "/Util.elm"
  stat := some (.file (some (utilFile ("app/" ++ dir))))

/-- Each of the two directories has a `Util.elm`. -/
def utilFiles : Finmap fun _ : RealPath => String :=
  (Finmap.singleton (utilFile "app/src") "module Util exposing (src)").insert (utilFile "app/lib")
    "module Util exposing (lib)"

/-- `src src/Util.elm` ends after a file has been moved. `src/Util.elm lib/Util.elm` succeeds, and
one of the files is lost. -/
theorem cmdExtract_loses :
    ¬ ExtractsWhole (extractUtil [srcArgument, utilArgument "src"]) utilFiles ∧
      ¬ ExtractsWhole (extractUtil [utilArgument "src", utilArgument "lib"]) utilFiles := by
  constructor
  · intro whole
    have ends : (cmdExtract (extractUtil [srcArgument, utilArgument "src"]) utilFiles).2 =
        .failed := by decide
    have gone : (cmdExtract (extractUtil [srcArgument, utilArgument "src"])
        utilFiles).1.source.lookup (utilFile "app/src") = none := by decide
    have kept := whole.otherwise
    rw [ends] at kept
    rw [kept (by decide)] at gone
    revert gone
    decide
  · intro whole
    have ends : (cmdExtract (extractUtil [utilArgument "src", utilArgument "lib"])
        utilFiles).2 = .moved := by decide
    obtain ⟨selected, -, moved⟩ := whole.moved ends
    have contents := congrArg Multiset.card moved.contents
    revert contents
    decide

end ElmWrap.Extract
