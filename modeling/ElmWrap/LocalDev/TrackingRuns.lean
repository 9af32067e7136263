import ElmWrap.Lib.Guarded
import ElmWrap.LocalDev.Tracking

/-!
# Which applications are tracked

Packages are registered, and applications are registered with them and cleared, in any
order. What the two readers return for a version of a package are the applications that
are registered and not cleared since, exactly as long as the version itself has not been
registered as a package, no application's file is also another's, and each path is one
line.
-/

namespace ElmWrap

open Lib.Placed

/-- The directory of a version of a package; a version is one component of a path. -/
def trackingDir (name : PackageName) (version : String) : LocalDevKey :=
  (name.author, name.project, version)

inductive TrackingOperation
  /-- `register_local_dev_package`. -/
  | registerPackage (name : PackageName) (version : String) (sourcePath : Path)
  /-- `register_dependency_tracking`. -/
  | register (name : PackageName) (version : String) (appElmJsonPath : Path)
  /-- `clear_path_tracking`. -/
  | clear (name : PackageName) (version : String) (path : Path)

/-- The version an operation is about. -/
def TrackingOperation.dir : TrackingOperation → LocalDevKey
  | .registerPackage name version _ => trackingDir name version
  | .register name version _ => trackingDir name version
  | .clear name version _ => trackingDir name version

/-- What an operation means for the applications of its version. -/
def TrackingOperation.change (fs : FileSystem) : TrackingOperation → Option (Change Path)
  | .registerPackage .. => none
  | .register _ _ path => (fs.realpath path).map fun abs => .add abs.text
  | .clear _ _ path => some (.remove (clearedPath fs path))

/-- The files, and the applications that are registered and not cleared since. -/
structure TrackingState where
  tracking : Tracking
  apps : LocalDevKey → Set Path

def TrackingState.start : TrackingState := ⟨.empty, fun _ => ∅⟩

/-- What an operation does to the files. -/
def TrackingOperation.run (fs : FileSystem) (tracking : Tracking) : TrackingOperation → Tracking
  | .registerPackage name version path =>
    registerLocalDevPackage fs tracking (trackingDir name version) path
  | .register name version path =>
    (registerDependencyTracking fs tracking (trackingDir name version) path).1
  | .clear name version path => (clearPathTracking fs tracking name.full version path).1

def TrackingState.step (fs : FileSystem) (state : TrackingState) (op : TrackingOperation) :
    TrackingState where
  tracking := op.run fs state.tracking
  apps :=
    match op.change fs with
    | none => state.apps
    | some change => Function.update state.apps op.dir (change.apply (state.apps op.dir))

def trackingRun (fs : FileSystem) (operations : List TrackingOperation) : TrackingState :=
  operations.foldl (TrackingState.step fs) .start

/-- The elements of a set, each once. -/
def Lists (paths : List Path) (S : Set Path) : Prop := paths.Nodup ∧ ∀ p, p ∈ paths ↔ p ∈ S

/-- Both readers return the applications that are registered. -/
structure TrackingState.Exact (fs : FileSystem) (dir : LocalDevKey) (state : TrackingState) :
    Prop where
  got : Lists (localDevGetTrackingApps fs state.tracking dir) (state.apps dir)
  listed : Lists (listTrackingForPackage state.tracking dir) (state.apps dir)

/-- Applications are files. -/
def TrackingOperation.OfFile (fs : FileSystem) : TrackingOperation → Prop
  | .register _ _ path => ∀ abs, fs.realpath path = some abs → fs.isDirectory abs = false
  | _ => True

/-- The operation is not about the version, or goes well: it does not register the version as a
package, the path of an application is one line, and its file is no other application's. -/
def TrackingOperation.Fits (fs : FileSystem) (dir : LocalDevKey) (apps : Set Path)
    (op : TrackingOperation) : Prop :=
  op.dir = dir →
    match op with
    | .registerPackage _ _ path => ∀ abs, fs.realpath path = some abs → fs.isDirectory abs = false
    | .register _ _ path => ∀ abs, fs.realpath path = some abs →
      OneLine abs.text ∧ (Change.add abs.text).Clean trackingName apps
    | .clear _ _ path => (Change.remove (clearedPath fs path)).Clean trackingName apps

/-! ## The files of a version -/

/-- The file of an application. -/
def appFile (dir : LocalDevKey) (path : Path) : TrackingFile :=
  ⟨dir, trackingName path, path ++ ['\n']⟩

/-- The directory has the files of some applications. -/
def Tracking.Has (tracking : Tracking) (dir : LocalDevKey) (held : Path → Option Path) : Prop :=
  ∀ f, f.dir = dir →
    (f ∈ tracking.files ↔ ∃ path, held f.name = some path ∧ f.content = path ++ ['\n'])

/-- The directory has a file for each application, which is an absolute path of one line, and no
directory. -/
structure TrackingState.Kept (fs : FileSystem) (dir : LocalDevKey) (state : TrackingState) :
    Prop where
  files : ∃ held, Holds trackingName held (state.apps dir) ∧ state.tracking.Has dir held
  paths : ∀ p ∈ state.apps dir, OneLine p ∧
    ∃ abs, fs.realpath p = some abs ∧ abs.text = p ∧ fs.isDirectory abs = false

section Files

variable {fs : FileSystem} {tracking tracking' : Tracking} {dir : LocalDevKey}
  {held : Path → Option Path} {S : Set Path}

theorem Tracking.Has.other (has : tracking.Has dir held)
    (same : ∀ f, f.dir = dir → (f ∈ tracking'.files ↔ f ∈ tracking.files)) :
    tracking'.Has dir held :=
  fun f here => (same f here).trans (has f here)

/-- The file of an application is written. -/
theorem Tracking.Has.write (has : tracking.Has dir held) (path : Path) :
    (tracking.write (appFile dir path)).Has dir
      ((Change.add path).write trackingName held) := by
  intro f here
  change _ ↔ ∃ p, Function.update held (trackingName path) (some path) f.name = some p ∧ _
  rw [mem_write, has f here]
  by_cases name : f.name = trackingName path
  · rw [name, Function.update_self]
    have same : f.key = (appFile dir path).key := Prod.ext here name
    constructor
    · rintro (rfl | ⟨-, other⟩)
      · exact ⟨path, rfl, rfl⟩
      · exact absurd same other
    · rintro ⟨p, content, text⟩
      cases content
      cases f
      cases here
      cases name
      cases text
      exact Or.inl rfl
  · rw [Function.update_of_ne name]
    constructor
    · rintro (rfl | ⟨on, -⟩)
      · exact absurd rfl name
      · exact on
    · exact fun on => Or.inr ⟨on, fun same => name (Prod.ext_iff.mp same).2⟩

/-- The file of an application is removed. -/
theorem Tracking.Has.unlink (has : tracking.Has dir held) (path : Path) :
    (tracking.unlink (dir, trackingName path)).Has dir
      ((Change.remove path).write trackingName held) := by
  intro f here
  change _ ↔ ∃ p, Function.update held (trackingName path) none f.name = some p ∧ _
  rw [mem_unlink, has f here]
  by_cases name : f.name = trackingName path
  · rw [name, Function.update_self]
    exact ⟨fun both => absurd (Prod.ext here name) both.2, nofun⟩
  · rw [Function.update_of_ne name]
    exact ⟨And.left, fun on => ⟨on, fun same => name (Prod.ext_iff.mp same).2⟩⟩

theorem Tracking.mem_readdir {f : TrackingFile} :
    f ∈ tracking.readdir dir ↔ f ∈ tracking.files ∧ f.dir = dir := by
  simp [readdir]

theorem Tracking.Has.mem_readdir (has : tracking.Has dir held)
    (holds : Holds trackingName held S) {f : TrackingFile} :
    f ∈ tracking.readdir dir ↔ ∃ p ∈ S, f = appFile dir p := by
  rw [Tracking.mem_readdir]
  constructor
  · rintro ⟨on, here⟩
    obtain ⟨p, at_, content⟩ := (has f here).mp on
    obtain ⟨member, name⟩ := (holds _ _).mp at_
    refine ⟨p, member, ?_⟩
    cases f
    cases here
    cases content
    cases name
    rfl
  · rintro ⟨p, member, rfl⟩
    exact ⟨(has _ rfl).mpr ⟨p, (holds _ _).mpr ⟨member, rfl⟩, rfl⟩, rfl⟩

/-- A reader that reads each application's file returns the applications. -/
theorem Tracking.Has.lists (has : tracking.Has dir held) (holds : Holds trackingName held S)
    {read : TrackingFile → Option Path} (reads : ∀ p ∈ S, read (appFile dir p) = some p) :
    Lists ((tracking.readdir dir).filterMap read) S := by
  have each : ∀ f ∈ tracking.readdir dir, ∃ p ∈ S, f = appFile dir p := fun f on =>
    (has.mem_readdir holds).mp on
  constructor
  · have distinct : (tracking.readdir dir).Nodup :=
      (List.Nodup.of_map _ tracking.distinct).sublist List.filter_sublist
    refine List.pairwise_filterMap.mpr (List.Pairwise.imp_of_mem ?_ distinct)
    intro f g onF onG other p readF q readG same
    obtain ⟨p', onP, rfl⟩ := each f onF
    obtain ⟨q', onQ, rfl⟩ := each g onG
    rw [reads p' onP] at readF
    rw [reads q' onQ] at readG
    cases readF
    cases readG
    exact other (congrArg (appFile dir) same)
  · intro p
    rw [List.mem_filterMap]
    constructor
    · rintro ⟨f, on, read_⟩
      obtain ⟨q, onQ, rfl⟩ := each f on
      rw [reads q onQ] at read_
      cases read_
      exact onQ
    · exact fun on => ⟨appFile dir p, (has.mem_readdir holds).mpr ⟨p, on, rfl⟩, reads p on⟩

theorem listedApp_appFile {abs : AbsolutePath} (line : OneLine abs.text) :
    listedApp (appFile dir abs.text) = some abs.text := by
  unfold listedApp appFile
  rw [if_neg (trackingName_head _), if_neg (trackingName_path _)]
  exact fgetsLine_path line

/-- A file with the path of something that exists, as `local_dev_get_tracking_apps` reads it. -/
theorem trackingApp_path {abs : AbsolutePath} (found : fs.realpath abs.text = some abs)
    {name : Path} (visible : name.head? ≠ some '.') :
    trackingApp fs ⟨dir, name, abs.text ++ ['\n']⟩ = some abs.text := by
  have short : ¬ pathMax < (abs.text ++ ['\n']).length := by
    have bound := abs.short
    rw [List.length_append, List.length_singleton]
    omega
  have strip : stripNewline (abs.text ++ ['\n']) = abs.text := by
    unfold stripNewline
    rw [if_pos List.getLast?_concat, List.dropLast_concat]
  have exists_ : fs.exists_ abs.text = true := by
    unfold FileSystem.exists_
    rw [found]
    rfl
  unfold trackingApp
  rw [if_neg visible, fileReadContentsBounded, if_neg short, Option.bind_some]
  dsimp only
  rw [cText_path, strip, if_pos exists_]

/-- An application without a file of its own is not listed. -/
theorem Tracking.Has.unlisted (has : tracking.Has dir held)
    (paths : ∀ k p, held k = some p → OneLine p ∧ ∃ abs : AbsolutePath, abs.text = p)
    {b : Path} (lost : ∀ k, held k ≠ some b) : b ∉ listTrackingForPackage tracking dir := by
  intro on
  obtain ⟨f, there, read⟩ := List.mem_filterMap.mp on
  obtain ⟨present, here⟩ := Tracking.mem_readdir.mp there
  obtain ⟨p, at_, content⟩ := (has f here).mp present
  obtain ⟨line, abs, rfl⟩ := paths _ _ at_
  unfold listedApp at read
  split at read
  · cases read
  · split at read
    · cases read
    · rw [content, fgetsLine_path line] at read
      cases read
      exact lost _ at_

theorem oneLine_of_listed {b : Path} (on : b ∈ listTrackingForPackage tracking dir) :
    OneLine b := by
  obtain ⟨f, -, read⟩ := List.mem_filterMap.mp on
  unfold listedApp at read
  split at read
  · cases read
  · split at read
    · cases read
    · exact oneLine_of_fgetsLine read

end Files

/-! ## A step -/

section Steps

variable {fs : FileSystem} {dir : LocalDevKey} {state : TrackingState}

theorem registerDependencyTracking_found {abs : AbsolutePath} {path : Path}
    (found : fs.realpath path = some abs) (tracking : Tracking) :
    registerDependencyTracking fs tracking dir path =
      (tracking.write (appFile dir abs.text), true) := by
  unfold registerDependencyTracking
  rw [found]
  rfl

theorem registerDependencyTracking_missing {path : Path} (missing : fs.realpath path = none)
    (tracking : Tracking) :
    registerDependencyTracking fs tracking dir path = (tracking, false) := by
  unfold registerDependencyTracking
  rw [missing]

theorem registerLocalDevPackage_directory {abs : AbsolutePath} {path : Path}
    (found : fs.realpath path = some abs) (directory : fs.isDirectory abs = true)
    (tracking : Tracking) :
    registerLocalDevPackage fs tracking dir path =
      tracking.write ⟨dir, "PATH".toList, abs.text ++ ['\n']⟩ := by
  unfold registerLocalDevPackage
  rw [found]
  exact if_pos directory

theorem registerLocalDevPackage_other {path : Path}
    (other : ∀ abs, fs.realpath path = some abs → fs.isDirectory abs = false)
    (tracking : Tracking) : registerLocalDevPackage fs tracking dir path = tracking := by
  unfold registerLocalDevPackage
  split
  · rfl
  · rename_i abs found
    rw [other abs found]
    rfl

theorem clearPathTracking_full (tracking : Tracking) (name : PackageName) (version : String)
    (path : Path) :
    (clearPathTracking fs tracking name.full version path).1 =
      tracking.unlink (trackingDir name version, trackingName (clearedPath fs path)) := by
  unfold clearPathTracking
  rw [parsePackageName_full]
  rfl

/-- What an operation does to a version it is about. -/
theorem TrackingOperation.run_change {op : TrackingOperation} {change : Change Path}
    (changes : op.change fs = some change) {tracking : Tracking} {held : Path → Option Path}
    (has : tracking.Has op.dir held) :
    (op.run fs tracking).Has op.dir (change.write trackingName held) := by
  cases op with
  | registerPackage name version path => cases changes
  | register name version path =>
    obtain ⟨abs, found, rfl⟩ := Option.map_eq_some_iff.mp changes
    change (registerDependencyTracking fs tracking _ path).1.Has _ _
    rw [registerDependencyTracking_found found]
    exact has.write abs.text
  | clear name version path =>
    cases changes
    change (clearPathTracking fs tracking name.full version path).1.Has _ _
    rw [clearPathTracking_full]
    exact has.unlink (clearedPath fs path)

/-- An operation does nothing to another version. -/
theorem TrackingOperation.run_other (op : TrackingOperation) (tracking : Tracking)
    (other : op.dir ≠ dir) (f : TrackingFile) (here : f.dir = dir) :
    f ∈ (op.run fs tracking).files ↔ f ∈ tracking.files := by
  have written : ∀ file : TrackingFile, file.dir = op.dir →
      (f ∈ (tracking.write file).files ↔ f ∈ tracking.files) := by
    intro file there
    rw [Tracking.mem_write]
    constructor
    · rintro (rfl | ⟨on, -⟩)
      · exact absurd (there.symm.trans here) other
      · exact on
    · exact fun on => Or.inr ⟨on, fun same =>
        other (there.symm.trans ((Prod.ext_iff.mp same).1.symm.trans here))⟩
  cases op with
  | registerPackage name version path =>
    change f ∈ (registerLocalDevPackage fs tracking _ path).files ↔ _
    by_cases directory : ∃ abs, fs.realpath path = some abs ∧ fs.isDirectory abs = true
    · obtain ⟨abs, found, directory⟩ := directory
      rw [registerLocalDevPackage_directory found directory]
      exact written _ rfl
    · rw [registerLocalDevPackage_other fun abs found =>
        Bool.eq_false_iff.mpr fun yes => directory ⟨abs, found, yes⟩]
  | register name version path =>
    change f ∈ (registerDependencyTracking fs tracking _ path).1.files ↔ _
    cases found : fs.realpath path with
    | none => rw [registerDependencyTracking_missing found]
    | some abs =>
      rw [registerDependencyTracking_found found]
      exact written _ rfl
  | clear name version path =>
    change f ∈ (clearPathTracking fs tracking name.full version path).1.files ↔ _
    rw [clearPathTracking_full]
    refine Tracking.mem_unlink.trans (and_iff_left fun same => ?_)
    exact other ((Prod.ext_iff.mp same).1.symm.trans here)

theorem TrackingState.step_apps (op : TrackingOperation) :
    (state.step fs op).apps dir =
      if op.dir = dir then ((op.change fs).elim (state.apps dir) (·.apply (state.apps dir)))
      else state.apps dir := by
  unfold step
  cases op.change fs with
  | none => exact (ite_self _).symm
  | some change =>
    by_cases here : op.dir = dir
    · subst here
      rw [if_pos rfl]
      exact Function.update_self _ _ _
    · rw [if_neg here]
      exact Function.update_of_ne (Ne.symm here) _ _

/-- The files after a step that is about the version and changes its applications. -/
theorem TrackingState.step_change {op : TrackingOperation} {change : Change Path}
    (changes : op.change fs = some change) {held : Path → Option Path}
    (has : state.tracking.Has op.dir held) :
    (state.step fs op).tracking.Has op.dir (change.write trackingName held) ∧
      (state.step fs op).apps op.dir = change.apply (state.apps op.dir) := by
  refine ⟨TrackingOperation.run_change changes has, ?_⟩
  rw [TrackingState.step_apps, if_pos rfl, changes]
  rfl

/-- The path of an application that is added. -/
theorem TrackingOperation.added {op : TrackingOperation} {p : Path}
    (changes : op.change fs = some (.add p)) (file : op.OfFile fs) :
    ∃ abs, fs.realpath p = some abs ∧ abs.text = p ∧ fs.isDirectory abs = false := by
  cases op with
  | registerPackage name version path => cases changes
  | clear name version path => cases changes
  | register name version path =>
    obtain ⟨abs, found, same⟩ := Option.map_eq_some_iff.mp changes
    cases same
    exact ⟨abs, fs.resolved found, rfl, file abs found⟩

theorem TrackingOperation.Fits.change {op : TrackingOperation} {apps : Set Path}
    (fits : op.Fits fs op.dir apps) {change : Change Path} (changes : op.change fs = some change) :
    change.Clean trackingName apps ∧ ∀ p, change = .add p → OneLine p := by
  cases op with
  | registerPackage name version path => cases changes
  | clear name version path =>
    cases changes
    exact ⟨fits rfl, nofun⟩
  | register name version path =>
    obtain ⟨abs, found, rfl⟩ := Option.map_eq_some_iff.mp changes
    obtain ⟨line, clean⟩ := fits rfl abs found
    refine ⟨clean, fun p same => ?_⟩
    cases same
    exact line

/-- Whatever is in the set after a change was there, or is added. -/
theorem mem_apply {change : Change Path} {S : Set Path} {p : Path} (on : p ∈ change.apply S) :
    p ∈ S ∨ change = .add p := by
  cases change with
  | add q => exact on.elim (fun same => Or.inr (same ▸ rfl)) Or.inl
  | remove q => exact Or.inl on.1

theorem TrackingState.Kept.step (kept : state.Kept fs dir) {op : TrackingOperation}
    (file : op.OfFile fs) (fits : op.Fits fs dir (state.apps dir)) :
    (state.step fs op).Kept fs dir := by
  obtain ⟨held, holds, has⟩ := kept.files
  by_cases here : op.dir = dir
  · subst here
    cases changes : op.change fs with
    | none =>
      have apps : (state.step fs op).apps op.dir = state.apps op.dir := by
        rw [TrackingState.step_apps, if_pos rfl, changes]
        rfl
      have files : (state.step fs op).tracking = state.tracking := by
        change op.run fs state.tracking = _
        cases op with
        | registerPackage name version path => exact registerLocalDevPackage_other (fits rfl) _
        | register name version path =>
          exact congrArg Prod.fst
            (registerDependencyTracking_missing (Option.map_eq_none_iff.mp changes) _)
        | clear name version path => cases changes
      refine ⟨⟨held, ?_, ?_⟩, ?_⟩
      · rwa [apps]
      · rwa [files]
      · rw [apps]
        exact kept.paths
    | some change =>
      obtain ⟨clean, line⟩ := fits.change changes
      obtain ⟨files, apps⟩ := TrackingState.step_change changes has
      refine ⟨⟨_, ?_, files⟩, fun p on => ?_⟩
      · rw [apps]
        exact holds.step clean
      · rw [apps] at on
        rcases mem_apply on with on | rfl
        · exact kept.paths p on
        · exact ⟨line p rfl, TrackingOperation.added changes file⟩
  · have apps : (state.step fs op).apps dir = state.apps dir := by
      rw [TrackingState.step_apps, if_neg here]
    refine ⟨⟨held, ?_, has.other fun f => op.run_other state.tracking here f⟩, ?_⟩
    · rwa [apps]
    · rw [apps]
      exact kept.paths

theorem TrackingState.Kept.exact_ (kept : state.Kept fs dir) : state.Exact fs dir := by
  obtain ⟨held, holds, has⟩ := kept.files
  constructor
  · refine has.lists holds fun p on => ?_
    obtain ⟨-, abs, found, rfl, -⟩ := kept.paths p on
    exact trackingApp_path found (trackingName_head _)
  · refine has.lists holds fun p on => ?_
    obtain ⟨line, abs, -, rfl, -⟩ := kept.paths p on
    exact listedApp_appFile line

/-- A change about the file of another application takes that application off the list. -/
theorem TrackingState.Kept.lost (kept : state.Kept fs dir) {op : TrackingOperation}
    (here : op.dir = dir) {change : Change Path} (changes : op.change fs = some change)
    (lines : ∀ p, change = .add p → OneLine p) (file : op.OfFile fs)
    (unclean : ¬ change.Clean trackingName (state.apps dir)) :
    ¬ (state.step fs op).Exact fs dir := by
  subst here
  obtain ⟨held, holds, has⟩ := kept.files
  obtain ⟨files, apps⟩ := TrackingState.step_change changes has
  obtain ⟨b, on, gone⟩ := holds.lost unclean
  intro right
  rw [← apps] at on
  refine files.unlisted (fun k p at_ => ?_) gone ((right.listed.2 b).mpr on)
  unfold Change.write at at_
  by_cases place : k = trackingName change.item
  · rw [place, Function.update_self] at at_
    cases change with
    | add q =>
      cases at_
      obtain ⟨abs, -, same, -⟩ := TrackingOperation.added changes file
      exact ⟨lines _ rfl, abs, same⟩
    | remove q => cases at_
  · rw [Function.update_of_ne place] at at_
    obtain ⟨line, abs, -, same, -⟩ := kept.paths p ((holds k p).mp at_).1
    exact ⟨line, abs, same⟩

/-- An operation that does not fit makes a reader wrong at once. -/
theorem TrackingState.Kept.breaks (kept : state.Kept fs dir) {op : TrackingOperation}
    (file : op.OfFile fs) (unfit : ¬ op.Fits fs dir (state.apps dir)) :
    ¬ (state.step fs op).Exact fs dir := by
  have here : op.dir = dir := by_contra fun other => unfit fun same => absurd same other
  subst here
  cases op with
  | registerPackage name version path =>
    -- the source of the package is returned as an application
    obtain ⟨abs, found, directory⟩ : ∃ abs, fs.realpath path = some abs ∧
        fs.isDirectory abs = true := by
      by_contra none_
      exact unfit fun _ abs found => Bool.eq_false_iff.mpr fun yes => none_ ⟨abs, found, yes⟩
    intro right
    have written : ⟨trackingDir name version, "PATH".toList, abs.text ++ ['\n']⟩ ∈
        (state.step fs (.registerPackage name version path)).tracking.files := by
      change _ ∈ (registerLocalDevPackage fs state.tracking _ path).files
      rw [registerLocalDevPackage_directory found directory]
      exact Tracking.mem_write.mpr (Or.inl rfl)
    have found_ := fs.resolved found
    have got : abs.text ∈ localDevGetTrackingApps fs
        (state.step fs (.registerPackage name version path)).tracking
        (trackingDir name version) :=
      List.mem_filterMap.mpr ⟨_, Tracking.mem_readdir.mpr ⟨written, rfl⟩,
        trackingApp_path found_ (by decide)⟩
    have on := (right.got.2 _).mp got
    rw [TrackingState.step_apps, if_pos rfl] at on
    obtain ⟨-, abs', found', -, file'⟩ := kept.paths _ on
    rw [found_] at found'
    cases found'
    rw [directory] at file'
    cases file'
  | register name version path =>
    obtain ⟨abs, found, wrong⟩ : ∃ abs, fs.realpath path = some abs ∧
        ¬ (OneLine abs.text ∧ (Change.add abs.text).Clean trackingName
          (state.apps (trackingDir name version))) := by
      by_contra none_
      exact unfit fun _ abs found => by_contra fun wrong => none_ ⟨abs, found, wrong⟩
    have changes : (TrackingOperation.register name version path).change fs =
        some (.add abs.text) := congrArg (Option.map _) found
    by_cases line : OneLine abs.text
    · refine kept.lost rfl changes (fun p same => ?_) file fun clean => wrong ⟨line, clean⟩
      cases same
      exact line
    · -- no path of several lines is listed
      intro right
      refine line (oneLine_of_listed ((right.listed.2 _).mpr ?_))
      rw [TrackingState.step_apps, if_pos rfl, changes]
      exact Set.mem_insert _ _
  | clear name version path =>
    exact kept.lost rfl rfl nofun file fun clean => unfit fun _ => clean

end Steps

theorem TrackingState.Kept.start (fs : FileSystem) (dir : LocalDevKey) :
    TrackingState.start.Kept fs dir where
  files := ⟨_, Holds.empty trackingName, fun _ _ => ⟨nofun, nofun⟩⟩
  paths := fun _ on => absurd on (Set.notMem_empty _)

/-- The readers return the applications of a version that are registered and not cleared since
throughout a run, just if each operation of the run fits. -/
theorem trackingRun_exact_iff (fs : FileSystem) (dir : LocalDevKey)
    (operations : List TrackingOperation) (files : ∀ op ∈ operations, op.OfFile fs) :
    (∀ before, before <+: operations → (trackingRun fs before).Exact fs dir) ↔
      ∀ before op, before ++ [op] <+: operations →
        op.Fits fs dir ((trackingRun fs before).apps dir) :=
  Lib.inputs_throughout_iff (TrackingState.Kept.start fs dir) (fun _ kept => kept.exact_)
    (fun _ op on kept fits => kept.step (files op on) fits)
    (fun _ op on kept unfit => kept.breaks (files op on) unfit)

/-- Paths without links; what is no `elm.json` is a directory. -/
def plainFileSystem : FileSystem where
  realpath path :=
    if fits : '\x00' ∉ path ∧ path.length < pathMax then some ⟨path, fits.1, fits.2⟩ else none
  isDirectory abs := !"/elm.json".toList.isSuffixOf abs.text
  resolved := by
    intro path abs _
    exact dif_pos ⟨abs.noNull, abs.short⟩

/-- The package of the runs below. -/
def trackedPackage : PackageName := elmJsonPackage

/-- An application in a directory. -/
def registerIn (app : String) : TrackingOperation :=
  .register trackedPackage "1.0.0" (app ++ "/elm.json").toList

theorem registerIn_apps (state : TrackingState) {app : String} {abs : AbsolutePath}
    (found : plainFileSystem.realpath (app ++ "/elm.json").toList = some abs) :
    (state.step plainFileSystem (registerIn app)).apps (trackingDir trackedPackage "1.0.0") =
      insert abs.text (state.apps (trackingDir trackedPackage "1.0.0")) := by
  have changes : (registerIn app).change plainFileSystem = some (.add abs.text) :=
    congrArg (Option.map _) found
  have here : (registerIn app).dir = trackingDir trackedPackage "1.0.0" := rfl
  rw [TrackingState.step_apps, if_pos here, changes]
  rfl

theorem trackingRun_exact_two :
    (trackingRun plainFileSystem [registerIn "/w/a", registerIn "/w/b"]).Exact plainFileSystem
      (trackingDir trackedPackage "1.0.0") := by
  refine (trackingRun_exact_iff plainFileSystem _ _ ?_).mpr ?_ _ List.prefix_rfl
  · intro op on
    simp only [List.mem_cons, List.not_mem_nil, or_false] at on
    rcases on with rfl | rfl <;>
    · intro abs found
      cases found
      decide
  · intro before op begins
    have line : OneLine "/w/a/elm.json".toList ∧ OneLine "/w/b/elm.json".toList := by decide
    have apart : trackingName "/w/a/elm.json".toList ≠ trackingName "/w/b/elm.json".toList := by
      decide
    match before with
    | [] =>
      obtain rfl := (List.cons_prefix_cons.mp begins).1
      intro _ abs found
      cases found
      exact ⟨line.1, fun _ on => absurd on (Set.notMem_empty _)⟩
    | [first] =>
      obtain ⟨rfl, later⟩ := List.cons_prefix_cons.mp begins
      obtain rfl := (List.cons_prefix_cons.mp later).1
      intro _ abs found
      cases found
      refine ⟨line.2, fun b on same => ?_⟩
      change b ∈ (TrackingState.start.step plainFileSystem (registerIn "/w/a")).apps _ at on
      rw [registerIn_apps _ (dif_pos (by decide))] at on
      rcases on with rfl | on
      · exact absurd same apart
      · exact absurd on (Set.notMem_empty _)
    | first :: second :: more =>
      have short := begins.length_le
      simp at short

/-- A package is returned as an application of itself, and the second of two applications whose
paths have the same hash takes the file of the first. -/
theorem trackingRun_not_exact :
    ¬ (trackingRun plainFileSystem [.registerPackage trackedPackage "1.0.0" "/src".toList]).Exact
        plainFileSystem (trackingDir trackedPackage "1.0.0") ∧
      ¬ (trackingRun plainFileSystem [registerIn "/w/Ab", registerIn "/w/BA"]).Exact
        plainFileSystem (trackingDir trackedPackage "1.0.0") := by
  constructor
  · intro right
    have got : "/src".toList ∈ localDevGetTrackingApps plainFileSystem
        (trackingRun plainFileSystem
          [.registerPackage trackedPackage "1.0.0" "/src".toList]).tracking
        (trackingDir trackedPackage "1.0.0") := by decide
    exact Set.notMem_empty _ ((right.got.2 _).mp got)
  · intro right
    have gone : "/w/Ab/elm.json".toList ∉ listTrackingForPackage
        (trackingRun plainFileSystem [registerIn "/w/Ab", registerIn "/w/BA"]).tracking
        (trackingDir trackedPackage "1.0.0") := by decide
    refine gone ((right.listed.2 _).mpr ?_)
    change _ ∈ ((TrackingState.start.step plainFileSystem (registerIn "/w/Ab")).step plainFileSystem
      (registerIn "/w/BA")).apps _
    rw [registerIn_apps _ (dif_pos (by decide)), registerIn_apps _ (dif_pos (by decide))]
    exact Set.mem_insert_of_mem _ (Set.mem_insert _ _)

end ElmWrap
