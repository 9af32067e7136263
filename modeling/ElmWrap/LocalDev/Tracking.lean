import Mathlib.Data.List.DropRight
import Mathlib.Tactic.IntervalCases
import ElmWrap.LocalDev.TextRegistry
import ElmWrap.Lib.Pieces
import ElmWrap.Lib.Placed

/-!
# The tracking directory

`_local-dev/author/name/version` has a file for each application that a local-dev package
is registered with, named after a hash of the path of its `elm.json`, and the file `PATH`
with the source of the package. `install_local_dev.c` writes them, `repository.c` lists
and removes them, and `local_dev_tracking.c` has a reader of its own. The characters of a
path stand for its bytes.
-/

namespace ElmWrap

open Lib (pieces)

abbrev Path := List Char

/-- `PATH_MAX`, and `MAX_PATH_LENGTH`. -/
def pathMax : Nat := 4096

/-- What `realpath` returns. -/
structure AbsolutePath where
  text : Path
  noNull : '\x00' ∉ text
  short : text.length < pathMax

/-- The paths of a machine. -/
structure FileSystem where
  realpath : Path → Option AbsolutePath
  isDirectory : AbsolutePath → Bool
  resolved : ∀ {path abs}, realpath path = some abs → realpath abs.text = some abs

/-- `stat` finds something. -/
def FileSystem.exists_ (fs : FileSystem) (path : Path) : Bool := (fs.realpath path).isSome

/-! ## The files -/

/-- A file of a directory `author/name/version`. -/
structure TrackingFile where
  dir : LocalDevKey
  name : Path
  content : List Char
deriving DecidableEq

def TrackingFile.key (file : TrackingFile) : LocalDevKey × Path := (file.dir, file.name)

/-- The files below the tracking directory. -/
structure Tracking where
  files : List TrackingFile
  distinct : (files.map TrackingFile.key).Nodup

def Tracking.empty : Tracking := ⟨[], List.nodup_nil⟩

/-- `unlink`. -/
def Tracking.unlink (tracking : Tracking) (key : LocalDevKey × Path) : Tracking where
  files := tracking.files.filter fun f => f.key ≠ key
  distinct := tracking.distinct.sublist (List.filter_sublist.map _)

/-- `fopen(…, "w")`, and what is printed. -/
def Tracking.write (tracking : Tracking) (file : TrackingFile) : Tracking where
  files := file :: (tracking.unlink file.key).files
  distinct := by
    refine List.nodup_cons.mpr ⟨fun on => ?_, (tracking.unlink file.key).distinct⟩
    obtain ⟨f, there, same⟩ := List.mem_map.mp on
    exact of_decide_eq_true (List.mem_filter.mp there).2 same

theorem Tracking.mem_unlink {tracking : Tracking} {key : LocalDevKey × Path} {f : TrackingFile} :
    f ∈ (tracking.unlink key).files ↔ f ∈ tracking.files ∧ f.key ≠ key := by
  simp [unlink]

theorem Tracking.mem_write {tracking : Tracking} {file f : TrackingFile} :
    f ∈ (tracking.write file).files ↔ f = file ∨ f ∈ tracking.files ∧ f.key ≠ file.key := by
  rw [← mem_unlink]
  exact List.mem_cons

/-! ## Names -/

/-- `DJB2_HASH_INIT`. -/
def djb2HashInit : UInt64 := 5381

/-- A `char` as it is added to the hash: it is signed. -/
def charToHash (c : Char) : UInt64 :=
  if c.toNat < 128 then UInt64.ofNat c.toNat else UInt64.ofNat c.toNat - 256

/-- `hash_path`. -/
def hashPath (str : Path) : UInt64 :=
  str.foldl (fun hash c => (hash <<< 5) + hash + charToHash c) djb2HashInit

/-- `hash_path_local`, the copy of `hash_path` in `repository.c`. -/
def hashPathLocal (str : Path) : UInt64 :=
  str.foldl (fun hash c => (hash <<< 5) + hash + charToHash c) djb2HashInit

/-- The conversion `%lx`. -/
def hashFilename (hash : UInt64) : Path := Nat.toDigits 16 hash.toNat

/-- The name of the file of an application. -/
def trackingName (path : Path) : Path := hashFilename (hashPath path)

/-! ## The writers -/

/-- The file `PATH` that `save_local_dev_source_path` writes. -/
def saveLocalDevSourcePath (tracking : Tracking) (key : LocalDevKey) (sourcePath : Path) :
    Tracking :=
  tracking.write ⟨key, "PATH".toList, sourcePath ++ ['\n']⟩

/-- `register_dependency_tracking`, and whether it returns `true`. -/
def registerDependencyTracking (fs : FileSystem) (tracking : Tracking) (key : LocalDevKey)
    (appElmJsonPath : Path) : Tracking × Bool :=
  match fs.realpath appElmJsonPath with
  | none => (tracking, false)
  | some absPath =>
    (tracking.write ⟨key, hashFilename (hashPath absPath.text), absPath.text ++ ['\n']⟩, true)

/-- The tracking `register_local_dev_package` writes, for a source with the `elm.json` of a
package. -/
def registerLocalDevPackage (fs : FileSystem) (tracking : Tracking) (key : LocalDevKey)
    (sourcePath : Path) : Tracking :=
  match fs.realpath sourcePath with
  | none => tracking
  | some resolvedSource =>
    if fs.isDirectory resolvedSource then
      saveLocalDevSourcePath tracking key resolvedSource.text
    else tracking

/-- The path `clear_path_tracking` looks for: one that does not exist is used as it is. -/
def clearedPath (fs : FileSystem) (path : Path) : Path :=
  match fs.realpath path with
  | some absPath => absPath.text
  | none => path.take (pathMax - 1)

/-- `clear_path_tracking`, and the exit code. A file that is not there needs no clearing. -/
def clearPathTracking (fs : FileSystem) (tracking : Tracking) (packageName version : String)
    (path : Path) : Tracking × Nat :=
  match parsePackageName packageName with
  | none => (tracking, 1)
  | some name =>
    (tracking.unlink ((name.author, name.project, version),
      hashFilename (hashPathLocal (clearedPath fs path))), 0)

/-! ## The readers -/

/-- The files of a directory, in the order of `readdir`. -/
def Tracking.readdir (tracking : Tracking) (key : LocalDevKey) : List TrackingFile :=
  tracking.files.filter fun f => f.dir = key

/-- `strlen`: a text ends at its first null byte. -/
def cText (content : List Char) : List Char := content.takeWhile (· ≠ '\x00')

def isLineEnd (c : Char) : Bool := c = '\n' || c = '\r'

/-- `fgets`, and the loop that takes off line ends. -/
def fgetsLine (content : List Char) : Option Path :=
  (pieces (pathMax - 1) content).head?.map fun pathBuf => (cText pathBuf).rdropWhile isLineEnd

/-- The body of the loop of `list_tracking_for_package`. -/
def listedApp (f : TrackingFile) : Option Path :=
  if f.name.head? = some '.' then none
  else if f.name = "PATH".toList then none
  else fgetsLine f.content

/-- `list_tracking_for_package`: the paths it prints. -/
def listTrackingForPackage (tracking : Tracking) (key : LocalDevKey) : List Path :=
  (tracking.readdir key).filterMap listedApp

/-- `file_read_contents_bounded` of a file that is there. -/
def fileReadContentsBounded (maxBytes : Nat) (content : List Char) : Option (List Char) :=
  if maxBytes < content.length then none else some content

/-- The branch that takes off one line end. -/
def stripNewline (content : List Char) : List Char :=
  if content.getLast? = some '\n' then content.dropLast else content

/-- The body of the loop of `local_dev_get_tracking_apps`. -/
def trackingApp (fs : FileSystem) (f : TrackingFile) : Option Path :=
  if f.name.head? = some '.' then none
  else
    (fileReadContentsBounded pathMax f.content).bind fun content =>
      let content := stripNewline (cText content)
      if fs.exists_ content then some content else none

/-- `local_dev_get_tracking_apps`. -/
def localDevGetTrackingApps (fs : FileSystem) (tracking : Tracking) (key : LocalDevKey) :
    List Path :=
  (tracking.readdir key).filterMap (trackingApp fs)

/-! ## The names are no others' -/

theorem digitChar_hex {n : Nat} (small : n < 16) :
    Nat.digitChar n ≠ '.' ∧ Nat.digitChar n ≠ 'P' := by
  interval_cases n <;> decide

theorem mem_toDigits_hex {n : Nat} {c : Char} (on : c ∈ Nat.toDigits 16 n) : c ≠ '.' ∧ c ≠ 'P' := by
  induction n using Nat.strongRecOn with
  | ind n ih =>
    rw [Nat.toDigits_eq_if (by decide)] at on
    split at on
    · rename_i small
      rw [List.mem_singleton.mp on]
      exact digitChar_hex small
    · rcases List.mem_append.mp on with on | on
      · exact ih (n / 16) (by omega) on
      · rw [List.mem_singleton.mp on]
        exact digitChar_hex (Nat.mod_lt _ (by decide))

theorem trackingName_head (path : Path) : (trackingName path).head? ≠ some '.' :=
  fun first => (mem_toDigits_hex (List.mem_of_mem_head? first)).1 rfl

theorem trackingName_path (path : Path) : trackingName path ≠ "PATH".toList := by
  intro same
  have first : (trackingName path).head? = some 'P' := by rw [same]; rfl
  exact (mem_toDigits_hex (List.mem_of_mem_head? first)).2 rfl

/-! ## What is read of a path -/

/-- A path that is read back from a line of its own. -/
structure OneLine (path : Path) : Prop where
  one : '\n' ∉ path
  ends : path.getLast? ≠ some '\r'

instance (path : Path) : Decidable (OneLine path) :=
  decidable_of_iff ('\n' ∉ path ∧ path.getLast? ≠ some '\r')
    ⟨fun both => ⟨both.1, both.2⟩, fun line => ⟨line.one, line.ends⟩⟩

theorem cText_of_noNull {content : List Char} (noNull : '\x00' ∉ content) :
    cText content = content :=
  List.takeWhile_eq_self_iff.mpr fun c on =>
    decide_eq_true fun same : c = '\x00' => noNull (same ▸ on)

theorem cText_path (abs : AbsolutePath) : cText (abs.text ++ ['\n']) = abs.text ++ ['\n'] := by
  refine cText_of_noNull fun on => ?_
  rcases List.mem_append.mp on with on | on
  · exact abs.noNull on
  · exact absurd (List.mem_singleton.mp on) (by decide)

theorem rdropWhile_oneLine {path : Path} (line : OneLine path) :
    path.rdropWhile isLineEnd = path := by
  rw [List.rdropWhile_eq_self_iff]
  intro some_ last
  rcases Bool.or_eq_true_iff.mp last with newline | return_
  · have ends : path.getLast some_ = '\n' := of_decide_eq_true newline
    exact line.one (ends ▸ List.getLast_mem some_)
  · have ends : path.getLast some_ = '\r' := of_decide_eq_true return_
    exact line.ends ((List.getLast?_eq_getLast_of_ne_nil some_).trans (congrArg some ends))

/-- A path of one line is read back from its file. -/
theorem fgetsLine_path {abs : AbsolutePath} (line : OneLine abs.text) :
    fgetsLine (abs.text ++ ['\n']) = some abs.text := by
  have some_ : 0 < pathMax - 1 := by decide
  obtain ⟨more, first⟩ := Lib.piecesFrom_head (pathMax - 1) some_ line.one
  have short : abs.text.length ≤ pathMax - 1 := Nat.le_sub_one_of_lt abs.short
  unfold fgetsLine pieces
  rw [first, List.head?_cons, Option.map_some, List.take_append, List.take_of_length_le short]
  refine congrArg some ?_
  -- the newline is read where there is room for it
  by_cases room : pathMax - 1 - abs.text.length = 0
  · rw [room, List.take_zero, List.append_nil, cText_of_noNull abs.noNull, rdropWhile_oneLine line]
  · rw [List.take_of_length_le (show ['\n'].length ≤ _ from Nat.pos_of_ne_zero room), cText_path,
      List.rdropWhile_concat_pos _ _ _ (by decide), rdropWhile_oneLine line]

/-- No path of several lines is read. -/
theorem oneLine_of_fgetsLine {content : List Char} {path : Path}
    (read : fgetsLine content = some path) : OneLine path := by
  obtain ⟨piece, first, rfl⟩ := Option.map_eq_some_iff.mp read
  obtain ⟨body, one, same, -⟩ := Lib.mem_piecesFrom (List.mem_of_mem_head? first)
  have last : ∀ c, isLineEnd c = true → ((cText piece).rdropWhile isLineEnd).getLast? ≠ some c := by
    intro c ends at_
    have some_ : (cText piece).rdropWhile isLineEnd ≠ [] := fun none_ => nomatch none_ ▸ at_
    rw [List.getLast?_eq_some_getLast some_, Option.some_inj] at at_
    exact List.rdropWhile_last_not _ _ some_ (at_ ▸ ends)
  refine ⟨fun on => ?_, last '\r' rfl⟩
  -- a newline of the piece is its last character
  have begins : (cText piece).rdropWhile isLineEnd <+: piece :=
    (List.rdropWhile_prefix _ _).trans (List.takeWhile_prefix _)
  rcases same with rfl | rfl
  · exact one (begins.subset on)
  · rcases List.prefix_concat_iff.mp begins with whole | shorter
    · exact last '\n' rfl ((congrArg List.getLast? whole).trans List.getLast?_concat)
    · exact one (shorter.subset on)

end ElmWrap
