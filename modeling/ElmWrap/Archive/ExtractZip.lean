import ElmWrap.InstallEnv.DownloadPackage
import ElmWrap.Lib.Paths

/-!
# Extraction of archives

`extract_zip` and `extract_zip_selective` of `fileutil.c` on a tree of directories
and files. miniz is given by what it reads of an archive; every call that makes a
directory or writes a file can fail. A character of a name stands for a byte.
-/

namespace ElmWrap.Archive

open Lib.Paths

/-- The place of a directory or file. -/
abbrev Place := List (List Char)

/-- The tree, and what has been done to it. -/
structure Disk where
  tree : Tree (List Char) String
  /-- The directories made and the files written. -/
  touched : List Place
  /-- How many calls still succeed; `none` for all. -/
  calls : Option Nat

/-- A call that makes or writes something. -/
def Disk.call (disk : Disk) : Option Disk :=
  match disk.calls with
  | none => some disk
  | some 0 => none
  | some (n + 1) => some { disk with calls := some n }

def Disk.put (disk : Disk) (place : Place) (node : Node String) : Disk :=
  { disk with
    tree := Function.update disk.tree place (some node)
    touched := place :: disk.touched }

/-- `mkdir`, where it is no error that the path exists. -/
def mkdir (path : Path (List Char)) (disk : Disk) : Disk × Bool :=
  match walk disk.tree path.base path.parts, path.parts.getLast? with
  | none, _ => (disk, false)
  | some place, some (.name _) =>
    if (disk.tree place).isSome then (disk, true)
    else
      match disk.call with
      | none => (disk, false)
      | some disk => (disk.put place .directory, true)
  | some _, _ => (disk, true)

/-- `ensure_directory`, on the reversed segments of the path. -/
def ensureDirectoryUp (base : Place) :
    List (Segment (List Char)) → Bool → Disk → Disk × Bool
  | [], slash, disk =>
    match stat disk.tree ⟨base, [], slash⟩ with
    | some node => (disk, node = .directory)
    | none => mkdir ⟨base, [], slash⟩ disk
  | last :: parent, slash, disk =>
    match stat disk.tree ⟨base, (last :: parent).reverse, slash⟩ with
    | some node => (disk, node = .directory)
    | none =>
      -- the parents `.` and `/` are there
      match if parent = [] then (disk, true) else ensureDirectoryUp base parent false disk with
      | (disk, false) => (disk, false)
      | (disk, true) => mkdir ⟨base, (last :: parent).reverse, slash⟩ disk

/-- `ensure_directory`. -/
def ensureDirectory (path : Path (List Char)) (disk : Disk) : Disk × Bool :=
  ensureDirectoryUp path.base path.parts.reverse path.slash disk

/-- `mz_zip_reader_extract_to_file`, for a regular file; `left` is what a file holds whose
extraction fails, `none` where it is not even opened. -/
def extractToFile (left : Option String) (path : Path (List Char)) (contents : String)
    (disk : Disk) : Disk × Bool :=
  match walk disk.tree path.base path.parts, path.parts.getLast? with
  | some place, some (.name _) =>
    if path.slash || disk.tree place = some .directory then (disk, false)
    else
      match disk.call, left with
      | some disk, _ => (disk.put place (.file contents), true)
      | none, some left => (disk.put place (.file left), false)
      | none, none => (disk, false)
  | _, _ => (disk, false)

/-! ## Archives -/

/-- `MZ_ZIP_MAX_ARCHIVE_FILENAME_SIZE`. -/
def maxArchiveFilenameSize : Nat := 512

/-- `PATH_MAX`. -/
def pathMax : Nat := 4096

/-- `m_filename`, as the C string that it is. -/
def mFilename (entry : ZipEntry) : String :=
  String.ofList
    ((entry.filename.toList.take (maxArchiveFilenameSize - 1)).takeWhile (· ≠ Char.ofNat 0))

/-- `mz_zip_reader_is_file_a_directory`. -/
def isFileADirectory (entry : ZipEntry) : Bool :=
  entry.filename.toList.getLast? = some '/' || entry.isDirectory

/-- `output_path`. -/
def outputPath (destDir relPath : List Char) : List Char :=
  (destDir ++ '/' :: relPath).take (pathMax - 1)

/-- The entries that an extraction takes, and where it puts them. -/
structure Selection where
  /-- The path of an entry below the destination; `none` for an entry that is skipped. -/
  relPath : String → Option String
  /-- A file at this path is not overwritten. -/
  keeps : String → Bool

/-- The choice of `extract_zip`. -/
def Selection.all : Selection where
  relPath := some
  keeps _ := false

/-- The choice of `extract_zip_selective`. -/
def Selection.package : Selection where
  relPath filename :=
    if shouldExtractPath filename then some (ElmWrap.relPath filename) else none
  keeps path := path = "elm.json" || path = "docs.json"

/-- What an extraction meets. -/
structure ExtractRun where
  cwd : Place
  tree : Tree (List Char) String
  calls : Option Nat
  left : Option String

/-- The disk before the extraction. -/
def ExtractRun.start (run : ExtractRun) : Disk := ⟨run.tree, [], run.calls⟩

/-- The body of the loop. -/
def extractOne (sel : Selection) (run : ExtractRun) (destDir : List Char) (entry : ZipEntry)
    (disk : Disk) : Disk × Bool :=
  match sel.relPath (mFilename entry) with
  | none => (disk, true)
  | some rel =>
    let path := Path.ofText run.cwd (outputPath destDir rel.toList)
    if isFileADirectory entry then ensureDirectory path disk
    else if sel.keeps rel && (stat disk.tree path).isSome then (disk, true)
    else
      match ensureDirectory path.dirname disk with
      | (disk, false) => (disk, false)
      | (disk, true) => extractToFile run.left path entry.contents disk

/-- The loop; `none` for an entry that `mz_zip_reader_file_stat` cannot read. -/
def extractAll (sel : Selection) (run : ExtractRun) (destDir : List Char) :
    List (Option ZipEntry) → Disk → Disk × Bool
  | [], disk => (disk, true)
  | none :: _, disk => (disk, false)
  | some entry :: rest, disk =>
    match extractOne sel run destDir entry disk with
    | (disk, false) => (disk, false)
    | (disk, true) => extractAll sel run destDir rest disk

/-- The archive's entries are extracted; `none` for one that cannot be opened. -/
def extract (sel : Selection) (run : ExtractRun) (archive : Option (List (Option ZipEntry)))
    (destDir : List Char) : Disk × Bool :=
  match archive with
  | none => (run.start, false)
  | some entries => extractAll sel run destDir entries run.start

/-- `extract_zip`. -/
def extractZip (run : ExtractRun) (archive : Option (List (Option ZipEntry)))
    (destDir : List Char) : Disk × Bool :=
  extract .all run archive destDir

/-- `extract_zip_selective`. -/
def extractZipSelective (run : ExtractRun) (archive : Option (List (Option ZipEntry)))
    (destDir : List Char) : Disk × Bool :=
  extract .package run archive destDir

/-! ## What is done to the disk -/

/-- A disk where only directories have been made, at some of these places. -/
structure Made (places : List Place) (disk after : Disk) : Prop where
  tree : ∀ place, after.tree place = disk.tree place ∨
    disk.tree place = none ∧ after.tree place = some .directory ∧ place ∈ places ∧
      place ∈ after.touched
  touched : ∀ place ∈ after.touched,
    place ∈ disk.touched ∨ place ∈ places ∧ disk.tree place = none
  kept : ∀ place ∈ disk.touched, place ∈ after.touched

theorem Made.refl (places : List Place) (disk : Disk) : Made places disk disk :=
  ⟨fun _ => .inl rfl, fun _ => .inl, fun _ => id⟩

theorem Made.of_subset {places more : List Place} {disk after : Disk}
    (made : Made places disk after) (subset : places ⊆ more) : Made more disk after where
  tree place := (made.tree place).imp_right fun ⟨a, b, c, d⟩ => ⟨a, b, subset c, d⟩
  touched place member := (made.touched place member).imp_right (.imp_left (subset ·))
  kept := made.kept

theorem Made.trans {places : List Place} {disk middle after : Disk}
    (first : Made places disk middle) (second : Made places middle after) :
    Made places disk after where
  tree place := by
    rcases second.tree place with same | ⟨missing, rest⟩
    · rw [same]
      exact (first.tree place).imp_right fun ⟨a, b, c, d⟩ => ⟨a, b, c, second.kept _ d⟩
    · rcases first.tree place with same | ⟨_, made, _⟩
      · exact .inr ⟨same ▸ missing, rest⟩
      · rw [missing] at made
        cases made
  touched place member := by
    rcases second.touched place member with old | ⟨new, missing⟩
    · exact first.touched place old
    · refine .inr ⟨new, ?_⟩
      rcases first.tree place with same | ⟨missing, _⟩
      · exact same ▸ missing
      · exact missing
  kept place member := second.kept place (first.kept place member)

/-- What exists is not removed. -/
theorem Made.isSome {places : List Place} {disk after : Disk} (made : Made places disk after)
    {place : Place} (there : (disk.tree place).isSome) : (after.tree place).isSome := by
  rcases made.tree place with same | ⟨missing, _⟩
  · rwa [same]
  · rw [missing] at there
    cases there

theorem Disk.call_some {disk after : Disk} (called : disk.call = some after) :
    after.tree = disk.tree ∧ after.touched = disk.touched := by
  unfold Disk.call at called
  split at called <;> cases called <;> exact ⟨rfl, rfl⟩

theorem Made.put {disk called : Disk} {place : Place} (call : disk.call = some called)
    (missing : disk.tree place = none) : Made [place] disk (called.put place .directory) := by
  obtain ⟨tree, touched⟩ := Disk.call_some call
  refine ⟨fun p => ?_, fun p member => ?_, fun p member => ?_⟩
  · by_cases same : p = place
    · subst same
      exact .inr ⟨missing, by simp [Disk.put], List.mem_singleton.mpr rfl, by simp [Disk.put]⟩
    · exact .inl (by simp [Disk.put, same, tree])
  · rcases List.mem_cons.mp member with rfl | old
    · exact .inr ⟨List.mem_singleton.mpr rfl, missing⟩
    · exact .inl (touched ▸ old)
  · exact List.mem_cons_of_mem _ (touched ▸ member)

/-- The place of a path that ends in a name is on its way. -/
theorem place_mem_way {path : Path (List Char)} {n : List Char}
    (last : path.parts.getLast? = some (.name n)) : path.place ∈ path.way := by
  obtain ⟨front, split⟩ := List.getLast?_eq_some_iff.mp last
  unfold Path.place Path.way
  rw [split, way_append, resolve_append]
  exact List.mem_append_right _ (List.mem_singleton.mpr rfl)

theorem mkdir_made {path : Path (List Char)} {disk after : Disk} {ok : Bool}
    (made : mkdir path disk = (after, ok)) : Made path.way disk after := by
  unfold mkdir at made
  split at made
  · cases made
    exact Made.refl ..
  · rename_i place n walked last
    split at made
    · cases made
      exact Made.refl ..
    · rename_i missing
      split at made
      · cases made
        exact Made.refl ..
      · rename_i call
        cases made
        obtain rfl := walk_resolve walked
        refine (Made.put call (by simpa using missing)).of_subset ?_
        exact List.cons_subset.mpr ⟨place_mem_way last, List.nil_subset _⟩
  · cases made
    exact Made.refl ..

/-- Where the directories on the way to it are there, a successful `mkdir` leaves something at
every name of its path. -/
theorem mkdir_there {path : Path (List Char)} {disk after : Disk}
    (parent : ∀ place ∈ path.dirname.way, (disk.tree place).isSome)
    (made : mkdir path disk = (after, true)) : ∀ place ∈ path.way, (after.tree place).isSome := by
  intro place member
  rcases List.eq_nil_or_concat path.parts with empty | ⟨front, last, split⟩
  · unfold Path.way at member
    rw [empty] at member
    cases member
  · rw [List.concat_eq_append] at split
    have front_eq : path.dirname.way = way path.base front := by
      unfold Path.way Path.dirname
      rw [split, List.dropLast_concat]
    unfold Path.way at member
    rw [split, way_append] at member
    rcases List.mem_append.mp member with before | at_last
    · exact (mkdir_made made).isSome (parent place (front_eq ▸ before))
    · cases last with
      | here => cases at_last
      | up => cases at_last
      | name n =>
        have named : path.parts.getLast? = some (.name n) := by simp [split]
        have here : place = resolve path.base path.parts := by
          rw [split, resolve_append]
          exact List.mem_singleton.mp at_last
        unfold mkdir at made
        split at made
        · cases made
        · rename_i walked _
          rw [walk_resolve walked, ← here] at made
          split at made
          · cases made
            assumption
          · split at made
            · cases made
            · cases made
              simp [Disk.put]
        · rename_i other
          exact absurd named (other _)

theorem ensureDirectoryUp_made (base : Place) :
    ∀ (parts : List (Segment (List Char))) {slash : Bool} {disk after : Disk} {ok : Bool},
      ensureDirectoryUp base parts slash disk = (after, ok) →
        Made (way base parts.reverse) disk after
  | [], slash, disk, after, ok, made => by
      unfold ensureDirectoryUp at made
      split at made
      · cases made
        exact Made.refl ..
      · exact mkdir_made made
  | last :: parent, slash, disk, after, ok, made => by
      have smaller : way base parent.reverse ⊆ way base (last :: parent).reverse := by
        rw [List.reverse_cons, way_append]
        exact List.subset_append_left ..
      rw [ensureDirectoryUp] at made
      cases found : stat disk.tree ⟨base, (last :: parent).reverse, slash⟩ with
      | some node =>
        rw [found] at made
        cases made
        exact Made.refl ..
      | none =>
        simp only [found] at made
        by_cases top : parent = []
        · rw [if_pos top] at made
          exact mkdir_made made
        · rw [if_neg top] at made
          cases parents : ensureDirectoryUp base parent false disk with
          | mk middle done =>
            have first := (ensureDirectoryUp_made base parent parents).of_subset smaller
            rw [parents] at made
            cases done with
            | false =>
              cases made
              exact first
            | true => exact first.trans (mkdir_made made)

theorem ensureDirectory_made {path : Path (List Char)} {disk after : Disk} {ok : Bool}
    (made : ensureDirectory path disk = (after, ok)) : Made path.way disk after := by
  have result := ensureDirectoryUp_made path.base path.parts.reverse made
  rwa [List.reverse_reverse] at result

theorem ensureDirectoryUp_there (base : Place) :
    ∀ (parts : List (Segment (List Char))) {slash : Bool} {disk after : Disk},
      ensureDirectoryUp base parts slash disk = (after, true) →
        ∀ place ∈ way base parts.reverse, (after.tree place).isSome
  | [], _, _, _, _ => fun _ member => nomatch member
  | last :: parent, slash, disk, after, made => by
      rw [ensureDirectoryUp] at made
      cases found : stat disk.tree ⟨base, (last :: parent).reverse, slash⟩ with
      | some node =>
        rw [found] at made
        obtain rfl : disk = after := (Prod.ext_iff.mp made).1
        exact way_of_stat found
      | none =>
        simp only [found] at made
        have dirname : (⟨base, (last :: parent).reverse, slash⟩ : Path _).dirname.way =
            way base parent.reverse := by
          unfold Path.way Path.dirname
          rw [List.reverse_cons, List.dropLast_concat]
        by_cases top : parent = []
        · rw [if_pos top] at made
          refine mkdir_there ?_ made
          rw [dirname, top]
          exact fun _ member => nomatch member
        · rw [if_neg top] at made
          cases parents : ensureDirectoryUp base parent false disk with
          | mk middle done =>
            rw [parents] at made
            cases done with
            | false => cases made
            | true =>
              refine mkdir_there ?_ made
              rw [dirname]
              exact ensureDirectoryUp_there base parent parents

/-- After `ensure_directory` has succeeded there is something at every name of the path. -/
theorem ensureDirectory_there {path : Path (List Char)} {disk after : Disk}
    (made : ensureDirectory path disk = (after, true)) :
    ∀ place ∈ path.way, (after.tree place).isSome := by
  have result := ensureDirectoryUp_there path.base path.parts.reverse made
  rwa [List.reverse_reverse] at result

/-- A disk where a file may have been written at this place. -/
structure Wrote (place : Place) (contents : String) (disk after : Disk) (ok : Bool) : Prop where
  tree : ∀ p, after.tree p = disk.tree p ∨
    p = place ∧ disk.tree p ≠ some .directory ∧ p ∈ after.touched ∧
      ∃ written, after.tree p = some (.file written) ∧ (ok = true → written = contents)
  touched : ∀ p ∈ after.touched, p ∈ disk.touched ∨ p = place
  kept : ∀ p ∈ disk.touched, p ∈ after.touched
  written : ok = true → after.tree place = some (.file contents) ∧ place ∈ after.touched

theorem Wrote.unchanged (place : Place) (contents : String) (disk : Disk) :
    Wrote place contents disk disk false :=
  ⟨fun _ => .inl rfl, fun _ => .inl, fun _ => id, fun ok => nomatch ok⟩

theorem Wrote.put {disk : Disk} {place : Place} {contents written : String} {ok : Bool}
    (other : disk.tree place ≠ some .directory) (called : Disk) (tree : called.tree = disk.tree)
    (touched : called.touched = disk.touched) (own : ok = true → written = contents) :
    Wrote place contents disk (called.put place (.file written)) ok := by
  refine ⟨fun p => ?_, fun p member => ?_, fun p member => ?_, fun done => ?_⟩
  · by_cases same : p = place
    · subst same
      exact .inr ⟨rfl, other, by simp [Disk.put], written, by simp [Disk.put], own⟩
    · exact .inl (by simp [Disk.put, same, tree])
  · rcases List.mem_cons.mp member with rfl | old
    · exact .inr rfl
    · exact .inl (touched ▸ old)
  · exact List.mem_cons_of_mem _ (touched ▸ member)
  · exact ⟨by simp [Disk.put, own done], by simp [Disk.put]⟩

theorem extractToFile_wrote {left : Option String} {path : Path (List Char)} {contents : String}
    {disk after : Disk} {ok : Bool}
    (wrote : extractToFile left path contents disk = (after, ok)) :
    Wrote path.place contents disk after ok := by
  unfold extractToFile at wrote
  split at wrote
  · rename_i walked _
    obtain rfl := walk_resolve walked
    split at wrote
    · cases wrote
      exact Wrote.unchanged ..
    · rename_i free
      have other : disk.tree path.place ≠ some .directory := by
        intro directory
        simp [← directory, Path.place] at free
      split at wrote
      · rename_i call
        obtain ⟨tree, touched⟩ := Disk.call_some call
        cases wrote
        exact Wrote.put other _ tree touched fun _ => rfl
      · cases wrote
        exact Wrote.put other _ rfl rfl fun ok => nomatch ok
      · cases wrote
        exact Wrote.unchanged ..
  · cases wrote
    exact Wrote.unchanged ..

end ElmWrap.Archive
