import ElmWrap.Archive.ExtractZip

/-!
# Confinement

Where an extraction stays below its destination and extracts every file with its
own contents.
-/

namespace ElmWrap.Archive

open Lib.Paths

/-! ## What an entry needs -/

/-- The places of the names along the path of the directory an entry needs. -/
def Selection.ways (sel : Selection) (run : ExtractRun) (destDir : List Char)
    (entry : ZipEntry) : List Place :=
  match sel.relPath (mFilename entry) with
  | none => []
  | some rel =>
    let path := Path.ofText run.cwd (outputPath destDir rel.toList)
    if isFileADirectory entry then path.way else path.dirname.way

/-- The place of a regular file that is taken, where it is not kept as it was before the
extraction. -/
def Selection.target (sel : Selection) (run : ExtractRun) (destDir : List Char)
    (entry : ZipEntry) : Option Place :=
  match sel.relPath (mFilename entry) with
  | none => none
  | some rel =>
    let path := Path.ofText run.cwd (outputPath destDir rel.toList)
    if isFileADirectory entry || sel.keeps rel && (stat run.tree path).isSome then none
    else some path.place

/-- The destination is a directory. -/
def ExtractRun.HasDirectory (run : ExtractRun) (destDir : List Char) : Prop :=
  destDir ≠ [] ∧ stat run.tree (Path.ofText run.cwd destDir) = some .directory

/-- The place of the destination. -/
def ExtractRun.dest (run : ExtractRun) (destDir : List Char) : Place :=
  (Path.ofText run.cwd destDir).place

/-- The files that are not overwritten are in the destination itself. -/
def Selection.Plain (sel : Selection) : Prop := ∀ rel, sel.keeps rel = true → '/' ∉ rel.toList

theorem Selection.all_plain : Selection.all.Plain := fun _ kept => nomatch kept

theorem Selection.package_plain : Selection.package.Plain := by
  intro rel kept
  have named : rel = "elm.json" ∨ rel = "docs.json" := by
    simpa [Selection.package] using kept
  rcases named with rfl | rfl <;> decide

/-! ## Files that are kept -/

variable {sel : Selection} {run : ExtractRun} {destDir : List Char}

/-- The output path of a file in the destination itself goes through the destination. -/
theorem outputPath_segments {rel : List Char} (nonempty : destDir ≠ []) (plain : '/' ∉ rel) :
    (outputPath destDir rel).head? = destDir.head? ∧
      (segments (outputPath destDir rel)).dropLast <+: segments destDir ∧
      ((outputPath destDir rel).getLast? = some '/' →
        segments (outputPath destDir rel) <+: segments destDir) := by
  have whole : segments (destDir ++ ['/']) = segments destDir := by
    rw [segments_slash, segments_nil, List.append_nil]
  unfold outputPath
  have head : ((destDir ++ '/' :: rel).take (pathMax - 1)).head? = destDir.head? := by
    cases destDir with
    | nil => exact absurd rfl nonempty
    | cons c rest => rfl
  refine ⟨head, ?_⟩
  by_cases short : pathMax - 1 ≤ destDir.length + 1
  · -- the text ends before the name
    have cut : (destDir ++ '/' :: rel).take (pathMax - 1) =
        (destDir ++ ['/']).take (pathMax - 1) := by
      rw [show destDir ++ '/' :: rel = (destDir ++ ['/']) ++ rel by simp]
      exact List.take_append_of_le_length (by simpa using short)
    have rest := List.take_append_drop (pathMax - 1) (destDir ++ ['/'])
    rw [cut]
    refine ⟨?_, fun slash => ?_⟩
    · have result := segments_dropLast_prefix ((destDir ++ ['/']).take (pathMax - 1))
        ((destDir ++ ['/']).drop (pathMax - 1))
      rwa [rest, whole] at result
    · have result := segments_prefix_of_slash slash ((destDir ++ ['/']).drop (pathMax - 1))
      rwa [rest, whole] at result
  · obtain ⟨m, length⟩ : ∃ m, pathMax - 1 = destDir.length + 1 + (m + 1) :=
      ⟨pathMax - 1 - (destDir.length + 1) - 1, by omega⟩
    have cut : (destDir ++ '/' :: rel).take (pathMax - 1) =
        destDir ++ '/' :: rel.take (m + 1) := by
      rw [length, show destDir.length + 1 + (m + 1) = destDir.length + (m + 1 + 1) by omega,
        List.take_length_add_append, List.take_succ_cons]
    have plain' : '/' ∉ rel.take (m + 1) := fun member => plain (List.mem_of_mem_take member)
    rw [cut, segments_slash]
    refine ⟨?_, fun slash => ?_⟩
    · rcases segments_one plain' with none | ⟨s, one⟩
      · rw [none, List.append_nil]
        exact List.dropLast_prefix _
      · rw [one, List.dropLast_concat]
    · cases name : rel.take (m + 1) with
      | nil => rw [segments_nil, List.append_nil]
      | cons c rest =>
        rw [name] at slash plain'
        have last : (c :: rest).getLast? = some '/' := by
          rwa [List.getLast?_append_of_ne_nil _ (by simp), List.getLast?_cons_cons] at slash
        exact absurd (List.mem_of_getLast? last) plain'

/-- The path of a file in the destination itself. -/
theorem kept_path {rel : List Char} (directory : run.HasDirectory destDir) (plain : '/' ∉ rel) :
    let path := Path.ofText run.cwd (outputPath destDir rel)
    (∀ place ∈ path.dirname.way, (run.tree place).isSome) ∧
      ((run.tree path.place).isSome → (stat run.tree path).isSome) := by
  intro path
  obtain ⟨nonempty, found⟩ := directory
  obtain ⟨head, outer, slash⟩ := outputPath_segments nonempty plain
  obtain ⟨walked, there⟩ := stat_some found
  have base : path.base = (Path.ofText run.cwd destDir).base := by
    simp only [path, Path.ofText, head]
  have inside {parts : List (Segment (List Char))} (part : parts <+: segments destDir) :
      walk run.tree path.base parts = some (resolve path.base parts) ∧
        run.tree (resolve path.base parts) = some .directory := by
    obtain ⟨rest, whole⟩ := part
    have dest : (Path.ofText run.cwd destDir).parts = parts ++ rest := whole.symm
    unfold Path.place at walked there
    rw [dest] at walked there
    rw [base]
    exact walk_prefix walked there
  refine ⟨way_of_walk (inside outer).1 (by rw [(inside outer).2]; rfl), fun exists_ => ?_⟩
  by_cases ends : path.slash = true
  · obtain ⟨walk_path, at_path⟩ := inside (slash (of_decide_eq_true ends))
    have reached : walk run.tree path.base path.parts = some path.place := walk_path
    unfold stat
    rw [reached, Option.bind_some, show run.tree path.place = some .directory from at_path]
    simp
  · have reached : walk run.tree path.base path.parts = some path.place := by
      unfold Path.place
      rcases List.eq_nil_or_concat path.parts with empty | ⟨front, last, split⟩
      · rw [empty]
        rfl
      · rw [List.concat_eq_append] at split
        have parent : (segments (outputPath destDir rel)).dropLast = front := by
          rw [show segments (outputPath destDir rel) = front ++ [last] from split,
            List.dropLast_concat]
        obtain ⟨walk_front, at_front⟩ := inside (parent ▸ outer)
        rw [split, walk_append]
        refine ⟨walk_front, walk_cons.mpr ⟨at_front, ?_⟩⟩
        rw [resolve_append]
        rfl
    unfold stat
    rw [reached, Option.bind_some]
    simpa [ends] using exists_

/-! ## Plain names -/

/-- A file with a plain name goes where its name says, as in the model of a download. -/
theorem target_plain {entry : ZipEntry} (nonempty : destDir ≠ []) (plain : entry.Plain)
    (regular : entry.isDirectory = false) (whole : mFilename entry = entry.filename)
    (short : destDir.length + 1 + (relPath entry.filename).toList.length < pathMax) {p : Place}
    (targeted : Selection.package.target run destDir entry = some p) :
    p = run.dest destDir ++ (relPath entry.filename).toList.splitOn '/' := by
  have names : segments (relPath entry.filename).toList =
      ((relPath entry.filename).toList.splitOn '/').map Segment.name := by
    unfold segments
    rw [← List.filterMap_eq_map]
    refine List.filterMap_congr fun part on => ?_
    obtain ⟨here, up, empty⟩ := plain part on
    rw [if_neg (fun none => by simpa [regular] using empty none), if_neg here, if_neg up]
    rfl
  have path : outputPath destDir (relPath entry.filename).toList =
      destDir ++ '/' :: (relPath entry.filename).toList :=
    List.take_of_length_le (by simp; omega)
  unfold Selection.target Selection.package at targeted
  rw [whole] at targeted
  dsimp only at targeted
  split at targeted
  · cases targeted
  · rename_i rel taken
    obtain rfl : relPath entry.filename = rel := by
      split at taken <;> simp_all
    split at targeted
    · cases targeted
    · cases targeted
      obtain ⟨c, rest, rfl⟩ := List.exists_cons_of_ne_nil nonempty
      unfold Path.place ExtractRun.dest Path.place Path.ofText
      dsimp only
      rw [path, segments_slash, resolve_append, names, prefix_resolve_names]
      rfl

/-! ## One entry -/

/-- What the extraction of an entry does. -/
structure Extracted (sel : Selection) (run : ExtractRun) (destDir : List Char)
    (entry : ZipEntry) (disk after : Disk) (ok : Bool) : Prop where
  isSome : ∀ p, (disk.tree p).isSome → (after.tree p).isSome
  directory : ∀ p, disk.tree p = some .directory → after.tree p = some .directory
  made : ∀ p, after.tree p = some .directory →
    disk.tree p = some .directory ∨ p ∈ sel.ways run destDir entry ∧ disk.tree p = none
  file : ∀ p contents, after.tree p = some (.file contents) →
    disk.tree p = some (.file contents) ∨
      sel.target run destDir entry = some p ∧ (ok = true → contents = entry.contents)
  touched : ∀ p ∈ after.touched, p ∈ disk.touched ∨
    p ∈ sel.ways run destDir entry ∧ disk.tree p = none ∨ sel.target run destDir entry = some p
  kept : ∀ p ∈ disk.touched, p ∈ after.touched
  new : ∀ p, (after.tree p).isSome → (disk.tree p).isSome ∨ p ∈ after.touched
  there : ok = true → ∀ p ∈ sel.ways run destDir entry, (after.tree p).isSome
  fresh : ok = true → ∀ p ∈ sel.ways run destDir entry, disk.tree p = none →
    after.tree p = some .directory
  written : ok = true → ∀ p, sel.target run destDir entry = some p →
    after.tree p = some (.file entry.contents) ∧ p ∈ after.touched ∨
      after = disk ∧ (disk.tree p).isSome ∧ run.tree p = none

/-- Nothing is done, and nothing has to be. -/
theorem Extracted.skipped {entry : ZipEntry} {disk : Disk} {ok : Bool}
    (ways : ok = true → ∀ p ∈ sel.ways run destDir entry, (disk.tree p).isSome)
    (target : ok = true → ∀ p, sel.target run destDir entry = some p →
      (disk.tree p).isSome ∧ run.tree p = none) :
    Extracted sel run destDir entry disk disk ok where
  isSome _ := id
  directory _ := id
  made _ := .inl
  file _ _ := .inl
  touched _ := .inl
  kept _ := id
  new _ := .inl
  there := ways
  fresh ok p member missing := by simpa [missing] using ways ok p member
  written ok p targeted := .inr ⟨rfl, target ok p targeted⟩

/-- Only directories are made. -/
theorem Extracted.of_made {entry : ZipEntry} {disk after : Disk} {ok : Bool}
    (made : Made (sel.ways run destDir entry) disk after)
    (there : ok = true → ∀ p ∈ sel.ways run destDir entry, (after.tree p).isSome)
    (target : ok = true → sel.target run destDir entry = none) :
    Extracted sel run destDir entry disk after ok where
  isSome _ := made.isSome
  directory p here := by
    rcases made.tree p with same | ⟨missing, _⟩
    · rwa [same]
    · rw [missing] at here
      cases here
  made p here := by
    rcases made.tree p with same | ⟨missing, _, member, _⟩
    · exact .inl (same ▸ here)
    · exact .inr ⟨member, missing⟩
  file p contents here := by
    rcases made.tree p with same | ⟨_, directory, _⟩
    · exact .inl (same ▸ here)
    · rw [directory] at here
      cases here
  touched p member := (made.touched p member).imp_right .inl
  kept := made.kept
  new p here := by
    rcases made.tree p with same | ⟨_, _, _, member⟩
    · exact .inl (same ▸ here)
    · exact .inr member
  there := there
  fresh ok p member missing := by
    rcases made.tree p with same | ⟨_, directory, _⟩
    · have here := there ok p member
      rw [same, missing] at here
      cases here
    · exact directory
  written ok p targeted := by
    rw [target ok] at targeted
    cases targeted

/-- Directories are made, and then the file is written. -/
theorem Extracted.of_wrote {entry : ZipEntry} {disk middle after : Disk} {ok : Bool}
    {place : Place} (made : Made (sel.ways run destDir entry) disk middle)
    (there : ∀ p ∈ sel.ways run destDir entry, (middle.tree p).isSome)
    (target : sel.target run destDir entry = some place)
    (wrote : Wrote place entry.contents middle after ok) :
    Extracted sel run destDir entry disk after ok := by
  have first : Extracted sel run destDir entry disk middle false :=
    Extracted.of_made made (fun ok => nomatch ok) fun ok => nomatch ok
  have isSome : ∀ p, (middle.tree p).isSome → (after.tree p).isSome := by
    intro p here
    rcases wrote.tree p with same | ⟨_, _, _, _, file, _⟩
    · rwa [same]
    · rw [file]
      rfl
  have directory : ∀ p, middle.tree p = some .directory → after.tree p = some .directory := by
    intro p here
    rcases wrote.tree p with same | ⟨_, other, _⟩
    · rwa [same]
    · exact absurd here other
  refine ⟨fun p here => isSome p (first.isSome p here),
    fun p here => directory p (first.directory p here), fun p here => ?_,
    fun p contents here => ?_, fun p member => ?_,
    fun p member => wrote.kept p (made.kept p member), fun p here => ?_,
    fun _ p member => isSome p (there p member), fun _ p member missing => ?_,
    fun ok p targeted => ?_⟩
  · rcases wrote.tree p with same | ⟨_, _, _, _, file, _⟩
    · exact first.made p (same ▸ here)
    · rw [file] at here
      cases here
  · rcases wrote.tree p with same | ⟨rfl, _, _, _, file, own⟩
    · rcases first.file p contents (same ▸ here) with old | ⟨targeted, _⟩
      · exact .inl old
      · rcases made.tree p with same' | ⟨_, directory, _⟩
        · exact .inl (same' ▸ same ▸ here)
        · rw [same, directory] at here
          cases here
    · rw [file] at here
      cases here
      exact .inr ⟨target, own⟩
  · rcases wrote.touched p member with old | rfl
    · exact first.touched p old
    · exact .inr (.inr target)
  · rcases wrote.tree p with same | ⟨_, _, member, _⟩
    · exact (first.new p (same ▸ here)).imp_right (wrote.kept p)
    · exact .inr member
  · rcases made.tree p with same | ⟨_, made_here, _⟩
    · have here := there p member
      rw [same, missing] at here
      cases here
    · exact directory p made_here
  · rw [target] at targeted
    cases targeted
    exact .inl (wrote.written ok)

/-- The disk still has the directories of the start, and something wherever it was. -/
structure Grown (run : ExtractRun) (disk : Disk) : Prop where
  isSome : ∀ p, (run.tree p).isSome → (disk.tree p).isSome
  directory : ∀ p, run.tree p = some .directory → disk.tree p = some .directory

/-- What `stat` has found at the start it finds later. -/
theorem Grown.stat {disk : Disk} (grown : Grown run disk) {path : Path (List Char)}
    (found : (stat run.tree path).isSome) : (stat disk.tree path).isSome := by
  obtain ⟨node, found⟩ := Option.isSome_iff_exists.mp found
  obtain ⟨walked, here⟩ := stat_some found
  have ends := (Option.filter_eq_some_iff.mp found).2
  unfold Lib.Paths.stat
  rw [walk_mono grown.directory walked, Option.bind_some]
  cases node with
  | directory =>
    rw [grown.directory _ here]
    simp
  | file contents =>
    have open_end : path.slash = false := by simpa using ends
    have still := grown.isSome path.place (by rw [here]; rfl)
    simpa [open_end] using still

/-- The step lemma. -/
theorem extractOne_extracted (plain : sel.Plain) (directory : run.HasDirectory destDir)
    {entry : ZipEntry} {disk after : Disk} {ok : Bool} (grown : Grown run disk)
    (result : extractOne sel run destDir entry disk = (after, ok)) :
    Extracted sel run destDir entry disk after ok := by
  unfold extractOne at result
  cases chosen : sel.relPath (mFilename entry) with
  | none =>
    rw [chosen] at result
    cases result
    exact Extracted.skipped (fun _ => by simp [Selection.ways, chosen])
      fun _ => by simp [Selection.target, chosen]
  | some rel =>
    simp only [chosen] at result
    split at result
    · rename_i isDirectory
      have ways : sel.ways run destDir entry =
          (Path.ofText run.cwd (outputPath destDir rel.toList)).way := by
        simp [Selection.ways, chosen, isDirectory]
      refine Extracted.of_made (ways ▸ ensureDirectory_made result) (fun done => ?_)
        fun _ => by simp [Selection.target, chosen, isDirectory]
      subst done
      exact ways ▸ ensureDirectory_there result
    · rename_i regular
      have ways : sel.ways run destDir entry =
          (Path.ofText run.cwd (outputPath destDir rel.toList)).dirname.way := by
        simp [Selection.ways, chosen, regular]
      split at result
      · -- the file exists and is kept
        rename_i keeps
        obtain ⟨kept, found⟩ := Bool.and_eq_true_iff.mp keeps
        obtain ⟨parent, lookup⟩ := kept_path directory (plain rel kept)
        cases result
        refine Extracted.skipped (fun _ p member => ?_) fun _ p targeted => ?_
        · exact grown.isSome p (parent p (ways ▸ member))
        · have missing : stat run.tree
              (Path.ofText run.cwd (outputPath destDir rel.toList)) = none := by
            by_contra there
            simp [Selection.target, chosen, kept, Option.isSome_iff_ne_none, there] at targeted
          obtain rfl : (Path.ofText run.cwd (outputPath destDir rel.toList)).place = p := by
            simpa [Selection.target, chosen, regular, missing] using targeted
          obtain ⟨node, found⟩ := Option.isSome_iff_exists.mp found
          refine ⟨by rw [(stat_some found).2]; rfl, ?_⟩
          by_contra there
          simpa [missing] using lookup (Option.isSome_iff_ne_none.mpr there)
      · rename_i taken
        have target : sel.target run destDir entry =
            some (Path.ofText run.cwd (outputPath destDir rel.toList)).place := by
          have free : ¬(sel.keeps rel && (stat run.tree
              (Path.ofText run.cwd (outputPath destDir rel.toList))).isSome) = true := by
            intro both
            obtain ⟨kept, found⟩ := Bool.and_eq_true_iff.mp both
            exact taken (Bool.and_eq_true_iff.mpr ⟨kept, grown.stat found⟩)
          simp only [Selection.target, chosen, regular, Bool.false_or, free]
          rfl
        cases parents : ensureDirectory
            (Path.ofText run.cwd (outputPath destDir rel.toList)).dirname disk with
        | mk middle done =>
          rw [parents] at result
          cases done with
          | false =>
            cases result
            exact Extracted.of_made (ways ▸ ensureDirectory_made parents)
              (fun ok => nomatch ok) fun ok => nomatch ok
          | true =>
            exact Extracted.of_wrote (ways ▸ ensureDirectory_made parents)
              (ways ▸ ensureDirectory_there parents) target (extractToFile_wrote result)

/-! ## The loop -/

/-- What the extraction of these entries has done. -/
structure Ran (sel : Selection) (run : ExtractRun) (destDir : List Char)
    (entries : List ZipEntry) (disk : Disk) : Prop where
  grown : Grown run disk
  /-- A directory was there, or its first mention makes it. -/
  directory : ∀ p, disk.tree p = some .directory →
    run.tree p = some .directory ∨ run.tree p = none ∧ ∃ before entry later,
      entries = before ++ entry :: later ∧ p ∈ sel.ways run destDir entry ∧
        ∀ other ∈ before, sel.target run destDir other ≠ some p
  made : ∀ before entry later, entries = before ++ entry :: later →
    ∀ p ∈ sel.ways run destDir entry, run.tree p = none →
      (∀ other ∈ before, sel.target run destDir other ≠ some p) →
        disk.tree p = some .directory
  file : ∀ p contents, disk.tree p = some (.file contents) →
    run.tree p = some (.file contents) ∧
        (∀ entry ∈ entries, sel.target run destDir entry ≠ some p) ∨
      ∃ entry ∈ entries, sel.target run destDir entry = some p ∧ contents = entry.contents
  touched : ∀ p ∈ disk.touched, ∃ entry ∈ entries,
    p ∈ sel.ways run destDir entry ∧ run.tree p = none ∨ sel.target run destDir entry = some p
  new : ∀ p, (disk.tree p).isSome → (run.tree p).isSome ∨ p ∈ disk.touched
  there : ∀ entry ∈ entries, ∀ p ∈ sel.ways run destDir entry, (disk.tree p).isSome
  reached : ∀ entry ∈ entries, ∀ p, sel.target run destDir entry = some p →
    (disk.tree p).isSome ∧ p ∈ disk.touched ∧ run.tree p ≠ some .directory

theorem Ran.start : Ran sel run destDir [] run.start where
  grown := ⟨fun _ => id, fun _ => id⟩
  directory _ := .inl
  made before entry later split := by
    have length := congrArg List.length split
    simp at length
  file _ _ here := .inl ⟨here, fun _ member => nomatch member⟩
  touched _ member := nomatch member
  new _ := .inl
  there _ member := nomatch member
  reached _ member := nomatch member

theorem Grown.extracted {entry : ZipEntry} {disk after : Disk} {ok : Bool}
    (grown : Grown run disk) (step : Extracted sel run destDir entry disk after ok) :
    Grown run after :=
  ⟨fun p here => step.isSome p (grown.isSome p here),
    fun p here => step.directory p (grown.directory p here)⟩

/-- What is not there yet was not there at the start. -/
theorem Grown.missing {disk : Disk} (grown : Grown run disk) {p : Place}
    (missing : disk.tree p = none) : run.tree p = none := by
  by_contra there
  simpa [missing] using grown.isSome p (Option.isSome_iff_ne_none.mpr there)

theorem Ran.extracted {entries : List ZipEntry} {entry : ZipEntry} {disk after : Disk}
    (ran : Ran sel run destDir entries disk)
    (step : Extracted sel run destDir entry disk after true) :
    Ran sel run destDir (entries ++ [entry]) after where
  grown := ran.grown.extracted step
  directory p here := by
    rcases step.made p here with old | ⟨member, missing⟩
    · refine (ran.directory p old).imp_right fun ⟨missing, before, first, later, split, rest⟩ => ?_
      exact ⟨missing, before, first, later ++ [entry], by simp [split], rest⟩
    · refine .inr ⟨ran.grown.missing missing, entries, entry, [], rfl, member, ?_⟩
      intro other earlier targeted
      simpa [missing] using (ran.reached other earlier p targeted).1
  made before first later split p member missing alone := by
    rcases List.eq_nil_or_concat later with rfl | ⟨front, last, rfl⟩
    · obtain ⟨rfl, same⟩ := List.append_inj' split rfl
      cases same
      -- the entry is the last one: what is there is no file of an earlier one
      cases here : disk.tree p with
      | none => exact step.fresh rfl p member here
      | some node =>
        cases node with
        | directory => exact step.directory p here
        | file contents =>
          rcases ran.file p contents here with ⟨old, _⟩ | ⟨other, earlier, targeted, _⟩
          · rw [missing] at old
            cases old
          · exact absurd targeted (alone other earlier)
    · rw [List.concat_eq_append, ← List.cons_append, ← List.append_assoc] at split
      obtain ⟨inner, _⟩ := List.append_inj' split rfl
      exact step.directory p (ran.made before first front inner p member missing alone)
  file p contents here := by
    have now_last (targeted : sel.target run destDir entry = some p)
        (own : contents = entry.contents) : ∃ entry_1 ∈ entries ++ [entry],
          sel.target run destDir entry_1 = some p ∧ contents = entry_1.contents :=
      ⟨entry, by simp, targeted, own⟩
    rcases step.file p contents here with old | ⟨targeted, own⟩
    · rcases ran.file p contents old with ⟨initial, alone⟩ | ⟨other, earlier, rest⟩
      · by_cases targeted : sel.target run destDir entry = some p
        · rcases step.written rfl p targeted with ⟨written, _⟩ | ⟨_, _, missing⟩
          · rw [written] at here
            cases here
            exact .inr (now_last targeted rfl)
          · rw [missing] at initial
            cases initial
        · refine .inl ⟨initial, fun other member => ?_⟩
          rcases List.mem_append.mp member with earlier | last
          · exact alone other earlier
          · exact List.mem_singleton.mp last ▸ targeted
      · exact .inr ⟨other, List.mem_append_left _ earlier, rest⟩
    · exact .inr (now_last targeted (own rfl))
  touched p member := by
    rcases step.touched p member with old | ⟨on_way, missing⟩ | targeted
    · obtain ⟨other, earlier, rest⟩ := ran.touched p old
      exact ⟨other, List.mem_append_left _ earlier, rest⟩
    · exact ⟨entry, by simp, .inl ⟨on_way, ran.grown.missing missing⟩⟩
    · exact ⟨entry, by simp, .inr targeted⟩
  new p here := by
    rcases step.new p here with old | member
    · exact (ran.new p old).imp_right (step.kept p)
    · exact .inr member
  there other member p on_way := by
    rcases List.mem_append.mp member with earlier | last
    · exact step.isSome p (ran.there other earlier p on_way)
    · exact step.there rfl p (List.mem_singleton.mp last ▸ on_way)
  reached other member p targeted := by
    rcases List.mem_append.mp member with earlier | last
    · obtain ⟨here, touched, rest⟩ := ran.reached other earlier p targeted
      exact ⟨step.isSome p here, step.kept p touched, rest⟩
    · obtain rfl := List.mem_singleton.mp last
      rcases step.written rfl p targeted with ⟨written, touched⟩ | ⟨rfl, here, missing⟩
      · refine ⟨by rw [written]; rfl, touched, fun directory => ?_⟩
        have still := (ran.grown.extracted step).directory p directory
        rw [written] at still
        cases still
      · refine ⟨here, (ran.new p here).resolve_left ?_, ?_⟩ <;> simp [missing]

/-- The entries before the first one that cannot be read. -/
def readable : List (Option ZipEntry) → List ZipEntry
  | [] | none :: _ => []
  | some entry :: rest => entry :: readable rest

/-- The run lemma. -/
theorem extractAll_ran (plain : sel.Plain) (directory : run.HasDirectory destDir) :
    ∀ (rest : List (Option ZipEntry)) {entries : List ZipEntry} {disk after : Disk} {ok : Bool},
      Ran sel run destDir entries disk →
      extractAll sel run destDir rest disk = (after, ok) →
        (ok = true → Ran sel run destDir (entries ++ readable rest) after) ∧
          ∀ p ∈ after.touched, ∃ entry ∈ entries ++ readable rest,
            p ∈ sel.ways run destDir entry ∧ run.tree p = none ∨
              sel.target run destDir entry = some p
  | [], entries, disk, after, ok, ran, result => by
      cases result
      rw [readable, List.append_nil]
      exact ⟨fun _ => ran, ran.touched⟩
  | none :: rest, entries, disk, after, ok, ran, result => by
      cases result
      refine ⟨nofun, fun p member => ?_⟩
      obtain ⟨other, earlier, found⟩ := ran.touched p member
      exact ⟨other, List.mem_append_left _ earlier, found⟩
  | some entry :: rest, entries, disk, after, ok, ran, result => by
      rw [extractAll] at result
      cases one : extractOne sel run destDir entry disk with
      | mk middle done =>
        have step := extractOne_extracted plain directory ran.grown one
        rw [one] at result
        rw [readable]
        cases done with
        | true =>
          rw [List.append_cons]
          exact extractAll_ran plain directory rest (ran.extracted step) result
        | false =>
          cases result
          refine ⟨nofun, fun p member => ?_⟩
          rcases step.touched p member with old | ⟨on_way, missing⟩ | targeted
          · obtain ⟨other, earlier, found⟩ := ran.touched p old
            exact ⟨other, List.mem_append_left _ earlier, found⟩
          · exact ⟨entry, by simp, .inl ⟨on_way, ran.grown.missing missing⟩⟩
          · exact ⟨entry, by simp, .inr targeted⟩

/-! ## Whole extractions -/

/-- The entries of an archive, as far as it can be read. -/
def entriesOf (archive : Option (List (Option ZipEntry))) : List ZipEntry :=
  readable (archive.getD [])

/-- Everything made or written is in the destination, and after a success every regular file
taken has been written with its own contents. -/
structure Sound (sel : Selection) (run : ExtractRun) (destDir : List Char)
    (entries : List ZipEntry) (result : Disk × Bool) : Prop where
  confined : ∀ p ∈ result.1.touched, run.dest destDir <+: p
  written : result.2 = true → ∀ entry ∈ entries, ∀ p, sel.target run destDir entry = some p →
    result.1.tree p = some (.file entry.contents)

/-- The names of an archive keep within the destination, and none takes the place of a file. -/
structure Fits (sel : Selection) (run : ExtractRun) (destDir : List Char)
    (entries : List ZipEntry) : Prop where
  /-- Directories outside of the destination are there before. -/
  ways : ∀ entry ∈ entries, ∀ p ∈ sel.ways run destDir entry,
    run.dest destDir <+: p ∨ (run.tree p).isSome
  files : ∀ entry ∈ entries, ∀ p, sel.target run destDir entry = some p → run.dest destDir <+: p
  /-- Files at one place have the same contents. -/
  same : ∀ entry ∈ entries, ∀ other ∈ entries, ∀ p, sel.target run destDir entry = some p →
    sel.target run destDir other = some p → entry.contents = other.contents
  /-- An entry needs a directory at the place of a file only where something is there before. -/
  first : ∀ before entry later, entries = before ++ entry :: later →
    ∀ file ∈ entries, ∀ p, sel.target run destDir file = some p →
      p ∈ sel.ways run destDir entry →
        (run.tree p).isSome ∨ ∃ other ∈ before, sel.target run destDir other = some p

theorem extract_ran (plain : sel.Plain) (directory : run.HasDirectory destDir)
    (archive : Option (List (Option ZipEntry))) :
    ((extract sel run archive destDir).2 = true →
        Ran sel run destDir (entriesOf archive) (extract sel run archive destDir).1) ∧
      ∀ p ∈ (extract sel run archive destDir).1.touched, ∃ entry ∈ entriesOf archive,
        p ∈ sel.ways run destDir entry ∧ run.tree p = none ∨
          sel.target run destDir entry = some p := by
  cases archive with
  | none => exact ⟨nofun, fun _ member => nomatch member⟩
  | some entries => exact extractAll_ran plain directory entries Ran.start rfl

/-- Where the names fit, every file has its own contents in the end. -/
theorem Ran.written {entries : List ZipEntry} {disk : Disk}
    (ran : Ran sel run destDir entries disk) (fits : Fits sel run destDir entries) :
    ∀ entry ∈ entries, ∀ p, sel.target run destDir entry = some p →
      disk.tree p = some (.file entry.contents) := by
  intro entry member p targeted
  obtain ⟨there, _, other⟩ := ran.reached entry member p targeted
  obtain ⟨node, here⟩ := Option.isSome_iff_exists.mp there
  cases node with
  | file contents =>
    rcases ran.file p contents here with ⟨_, alone⟩ | ⟨writer, among, targeted', own⟩
    · exact absurd targeted (alone entry member)
    · rw [here, own, fits.same writer among entry member p targeted' targeted]
  | directory =>
    rcases ran.directory p here with initial | ⟨missing, before, first, later, split, way, alone⟩
    · exact absurd initial other
    · rcases fits.first before first later split entry member p targeted way with
        initial | ⟨writer, earlier, targeted'⟩
      · simp [missing] at initial
      · exact absurd targeted' (alone writer earlier)

/-- Where the names fit, nothing is touched outside of the destination. -/
theorem Fits.confined {entries : List ZipEntry} (fits : Fits sel run destDir entries)
    {entry : ZipEntry} (member : entry ∈ entries) {p : Place}
    (touched : p ∈ sel.ways run destDir entry ∧ run.tree p = none ∨
      sel.target run destDir entry = some p) : run.dest destDir <+: p := by
  rcases touched with ⟨on_way, missing⟩ | targeted
  · exact (fits.ways entry member p on_way).resolve_right (by simp [missing])
  · exact fits.files entry member p targeted

/-- A successful extraction that is sound had names that fit. -/
theorem Ran.fits {entries : List ZipEntry} {disk : Disk}
    (ran : Ran sel run destDir entries disk)
    (sound : Sound sel run destDir entries (disk, true)) : Fits sel run destDir entries where
  ways entry member p on_way :=
    ((ran.new p (ran.there entry member p on_way)).imp_right (sound.confined p)).symm
  files entry member p targeted := sound.confined p (ran.reached entry member p targeted).2.1
  same entry member other among p targeted targeted' := by
    have own := sound.written rfl entry member p targeted
    rw [sound.written rfl other among p targeted'] at own
    simpa using own.symm
  first before entry later split file member p targeted on_way := by
    by_contra none
    push Not at none
    obtain ⟨missing, alone⟩ := none
    have made := ran.made before entry later split p on_way (by simpa using missing) alone
    rw [sound.written rfl file member p targeted] at made
    cases made

/-- Where the names fit the extraction is sound, whatever fails; and a successful extraction is
sound only where they fit. -/
theorem extract_sound (plain : sel.Plain) (directory : run.HasDirectory destDir)
    (archive : Option (List (Option ZipEntry))) :
    (Fits sel run destDir (entriesOf archive) →
        Sound sel run destDir (entriesOf archive) (extract sel run archive destDir)) ∧
      ((extract sel run archive destDir).2 = true →
        Sound sel run destDir (entriesOf archive) (extract sel run archive destDir) →
          Fits sel run destDir (entriesOf archive)) := by
  obtain ⟨ran, touched⟩ := extract_ran plain directory archive
  refine ⟨fun fits => ⟨fun p member => ?_, fun ok => (ran ok).written fits⟩, fun ok sound => ?_⟩
  · obtain ⟨entry, among, cause⟩ := touched p member
    exact fits.confined among cause
  · exact (ran ok).fits ⟨sound.confined, fun _ => sound.written ok⟩

/-- `extract_zip` and `extract_zip_selective` stay in the destination and write every file they
take with its own contents where the names of the archive fit. -/
theorem extractZip_sound {run : ExtractRun} {destDir : List Char}
    (directory : run.HasDirectory destDir) (archive : Option (List (Option ZipEntry))) :
    ((Fits .all run destDir (entriesOf archive) →
          Sound .all run destDir (entriesOf archive) (extractZip run archive destDir)) ∧
        ((extractZip run archive destDir).2 = true →
          Sound .all run destDir (entriesOf archive) (extractZip run archive destDir) →
            Fits .all run destDir (entriesOf archive))) ∧
      (Fits .package run destDir (entriesOf archive) →
          Sound .package run destDir (entriesOf archive)
            (extractZipSelective run archive destDir)) ∧
        ((extractZipSelective run archive destDir).2 = true →
          Sound .package run destDir (entriesOf archive)
            (extractZipSelective run archive destDir) →
            Fits .package run destDir (entriesOf archive)) :=
  ⟨extract_sound Selection.all_plain directory archive,
    extract_sound Selection.package_plain directory archive⟩

/-- A run in a tree with the root and the directory `c` only. -/
def emptyRun : ExtractRun where
  cwd := []
  tree p := if p = [] ∨ p = ["c".toList] then some .directory else none
  calls := none
  left := none

/-- An archive with a directory, a source file and two files called `elm.json`. -/
def plainArchive : List ZipEntry :=
  [⟨"pkg/src/", true, ""⟩, ⟨"pkg/elm.json", false, "{}"⟩, ⟨"pkg/src/Main.elm", false, "main"⟩,
    ⟨"pkg/Makefile", false, "all:"⟩, ⟨"copy/elm.json", false, "{}"⟩]

/-- An archive with a file whose path leaves the destination after `src`. -/
def escapingArchive : List ZipEntry := [⟨"pkg/src/../../x", false, "x"⟩]

/-- A plain archive fits, and is extracted. -/
theorem extractZip_sound_plain :
    Sound .package emptyRun "/c".toList (entriesOf (some (plainArchive.map some)))
      (extractZipSelective emptyRun (some (plainArchive.map some)) "/c".toList) ∧
    (extractZipSelective emptyRun (some (plainArchive.map some)) "/c".toList).2 = true := by
  have fits : Fits .package emptyRun "/c".toList (entriesOf (some (plainArchive.map some))) := by
    have files : ∀ entry ∈ plainArchive,
        ∀ p ∈ (Selection.package.target emptyRun "/c".toList entry).toList,
          emptyRun.dest "/c".toList <+: p ∧
          (∀ other ∈ plainArchive, Selection.package.target emptyRun "/c".toList other = some p →
            entry.contents = other.contents) ∧
          ∀ other ∈ plainArchive, p ∉ Selection.package.ways emptyRun "/c".toList other := by
      decide +kernel
    have file {entry : ZipEntry} (member : entry ∈ plainArchive) {p : Place}
        (targeted : Selection.package.target emptyRun "/c".toList entry = some p) :=
      files entry member p (Option.mem_toList.mpr targeted)
    refine ⟨by decide +kernel, fun entry member p targeted => (file member targeted).1,
      fun entry member other among p targeted => (file member targeted).2.1 other among,
      fun before entry later split file' member p targeted on_way => ?_⟩
    have among : entry ∈ plainArchive := by
      rw [show plainArchive = before ++ entry :: later from split]
      simp
    exact absurd on_way ((file member targeted).2.2 entry among)
  have directory : emptyRun.HasDirectory "/c".toList := by
    unfold ExtractRun.HasDirectory
    decide
  exact ⟨(extractZip_sound directory (some (plainArchive.map some))).2.1 fits, by decide +kernel⟩

/-- The file `src/../../x` of an archive is written outside of the destination. -/
theorem extractZipSelective_escapes :
    emptyRun.HasDirectory "/c".toList ∧
    ¬Sound .package emptyRun "/c".toList (entriesOf (some (escapingArchive.map some)))
      (extractZipSelective emptyRun (some (escapingArchive.map some)) "/c".toList) := by
  refine ⟨by unfold ExtractRun.HasDirectory; decide, fun sound => ?_⟩
  exact absurd (sound.confined ["x".toList] (by decide +kernel)) (by decide +kernel)

end ElmWrap.Archive
