import ElmWrap.Mirror.MirrorCmd
import ElmWrap.Lib.Watermark

/-!
# No version is skipped forever

The number a run leaves behind is a place in the registry: what is listed up to it
is not looked at again. A version is lost when it stands there without being in the
manifest. The condition under which none is lost is about each run and the files it
starts with; it is carried over whole sequences of runs by `Resumes`.
-/

namespace ElmWrap.Mirror

open Lib (Json Pending mem_drop_iff)

/-! ## What a run goes through -/

namespace MirrorRun

/-- The versions the registry lists, in the order of the scan. -/
def listing (run : MirrorRun) : List ListedVersion :=
  run.registry.entries.flatMap fun entry =>
    entry.versions.map fun version => ⟨entry.author, entry.name, versionToString version⟩

/-- The versions that the options leave, in the order of the scan. -/
def numbered (run : MirrorRun) : List ListedVersion :=
  run.registry.entries.flatMap fun entry =>
    if isPackageInFilter run.opts entry.author entry.name then
      (if run.opts.latestOnly then entry.versions.take 1 else entry.versions).map fun version =>
        ⟨entry.author, entry.name, versionToString version⟩
    else []

/-- No option leaves out a version. -/
structure Unfiltered (run : MirrorRun) : Prop where
  packages : run.opts.specificPackages = []
  versions : run.opts.latestOnly = false

theorem Unfiltered.numbered {run : MirrorRun} (unfiltered : run.Unfiltered) :
    run.numbered = run.listing := by
  simp [MirrorRun.numbered, listing, isPackageInFilter, unfiltered.packages, unfiltered.versions]

def Blacklisted (run : MirrorRun) (v : ListedVersion) : Prop :=
  blacklistContains run.blacklist v.author v.name v.version

instance (run : MirrorRun) (v : ListedVersion) : Decidable (run.Blacklisted v) :=
  inferInstanceAs (Decidable (_ = true))

end MirrorRun

def MirrorManifest.HoldsVersion (m : MirrorManifest) (v : ListedVersion) : Prop :=
  m.Holds v.author v.name v.version

instance (m : MirrorManifest) (v : ListedVersion) : Decidable (m.HoldsVersion v) :=
  inferInstanceAs (Decidable (m.Holds _ _ _))

namespace MirrorRun

/-- A version is put into the queue under a number. -/
structure Queues (run : MirrorRun) (lastProcessed : Nat) (manifest : MirrorManifest)
    (v : ListedVersion) (seq : Nat) : Prop where
  allowed : ¬ run.Blacklisted v
  missing : run.opts.fullSync = true ∨ lastProcessed < seq ∧ ¬ manifest.HoldsVersion v

instance (run : MirrorRun) (lastProcessed : Nat) (manifest : MirrorManifest) (v : ListedVersion)
    (seq : Nat) : Decidable (run.Queues lastProcessed manifest v seq) :=
  decidable_of_iff (¬ run.Blacklisted v ∧
      (run.opts.fullSync = true ∨ lastProcessed < seq ∧ ¬ manifest.HoldsVersion v))
    ⟨fun both => ⟨both.1, both.2⟩, fun queues => ⟨queues.allowed, queues.missing⟩⟩

theorem scanVersion_eq (run : MirrorRun) (lastProcessed : Nat) (manifest : MirrorManifest)
    (scan : Scan) (v : ListedVersion) :
    run.scanVersion lastProcessed manifest scan v =
      ⟨scan.currentSeq + 1, scan.queue ++
        if run.Queues lastProcessed manifest v (scan.currentSeq + 1) then
          [⟨v, scan.currentSeq + 1⟩]
        else []⟩ := by
  unfold scanVersion
  by_cases named : run.Blacklisted v
  · rw [if_neg (c := run.Queues _ _ _ _) fun queues => queues.allowed named]
    rw [Blacklisted] at named
    simp [named]
  have unnamed : blacklistContains run.blacklist v.author v.name v.version = false := by
    simpa [Blacklisted] using named
  cases full : run.opts.fullSync with
  | true =>
    rw [if_pos (c := run.Queues _ _ _ _) ⟨named, .inl full⟩]
    simp [unnamed]
  | false =>
    by_cases past : lastProcessed < scan.currentSeq + 1
    · by_cases held : manifest.HoldsVersion v
      · rw [if_neg (c := run.Queues _ _ _ _) fun queues => by
          rcases queues.missing with all | ⟨-, missing⟩
          · rw [full] at all
            cases all
          · exact missing held]
        rw [MirrorManifest.HoldsVersion, MirrorManifest.Holds] at held
        simp [unnamed, held]
      · rw [if_pos (c := run.Queues _ _ _ _) ⟨named, .inr ⟨past, held⟩⟩]
        rw [MirrorManifest.HoldsVersion, MirrorManifest.Holds, Bool.not_eq_true] at held
        simp [unnamed, held, Nat.not_le.mpr past]
    · rw [if_neg (c := run.Queues _ _ _ _) fun queues => by
        rcases queues.missing with all | ⟨later, -⟩
        · rw [full] at all
          cases all
        · exact past later]
      simp [unnamed, Nat.not_lt.mp past]

theorem scan_eq (run : MirrorRun) (lastProcessed : Nat) (manifest : MirrorManifest)
    (scan : Scan) :
    run.registry.entries.foldl (run.scanEntry lastProcessed manifest) scan =
      run.numbered.foldl (run.scanVersion lastProcessed manifest) scan := by
  unfold numbered
  rw [List.foldl_flatMap]
  congr 1
  funext scan entry
  unfold scanEntry
  split
  · rw [List.foldl_map]
  · rfl

theorem mem_foldl_scanVersion (run : MirrorRun) (lastProcessed : Nat) (manifest : MirrorManifest)
    {item : MirrorItem} (vs : List ListedVersion) (scan : Scan) :
    item ∈ (vs.foldl (run.scanVersion lastProcessed manifest) scan).queue ↔
      item ∈ scan.queue ∨ ∃ i v, vs[i]? = some v ∧
        run.Queues lastProcessed manifest v (scan.currentSeq + i + 1) ∧
        item = ⟨v, scan.currentSeq + i + 1⟩ := by
  induction vs generalizing scan with
  | nil => simp
  | cons v vs ih =>
    rw [List.foldl_cons, ih, scanVersion_eq]
    constructor
    · rintro (member | ⟨i, w, found, queues, rfl⟩)
      · rcases List.mem_append.mp member with old | new
        · exact .inl old
        · split at new
          · rename_i queues
            exact .inr ⟨0, v, rfl, queues, List.mem_singleton.mp new⟩
          · cases new
      · rw [show scan.currentSeq + 1 + i = scan.currentSeq + (i + 1) by omega] at queues ⊢
        exact .inr ⟨i + 1, w, found, queues, rfl⟩
    · rintro (old | ⟨i, w, found, queues, rfl⟩)
      · exact .inl (List.mem_append_left _ old)
      · cases i with
        | zero =>
          cases found
          refine .inl (List.mem_append_right _ ?_)
          rw [Nat.add_zero, if_pos queues]
          exact List.mem_singleton_self _
        | succ i =>
          rw [show scan.currentSeq + (i + 1) = scan.currentSeq + 1 + i by omega] at queues ⊢
          exact .inr ⟨i, w, found, queues, rfl⟩

/-- The run takes up the version it numbers `i + 1`. -/
structure TakesUp (run : MirrorRun) (files : MirrorFiles) (i : Nat) (v : ListedVersion) : Prop where
  numbered : run.numbered[i]? = some v
  queues : run.Queues (run.lastProcessed files) (run.manifest files) v (i + 1)

theorem mem_workList {run : MirrorRun} {files : MirrorFiles} {item : MirrorItem} :
    item ∈ run.workList files ↔ ∃ i v, run.TakesUp files i v ∧ item = ⟨v, i + 1⟩ := by
  unfold workList
  rw [scan_eq, mem_foldl_scanVersion]
  simp only [List.not_mem_nil, false_or, Nat.zero_add]
  constructor
  · rintro ⟨i, v, numbered, queues, same⟩
    exact ⟨i, v, ⟨numbered, queues⟩, same⟩
  · rintro ⟨i, v, ⟨numbered, queues⟩, same⟩
    exact ⟨i, v, numbered, queues, same⟩

/-- The run takes up the version it numbers `i + 1`, and mirrors it. -/
structure Downloads (run : MirrorRun) (files : MirrorFiles) (i : Nat) (v : ListedVersion) :
    Prop extends run.TakesUp files i v where
  mirrored : (run.mirrored ⟨v, i + 1⟩).isSome

instance (run : MirrorRun) (files : MirrorFiles) (i : Nat) (v : ListedVersion) :
    Decidable (run.Downloads files i v) :=
  decidable_of_iff (run.numbered[i]? = some v ∧
      run.Queues (run.lastProcessed files) (run.manifest files) v (i + 1) ∧
        (run.mirrored ⟨v, i + 1⟩).isSome)
    ⟨fun all => ⟨⟨all.1, all.2.1⟩, all.2.2⟩,
      fun downloads => ⟨downloads.numbered, downloads.queues, downloads.mirrored⟩⟩

/-! ## The loop -/

theorem mirrorItem_manifest (run : MirrorRun) (progress : Progress) (item : MirrorItem)
    {v : ListedVersion} :
    (run.mirrorItem progress item).manifest.HoldsVersion v ↔
      progress.manifest.HoldsVersion v ∨
        (run.mirrored item).isSome ∧ item.toListedVersion = v := by
  obtain ⟨w, seq⟩ := item
  unfold mirrorItem
  cases run.mirrored ⟨w, seq⟩ with
  | none => simp
  | some endpoint =>
    unfold MirrorManifest.HoldsVersion
    rw [holds_mirrorManifestAdd]
    cases w
    cases v
    simp

theorem mem_loop_manifest (run : MirrorRun) {v : ListedVersion} (queue : List MirrorItem)
    (progress : Progress) :
    (queue.foldl run.mirrorItem progress).manifest.HoldsVersion v ↔
      progress.manifest.HoldsVersion v ∨
        ∃ item ∈ queue, (run.mirrored item).isSome ∧ item.toListedVersion = v := by
  induction queue generalizing progress with
  | nil => simp
  | cons item queue ih => simp [ih, mirrorItem_manifest, or_assoc]

theorem maxSeq_loop (run : MirrorRun) (queue : List MirrorItem) (progress : Progress) :
    (queue.foldl run.mirrorItem progress).maxSeqProcessed = progress.maxSeqProcessed ∨
      ∃ item ∈ queue, (run.mirrored item).isSome ∧
        (queue.foldl run.mirrorItem progress).maxSeqProcessed = item.seq := by
  induction queue generalizing progress with
  | nil => exact .inl rfl
  | cons item queue ih =>
    rw [List.foldl_cons]
    rcases ih (run.mirrorItem progress item) with kept | ⟨later, member, done, same⟩
    · rw [kept]
      unfold mirrorItem
      split
      · exact .inl rfl
      · rename_i endpoint found
        dsimp only
        split
        · exact .inr ⟨item, List.mem_cons_self, by rw [found]; rfl, rfl⟩
        · exact .inl rfl
    · exact .inr ⟨later, List.mem_cons_of_mem item member, done, same⟩

theorem loop_holds {run : MirrorRun} {files : MirrorFiles} {v : ListedVersion} :
    (run.loop files).manifest.HoldsVersion v ↔
      (run.manifest files).HoldsVersion v ∨ ∃ i, run.Downloads files i v := by
  unfold loop
  rw [mem_loop_manifest]
  refine or_congr_right ?_
  constructor
  · rintro ⟨item, member, done, rfl⟩
    obtain ⟨i, v, takes, rfl⟩ := mem_workList.mp member
    exact ⟨i, takes, done⟩
  · rintro ⟨i, takes, done⟩
    exact ⟨⟨v, i + 1⟩, mem_workList.mpr ⟨i, v, takes, rfl⟩, done, rfl⟩

/-- A number that has grown is that of a version the run has mirrored. -/
theorem loop_seq {run : MirrorRun} {files : MirrorFiles}
    (grown : run.lastProcessed files < (run.loop files).maxSeqProcessed) :
    ∃ i v, run.Downloads files i v ∧ (run.loop files).maxSeqProcessed = i + 1 := by
  rcases maxSeq_loop run (run.workList files) ⟨run.manifest files, run.lastProcessed files⟩ with
    kept | ⟨item, member, done, same⟩
  · exact absurd kept (Nat.ne_of_gt grown)
  · obtain ⟨i, v, takes, rfl⟩ := mem_workList.mp member
    exact ⟨i, v, ⟨takes, done⟩, same⟩

/-- The run gets as far as writing the manifest. -/
structure Saves (run : MirrorRun) (files : MirrorFiles) : Prop where
  works : ∃ i v, run.TakesUp files i v
  wet : run.opts.dryRun = false
  confirmed : run.opts.confirm = true → run.confirmed = true
  past : ∀ done, run.interrupted ≠ some (.atItem done)

end MirrorRun

/-! ## What a run leaves behind -/

/-- The manifest on disk has a hash for a version. -/
def MirrorFiles.Holds (files : MirrorFiles) (v : ListedVersion) : Prop :=
  ∃ json ∈ files.manifest, (mirrorManifestLoadJson json).HoldsVersion v

instance (files : MirrorFiles) (v : ListedVersion) : Decidable (files.Holds v) :=
  inferInstanceAs (Decidable (∃ json ∈ files.manifest, _))

/-- The manifest on disk, if there is one, is one that `mirror_manifest_write_json` has
written. -/
def MirrorFiles.Written (files : MirrorFiles) : Prop :=
  ∀ json ∈ files.manifest, ∃ m, json = mirrorManifestWriteJson m

theorem cmdMirror_cases (run : MirrorRun) (files : MirrorFiles) :
    ¬ run.Saves files ∧ cmdMirror run files = files ∨
      run.Saves files ∧ (cmdMirror run files = run.saveManifest files (run.loop files).manifest ∨
        run.interrupted = none ∧
          cmdMirror run files =
            run.saveSince (run.saveManifest files (run.loop files).manifest)
              (run.lastProcessed files) (run.loop files).maxSeqProcessed) := by
  unfold cmdMirror
  split
  · rename_i idle
    refine .inl ⟨fun saves => ?_, rfl⟩
    obtain ⟨i, v, takes⟩ := saves.works
    have member := MirrorRun.mem_workList.mpr ⟨i, v, takes, rfl⟩
    rw [List.isEmpty_iff.mp idle] at member
    cases member
  rename_i work
  split
  · rename_i dry
    exact .inl ⟨fun saves => Bool.false_ne_true (saves.wet.symm.trans dry), rfl⟩
  rename_i wet
  split
  · rename_i declined
    rw [Bool.and_eq_true, Bool.not_eq_true'] at declined
    refine .inl ⟨fun saves => ?_, rfl⟩
    exact Bool.false_ne_true (declined.2.symm.trans (saves.confirmed declined.1))
  rename_i asked
  have works : ∃ i v, run.TakesUp files i v := by
    obtain ⟨item, member⟩ := List.exists_mem_of_ne_nil (run.workList files)
      fun none => work (List.isEmpty_iff.mpr none)
    obtain ⟨i, v, takes, -⟩ := MirrorRun.mem_workList.mp member
    exact ⟨i, v, takes⟩
  have saves (past : ∀ done, run.interrupted ≠ some (.atItem done)) : run.Saves files :=
    ⟨works, by simpa using wet, fun confirm => by simpa [confirm] using asked, past⟩
  split
  · rename_i done interrupted
    exact .inl ⟨fun saves => saves.past done interrupted, rfl⟩
  · rename_i interrupted
    exact .inr ⟨saves (by simp [interrupted]), .inl rfl⟩
  · rename_i interrupted
    exact .inr ⟨saves (by simp [interrupted]), .inr ⟨interrupted, rfl⟩⟩

theorem MirrorRun.saveSince_manifest (run : MirrorRun) (files : MirrorFiles) (last seq : Nat) :
    (run.saveSince files last seq).manifest = files.manifest := by
  unfold MirrorRun.saveSince
  split <;> rfl

theorem MirrorRun.saveManifest_since (run : MirrorRun) (files : MirrorFiles)
    (m : MirrorManifest) : (run.saveManifest files m).since = files.since := by
  unfold MirrorRun.saveManifest
  split <;> rfl

/-- The manifest in memory after the loop, as it is written. -/
def MirrorRun.manifestFile (run : MirrorRun) (files : MirrorFiles) : Json :=
  mirrorManifestWriteJson (mirrorManifestSetSource
    (mirrorManifestSetGenerated (run.loop files).manifest run.timestamp) "package.elm-lang.org")

/-- The manifest a run leaves is that of its loop if it writes one, else the one it has found. -/
theorem cmdMirror_manifest (run : MirrorRun) (files : MirrorFiles) :
    ¬ (run.Saves files ∧ run.manifestWrites = true) ∧
        (cmdMirror run files).manifest = files.manifest ∨
      run.Saves files ∧ run.manifestWrites = true ∧
        (cmdMirror run files).manifest = some (run.manifestFile files) := by
  have saved : (run.saveManifest files (run.loop files).manifest).manifest =
      if run.manifestWrites then some (run.manifestFile files) else files.manifest := by
    unfold MirrorRun.saveManifest
    split <;> rfl
  have after (saves : run.Saves files)
      (same : (cmdMirror run files).manifest =
        (run.saveManifest files (run.loop files).manifest).manifest) :
      ¬ (run.Saves files ∧ run.manifestWrites = true) ∧
          (cmdMirror run files).manifest = files.manifest ∨
        run.Saves files ∧ run.manifestWrites = true ∧
          (cmdMirror run files).manifest = some (run.manifestFile files) := by
    rw [same, saved]
    split
    · rename_i writes
      exact .inr ⟨saves, writes, rfl⟩
    · rename_i fails
      exact .inl ⟨fun both => fails both.2, rfl⟩
  rcases cmdMirror_cases run files with ⟨idle, same⟩ | ⟨saves, same | ⟨-, same⟩⟩
  · exact .inl ⟨fun both => idle both.1, by rw [same]⟩
  · exact after saves (by rw [same])
  · exact after saves (by rw [same, MirrorRun.saveSince_manifest])

/-- The number a run leaves is the one it has found, or that of a version it has mirrored. -/
theorem cmdMirror_since (run : MirrorRun) (files : MirrorFiles) :
    (cmdMirror run files).since = files.since ∨
      run.Saves files ∧ run.interrupted = none ∧ run.sinceWrites = true ∧
        ∃ i v, run.Downloads files i v ∧ (cmdMirror run files).since = some (i + 1) := by
  rcases cmdMirror_cases run files with ⟨-, same⟩ | ⟨saves, same | ⟨finished, same⟩⟩
  · exact .inl (by rw [same])
  · exact .inl (by rw [same, MirrorRun.saveManifest_since])
  · rw [same]
    unfold MirrorRun.saveSince
    split
    · rename_i both
      rw [Bool.and_eq_true, decide_eq_true_iff] at both
      obtain ⟨i, v, downloads, number⟩ := MirrorRun.loop_seq both.1
      exact .inr ⟨saves, finished, both.2, i, v, downloads, by rw [number]⟩
    · exact .inl (MirrorRun.saveManifest_since run files _)

theorem holdsVersion_stamped (m : MirrorManifest) (timestamp : Option String) (source : String)
    (v : ListedVersion) :
    (mirrorManifestSetSource (mirrorManifestSetGenerated m timestamp) source).HoldsVersion v ↔
      m.HoldsVersion v := by
  cases timestamp <;> exact Iff.rfl

theorem cmdMirror_written {run : MirrorRun} {files : MirrorFiles} (written : files.Written) :
    (cmdMirror run files).Written := by
  rcases cmdMirror_manifest run files with ⟨-, same⟩ | ⟨-, -, same⟩
  · intro json member
    rw [same] at member
    exact written json member
  · intro json member
    rw [same] at member
    exact ⟨_, (Option.mem_some_iff.mp member).symm⟩

/-! ## The condition -/

/-- A version is listed for the first time, or was on the blacklist of the run before. -/
def New (earlier : Option MirrorRun) (v : ListedVersion) : Prop :=
  ∀ run ∈ earlier, v ∉ run.listing ∨ run.Blacklisted v

/-- What a run and the files it starts with must fulfil for no version to be lost. -/
structure Resumable (earlier : Option MirrorRun) (files : MirrorFiles) (run : MirrorRun) :
    Prop where
  /-- No version that is new stands among those the earlier runs are done with. -/
  newer : ∀ v ∈ run.listing, New earlier v → ¬ run.Blacklisted v → ¬ files.Holds v →
    v ∈ run.listing.drop (files.since.getD 0)
  /-- The manifest is read by a run that writes one. -/
  reads : run.Saves files → run.manifestWrites = true →
    run.manifestReads = true ∨ files.manifest = none
  /-- The run passes over no version before one that it mirrors, by a filter or by a failure,
  and writes the manifest with the number. -/
  inOrder : run.Saves files → run.interrupted = none → run.sinceWrites = true →
    ∀ i v, run.Downloads files i v → run.manifestWrites = true ∧
      ∀ w ∈ run.listing, w ∉ run.listing.drop (i + 1) →
        run.Blacklisted w ∨ files.Holds w ∨
          ∃ j, run.Downloads files j w ∧ Storable w.author w.name

/-- It is enough to look at the numbers the run gives. -/
theorem Resumable.of_numbers {earlier : Option MirrorRun} {files : MirrorFiles} {run : MirrorRun}
    (newer : ∀ v ∈ run.listing, New earlier v → ¬ run.Blacklisted v → ¬ files.Holds v →
      v ∈ run.listing.drop (files.since.getD 0))
    (reads : run.Saves files → run.manifestWrites = true →
      run.manifestReads = true ∨ files.manifest = none)
    (inOrder : ∀ i ∈ List.range run.numbered.length, ∀ v ∈ run.numbered,
      run.Downloads files i v → run.manifestWrites = true ∧
        ∀ w ∈ run.listing, w ∉ run.listing.drop (i + 1) →
          run.Blacklisted w ∨ files.Holds w ∨ ∃ j ∈ List.range run.numbered.length,
            run.Downloads files j w ∧ Storable w.author w.name) :
    Resumable earlier files run := by
  refine ⟨newer, reads, fun _ _ _ i v downloads => ?_⟩
  obtain ⟨inside, -⟩ := List.getElem?_eq_some_iff.mp downloads.numbered
  obtain ⟨writes, before⟩ := inOrder i (List.mem_range.mpr inside) v
    (List.mem_of_getElem? downloads.numbered) downloads
  refine ⟨writes, fun w listed passed => ?_⟩
  exact (before w listed passed).imp_right (Or.imp_right fun ⟨j, _, mirrored⟩ => ⟨j, mirrored⟩)

/-- Each of several runs is resumable. -/
def ResumableRuns : Option MirrorRun → MirrorFiles → List MirrorRun → Prop
  | _, _, [] => True
  | earlier, files, run :: runs =>
    Resumable earlier files run ∧ ResumableRuns (some run) (cmdMirror run files) runs

/-! ## What holds between two runs -/

/-- What the files of the runs up to `last` say. -/
structure Resumes (last : Option MirrorRun) (files : MirrorFiles) : Prop where
  written : files.Written
  pending : ∀ run ∈ last,
    Pending (fun v => run.Blacklisted v ∨ files.Holds v) run.listing (files.since.getD 0)

theorem Resumes.start : Resumes none noMirrorFiles := by
  constructor
  · intro json member
    cases member
  · intro run member
    cases member

theorem MirrorFiles.Written.storable {files : MirrorFiles} (written : files.Written)
    {v : ListedVersion} (held : files.Holds v) : Storable v.author v.name := by
  obtain ⟨json, member, held⟩ := held
  obtain ⟨m, rfl⟩ := written json member
  exact MirrorManifest.Holds.storable held

/-- What a run holds in memory of a storable name is held on disk when it writes. -/
theorem holds_after {run : MirrorRun} {files : MirrorFiles} {v : ListedVersion}
    (after : (cmdMirror run files).manifest = some (run.manifestFile files))
    (storable : Storable v.author v.name) (held : (run.loop files).manifest.HoldsVersion v) :
    (cmdMirror run files).Holds v := by
  refine ⟨_, by rw [after]; rfl, ?_⟩
  exact MirrorManifest.Holds.reload ((holdsVersion_stamped _ _ _ v).mpr held) storable

theorem manifest_of_reads {run : MirrorRun} {files : MirrorFiles} {v : ListedVersion}
    (reads : run.manifestReads = true ∨ files.manifest = none) (held : files.Holds v) :
    (run.manifest files).HoldsVersion v := by
  obtain ⟨json, member, held⟩ := held
  rcases reads with reads | missing
  · unfold MirrorRun.manifest
    rw [if_pos reads, Option.mem_def.mp member]
    exact held
  · rw [missing] at member
    cases member

/-- A run that is resumable loses nothing from the manifest. -/
theorem Resumable.keeps {earlier : Option MirrorRun} {files : MirrorFiles} {run : MirrorRun}
    (resumable : Resumable earlier files run) (written : files.Written) {v : ListedVersion}
    (held : files.Holds v) : (cmdMirror run files).Holds v := by
  rcases cmdMirror_manifest run files with ⟨-, same⟩ | ⟨saves, writes, after⟩
  · obtain ⟨json, member, held⟩ := held
    exact ⟨json, by rw [same]; exact member, held⟩
  · have memory := manifest_of_reads (resumable.reads saves writes) held
    exact holds_after after (written.storable held) (MirrorRun.loop_holds.mpr (.inl memory))

theorem Resumes.opening {last : Option MirrorRun} {files : MirrorFiles} {run : MirrorRun}
    (resumes : Resumes last files) (grown : ∀ earlier ∈ last, earlier.listing.Sublist run.listing)
    (resumable : Resumable last files run) :
    Pending (fun v => run.Blacklisted v ∨ files.Holds v) run.listing (files.since.getD 0) := by
  cases last with
  | none =>
    intro v member open'
    rw [not_or] at open'
    exact resumable.newer v member (fun _ none => nomatch none) open'.1 open'.2
  | some earlier =>
    refine (resumes.pending earlier rfl).grow (grown earlier rfl) ?_
    intro v member fresh open'
    rw [not_or] at open'
    refine resumable.newer v member ?_ open'.1 open'.2
    intro run' same
    cases same
    rcases fresh with unlisted | named | held
    · exact .inl unlisted
    · exact .inr named
    · exact absurd held open'.2

/-- A resumable run leaves files from which the next run goes on. -/
theorem Resumes.step {last : Option MirrorRun} {files : MirrorFiles} {run : MirrorRun}
    (resumes : Resumes last files) (grown : ∀ earlier ∈ last, earlier.listing.Sublist run.listing)
    (resumable : Resumable last files run) : Resumes (some run) (cmdMirror run files) := by
  refine ⟨cmdMirror_written resumes.written, ?_⟩
  rintro _ ⟨⟩
  have opening := resumes.opening grown resumable
  have keeps {v : ListedVersion} : files.Holds v → (cmdMirror run files).Holds v :=
    resumable.keeps resumes.written
  rcases cmdMirror_since run files with same | ⟨saves, finished, writes, i, v, downloads, number⟩
  · rw [same]
    exact opening.mono fun w _ => Or.imp_right keeps
  · obtain ⟨manifestWrites, before⟩ := resumable.inOrder saves finished writes i v downloads
    rw [number, Option.getD_some]
    intro w member open'
    by_contra passed
    rcases before w member passed with named | held | ⟨j, mirrored, storable⟩
    · exact open' (.inl named)
    · exact open' (.inr (keeps held))
    · refine open' (.inr ?_)
      rcases cmdMirror_manifest run files with ⟨other, -⟩ | ⟨-, -, after⟩
      · exact absurd ⟨saves, manifestWrites⟩ other
      · exact holds_after after storable (MirrorRun.loop_holds.mpr (.inr ⟨j, mirrored⟩))

/-- Runs that are resumable leave files from which the next run goes on. -/
theorem Resumes.runs {last : Option MirrorRun} {files : MirrorFiles} {runs : List MirrorRun}
    (resumes : Resumes last files)
    (grows : (last.toList ++ runs).Pairwise fun a b => a.listing.Sublist b.listing)
    (resumable : ResumableRuns last files runs) :
    Resumes (runs.getLast?.or last) (runMirrors files runs) := by
  induction runs generalizing last files with
  | nil =>
    rw [List.getLast?_nil, Option.none_or]
    exact resumes
  | cons run runs ih =>
    have grown : ∀ earlier ∈ last, earlier.listing.Sublist run.listing := by
      intro earlier same
      have there : earlier ∈ last.toList := Option.mem_toList.mpr same
      exact (List.pairwise_append.mp grows).2.2 earlier there run List.mem_cons_self
    have rest := ih (resumes.step grown resumable.1)
      (List.pairwise_append.mp grows).2.1 resumable.2
    have later : (run :: runs).getLast?.or last = runs.getLast?.or (some run) := by
      cases runs with
      | nil => rfl
      | cons next rest => simp [List.getLast?_cons]
    rw [later]
    exact rest

/-! ## The next run -/

/-- A run that goes on from such files takes up what is not yet settled. -/
theorem Resumes.takesUp {last next : MirrorRun} {files : MirrorFiles}
    (resumes : Resumes (some last) files) (grown : last.listing.Sublist next.listing)
    (unfiltered : next.Unfiltered) {v : ListedVersion} (listed : v ∈ last.listing)
    (allowed : ¬ last.Blacklisted v) (allowedNext : ¬ next.Blacklisted v)
    (missing : ¬ files.Holds v) : ∃ i, next.TakesUp files i v := by
  have past := resumes.pending last rfl v listed (not_or.mpr ⟨allowed, missing⟩)
  obtain ⟨i, since, found⟩ := mem_drop_iff.mp (Lib.mem_drop_of_sublist grown past)
  refine ⟨i, by rw [unfiltered.numbered]; exact found, allowedNext, .inr ⟨?_, ?_⟩⟩
  · have least : next.lastProcessed files ≤ files.since.getD 0 := by
      unfold MirrorRun.lastProcessed
      split
      · exact Nat.zero_le _
      · split
        · exact Nat.le_refl _
        · exact Nat.zero_le _
    exact Nat.lt_succ_of_le (Nat.le_trans least since)
  · intro held
    unfold MirrorRun.manifest at held
    split at held
    · cases there : files.manifest with
      | none =>
        rw [there] at held
        cases held
      | some json =>
        rw [there] at held
        exact missing ⟨json, there, held⟩
    · cases held

/-- A version that the registry has listed in a completed unfiltered run, and that no blacklist
names from then on, is in the manifest when the next unfiltered run starts, or that run attempts
it. -/
def SkipsNone (runs : List MirrorRun) : Prop :=
  ∀ (before : List MirrorRun) (run : MirrorRun) (between : List MirrorRun) (next : MirrorRun),
    runs = before ++ run :: between →
      run.interrupted = none → run.Unfiltered → next.Unfiltered →
      (∀ r ∈ runs, r.listing.Sublist next.listing) →
        ∀ v ∈ run.listing, (∀ r ∈ run :: between, ¬ r.Blacklisted v) → ¬ next.Blacklisted v →
          (runMirrors noMirrorFiles runs).Holds v ∨
            ∃ item ∈ next.workList (runMirrors noMirrorFiles runs), item.toListedVersion = v

/-- Runs against a growing registry skip no version forever, if each of them is resumable. -/
theorem mirrorRuns_skipNone {runs : List MirrorRun}
    (grows : runs.Pairwise fun a b => a.listing.Sublist b.listing)
    (resumable : ResumableRuns none noMirrorFiles runs) : SkipsNone runs := by
  rintro before run between next rfl - - unfiltered grown v listed allowed allowedNext
  have resumes := Resumes.start.runs (by simpa using grows) resumable
  -- the last of the runs lists the version too
  obtain ⟨last, isLast⟩ : ∃ last, (before ++ run :: between).getLast? = some last :=
    ⟨_, List.getLast?_eq_some_getLast (by simp)⟩
  have member : last ∈ run :: between := by
    rw [List.getLast?_append_cons] at isLast
    exact List.mem_of_getLast? isLast
  rw [isLast, Option.some_or] at resumes
  have listedLast : v ∈ last.listing := by
    rcases List.mem_cons.mp member with rfl | later
    · exact listed
    · have tail := (List.pairwise_append.mp grows).2.1
      exact (List.rel_of_pairwise_cons tail later).subset listed
  by_cases held : (runMirrors noMirrorFiles (before ++ run :: between)).Holds v
  · exact .inl held
  · obtain ⟨i, takes⟩ := resumes.takesUp
      (grown last (List.mem_append_right before member)) unfiltered listedLast
      (allowed last member) allowedNext held
    exact .inr ⟨_, MirrorRun.mem_workList.mpr ⟨i, v, takes, rfl⟩, rfl⟩

/-! ### Versions that are lost -/

/-- A run without options in which the archives of some numbers cannot be fetched. -/
def plainMirror (entries : List RegistryEntry) (missing : List Nat) : MirrorRun where
  opts := ⟨false, false, false, false, []⟩
  registry := ⟨entries, 0⟩
  blacklist := []
  sinceReads := true
  manifestReads := true
  confirmed := false
  fetch item := ⟨true, some ⟨"https://example.com", "da39a3ee"⟩, fun _ => item.seq ∉ missing, true⟩
  timestamp := none
  interrupted := none
  manifestWrites := true
  sinceWrites := true

/-- A run with `--latest-only`. -/
def latestMirror (entries : List RegistryEntry) : MirrorRun :=
  { plainMirror entries [] with opts := ⟨false, true, false, false, []⟩ }

def coreOnce : List RegistryEntry := [⟨"elm", "core", [⟨1, 0, 0⟩]⟩]

def coreTwice : List RegistryEntry := [⟨"elm", "core", [⟨1, 0, 1⟩, ⟨1, 0, 0⟩]⟩]

def coreAndJson : List RegistryEntry := coreTwice ++ [⟨"elm", "json", [⟨1, 0, 0⟩]⟩]

/-- The first run fails to mirror its last version, and the second one mirrors it. -/
theorem mirrorRuns_skipNone_plain :
    SkipsNone [plainMirror coreTwice [2], plainMirror coreTwice []] := by
  refine mirrorRuns_skipNone (by decide) ⟨?_, ?_, trivial⟩
  · refine Resumable.of_numbers (fun v member _ _ _ => member) (fun _ _ => .inl rfl) ?_
    decide
  · refine Resumable.of_numbers ?_ (fun _ _ => .inl rfl) ?_
    · intro v member fresh
      rcases fresh _ rfl with unlisted | named
      · exact absurd member unlisted
      · cases named
    · decide

theorem not_skipsNone {before between : List MirrorRun} {run next : MirrorRun} {v : ListedVersion}
    (finished : run.interrupted = none) (unfiltered : run.Unfiltered)
    (unfilteredNext : next.Unfiltered)
    (grown : ∀ r ∈ before ++ run :: between, r.listing.Sublist next.listing)
    (listed : v ∈ run.listing) (allowed : ∀ r ∈ run :: between, ¬ r.Blacklisted v)
    (allowedNext : ¬ next.Blacklisted v)
    (lost : ¬ (runMirrors noMirrorFiles (before ++ run :: between)).Holds v)
    (passed : ∀ item ∈ next.workList (runMirrors noMirrorFiles (before ++ run :: between)),
      item.toListedVersion ≠ v) : ¬ SkipsNone (before ++ run :: between) := by
  intro skips
  rcases skips before run between next rfl finished unfiltered unfilteredNext grown v listed
    allowed allowedNext with held | ⟨item, member, same⟩
  · exact lost held
  · exact passed item member same

/-- Runs over a listing that only grows, none of them with a full synchronisation, that lose a
version. -/
def LosesVersion (runs : List MirrorRun) : Prop :=
  (runs.Pairwise fun a b => a.listing.Sublist b.listing) ∧
    (∀ run ∈ runs, run.opts.fullSync = false) ∧ ¬ SkipsNone runs

/-- A version is lost where its download has failed before a later one of the run, where it comes
before the number of an earlier run, and where a filter has numbered another one like it. -/
theorem mirrorRuns_skipNone_fails :
    LosesVersion [plainMirror coreTwice [1]] ∧
      LosesVersion [plainMirror coreOnce [], plainMirror coreTwice []] ∧
      LosesVersion [latestMirror coreAndJson, plainMirror coreAndJson []] := by
  have failed : ¬ SkipsNone [plainMirror coreTwice [1]] := by
    refine @not_skipsNone [] [] _ (plainMirror coreTwice []) ⟨"elm", "core", "1.0.1"⟩ rfl
      ⟨rfl, rfl⟩ ⟨rfl, rfl⟩ ?_ ?_ ?_ ?_ ?_ ?_ <;> decide
  have inserted : ¬ SkipsNone [plainMirror coreOnce [], plainMirror coreTwice []] := by
    refine @not_skipsNone [_] [] _ (plainMirror coreTwice []) ⟨"elm", "core", "1.0.1"⟩ rfl
      ⟨rfl, rfl⟩ ⟨rfl, rfl⟩ ?_ ?_ ?_ ?_ ?_ ?_ <;> decide
  have filtered : ¬ SkipsNone [latestMirror coreAndJson, plainMirror coreAndJson []] := by
    refine @not_skipsNone [_] [] _ (plainMirror coreAndJson []) ⟨"elm", "core", "1.0.0"⟩ rfl
      ⟨rfl, rfl⟩ ⟨rfl, rfl⟩ ?_ ?_ ?_ ?_ ?_ ?_ <;> decide +kernel
  exact ⟨⟨by decide, by decide, failed⟩,
    ⟨by decide, by decide, inserted⟩,
    ⟨by decide, by decide, filtered⟩⟩

end ElmWrap.Mirror
