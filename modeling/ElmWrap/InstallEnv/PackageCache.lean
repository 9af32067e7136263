import ElmWrap.InstallEnv.DownloadPackage

/-!
# What a cached package holds

A directory that exists is taken for a downloaded package. It holds one as long as
no operation that makes a directory stops before it has filled it.
-/

namespace ElmWrap

/-! ## Complete packages -/

/-- The contents of a file of an archive: of several entries with this path, those of the last. -/
def archiveFile (entries : List ZipEntry) (path : String) : Option String :=
  (entries.reverse.find? fun entry => !entry.isDirectory && relPath entry.filename = path).map
    ZipEntry.contents

/-- The SHA-1 of the archive is the one in the version's `endpoint.json`. -/
def PackageSource.Verified (source : PackageSource) (p : PackageVersion) (archive : String) :
    Prop :=
  ∃ endpoint, source.packageEndpointParse (source.served p "endpoint.json") = some endpoint ∧
    verifyFileSha1 source.sha1 archive endpoint.hash = true

/-- A verified archive of the version with these entries, under plain names. -/
def PackageSource.Contains (source : PackageSource) (p : PackageVersion)
    (entries : List ZipEntry) : Prop :=
  (∀ entry ∈ entries, entry.Plain) ∧
    ∃ archive, source.Verified p archive ∧ source.unzip archive = some entries

/-- The files of an archive that the build of a package needs. -/
def needed (path : String) : Bool := path = "elm.json" || underSrc path

/-- The directory holds an `elm.json` and the needed files of a verified archive. -/
structure PackageSource.Complete (source : PackageSource) (p : PackageVersion)
    (dir : PackageDir) : Prop where
  elmJson : (dir.read "elm.json").isSome = true
  content : ∃ entries, source.Contains p entries ∧ ∀ path contents, needed path = true →
    archiveFile entries path = some contents → dir.read path = some contents

/-! ## Extraction -/

theorem PackageDir.read_write (dir : PackageDir) (path contents other : String) :
    (dir.write path contents).read other =
      if other = path then some contents else dir.read other := by
  unfold write read
  rw [List.lookup_cons]
  by_cases same : other = path
  · simp [same]
  · have apart : (other == path) = false := by simpa using same
    rw [apart, if_neg same]

/-- Nothing of a directory is lost. -/
def PackageDir.KeptBy (dir dir' : PackageDir) : Prop :=
  ∀ path contents, dir.read path = some contents → dir'.read path = some contents

theorem PackageDir.KeptBy.refl (dir : PackageDir) : dir.KeptBy dir :=
  fun _ _ there => there

theorem PackageDir.KeptBy.write {dir : PackageDir} {path : String} (new : dir.read path = none)
    (contents : String) : dir.KeptBy (dir.write path contents) := by
  intro other old there
  rw [PackageDir.read_write, if_neg]
  · exact there
  · intro same
    rw [same, new] at there
    cases there

variable {source : PackageSource} {run : DownloadRun} {cache : PackagesDir} {p : PackageVersion}

theorem fetchFiles_there (source : PackageSource) (run : DownloadRun) (p : PackageVersion)
    {filenames : List String} {dir : PackageDir}
    (there : ∀ filename ∈ filenames, (dir.read filename).isSome = true) :
    fetchFiles source run p filenames dir = (dir, true) := by
  induction filenames with
  | nil => rfl
  | cons filename rest ih =>
    obtain ⟨first, later⟩ := List.forall_mem_cons.mp there
    unfold fetchFiles
    rw [if_pos first, ih later]

/-- What `fetch_package_complete` does when a directory is there or is made. -/
theorem fetchPackageComplete_eq (source : PackageSource) (online : run.offline = false)
    (made : (cache p).isSome = true ∨ run.makesDirectory = true) :
    fetchPackageComplete source run cache p =
      let fetched := fetchFiles source run p metadataFiles ((cache p).getD .empty)
      (Function.update cache p (some fetched.1),
        if fetched.2 then
          (fetched.1.read "endpoint.json").bind fun data =>
            (source.packageEndpointParse data).bind (fetchPackageArchive source run)
        else none) := by
  have metadata : (if (cache p).any packageMetadataExists = true then (cache, true)
        else fetchPackageMetadata source run cache p) =
      (Function.update cache p
          (some (fetchFiles source run p metadataFiles ((cache p).getD .empty)).1),
        (fetchFiles source run p metadataFiles ((cache p).getD .empty)).2) := by
    split
    · rename_i there
      cases found : cache p with
      | none =>
        rw [found] at there
        cases there
      | some dir =>
        rw [found, Option.any_some] at there
        rw [Option.getD_some, fetchFiles_there source run p (List.all_eq_true.mp there), ← found,
          Function.update_eq_self]
    · unfold fetchPackageMetadata
      rw [online, if_neg Bool.false_ne_true, if_neg]
      cases found : cache p with
      | none =>
        rw [found] at made
        rcases made with here | makes
        · cases here
        · simp [makes]
      | some dir => simp
  unfold fetchPackageComplete
  rw [metadata]
  dsimp only
  rw [Function.update_self, Option.bind_some]
  cases (fetchFiles source run p metadataFiles ((cache p).getD .empty)).2 with
  | false => rfl
  | true =>
    rw [if_neg (by simp), if_pos rfl]
    cases PackageDir.read _ "endpoint.json" with
    | none => rfl
    | some data =>
      rw [Option.bind_some]
      dsimp only
      cases source.packageEndpointParse data with
      | none => rfl
      | some endpoint => rfl

theorem fetchPackageComplete_refused (source : PackageSource) (online : run.offline = false)
    (new : cache p = none) (refused : run.makesDirectory = false) :
    fetchPackageComplete source run cache p = (cache, none) := by
  unfold fetchPackageComplete fetchPackageMetadata
  rw [online, new, refused]
  rfl

/-- The other versions stay as they are. -/
theorem fetchPackageComplete_other (source : PackageSource) (cache : PackagesDir)
    {p other : PackageVersion} (online : run.offline = false) (apart : other ≠ p) :
    (fetchPackageComplete source run cache p).1 other = cache other := by
  by_cases made : (cache p).isSome = true ∨ run.makesDirectory = true
  · rw [fetchPackageComplete_eq source online made]
    exact Function.update_of_ne apart _ _
  · obtain ⟨new, refused⟩ := not_or.mp made
    rw [fetchPackageComplete_refused source online (Option.not_isSome_iff_eq_none.mp new)
      (Bool.not_eq_true _ ▸ refused)]

theorem PackageSource.Complete.kept {dir dir' : PackageDir} (complete : source.Complete p dir)
    (kept : dir.KeptBy dir') :
    source.Complete p dir' where
  elmJson := by
    obtain ⟨contents, there⟩ := Option.isSome_iff_exists.mp complete.elmJson
    rw [kept _ _ there]
    rfl
  content := by
    obtain ⟨entries, contains_, files⟩ := complete.content
    refine ⟨entries, contains_, ?_⟩
    intro path contents wanted stored
    exact kept _ _ (files path contents wanted stored)

/-- A download leaves the other versions alone. -/
theorem installEnvDownloadPackage_other (source : PackageSource) (run : DownloadRun)
    (cache : PackagesDir) {p other : PackageVersion} (apart : other ≠ p) :
    (installEnvDownloadPackage source run cache p).1 other = cache other := by
  unfold installEnvDownloadPackage
  cases run.protocolMode with
  | v2 =>
    dsimp only
    split
    · rfl
    split
    · rfl
    split
    · rfl
    · exact Function.update_of_ne apart _ _
  | v1 =>
    dsimp only
    split
    · rfl
    · rename_i online
      rw [Bool.not_eq_true] at online
      have fetched := fetchPackageComplete_other source cache online apart
      split
      · rename_i after ran
        rw [ran] at fetched
        exact fetched
      · rename_i after archive ran
        rw [ran] at fetched
        exact (Function.update_of_ne apart _ _).trans fetched

/-- What is fetched depends on the directory of the version only. -/
theorem fetchPackageMetadata_local (source : PackageSource) (run : DownloadRun)
    {cache other : PackagesDir} (same : cache p = other p) :
    (fetchPackageMetadata source run cache p).1 p = (fetchPackageMetadata source run other p).1 p ∧
      (fetchPackageMetadata source run cache p).2 =
        (fetchPackageMetadata source run other p).2 := by
  unfold fetchPackageMetadata
  rw [← same]
  split
  · exact ⟨same, rfl⟩
  · split
    · exact ⟨same, rfl⟩
    · refine ⟨?_, rfl⟩
      dsimp only
      rw [Function.update_self, Function.update_self]

theorem fetchPackageComplete_local (source : PackageSource) (run : DownloadRun)
    {cache other : PackagesDir} (same : cache p = other p) :
    (fetchPackageComplete source run cache p).1 p = (fetchPackageComplete source run other p).1 p ∧
      (fetchPackageComplete source run cache p).2 =
        (fetchPackageComplete source run other p).2 := by
  obtain ⟨dir, fetched⟩ := fetchPackageMetadata_local source run same
  unfold fetchPackageComplete
  rw [← same]
  by_cases metadata : (cache p).any packageMetadataExists = true
  · rw [if_pos metadata, if_pos metadata]
    dsimp only
    rw [← same]
    split
    · exact ⟨same, rfl⟩
    · split
      · exact ⟨same, rfl⟩
      · split <;> exact ⟨same, rfl⟩
  · rw [if_neg metadata, if_neg metadata]
    dsimp only
    rw [← fetched, ← dir]
    split
    · exact ⟨dir, rfl⟩
    · split
      · exact ⟨dir, rfl⟩
      · split <;> exact ⟨dir, rfl⟩

/-- A download depends on the directory of the version only. -/
theorem installEnvDownloadPackage_local (source : PackageSource) (run : DownloadRun)
    {cache other : PackagesDir} (same : cache p = other p) :
    (installEnvDownloadPackage source run cache p).1 p =
        (installEnvDownloadPackage source run other p).1 p ∧
      (installEnvDownloadPackage source run cache p).2 =
        (installEnvDownloadPackage source run other p).2 := by
  obtain ⟨dir, archive⟩ := fetchPackageComplete_local source run same
  unfold installEnvDownloadPackage
  rw [← same]
  cases run.protocolMode with
  | v2 =>
    dsimp only
    cases source.repository p with
    | none => exact ⟨same, rfl⟩
    | some origin =>
      dsimp only
      split
      · exact ⟨same, rfl⟩
      · split
        · exact ⟨same, rfl⟩
        · refine ⟨?_, rfl⟩
          dsimp only
          rw [Function.update_self, Function.update_self]
  | v1 =>
    dsimp only
    split
    · exact ⟨same, rfl⟩
    · generalize fetchPackageComplete source run cache p = here at dir archive
      generalize fetchPackageComplete source run other p = there at dir archive
      obtain ⟨cache', found⟩ := here
      obtain ⟨other', found'⟩ := there
      dsimp only at dir archive
      subst archive
      cases found with
      | none => exact ⟨dir, rfl⟩
      | some archive =>
        dsimp only
        rw [← dir]
        refine ⟨?_, rfl⟩
        rw [Function.update_self, Function.update_self]

/-- A version that has been downloaded has a directory. -/
theorem installEnvDownloadPackage_there (elsewhere : run.inPlace = false)
    (works : (installEnvDownloadPackage source run cache p).2 = true) :
    ((installEnvDownloadPackage source run cache p).1 p).isSome = true := by
  unfold installEnvDownloadPackage at works ⊢
  cases mode : run.protocolMode with
  | v2 =>
    rw [mode] at works
    dsimp only at works ⊢
    cases found : source.repository p with
    | none =>
      rw [found] at works
      cases works
    | some origin =>
      rw [found] at works
      dsimp only at works ⊢
      rw [elsewhere, if_neg Bool.false_ne_true] at works ⊢
      split at works
      · cases works
      · rename_i makes
        rw [if_neg makes]
        dsimp only
        rw [Function.update_self]
        rfl
  | v1 =>
    rw [mode] at works
    dsimp only at works ⊢
    split at works
    · cases works
    · rename_i online
      rw [if_neg online]
      split at works
      · cases works
      · rename_i cache' archive found
        dsimp only
        rw [Function.update_self]
        rfl

/-! ## Sequences -/

/-- What is left of a directory is complete. -/
def PackageSource.Leaves (source : PackageSource) (cache : PackagesDir) (p : PackageVersion)
    (removes : PackageDir → Option PackageDir) : Prop :=
  ∀ dir, (cache p).bind removes = some dir → source.Complete p dir

/-- Every version that has a directory is complete. -/
def PackagesDir.Sound (source : PackageSource) (cache : PackagesDir) : Prop :=
  ∀ p dir, cache p = some dir → source.Complete p dir

/-- A version whose directory is replaced by a complete one, or by none. -/
theorem PackagesDir.Sound.update (sound : cache.Sound source) {now : Option PackageDir}
    (complete : ∀ dir, now = some dir → source.Complete p dir) :
    PackagesDir.Sound source (Function.update cache p now) := by
  intro other dir there
  by_cases same : other = p
  · rw [same] at there ⊢
    rw [Function.update_self] at there
    exact complete dir there
  · rw [Function.update_of_ne same] at there
    exact sound other dir there

def urlEntries : List ZipEntry :=
  [⟨"url-1.0.0/elm.json", false, "{}"⟩,
    ⟨"url-1.0.0/src/Url.elm", false, "module Url exposing (..)"⟩]

/-- A registry with one package, whose archive is given by its name. -/
def urlSource : PackageSource where
  served _ filename := if filename = "endpoint.json" then "endpoint" else "{}"
  repository _ := none
  parses contents := contents = "{}"
  packageEndpointParse data :=
    if data = "endpoint" then
      some ⟨"https://github.com/elm/url/zipball/1.0.0/", "e5287ff8dfc458b7b1adfe6966ef7d2986da8a25"⟩
    else none
  elmJsonReads contents := contents = "{}"
  sha1 contents :=
    if contents = "elm/url 1.0.0" then
      [0xe5, 0x28, 0x7f, 0xf8, 0xdf, 0xc4, 0x58, 0xb7, 0xb1, 0xad, 0xfe, 0x69, 0x66, 0xef, 0x7d,
        0x29, 0x86, 0xda, 0x8a, 0x25]
    else []
  unzip archive := if archive = "elm/url 1.0.0" then some urlEntries else none

/-- A download without faults. -/
def faultless : DownloadRun where
  protocolMode := .v1
  offline := false
  ignoreHash := false
  makesDirectory := true
  answer _ := .ok
  archive := some "elm/url 1.0.0"
  stops := none
  inPlace := false
  copyFails _ := none

end ElmWrap
