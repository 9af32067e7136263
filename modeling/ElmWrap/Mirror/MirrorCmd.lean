import ElmWrap.Registry
import ElmWrap.InstallEnv.DownloadPackage
import ElmWrap.Mirror.MirrorManifest

/-!
# `repository mirror`

`mirror_cmd.c`: the scan of the registry, the loop over the work list, and the two
files a run leaves behind, the manifest and the number of the last version it has
mirrored. A run is given by what the registry, the network, the user and the files
do in it, and by where it is interrupted.
-/

namespace ElmWrap.Mirror

open Lib (Json)

/-! ## What a run is given -/

/-- `BlacklistEntry`; without a version it names every version. -/
structure BlacklistEntry where
  author : String
  name : String
  version : Option String
deriving DecidableEq

/-- `blacklist_contains`. -/
def blacklistContains (bl : List BlacklistEntry) (author name version : String) : Bool :=
  bl.any fun entry => entry.author = author && entry.name = name &&
    match entry.version with
    | none => true
    | some named => named = version

/-- `MirrorOptions`. -/
structure MirrorOptions where
  fullSync : Bool
  latestOnly : Bool
  dryRun : Bool
  confirm : Bool
  specificPackages : List String
deriving DecidableEq

/-- `is_package_in_filter`. -/
def isPackageInFilter (opts : MirrorOptions) (author name : String) : Bool :=
  opts.specificPackages.isEmpty || opts.specificPackages.any fun specific =>
    match cutAt '/' specific.toList with
    | none => false
    | some (filterAuthor, filterName) => author.toList = filterAuthor && name.toList = filterName

/-- A version of a package, as the scan names it. -/
structure ListedVersion where
  author : String
  name : String
  version : String
deriving DecidableEq

/-- `MirrorItem`. -/
structure MirrorItem extends ListedVersion where
  seq : Nat
deriving DecidableEq

/-- What becomes of an item. -/
structure MirrorFetch where
  /-- `fetch_package_metadata` works. -/
  metadata : Bool
  /-- `endpoint.json`, where it is read and parsed. -/
  endpoint : Option PackageEndpoint
  /-- Whether an attempt of `fetch_package_archive` works. -/
  archive : Nat → Bool
  /-- `store_archive_by_hash` works. -/
  stored : Bool

/-- Where a run is interrupted. -/
inductive Interruption
  | atItem (done : Nat)
  | beforeSince
deriving DecidableEq

/-- What `cmd_mirror` is given. -/
structure MirrorRun where
  opts : MirrorOptions
  registry : Registry
  blacklist : List BlacklistEntry
  /-- The number in `mirror-since.txt` can be read. -/
  sinceReads : Bool
  /-- The manifest can be read. -/
  manifestReads : Bool
  /-- The user answers the question with `y`. -/
  confirmed : Bool
  fetch : MirrorItem → MirrorFetch
  timestamp : Option String
  interrupted : Option Interruption
  manifestWrites : Bool
  sinceWrites : Bool

/-- The files runs leave behind. -/
structure MirrorFiles where
  since : Option Nat
  manifest : Option Json

/-- Before the first run. -/
def noMirrorFiles : MirrorFiles := ⟨none, none⟩

namespace MirrorRun

/-- `last_processed`. -/
def lastProcessed (run : MirrorRun) (files : MirrorFiles) : Nat :=
  if run.opts.fullSync then 0
  else if run.sinceReads then files.since.getD 0
  else 0

/-- The manifest the run starts with. -/
def manifest (run : MirrorRun) (files : MirrorFiles) : MirrorManifest :=
  ((if run.manifestReads then files.manifest else none).map mirrorManifestLoadJson).getD
    mirrorManifestCreate

/-! ## The work list -/

/-- `current_seq` and the queue. -/
structure Scan where
  currentSeq : Nat
  queue : List MirrorItem

/-- The scan of a version. -/
def scanVersion (run : MirrorRun) (lastProcessed : Nat) (manifest : MirrorManifest) (scan : Scan)
    (v : ListedVersion) : Scan :=
  let currentSeq := scan.currentSeq + 1
  if blacklistContains run.blacklist v.author v.name v.version then { scan with currentSeq }
  else if !run.opts.fullSync && currentSeq ≤ lastProcessed then { scan with currentSeq }
  else if (mirrorManifestLookup manifest v.author v.name v.version).isSome &&
      !run.opts.fullSync then
    { scan with currentSeq }
  else { currentSeq, queue := scan.queue ++ [{ v with seq := currentSeq }] }

/-- The scan of a package. -/
def scanEntry (run : MirrorRun) (lastProcessed : Nat) (manifest : MirrorManifest) (scan : Scan)
    (entry : RegistryEntry) : Scan :=
  if isPackageInFilter run.opts entry.author entry.name then
    (if run.opts.latestOnly then entry.versions.take 1 else entry.versions).foldl
      (fun scan version => run.scanVersion lastProcessed manifest scan
        ⟨entry.author, entry.name, versionToString version⟩) scan
  else scan

/-- The queue, once the registry is scanned. -/
def workList (run : MirrorRun) (files : MirrorFiles) : List MirrorItem :=
  (run.registry.entries.foldl
    (run.scanEntry (run.lastProcessed files) (run.manifest files)) ⟨0, []⟩).queue

/-! ## The loop -/

/-- `MAX_RETRIES`. -/
def maxRetries : Nat := 3

/-- The endpoint of an item that is mirrored. -/
def mirrored (run : MirrorRun) (item : MirrorItem) : Option PackageEndpoint :=
  let fetch := run.fetch item
  if !fetch.metadata then none
  else match fetch.endpoint with
    | none => none
    | some endpoint =>
      if !(List.range maxRetries).any fetch.archive then none
      else if !fetch.stored then none
      else some endpoint

/-- The manifest and `max_seq_processed`. -/
structure Progress where
  manifest : MirrorManifest
  maxSeqProcessed : Nat

/-- The loop's body. -/
def mirrorItem (run : MirrorRun) (progress : Progress) (item : MirrorItem) : Progress :=
  match run.mirrored item with
  | none => progress
  | some endpoint =>
    { manifest := mirrorManifestAdd progress.manifest item.author item.name item.version
        endpoint.hash (some endpoint.url)
      maxSeqProcessed :=
        if progress.maxSeqProcessed < item.seq then item.seq else progress.maxSeqProcessed }

/-- What is in memory after the loop. -/
def loop (run : MirrorRun) (files : MirrorFiles) : Progress :=
  (run.workList files).foldl run.mirrorItem ⟨run.manifest files, run.lastProcessed files⟩

/-- The writing of the manifest. -/
def saveManifest (run : MirrorRun) (files : MirrorFiles) (manifest : MirrorManifest) :
    MirrorFiles :=
  if run.manifestWrites then
    { files with
      manifest := some (mirrorManifestWriteJson (mirrorManifestSetSource
        (mirrorManifestSetGenerated manifest run.timestamp) "package.elm-lang.org")) }
  else files

/-- The writing of the number. -/
def saveSince (run : MirrorRun) (files : MirrorFiles) (lastProcessed maxSeqProcessed : Nat) :
    MirrorFiles :=
  if lastProcessed < maxSeqProcessed && run.sinceWrites then
    { files with since := some maxSeqProcessed }
  else files

end MirrorRun

/-- `cmd_mirror`: the files a run leaves behind. -/
def cmdMirror (run : MirrorRun) (files : MirrorFiles) : MirrorFiles :=
  if (run.workList files).isEmpty then files
  else if run.opts.dryRun then files
  else if run.opts.confirm && !run.confirmed then files
  else
    match run.interrupted with
    | some (.atItem _) => files
    | some .beforeSince => run.saveManifest files (run.loop files).manifest
    | none =>
      run.saveSince (run.saveManifest files (run.loop files).manifest) (run.lastProcessed files)
        (run.loop files).maxSeqProcessed

/-- The files after several runs. -/
def runMirrors (files : MirrorFiles) (runs : List MirrorRun) : MirrorFiles :=
  runs.foldl (fun files run => cmdMirror run files) files

end ElmWrap.Mirror
