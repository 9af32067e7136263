import ElmWrap.Solver.Strategy

/-!
# The package cache

`install_env_download_package`, `package_fetch.c`, `install_from_file` and the
selective extraction and copy of `fileutil.c`, on the directories of the cache. The
HTTP client, the zip reader, cJSON and SHA-1 are given by what they return; every
system call can fail.
-/

namespace ElmWrap

/-! ## Directories -/

/-- A version of a package. -/
structure PackageVersion where
  name : PackageName
  version : String
deriving DecidableEq

/-- The files below a directory by their paths, the last one written first, and the directories
made in it. -/
structure PackageDir where
  files : List (String × String)
  directories : List String
deriving DecidableEq

/-- A directory that has just been made. -/
def PackageDir.empty : PackageDir := ⟨[], []⟩

def PackageDir.read (dir : PackageDir) (path : String) : Option String := dir.files.lookup path

def PackageDir.write (dir : PackageDir) (path contents : String) : PackageDir :=
  { dir with files := (path, contents) :: dir.files }

/-- The packages directory of the cache; `none` where a version has no directory. -/
abbrev PackagesDir := PackageVersion → Option PackageDir

/-- `cache_package_exists`. -/
def cachePackageExists (cache : PackagesDir) (p : PackageVersion) : Bool := (cache p).isSome

/-- A path below `src`. -/
def underSrc (path : String) : Bool := path.startsWith "src/"

/-- There is something below `src`. -/
def PackageDir.hasSrc (dir : PackageDir) : Bool :=
  (dir.files.any fun file => underSrc file.1) ||
    dir.directories.any fun path => underSrc path && path ≠ "src/"

/-- `cache_package_fully_downloaded`. -/
def cachePackageFullyDownloaded (cache : PackagesDir) (p : PackageVersion) : Bool :=
  (cache p).any PackageDir.hasSrc

/-! ## SHA-1 -/

/-- `hex_char_to_int`; `none` for -1. -/
def hexCharToInt (c : Char) : Option Nat :=
  if '0' ≤ c && c ≤ '9' then some (c.toNat - '0'.toNat)
  else if 'a' ≤ c && c ≤ 'f' then some (c.toNat - 'a'.toNat + 10)
  else if 'A' ≤ c && c ≤ 'F' then some (c.toNat - 'A'.toNat + 10)
  else none

/-- The loop of `hex_string_to_bytes`. -/
def hexBytes : List Char → Option (List UInt8)
  | [] => some []
  | [_] => none
  | high :: low :: rest =>
    match hexCharToInt high, hexCharToInt low, hexBytes rest with
    | some high, some low, some bytes => some (UInt8.ofNat (high * 16 + low) :: bytes)
    | _, _, _ => none

/-- `hex_string_to_bytes`. -/
def hexStringToBytes (hex : String) (byteLen : Nat) : Option (List UInt8) :=
  if hex.toList.length ≠ byteLen * 2 then none else hexBytes hex.toList

/-- `SHA1_BLOCK_SIZE`. -/
def sha1BlockSize : Nat := 20

/-- `verify_file_sha1`, for the contents of the file. -/
def verifyFileSha1 {α : Type} (sha1 : α → List UInt8) (contents : α) (expectedHex : String) :
    Bool :=
  hexStringToBytes expectedHex sha1BlockSize = some (sha1 contents)

/-! ## What a download meets -/

/-- `PackageEndpoint`. -/
structure PackageEndpoint where
  url : String
  hash : String
deriving DecidableEq

/-- An entry of an archive. -/
structure ZipEntry where
  filename : String
  isDirectory : Bool
  contents : String
deriving DecidableEq

/-- What packages are downloaded from, and the libraries that read them. -/
structure PackageSource where
  /-- The document the registry has for a version under this file name. -/
  served : PackageVersion → String → String
  /-- The package's directory in the V2 repository. -/
  repository : PackageVersion → Option PackageDir
  /-- `cJSON_Parse` works. -/
  parses : String → Bool
  /-- `package_endpoint_parse`. -/
  packageEndpointParse : String → Option PackageEndpoint
  /-- `elm_json_read` works. -/
  elmJsonReads : String → Bool
  sha1 : String → List UInt8
  /-- The entries of a zip file. -/
  unzip : String → Option (List ZipEntry)

/-- How a request of `http_download_file` ends. A file is left where the answer is neither a
success nor an error. -/
inductive HttpAnswer
  | ok
  | failed
  | unexpected (left : String)
deriving DecidableEq

/-- What one call of `install_env_download_package` meets. -/
structure DownloadRun where
  protocolMode : ProtocolMode
  offline : Bool
  ignoreHash : Bool
  /-- The directory of the version can be made. -/
  makesDirectory : Bool
  /-- The answer to the request for a document. -/
  answer : String → HttpAnswer
  /-- The file downloaded from the endpoint's URL. -/
  archive : Option String
  /-- The entry at which the extraction fails, and what it leaves of the file. -/
  stops : Option (Nat × Option String)
  /-- The V2 repository is the cache itself. -/
  inPlace : Bool
  /-- The files of the repository that cannot be copied, and what is left of them. -/
  copyFails : String → Option (Option String)

/-! ## Metadata -/

/-- The files `fetch_package_metadata` fetches. -/
def metadataFiles : List String := ["endpoint.json", "elm.json", "docs.json"]

/-- `package_metadata_exists`. -/
def packageMetadataExists (dir : PackageDir) : Bool :=
  metadataFiles.all fun filename => (dir.read filename).isSome

/-- The loop of `fetch_package_metadata`: the directory, and whether all files are there. -/
def fetchFiles (source : PackageSource) (run : DownloadRun) (p : PackageVersion) :
    List String → PackageDir → PackageDir × Bool
  | [], dir => (dir, true)
  | filename :: rest, dir =>
    if (dir.read filename).isSome then fetchFiles source run p rest dir
    else
      match run.answer filename with
      | .failed => (dir, false)
      | .unexpected left => (dir.write filename left, false)
      | .ok =>
        let contents := source.served p filename
        -- an `elm.json` that is no JSON is removed again
        if filename = "elm.json" && !source.parses contents then (dir, false)
        else fetchFiles source run p rest (dir.write filename contents)

/-- `fetch_package_metadata`. -/
def fetchPackageMetadata (source : PackageSource) (run : DownloadRun) (cache : PackagesDir)
    (p : PackageVersion) : PackagesDir × Bool :=
  if run.offline then (cache, false)
  else if (cache p).isNone && !run.makesDirectory then (cache, false)
  else
    let (dir, complete) := fetchFiles source run p metadataFiles ((cache p).getD .empty)
    (Function.update cache p (some dir), complete)

/-! ## The archive -/

/-- `fetch_package_archive`: the archive, where it arrives and is accepted. -/
def fetchPackageArchive (source : PackageSource) (run : DownloadRun) (endpoint : PackageEndpoint) :
    Option String :=
  if run.offline then none
  else run.archive.filter fun archive =>
    run.ignoreHash || verifyFileSha1 source.sha1 archive endpoint.hash

/-- `fetch_package_complete`: the cache, and the archive. -/
def fetchPackageComplete (source : PackageSource) (run : DownloadRun) (cache : PackagesDir)
    (p : PackageVersion) : PackagesDir × Option String :=
  let (cache, fetched) :=
    if (cache p).any packageMetadataExists then (cache, true)
    else fetchPackageMetadata source run cache p
  if !fetched then (cache, none)
  else
    match (cache p).bind (PackageDir.read · "endpoint.json") with
    | none => (cache, none)
    | some data =>
      match source.packageEndpointParse data with
      | none => (cache, none)
      | some endpoint => (cache, fetchPackageArchive source run endpoint)

/-- The path of an entry without the leading directory. -/
def relPath (filename : String) : String :=
  match filename.toList.dropWhile (· ≠ '/') with
  | [] => filename
  | _ :: rest => String.ofList rest

/-- `should_extract_path`. -/
def shouldExtractPath (filename : String) : Bool :=
  let base := relPath filename
  base = "elm.json" || base = "docs.json" || base = "LICENSE" || base = "README.md" ||
    underSrc base || base = "src"

/-- A name that leads where it says: no part of the path is `.` or `..`, and none of a file's is
empty. -/
def ZipEntry.Plain (entry : ZipEntry) : Prop :=
  ∀ part ∈ (relPath entry.filename).toList.splitOn '/',
    part ≠ ['.'] ∧ part ≠ ['.', '.'] ∧ (part = [] → entry.isDirectory = true)

/-- The body of the loop of `extract_zip_selective`, for an entry with a plain name. An `elm.json`
or `docs.json` that exists is kept. -/
def extractEntry (dir : PackageDir) (entry : ZipEntry) : PackageDir :=
  let path := relPath entry.filename
  if !shouldExtractPath entry.filename then dir
  else if entry.isDirectory then { dir with directories := path :: dir.directories }
  else if (path = "elm.json" || path = "docs.json") && (dir.read path).isSome then dir
  else dir.write path entry.contents

/-- The loop of `extract_zip_selective` from the entry `i` on. Where it stops, the file of the
entry may have been written in part. -/
def extractEntries (stops : Option (Nat × Option String)) :
    Nat → List ZipEntry → PackageDir → PackageDir × Bool
  | _, [], dir => (dir, true)
  | i, entry :: rest, dir =>
    match stops with
    | some (n, left) =>
      if n = i then
        match left with
        | none => (dir, false)
        | some left => (extractEntry dir { entry with contents := left }, false)
      else extractEntries stops (i + 1) rest (extractEntry dir entry)
    | none => extractEntries stops (i + 1) rest (extractEntry dir entry)

/-- `extract_zip_selective`. -/
def extractZipSelective (source : PackageSource) (run : DownloadRun) (archive : String)
    (dir : PackageDir) : PackageDir × Bool :=
  match source.unzip archive with
  | none => (dir, false)
  | some entries => extractEntries run.stops 0 entries dir

/-! ## The V2 repository -/

/-- The files of the package's root that `copy_directory_selective` copies. -/
def filesToCopy : List String := ["elm.json", "docs.json", "LICENSE", "README.md"]

/-- `copy_directory_selective` copies the file. -/
def copied (path : String) : Bool := filesToCopy.contains path || underSrc path

/-- A file of the repository in the copy, as far as it is written. -/
def copyFile (run : DownloadRun) (file : String × String) : Option (String × String) :=
  if copied file.1 then
    match run.copyFails file.1 with
    | none => some file
    | some left => left.map fun contents => (file.1, contents)
  else none

/-- The source has a directory `src`. -/
def PackageDir.hasSrcDirectory (dir : PackageDir) : Bool :=
  (dir.files.any fun file => underSrc file.1) || dir.directories.any (underSrc ·)

/-- `copy_directory_selective` into a directory that exists. It goes on after a file that it cannot
copy. -/
def copyDirectorySelective (run : DownloadRun) (origin dest : PackageDir) : PackageDir × Bool :=
  ({ files := origin.files.filterMap (copyFile run) ++ dest.files
     directories := origin.directories.filter (underSrc ·) ++ dest.directories },
    origin.hasSrcDirectory && origin.files.all fun file =>
      !copied file.1 || (run.copyFails file.1).isNone)

/-! ## Downloads -/

/-- `install_env_download_package`: the cache, and what it returns. -/
def installEnvDownloadPackage (source : PackageSource) (run : DownloadRun) (cache : PackagesDir)
    (p : PackageVersion) : PackagesDir × Bool :=
  match run.protocolMode with
  | .v2 =>
    match source.repository p with
    | none => (cache, false)
    | some origin =>
      if run.inPlace then (cache, true)
      else if (cache p).isNone && !run.makesDirectory then (cache, false)
      else
        let (dir, copied) := copyDirectorySelective run origin ((cache p).getD .empty)
        (Function.update cache p (some dir), copied)
  | .v1 =>
    if run.offline then (cache, false)
    else
      match fetchPackageComplete source run cache p with
      | (cache, none) => (cache, false)
      | (cache, some archive) =>
        let (dir, extracted) := extractZipSelective source run archive ((cache p).getD .empty)
        (Function.update cache p (some dir), extracted)

/-! ## Installations from a directory -/

/-- What a call of `install_from_file` meets. -/
structure InstallRun where
  /-- The source is a directory, and the one of the package's versions can be made. -/
  starts : Bool
  /-- What `remove_directory_recursive` leaves. -/
  removes : PackageDir → Option PackageDir
  /-- The source, or its first subdirectory where it has no `elm.json`. -/
  origin : Option PackageDir
  copy : DownloadRun

/-- `install_from_file`: the cache, and what it returns. -/
def PackagesDir.installFromFile (run : InstallRun) (cache : PackagesDir) (p : PackageVersion) :
    PackagesDir × Bool :=
  if !run.starts then (cache, false)
  else
    let left := (cache p).bind run.removes
    match run.origin with
    | none => (Function.update cache p left, false)
    | some origin =>
      if left.isNone && !run.copy.makesDirectory then (Function.update cache p left, false)
      else
        let (dir, copied) := copyDirectorySelective run.copy origin (left.getD .empty)
        (Function.update cache p (some dir), copied && dir.hasSrcDirectory)

/-! ## Sequences -/

/-- What is done to the cache. -/
inductive CacheOperation
  /-- `install_env_download_package`. -/
  | download (run : DownloadRun) (p : PackageVersion)
  /-- `download_package_recursive` and the end of `solver_add_package`: a package that exists is
  not downloaded. -/
  | ensure (run : DownloadRun) (p : PackageVersion)
  /-- `cache_download_package_recursive`. -/
  | ensureFully (run : DownloadRun) (p : PackageVersion)
  /-- `pg_elm_provider_get_dependencies` of the V1 protocol: a package whose `elm.json` cannot be
  read is downloaded. -/
  | lookup (run : DownloadRun) (p : PackageVersion)
  /-- `fetch_package_metadata`. -/
  | metadata (run : DownloadRun) (p : PackageVersion)
  /-- `install_from_file`. -/
  | install (run : InstallRun) (p : PackageVersion)
  /-- `remove_directory_recursive` of the version's directory, and what it leaves. -/
  | remove (removes : PackageDir → Option PackageDir) (p : PackageVersion)

/-- `elm_json_read` of the cached `elm.json` works. -/
def elmJsonCached (source : PackageSource) (cache : PackagesDir) (p : PackageVersion) : Bool :=
  ((cache p).bind (PackageDir.read · "elm.json")).any source.elmJsonReads

/-- The cache after an operation. -/
def CacheOperation.next (source : PackageSource) (cache : PackagesDir) :
    CacheOperation → PackagesDir
  | .download run p => (installEnvDownloadPackage source run cache p).1
  | .ensure run p =>
    if cachePackageExists cache p then cache
    else (installEnvDownloadPackage source run cache p).1
  | .ensureFully run p =>
    if cachePackageFullyDownloaded cache p then cache
    else (installEnvDownloadPackage source run cache p).1
  | .lookup run p =>
    if run.protocolMode = .v2 || elmJsonCached source cache p || run.offline then cache
    else (installEnvDownloadPackage source run cache p).1
  | .metadata run p => (fetchPackageMetadata source run cache p).1
  | .install run p => (PackagesDir.installFromFile run cache p).1
  | .remove removes p => Function.update cache p ((cache p).bind removes)

end ElmWrap
