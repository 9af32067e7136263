import ElmWrap.Registry.Updates
import ElmWrap.Registry.Runs

/-!
# `install_env_ensure_v1_registry`

The functions of `install_env.c` that bring the V1 registry of a process up to
date. They work on three files next to each other, `registry.dat`, its
`.since-count` and its `.etag`, each of which can be missing or fail to be
written, and talk to a package server, which a run sees at one time of its
history.
-/

namespace ElmWrap

open Lib Lib.Binary

/-! ## The server and the files -/

/-- A package server: its answers after a list of publications. An `ETag` is never
empty, and as long as publications are only added it names one list of them. -/
structure PackageServer where
  etag : List Publication → Option String
  allPackages : List Publication → Json
  since : List Publication → Nat → Json
  etag_nonempty : ∀ published, etag published ≠ some ""
  etag_names : ∀ old new, old <+: new → etag old = etag new → etag old ≠ none → old = new
  allPackages_document : ∀ published, AllPackagesDocument published (allPackages published)
  since_document : ∀ published n, SinceDocument (published.drop n) (since published n)

/-- The files. `registryDat` is what `registry_load_from_dat` reads from `registry.dat`,
and what `registry_dat_write` has last written there. -/
structure RegistryCache where
  registryDat : Option Registry
  sinceCount : Option Nat
  etag : Option String
deriving DecidableEq, Repr

/-- No files. -/
def RegistryCache.empty : RegistryCache := { registryDat := none, sinceCount := none, etag := none }

/-- What a run of the program meets: the publications of the server, the files that
have been deleted since the last run, the settings, the requests and the writes that
fail, and the registries to merge. -/
structure EnsureRun where
  published : List Publication
  countable : published.length ≤ sizeMax
  deletedDat : Bool := false
  deletedSinceCount : Bool := false
  deletedEtag : Bool := false
  offline : Bool := false
  skipRegistryUpdate : Bool := false
  headFails : Bool := false
  getFails : Bool := false
  repairFails : Bool := false
  datFails : Bool := false
  sinceCountFails : Bool := false
  etagFails : Bool := false
  etagOnNotModified : Bool := false
  localDev : Option Bytes := none
  lamdera : Option V2Registry := none

/-- The files the run finds. -/
def EnsureRun.found (run : EnsureRun) (cache : RegistryCache) : RegistryCache where
  registryDat := if run.deletedDat then none else cache.registryDat
  sinceCount := if run.deletedSinceCount then none else cache.sinceCount
  etag := if run.deletedEtag then none else cache.etag

/-- `registry_dat_write`, where `fails` says that the file cannot be written. -/
def RegistryCache.writeDat (cache : RegistryCache) (registry : Registry) (fails : Bool) :
    Option RegistryCache :=
  if fails || !(registryDatWrite registry).isSome then none
  else some { cache with registryDat := some registry }

/-- `registry_since_count_write_to_disk`. -/
def RegistryCache.writeSinceCount (cache : RegistryCache) (count : Nat) (fails : Bool) :
    RegistryCache :=
  if fails then cache else { cache with sinceCount := some count }

/-- `registry_etag_write_to_disk`. -/
def RegistryCache.writeEtag (cache : RegistryCache) (etag : String) (fails : Bool) :
    RegistryCache :=
  if fails || etag = "" then cache else { cache with etag := some etag }

/-! ## The functions -/

/-- What `env` and the files are after a call, and what the call returns. -/
structure EnsureResult where
  registry : Registry
  cache : RegistryCache
  ok : Bool
deriving DecidableEq, Repr

/-- Write the registry and, where that works, its count. -/
def cacheRegistry (run : EnsureRun) (registry : Registry) (cache : RegistryCache) :
    RegistryCache :=
  match cache.writeDat registry run.datFails with
  | none => cache
  | some cache => cache.writeSinceCount registry.sinceCount run.sinceCountFails

/-- `install_env_fetch_registry`. -/
def installEnvFetchRegistry (server : PackageServer) (run : EnsureRun) (registry : Registry)
    (cache : RegistryCache) : EnsureResult :=
  let current := server.etag run.published
  if run.getFails then ⟨registry, cache, false⟩
  else if cache.etag.isSome && current = cache.etag then
    -- the server answers 304
    match current with
    | some etag =>
      if run.etagOnNotModified then ⟨registry, cache.writeEtag etag run.etagFails, true⟩
      else ⟨registry, cache, true⟩
    | none => ⟨registry, cache, true⟩
  else
    match parseAllPackagesJson (some (server.allPackages run.published)) registry with
    | (registry, false) => ⟨registry, cache, false⟩
    | (registry, true) =>
      let registry := registrySortEntries registry
      let cache := cacheRegistry run registry cache
      match current with
      | some etag => ⟨registry, cache.writeEtag etag run.etagFails, true⟩
      | none => ⟨registry, cache, true⟩

/-- The part of `install_env_update_registry` behind the HEAD request; `etag` is
`env->registry_etag`. -/
def updateSince (server : PackageServer) (run : EnsureRun) (registry : Registry) (known : Nat)
    (etag : Option String) (cache : RegistryCache) : EnsureResult :=
  if run.getFails then ⟨registry, cache, false⟩
  else
    match parseSinceResponse (some (server.since run.published known)) registry with
    | (registry, false) => ⟨registry, cache, false⟩
    | (registry, true) =>
      let updated : Registry × RegistryCache :=
        if registry.sinceCount > known then
          let registry := registrySortEntries registry
          (registry, cacheRegistry run registry cache)
        else (registry, cache)
      match etag with
      | some etag => ⟨updated.1, updated.2.writeEtag etag run.etagFails, true⟩
      | none => ⟨updated.1, updated.2, true⟩

/-- `install_env_update_registry`. -/
def installEnvUpdateRegistry (server : PackageServer) (run : EnsureRun) (registry : Registry)
    (known : Nat) (cache : RegistryCache) : EnsureResult :=
  match cache.etag with
  | none => updateSince server run registry known none cache
  | some etag =>
    if etag = "" || run.headFails then updateSince server run registry known (some etag) cache
    else if server.etag run.published = some etag then
      -- the server answers 304
      if run.etagOnNotModified then ⟨registry, cache.writeEtag etag run.etagFails, true⟩
      else ⟨registry, cache, true⟩
    else
      updateSince server run registry known ((server.etag run.published).or (some etag)) cache

/-- `install_env_merge_lamdera_registry_if_needed`; `none` outside of Lamdera, and where
its registry cannot be read. -/
def mergeLamderaRegistry (registry : Registry) (lamdera : Option V2Registry) : Registry :=
  match lamdera with
  | none => registry
  | some index =>
    registrySortEntries
      (index.entries.foldl (fun registry entry =>
        entry.versions.foldl (fun registry v =>
          (registryAddVersionEx registry entry.author entry.name v.version false).registry)
          registry) registry)

/-- The first part of `install_env_ensure_v1_registry`, with `known_version_count`: load
the registry, merge the others into it, and repair its counter. -/
def loadRegistry (run : EnsureRun) (cache : RegistryCache) : Registry × Nat × RegistryCache :=
  match cache.registryDat with
  | none => (registryCreate, 0, cache)
  | some stored =>
    let registry := (registryMergeDat (registrySortEntries stored) run.localDev).1
    let registry := mergeLamderaRegistry registry run.lamdera
    match cache.sinceCount with
    | none => (registry, stored.sinceCount, cache)
    | some canonical =>
      if canonical = registry.sinceCount then (registry, stored.sinceCount, cache)
      else
        let registry := { registry with sinceCount := canonical }
        (registry, canonical, (cache.writeDat registry run.repairFails).getD cache)

/-- `install_env_ensure_v1_registry`. -/
def installEnvEnsureV1Registry (server : PackageServer) (run : EnsureRun)
    (cache : RegistryCache) : EnsureResult :=
  let (registry, known, cache) := loadRegistry run (run.found cache)
  if run.offline then ⟨registry, cache, known ≠ 0⟩
  else if known = 0 then
    let fetched := installEnvFetchRegistry server run registry cache
    if fetched.ok then
      { fetched with registry := mergeLamderaRegistry fetched.registry run.lamdera }
    else fetched
  else if run.skipRegistryUpdate then ⟨mergeLamderaRegistry registry run.lamdera, cache, true⟩
  else
    -- an update that fails only gives a warning
    let updated := installEnvUpdateRegistry server run registry known cache
    ⟨mergeLamderaRegistry updated.registry run.lamdera, updated.cache, true⟩

/-- The files after a sequence of runs, the first of which finds none. -/
def cacheAfter (server : PackageServer) (runs : List EnsureRun) : RegistryCache :=
  runs.foldl (fun cache run => (installEnvEnsureV1Registry server run cache).cache)
    RegistryCache.empty

end ElmWrap
