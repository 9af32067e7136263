import ElmWrap.Build.BuildDriver
import ElmWrap.InstallEnv.PackageCache
import ElmWrap.Lib.FailingSearch
import ElmWrap.Orphans.Exact
import ElmWrap.Registry.Resolvers
import ElmWrap.Solver.Closed
import Mathlib.Data.Set.Finite.Basic

/-!
# The packages that are downloaded for the compiler

Before the compiler runs, `download_all_packages` of `elm_cmd_common.c` goes through the
packages that `elm.json` lists and, by the `elm.json` files it then finds in the cache,
through what they depend on. It is a search over exact versions: a constraint is
resolved by the registry, not by what the application lists.
-/

namespace ElmWrap

open Lib

/-! ## The functions -/

/-- How the symlink of a local-dev package is made anew. -/
inductive Relink
  | made
  /-- It is not, and this is left in its place. -/
  | failed (left : Option PackageDir)

/-- What the downloads meet. -/
structure DownloadWorld where
  source : PackageSource
  /-- What the download of a version meets. -/
  run : PackageVersion → DownloadRun
  /-- The place of a missing version in the V2 repository is not its place in the cache. -/
  elsewhere : ∀ p, (run p).inPlace = false
  /-- `elm_json_read`, for the contents of the file. -/
  elmJsonRead : String → Option ElmJson
  packagesDir : String
  registry : Registry
  /-- `read_local_dev_source_path`: the directory there, if there still is one. -/
  localDevSource : PackageVersion → Option (Option PackageDir)
  /-- The symlink is there and leads to the directory. -/
  linked : PackageVersion → Bool
  /-- `create_package_symlink`. -/
  relink : PackageVersion → Relink
  isPackageLocalDev : PackageVersion → Bool

/-- The cache, and what has been done. -/
structure DownloadState where
  cache : PackagesDir
  processed : List PackageVersion
  /-- The calls of `cache_download_package_with_env`. -/
  requested : List PackageVersion
  /-- `local_dev_packages`. -/
  localDev : List PackageVersion

/-- `ensure_local_dev_symlink`. -/
def ensureLocalDevSymlink (world : DownloadWorld) (cache : PackagesDir) (p : PackageVersion) :
    PackagesDir × Bool :=
  match world.localDevSource p with
  | none => (cache, true)
  | some none => (cache, false)
  | some (some dir) =>
    if world.linked p then (cache, true)
    else
      match world.relink p with
      | .made => (Function.update cache p (some dir), true)
      | .failed left => (Function.update cache p left, false)

/-- `pkg_elm_json_path`. -/
def pkgElmJsonPath (world : DownloadWorld) (p : PackageVersion) : String :=
  world.packagesDir ++ "/" ++ p.name.author ++ "/" ++ p.name.project ++ "/" ++ p.version ++
    "/elm.json"

/-- The version that an entry of an `elm.json` is downloaded in. -/
def resolveEntry (registry : Registry) (type : ElmProjectType) (dep : Package) :
    Option PackageVersion :=
  match type with
  | .application => some ⟨dep.name, dep.version⟩
  | .package =>
    if versionIsConstraint dep.version then
      (registryResolveConstraint registry dep.name.author dep.name.project dep.version).map
        fun v => ⟨dep.name, versionToString v⟩
    else some ⟨dep.name, dep.version⟩

/-- The versions that the loops over the maps of an `elm.json` go through. -/
def DownloadWorld.entries (world : DownloadWorld) (elmJson : ElmJson) :
    List (Option PackageVersion) :=
  (elmJson.type.maps.flatMap fun field => (elmJson.maps field).packages).map
    (resolveEntry world.registry elmJson.type)

/-- What the first half of a call leaves. -/
structure Obtained where
  cache : PackagesDir
  /-- The calls of `cache_download_package_with_env`. -/
  requested : List PackageVersion
  there : Bool

/-- `download_package_recursive` up to the download. -/
def obtainPackage (world : DownloadWorld) (cache : PackagesDir) (p : PackageVersion) : Obtained :=
  let cache := (ensureLocalDevSymlink world cache p).1
  if cachePackageExists cache p then ⟨cache, [], true⟩
  else
    let downloaded := installEnvDownloadPackage world.source (world.run p) cache p
    ⟨downloaded.1, [p], downloaded.2⟩

/-- `download_package_recursive` up to the `elm.json` of the package: `none` where it returns 1. -/
def downloadPackage (world : DownloadWorld) (p : PackageVersion) (state : DownloadState) :
    DownloadState × Option (Option ElmJson) :=
  let obtained := obtainPackage world state.cache p
  let state : DownloadState :=
    { cache := obtained.cache
      processed := state.processed ++ [p]
      requested := state.requested ++ obtained.requested
      localDev := if obtained.there && world.isPackageLocalDev p then state.localDev ++ [p]
        else state.localDev }
  if !obtained.there then (state, none)
  else if maxPathLength ≤ (pkgElmJsonPath world p).utf8ByteSize then (state, none)
  else (state, some (((state.cache p).bind (PackageDir.read · "elm.json")).bind world.elmJsonRead))

/-- The loops over the dependencies; `false` where they end with the result 1. -/
def downloadEntries
    (recurse : PackageVersion → DownloadState → Option (DownloadState × Bool)) :
    List (Option PackageVersion) → DownloadState → Option (DownloadState × Bool)
  | [], state => some (state, true)
  | none :: _, state => some (state, false)
  | some p :: rest, state =>
    match recurse p state with
    | none => none
    | some (state, false) => some (state, false)
    | some (state, true) => downloadEntries recurse rest state

/-- `download_package_recursive`. The first argument bounds the depth of the recursion. -/
def downloadPackageRecursive (world : DownloadWorld) :
    Nat → PackageVersion → DownloadState → Option (DownloadState × Bool)
  | depth, p, state =>
    if p ∈ state.processed then some (state, true)
    else
      match depth with
      | 0 => none
      | depth + 1 =>
        match downloadPackage world p state with
        | (state, none) => some (state, false)
        | (state, some none) => some (state, true)
        | (state, some (some elmJson)) =>
          downloadEntries (downloadPackageRecursive world depth) (world.entries elmJson) state

/-- `download_all_packages`, up to the local-dev packages that it writes to `registry.dat`. -/
def downloadAllPackages (world : DownloadWorld) (depth : Nat) (elmJson : ElmJson)
    (cache : PackagesDir) : Option (DownloadState × Bool) :=
  downloadEntries (downloadPackageRecursive world depth) (world.entries elmJson) ⟨cache, [], [], []⟩

/-! ## What a version leads to -/

/-- The contents of a version's `elm.json` once the version has been asked for; `none` where the
call for it returns 1. -/
def DownloadWorld.outcome (world : DownloadWorld) (cache : PackagesDir) (p : PackageVersion) :
    Option (Option ElmJson) :=
  let obtained := obtainPackage world cache p
  if !obtained.there || maxPathLength ≤ (pkgElmJsonPath world p).utf8ByteSize then none
  else some (((obtained.cache p).bind (PackageDir.read · "elm.json")).bind world.elmJsonRead)

/-- The versions that a version leads to. A version that is asked for without success has none to
offer. -/
def DownloadWorld.next (world : DownloadWorld) (cache : PackagesDir) (p : PackageVersion) :
    Option (List (Option PackageVersion)) :=
  (world.outcome cache p).map fun elmJson => (elmJson.map world.entries).getD []

/-- What has been done is what the calls for the processed versions do. -/
structure DownloadState.Tracks (world : DownloadWorld) (initial : PackagesDir)
    (state : DownloadState) : Prop where
  cache : ∀ q, state.cache q =
    if q ∈ state.processed then (obtainPackage world initial q).cache q else initial q
  requested : state.requested =
    state.processed.flatMap fun q => (obtainPackage world initial q).requested

theorem DownloadState.Tracks.start (world : DownloadWorld) (initial : PackagesDir) :
    DownloadState.Tracks world initial ⟨initial, [], [], []⟩ where
  cache _ := rfl
  requested := rfl

/-! ## One call -/

section

variable (world : DownloadWorld)

theorem ensureLocalDevSymlink_local {cache other : PackagesDir} {p : PackageVersion}
    (same : cache p = other p) :
    (ensureLocalDevSymlink world cache p).1 p = (ensureLocalDevSymlink world other p).1 p := by
  unfold ensureLocalDevSymlink
  cases world.localDevSource p with
  | none => exact same
  | some target =>
    cases target with
    | none => exact same
    | some dir =>
      dsimp only
      split
      · exact same
      · cases world.relink p with
        | made =>
          dsimp only
          rw [Function.update_self, Function.update_self]
        | failed left =>
          dsimp only
          rw [Function.update_self, Function.update_self]

theorem ensureLocalDevSymlink_other (cache : PackagesDir) {p other : PackageVersion}
    (apart : other ≠ p) : (ensureLocalDevSymlink world cache p).1 other = cache other := by
  unfold ensureLocalDevSymlink
  cases world.localDevSource p with
  | none => rfl
  | some target =>
    cases target with
    | none => rfl
    | some dir =>
      dsimp only
      split
      · rfl
      · cases world.relink p with
        | made => exact Function.update_of_ne apart _ _
        | failed left => exact Function.update_of_ne apart _ _

/-- What is obtained depends on the directory of the version only. -/
theorem obtainPackage_local {cache other : PackagesDir} {p : PackageVersion}
    (same : cache p = other p) :
    (obtainPackage world cache p).cache p = (obtainPackage world other p).cache p ∧
      (obtainPackage world cache p).requested = (obtainPackage world other p).requested ∧
      (obtainPackage world cache p).there = (obtainPackage world other p).there := by
  have linked := ensureLocalDevSymlink_local world same
  obtain ⟨dir, works⟩ := installEnvDownloadPackage_local world.source (world.run p) linked
  unfold obtainPackage cachePackageExists
  dsimp only
  rw [linked]
  split
  · exact ⟨linked, rfl, rfl⟩
  · exact ⟨dir, rfl, works⟩

theorem obtainPackage_other (cache : PackagesDir) {p other : PackageVersion} (apart : other ≠ p) :
    (obtainPackage world cache p).cache other = cache other := by
  have linked := ensureLocalDevSymlink_other world cache apart
  unfold obtainPackage
  dsimp only
  split
  · exact linked
  · exact (installEnvDownloadPackage_other world.source (world.run p) _ apart).trans linked

/-- A version that is there has a directory. -/
theorem obtainPackage_there {cache : PackagesDir} {p : PackageVersion}
    (there : (obtainPackage world cache p).there = true) :
    ((obtainPackage world cache p).cache p).isSome = true := by
  unfold obtainPackage at there ⊢
  dsimp only at there ⊢
  split at there
  · rename_i cached
    rw [if_pos cached]
    exact cached
  · rename_i missing
    rw [if_neg missing]
    exact installEnvDownloadPackage_there (world.elsewhere p) there

theorem downloadPackage_processed (p : PackageVersion) (state : DownloadState) :
    (downloadPackage world p state).1.processed = state.processed ++ [p] := by
  unfold downloadPackage
  dsimp only
  split
  · rfl
  · split <;> rfl

theorem downloadPackage_cache (p : PackageVersion) (state : DownloadState) :
    (downloadPackage world p state).1.cache = (obtainPackage world state.cache p).cache := by
  unfold downloadPackage
  dsimp only
  split
  · rfl
  · split <;> rfl

theorem downloadPackage_requested (p : PackageVersion) (state : DownloadState) :
    (downloadPackage world p state).1.requested =
      state.requested ++ (obtainPackage world state.cache p).requested := by
  unfold downloadPackage
  dsimp only
  split
  · rfl
  · split <;> rfl

theorem downloadPackage_outcome (p : PackageVersion) (state : DownloadState) :
    (downloadPackage world p state).2 = world.outcome state.cache p := by
  unfold downloadPackage DownloadWorld.outcome
  dsimp only
  cases (obtainPackage world state.cache p).there with
  | false => rfl
  | true =>
    rw [Bool.not_true, Bool.false_or, if_neg Bool.false_ne_true]
    simp only [decide_eq_true_eq]
    split <;> rfl

theorem DownloadWorld.outcome_local {cache other : PackagesDir} {p : PackageVersion}
    (same : cache p = other p) : world.outcome cache p = world.outcome other p := by
  obtain ⟨dir, -, there⟩ := obtainPackage_local world same
  unfold outcome
  dsimp only
  rw [dir, there]

end

section

variable {world : DownloadWorld} {initial : PackagesDir}

/-- A call for a version that has not been processed. -/
theorem DownloadState.Tracks.downloadPackage {state : DownloadState} {p : PackageVersion}
    (tracks : state.Tracks world initial) (new : p ∉ state.processed) :
    (downloadPackage world p state).1.Tracks world initial ∧
      (downloadPackage world p state).2 = world.outcome initial p := by
  have same : state.cache p = initial p := by rw [tracks.cache p, if_neg new]
  obtain ⟨dir, requested, -⟩ := obtainPackage_local world same
  refine ⟨⟨?_, ?_⟩, ?_⟩
  · intro q
    rw [downloadPackage_cache, downloadPackage_processed]
    by_cases here : q = p
    · rw [here, dir, if_pos (List.mem_append_right _ (List.mem_singleton_self p))]
    · rw [obtainPackage_other world _ here, tracks.cache q]
      simp [here]
  · rw [downloadPackage_requested, downloadPackage_processed, tracks.requested, requested,
      List.flatMap_append, List.flatMap_singleton]
  · rw [downloadPackage_outcome, DownloadWorld.outcome_local world same]

/-! ## The search that it is -/

/-- A run of the downloads goes through the versions like the search, and keeps track. -/
def Follows (world : DownloadWorld) (initial : PackagesDir)
    (ran : Option (DownloadState × Bool)) (searched : Option (List PackageVersion × Bool)) :
    Prop :=
  ran.map (fun result => (result.1.processed, result.2)) = searched ∧
    ∀ result ∈ ran, result.1.Tracks world initial

theorem Follows.returned {state : DownloadState} (tracks : state.Tracks world initial)
    (succeeds : Bool) :
    Follows world initial (some (state, succeeds)) (some (state.processed, succeeds)) := by
  refine ⟨rfl, ?_⟩
  rintro result ⟨⟩
  exact tracks

theorem Follows.running : Follows world initial none none := by
  refine ⟨rfl, fun _ there => ?_⟩
  cases there

theorem downloadEntries_follows
    {recurse : PackageVersion → DownloadState → Option (DownloadState × Bool)}
    {search : PackageVersion → List PackageVersion → Option (List PackageVersion × Bool)}
    (one : ∀ p (state : DownloadState), state.Tracks world initial →
      Follows world initial (recurse p state) (search p state.processed))
    (entries : List (Option PackageVersion)) {state : DownloadState}
    (tracks : state.Tracks world initial) :
    Follows world initial (downloadEntries recurse entries state)
      (FailingSearch.searchAll search entries state.processed) := by
  induction entries generalizing state with
  | nil => exact .returned tracks true
  | cons first rest ih =>
    cases first with
    | none => exact .returned tracks false
    | some p =>
      obtain ⟨same, kept⟩ := one p state tracks
      unfold downloadEntries FailingSearch.searchAll
      rw [← same]
      cases ran : recurse p state with
      | none => exact .running
      | some result =>
        obtain ⟨after, succeeds⟩ := result
        have tracks := kept _ ran
        cases succeeds with
        | false => exact .returned tracks false
        | true => exact ih tracks

/-- `download_package_recursive` is a depth-first search of the versions. -/
theorem downloadPackageRecursive_follows (depth : Nat) (p : PackageVersion) (state : DownloadState)
    (tracks : state.Tracks world initial) :
    Follows world initial (downloadPackageRecursive world depth p state)
      (FailingSearch.search (world.next initial) depth p state.processed) := by
  induction depth generalizing p state with
  | zero =>
    unfold downloadPackageRecursive FailingSearch.search
    split
    · exact .returned tracks true
    · exact .running
  | succ depth ih =>
    by_cases processed : p ∈ state.processed
    · rw [FailingSearch.search_visited _ processed]
      unfold downloadPackageRecursive
      rw [if_pos processed]
      exact .returned tracks true
    · obtain ⟨tracks, outcome⟩ := tracks.downloadPackage processed
      have done := downloadPackage_processed world p state
      rw [FailingSearch.search_new _ processed, ← done]
      unfold downloadPackageRecursive DownloadWorld.next
      rw [if_neg processed, ← outcome]
      generalize downloadPackage world p state = called at tracks
      obtain ⟨after, outcome⟩ := called
      cases outcome with
      | none => exact .returned tracks false
      | some elmJson =>
        cases elmJson with
        | none => exact .returned tracks true
        | some elmJson => exact downloadEntries_follows ih (world.entries elmJson) tracks

end

/-! ## Everything that is listed -/

/-- An `elm.json` lists a version. -/
def ElmJson.ListsVersion (elmJson : ElmJson) (p : PackageVersion) : Prop :=
  ∃ dep ∈ elmJson.packages, ⟨dep.name, dep.version⟩ = p

/-- The downloads end. Where they succeed every listed version is in the cache, and where all are
there before they succeed and ask for nothing else. -/
structure DownloadsListed (world : DownloadWorld) (elmJson : ElmJson) (cache : PackagesDir) :
    Prop where
  terminates : ∃ enough, ∀ depth, enough ≤ depth →
    (downloadAllPackages world depth elmJson cache).isSome = true
  cached : ∀ depth state, downloadAllPackages world depth elmJson cache = some (state, true) →
    ∀ p, elmJson.ListsVersion p → cachePackageExists state.cache p = true
  frame : (∀ p, elmJson.ListsVersion p → cachePackageExists cache p = true) →
    ∀ depth state succeeds, downloadAllPackages world depth elmJson cache = some (state, succeeds) →
      succeeds = true ∧ ∀ p ∈ state.requested, elmJson.ListsVersion p

/-- A version that is dealt with without another one: it is in the cache or is a listed one, what
it is asked for with succeeds, and the registry has a version for each of its constraints. -/
structure SettledVersion (world : DownloadWorld) (elmJson : ElmJson) (cache : PackagesDir)
    (p : PackageVersion) : Prop where
  there : elmJson.ListsVersion p ∨
    cachePackageExists (ensureLocalDevSymlink world cache p).1 p = true
  resolves : ∃ successors, world.next cache p = some successors ∧ none ∉ successors

section

variable {world : DownloadWorld} {elmJson : ElmJson} {cache : PackagesDir}

theorem DownloadWorld.entries_application (application : elmJson.type = .application) :
    world.entries elmJson = elmJson.packages.map fun dep => some ⟨dep.name, dep.version⟩ := by
  unfold entries ElmJson.packages resolveEntry
  rw [application]

theorem DownloadWorld.mem_entries (application : elmJson.type = .application)
    {p : PackageVersion} : some p ∈ world.entries elmJson ↔ elmJson.ListsVersion p := by
  rw [entries_application application, List.mem_map]
  simp only [Option.some.injEq]
  rfl

theorem DownloadWorld.none_not_mem_entries (application : elmJson.type = .application) :
    none ∉ world.entries elmJson := by
  rw [entries_application application, List.mem_map]
  rintro ⟨dep, -, same⟩
  cases same

/-- What a run leaves: the versions it has processed are those that are reached, as long as it
succeeds. -/
theorem downloadAllPackages_reached {depth : Nat} {state : DownloadState} {succeeds : Bool}
    (ran : downloadAllPackages world depth elmJson cache = some (state, succeeds)) :
    state.Tracks world cache ∧
      FailingSearch.searchAll (FailingSearch.search (world.next cache) depth)
        (world.entries elmJson) [] = some (state.processed, succeeds) := by
  obtain ⟨same, kept⟩ := downloadEntries_follows (downloadPackageRecursive_follows depth)
    (world.entries elmJson) (DownloadState.Tracks.start world cache)
  unfold downloadAllPackages at ran
  rw [ran] at same kept
  exact ⟨kept _ rfl, same.symm⟩

/-- Enough depth for all versions that can be had is enough. -/
theorem downloadAllPackages_terminates (elmJson : ElmJson)
    (finite : {p | (world.outcome cache p).isSome = true}.Finite) :
    ∃ enough, ∀ depth, enough ≤ depth →
      (downloadAllPackages world depth elmJson cache).isSome = true := by
  have inside : ∀ p successors, world.next cache p = some successors →
      p ∈ finite.toFinset.toList := by
    intro p successors leads
    rw [Finset.mem_toList, Set.Finite.mem_toFinset]
    obtain ⟨outcome, found, -⟩ := Option.map_eq_some_iff.mp leads
    exact Option.isSome_iff_exists.mpr ⟨outcome, found⟩
  refine ⟨(DepthFirst.unvisited finite.toFinset.toList []).length + 1, ?_⟩
  intro depth enough
  obtain ⟨result, searched⟩ :=
    FailingSearch.searchAll_returns inside (world.entries elmJson) (Nat.lt_of_succ_le enough)
  obtain ⟨same, -⟩ := downloadEntries_follows (downloadPackageRecursive_follows depth)
    (world.entries elmJson) (DownloadState.Tracks.start world cache)
  have returned := congrArg Option.isSome (same.trans searched)
  rw [Option.isSome_map] at returned
  exact returned

/-- Of what has been processed, a version is in the cache where its call succeeded. -/
theorem DownloadState.Tracks.cached {state : DownloadState} (tracks : state.Tracks world cache)
    {p : PackageVersion} (processed : p ∈ state.processed)
    (works : ¬ FailingSearch.Fails (world.next cache) p) :
    cachePackageExists state.cache p = true := by
  unfold cachePackageExists
  rw [tracks.cache p, if_pos processed]
  apply obtainPackage_there
  by_contra missing
  rw [Bool.not_eq_true] at missing
  apply works
  intro successors leads
  unfold DownloadWorld.next DownloadWorld.outcome at leads
  dsimp only at leads
  rw [missing, Bool.not_false, Bool.true_or, if_pos rfl] at leads
  cases leads

/-- A version is asked for where it has been processed and was not in the cache. -/
theorem DownloadState.Tracks.mem_requested {state : DownloadState}
    (tracks : state.Tracks world cache) {p : PackageVersion} :
    p ∈ state.requested ↔ p ∈ state.processed ∧
      cachePackageExists (ensureLocalDevSymlink world cache p).1 p = false := by
  rw [tracks.requested, List.mem_flatMap]
  unfold obtainPackage
  dsimp only
  constructor
  · rintro ⟨q, processed, requested⟩
    split at requested
    · exact absurd requested List.not_mem_nil
    · rename_i missing
      rw [List.mem_singleton.mp requested]
      exact ⟨processed, Bool.eq_false_of_not_eq_true missing⟩
  · rintro ⟨processed, missing⟩
    refine ⟨p, processed, ?_⟩
    rw [missing, if_neg Bool.false_ne_true]
    exact List.mem_singleton_self p

theorem settled_iff {p : PackageVersion} :
    SettledVersion world elmJson cache p ↔
      (elmJson.ListsVersion p ∨
        cachePackageExists (ensureLocalDevSymlink world cache p).1 p = true) ∧
      ¬ FailingSearch.Fails (world.next cache) p := by
  unfold FailingSearch.Fails
  push Not
  exact ⟨fun settled => ⟨settled.there, settled.resolves⟩, fun both => ⟨both.1, both.2⟩⟩

/-- The downloads for an application do what they are for just where, once all listed versions are
in the cache, every version that is reached is settled. -/
theorem downloadAllPackages_iff (application : elmJson.type = .application)
    (finite : {p | (world.outcome cache p).isSome = true}.Finite) :
    DownloadsListed world elmJson cache ↔
      ((∀ p, elmJson.ListsVersion p → cachePackageExists cache p = true) →
        ∀ p, FailingSearch.ReachedFrom (world.next cache) (world.entries elmJson) p →
          SettledVersion world elmJson cache p) := by
  obtain ⟨enough, returns⟩ := downloadAllPackages_terminates elmJson finite
  have full := world.none_not_mem_entries application
  constructor
  · intro downloads there p reached
    obtain ⟨⟨state, succeeds⟩, ran⟩ := Option.isSome_iff_exists.mp (returns enough le_rfl)
    obtain ⟨success, listed⟩ := downloads.frame there enough state succeeds ran
    obtain ⟨tracks, searched⟩ := downloadAllPackages_reached ran
    obtain ⟨-, works, everything⟩ := FailingSearch.searchAll_reached searched
    refine settled_iff.mpr ⟨?_, (works.mp success).2 p reached⟩
    cases present : cachePackageExists (ensureLocalDevSymlink world cache p).1 p with
    | true => exact Or.inr rfl
    | false =>
      exact Or.inl (listed p (tracks.mem_requested.mpr ⟨everything success p reached, present⟩))
  · intro settled
    refine ⟨⟨enough, returns⟩, ?_, ?_⟩
    · intro depth state ran p listed
      obtain ⟨tracks, searched⟩ := downloadAllPackages_reached ran
      obtain ⟨-, works, everything⟩ := FailingSearch.searchAll_reached searched
      have reached : FailingSearch.ReachedFrom (world.next cache) (world.entries elmJson) p :=
        ⟨p, (world.mem_entries application).mpr listed, .refl⟩
      exact tracks.cached (everything rfl p reached) ((works.mp rfl).2 p reached)
    · intro there depth state succeeds ran
      obtain ⟨tracks, searched⟩ := downloadAllPackages_reached ran
      obtain ⟨inside, works, -⟩ := FailingSearch.searchAll_reached searched
      refine ⟨works.mpr ⟨full, fun p reached => ?_⟩, ?_⟩
      · exact (settled_iff.mp (settled there p reached)).2
      · intro p requested
        obtain ⟨processed, missing⟩ := tracks.mem_requested.mp requested
        rcases (settled there p (inside p processed)).there with listed | present
        · exact listed
        · rw [missing] at present
          cases present

end

/-! ## A newer version in the registry -/

/-- `elm/virtual-dom` depends on nothing. -/
def virtualDomElmJson : ElmJson where
  type := .package
  maps _ := packageMapCreate

/-- Without a network, and with these versions of `elm/virtual-dom` in the registry. -/
def browserWorld (versions : List Version) : DownloadWorld where
  source := urlSource
  run _ := { faultless with offline := true }
  elsewhere _ := rfl
  elmJsonRead contents :=
    if contents = "browser" then some browserElmJson
    else if contents = "virtual-dom" then some virtualDomElmJson
    else none
  packagesDir := "/home/elm/.elm/0.19.1/packages"
  registry := ⟨[⟨"elm", "virtual-dom", versions⟩], versions.length⟩
  localDevSource _ := none
  linked _ := false
  relink _ := .failed none
  isPackageLocalDev _ := false

/-- The two packages of the application. -/
def browserPackages : PackagesDir := fun p =>
  if p = ⟨elmBrowserPackage, "1.0.2"⟩ then some ⟨[("elm.json", "browser")], []⟩
  else if p = ⟨elmVirtualDomPackage, "1.0.3"⟩ then some ⟨[("elm.json", "virtual-dom")], []⟩
  else none

/-- The dependencies in the `elm.json` files of the cache. -/
def DownloadWorld.dependencies (world : DownloadWorld) (cache : PackagesDir) (name : PackageName)
    (v : PgVersion) : List Package :=
  match ((cache ⟨name, versionText v⟩).bind (PackageDir.read · "elm.json")).bind
      world.elmJsonRead with
  | none => []
  | some elmJson => elmJson.packages

theorem browserPackages_listed {p : PackageVersion} (listed : browserApplication.ListsVersion p) :
    cachePackageExists browserPackages p = true := by
  have packages : browserApplication.packages =
      [⟨elmBrowserPackage, "1.0.2"⟩, ⟨elmVirtualDomPackage, "1.0.3"⟩] := by decide
  obtain ⟨dep, member, rfl⟩ := listed
  rw [packages] at member
  rcases List.mem_pair.mp member with rfl | rfl
  · rfl
  · rfl

/-- Only the two packages can be had. -/
theorem browserWorld_finite (versions : List Version) :
    {p | ((browserWorld versions).outcome browserPackages p).isSome = true}.Finite := by
  apply Set.Finite.subset (List.finite_toSet
    [⟨elmBrowserPackage, "1.0.2"⟩, ⟨elmVirtualDomPackage, "1.0.3"⟩])
  intro p (there : ((browserWorld versions).outcome browserPackages p).isSome = true)
  by_contra other
  have other := not_or.mp (mt List.mem_pair.mpr other)
  have missing : browserPackages p = none := by
    unfold browserPackages
    rw [if_neg other.1, if_neg other.2]
  have nothing : (obtainPackage (browserWorld versions) browserPackages p).there = false := by
    unfold obtainPackage cachePackageExists
    dsimp only
    have kept : (ensureLocalDevSymlink (browserWorld versions) browserPackages p).1 =
        browserPackages := rfl
    rw [kept, missing]
    rfl
  unfold DownloadWorld.outcome at there
  dsimp only at there
  rw [nothing, Bool.not_false, Bool.true_or, if_pos rfl] at there
  cases there

/-- The registry has `elm/virtual-dom` 1.0.4: it is asked for, although 1.0.3 is listed and in the
cache, and cannot be had. -/
theorem downloadAllPackages_newer :
    browserApplication.type = .application ∧ browserApplication.Agrees ∧
      browserApplication.Closed
        ((browserWorld [⟨1, 0, 4⟩, ⟨1, 0, 3⟩]).dependencies browserPackages) ∧
      ¬ DownloadsListed (browserWorld [⟨1, 0, 4⟩, ⟨1, 0, 3⟩]) browserApplication
        browserPackages := by
  refine ⟨rfl, by decide, by decide, fun downloads => ?_⟩
  have fails : (downloadAllPackages (browserWorld [⟨1, 0, 4⟩, ⟨1, 0, 3⟩]) 3 browserApplication
      browserPackages).map Prod.snd = some false := by decide
  obtain ⟨⟨state, succeeds⟩, ran, result⟩ := Option.map_eq_some_iff.mp fails
  have works := (downloads.frame (fun p => browserPackages_listed) 3 state succeeds ran).1
  cases works.symm.trans result

/-- The registry has the listed version only. -/
theorem downloadAllPackages_iff_browser :
    browserApplication.type = .application ∧
      {p | ((browserWorld [⟨1, 0, 3⟩]).outcome browserPackages p).isSome = true}.Finite ∧
      (DownloadsListed (browserWorld [⟨1, 0, 3⟩]) browserApplication browserPackages ↔
        ((∀ p, browserApplication.ListsVersion p → cachePackageExists browserPackages p = true) →
          ∀ p, FailingSearch.ReachedFrom ((browserWorld [⟨1, 0, 3⟩]).next browserPackages)
              ((browserWorld [⟨1, 0, 3⟩]).entries browserApplication) p →
            SettledVersion (browserWorld [⟨1, 0, 3⟩]) browserApplication browserPackages p)) :=
  ⟨rfl, browserWorld_finite _, downloadAllPackages_iff rfl (browserWorld_finite _)⟩

end ElmWrap
