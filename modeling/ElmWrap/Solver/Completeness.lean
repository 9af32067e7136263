import ElmWrap.ElmJson.Formatter
import ElmWrap.Solver.Closed

/-!
# What the solver gets to see

The providers write into buffers of 128 places, leave out a dependency they
cannot read, and report no dependencies for a version whose `elm.json` cannot be
had; `elm_json_read` leaves out what is no dependency on a package. The solver sees
the whole problem exactly when none of this happens.
-/

namespace ElmWrap

open Lib (Json)

/-! ## The whole problem -/

/-- A dependency entry: the package name, as far as it is one, and the text of the constraint, as
far as it is a text. -/
abbrev SourceEntry := Option PackageName × Option String

/-- What a registry holds, before a provider reads it: the candidate versions of
a package, and the dependency entries of a version; `none` when the metadata of the version cannot
be had. -/
structure ElmSource where
  versions : PackageName → List PgVersion
  entries : PackageName → PgVersion → Option (List SourceEntry)

/-- The V1 registry, with the contents of the `elm.json` file of each version, in the cache and
after a download. -/
structure PgElmFiles where
  registry : Option Registry
  online : Bool
  cached : PackageName → String → Option (List Char)
  downloaded : PackageName → String → Option (List Char)

/-- The `elm.json` of a file that may be missing. -/
def readElmJson (file : Option (List Char)) : Option ElmJson :=
  file.bind fun file => (elmJsonRead file).map ElmJsonFile.elmJson

/-- What the provider gets of the files. -/
def PgElmFiles.env (files : PgElmFiles) : PgElmEnv where
  registry := files.registry
  online := files.online
  elmJsonRead name text := readElmJson (files.cached name text)
  elmJsonDownloaded name text := readElmJson (files.downloaded name text)

/-- The file that is read for a version. -/
def PgElmFiles.file (files : PgElmFiles) (name : PackageName) (version : PgVersion) :
    Option (List Char) :=
  let text := versionToString version
  if (readElmJson (files.cached name text)).isSome then files.cached name text
  else if files.online then files.downloaded name text
  else none

/-- A member of an object as an entry. -/
def memberEntry (member : String × Json) : SourceEntry :=
  (parsePackageName member.1, member.2.text?)

/-- What stands under `dependencies`. -/
def sourceEntries : Option Json → List SourceEntry
  | some (.object members) => members.map memberEntry
  | some (.array items) => items.map fun item => (none, item.text?)
  | _ => []

/-- The entries of the `elm.json` of a package. -/
def fileEntries (file : List Char) : Option (List SourceEntry) :=
  match elmJsonRead file, cjsonParse file with
  | some read, some json =>
    match read.elmJson.type with
    | .package => some (sourceEntries (getObjectItem json "dependencies"))
    | .application => none
  | _, _ => none

/-- The V1 registry with these files. -/
def PgElmFiles.source (files : PgElmFiles) : ElmSource where
  versions := files.env.versions
  entries name version := (files.file name version).bind fileEntries

/-- The V2 index; its candidate versions are the valid ones. -/
def V2Registry.source (registry : V2Registry) : ElmSource where
  versions := registry.validVersions
  entries name version := some ((registry.dependencies name version).map fun dep =>
    (parsePackageName dep.packageName, some dep.constraint))

/-- The entry as a package, where it has a name and a text. -/
def SourceEntry.package? (e : SourceEntry) : Option Package :=
  e.1.bind fun name => e.2.map fun text => ⟨name, text⟩

/-- The entries a provider gets. -/
def namedEntries (entries : List SourceEntry) : List Package :=
  entries.filterMap SourceEntry.package?

/-- The listing has of the source what the providers read. -/
structure ElmListing.ReadsFrom (L : ElmListing) (source : ElmSource) : Prop where
  versions : L.versions = source.versions
  entries : ∀ name v, L.entries name v = namedEntries ((source.entries name v).getD [])

theorem namedEntries_cons (e : SourceEntry) (entries : List SourceEntry) :
    namedEntries (e :: entries) = e.package?.toList ++ namedEntries entries := by
  unfold namedEntries
  rw [List.filterMap_cons]
  cases e.package? <;> rfl

/-- The loop of `elm_json_read` keeps the entries with a name and a text. -/
theorem readMembers_named {entries : Nat} {map read : PackageMap} {members : List (String × Json)}
    (done : readMembers entries map members = some read) :
    read.packages = map.packages ++ namedEntries (members.map memberEntry) := by
  induction members generalizing entries map with
  | nil =>
    cases done
    exact (List.append_nil _).symm
  | cons member rest ih =>
    obtain ⟨full_name, package⟩ := member
    rw [List.map_cons, namedEntries_cons]
    unfold readMembers at done
    split at done
    · cases done
    split at done
    · rename_i version
      have value : Json.text? (.string version) = some version := rfl
      unfold memberEntry SourceEntry.package?
      rw [value]
      split at done
      · cases done
      split at done
      · rename_i unnamed
        rw [ih done, unnamed]
        rfl
      · rename_i name named
        split at done
        · cases done
        · rename_i next added
          unfold packageMapAdd at added
          split at added
          · cases added
            rw [ih done, named, List.append_assoc]
            rfl
          · cases added
    · rename_i other
      have textless : package.text? = none := by
        cases package with
        | string version => exact absurd rfl (other version)
        | _ => rfl
      unfold memberEntry SourceEntry.package?
      rw [ih done, textless]
      cases parsePackageName full_name <;> rfl

theorem readMap_named {item : Option Json} {read : PackageMap} (done : readMap item = some read) :
    read.packages = namedEntries (sourceEntries item) := by
  unfold readMap at done
  split at done
  · exact readMembers_named done
  · rename_i other
    cases done
    unfold sourceEntries
    split
    · rename_i members
      exact absurd rfl (other members)
    · rename_i items
      have nothing : ∀ e ∈ items.map fun item => (none, item.text?),
          SourceEntry.package? e = none := by
        intro e member
        obtain ⟨_, -, rfl⟩ := List.mem_map.mp member
        rfl
      exact (List.filterMap_eq_nil_iff.mpr nothing).symm
    · rfl

/-- What the loop of the provider goes through, of a file. -/
theorem fileEntries_named {file : List Char} {read : ElmJsonFile}
    (done : elmJsonRead file = some read) :
    (match read.elmJson.type with
      | .package => (read.elmJson.maps .packageDependencies).packages
      | .application => []) = namedEntries ((fileEntries file).getD []) := by
  unfold fileEntries
  rw [done]
  unfold elmJsonRead at done
  split at done
  · cases done
  simp only [Option.bind_eq_bind, Option.bind_eq_some_iff] at done
  obtain ⟨json, parsed, type, -, done⟩ := done
  rw [parsed]
  cases type with
  | application =>
    obtain ⟨maps, -, same⟩ := Option.bind_eq_some_iff.mp done
    cases same
    rfl
  | package =>
    obtain ⟨maps, made, same⟩ := Option.bind_eq_some_iff.mp done
    cases same
    unfold readPackageMaps at made
    simp only [Option.bind_eq_bind, Option.bind_eq_some_iff] at made
    obtain ⟨deps, first, testDeps, -, same⟩ := made
    cases same
    exact readMap_named first

theorem PgElmFiles.elmJson_eq (files : PgElmFiles) (name : PackageName) (v : PgVersion) :
    files.env.elmJson name v = readElmJson (files.file name v) := by
  unfold PgElmEnv.elmJson PgElmFiles.file PgElmFiles.env
  dsimp only
  cases read : readElmJson (files.cached name (versionToString v)) with
  | some elmJson =>
    rw [Option.isSome_some, if_pos rfl, read]
  | none =>
    rw [Option.isSome_none, if_neg Bool.false_ne_true]
    dsimp only
    split <;> rfl

theorem PgElmFiles.readsFrom (files : PgElmFiles) :
    files.env.listing.ReadsFrom files.source where
  versions := rfl
  entries name v := by
    change files.env.entries name v = namedEntries (((files.file name v).bind fileEntries).getD [])
    unfold PgElmEnv.entries
    rw [files.elmJson_eq]
    cases files.file name v with
    | none => rfl
    | some file =>
      unfold readElmJson
      rw [Option.bind_some, Option.bind_some]
      cases read : elmJsonRead file with
      | none =>
        unfold fileEntries
        rw [read]
        rfl
      | some found => exact fileEntries_named read

theorem V2Registry.readsFrom (registry : V2Registry) :
    registry.listing.ReadsFrom registry.source where
  versions := rfl
  entries name v := by
    change v2Entries (registry.dependencies name v) = _
    simp only [V2Registry.source, Option.getD_some, namedEntries, List.filterMap_map, v2Entries,
      v2Named, List.map_filterMap]
    congr 1
    funext dep
    simp only [Function.comp, SourceEntry.package?]
    cases parsePackageName dep.packageName <;> rfl

/-- The entry has become this dependency. -/
def PgElmContext.Becomes (ctx : PgElmContext) (e : SourceEntry)
    (dep : PgDependency) : Prop :=
  ∃ name, e.1 = some name ∧ ctx.Named dep.1 name ∧ e.2.bind pgElmParseConstraint = some dep.2

/-- The provider shows the solver the whole problem: all root requirements, which
have every entry of the maps in use, all candidate versions of every package, and
all dependency entries of every candidate version. -/
structure SeesWhole (P : PgDependencyProvider PgElmContext) (source : ElmSource)
    (elmJson : ElmJson) (request : AddRequest) (strategy : SolverStrategy) : Prop where
  roots : ∀ ctx, rootsForStrategy elmJson request strategy = some ctx →
    RootsBuilt elmJson request strategy ctx ∧
      (P.getDependencies ctx pgElmRootPackageId pgElmRootVersion pgDependencyBuffer).2 =
        some ctx.rootDeps
  versions : ∀ ctx id name, ctx.Named id name →
    P.getVersions ctx id pgDecisionVersionBuffer = some (source.versions name)
  dependencies : ∀ ctx id name, ctx.Named id name → ∀ v ∈ source.versions name,
    ∃ entries ctx' deps, source.entries name v = some entries ∧
      P.getDependencies ctx id v pgDependencyBuffer = (ctx', some deps) ∧
      List.Forall₂ ctx'.Becomes entries deps

/-- Nothing exceeds a buffer, and every entry can be read. -/
structure Fits (source : ElmSource) (elmJson : ElmJson) (request : AddRequest)
    (strategy : SolverStrategy) : Prop where
  roots : (∀ m ∈ strategyMaps elmJson.type request strategy,
      ∀ p ∈ (elmJson.maps m.field).packages, m.rangeOf p.version ≠ none) →
    strategyEntryCount elmJson (strategyMaps elmJson.type request strategy) < pgDependencyBuffer
  versions : ∀ name, (source.versions name).length ≤ pgDecisionVersionBuffer
  dependencies : ∀ name, ∀ v ∈ source.versions name,
    ∃ entries, source.entries name v = some entries ∧ entries.length ≤ pgDependencyBuffer ∧
      ∀ e ∈ entries, e.1 ≠ none ∧ e.2.bind pgElmParseConstraint ≠ none

/-! ## Roots -/

/-- No range the solver reads from a text is empty. -/
theorem strategyMaps_nonempty {type : ElmProjectType} {request : AddRequest}
    {strategy : SolverStrategy} {m : StrategyMap} (used : m ∈ strategyMaps type request strategy)
    {text : String} {range : PgVersionRange} (read : m.rangeOf text = some range) :
    range.isEmpty = false := by
  have exact_ : ∀ {r}, exactRange text = some r → r.isEmpty = false := by
    intro r same
    obtain ⟨v, -, rfl⟩ := Option.map_eq_some_iff.mp same
    rfl
  have upgradable : ∀ {r}, upgradableRange text = some r → r.isEmpty = false := by
    intro r same
    obtain ⟨v, -, rfl⟩ := Option.map_eq_some_iff.mp same
    rfl
  have constraint : ∀ {r}, pgElmParseConstraint text = some r → r.isEmpty = false := by
    intro r same
    unfold pgElmParseConstraint versionParseConstraint at same
    split at same
    · split at same
      · cases same
      · cases same
        rfl
    · split at same
      · split at same
        · cases same
          rfl
        · cases same
      · cases same
  have readers : m.rangeOf = exactRange ∨ m.rangeOf = upgradableRange ∨
      m.rangeOf = pgElmParseConstraint := by
    have all : ∀ n ∈ strategyMaps type request strategy, n.rangeOf = exactRange ∨
        n.rangeOf = upgradableRange ∨ n.rangeOf = pgElmParseConstraint := by
      obtain ⟨name, target, test, upgrade, all⟩ := request
      cases type <;> cases strategy <;> cases test <;> cases all <;> simp [strategyMaps]
    exact all m used
  rcases readers with same | same | same
  · rw [same] at read
    exact exact_ read
  · rw [same] at read
    exact upgradable read
  · rw [same] at read
    exact constraint read

theorem pgElmAddRootDependency_some (ctx : PgElmContext) (id : PgPackageId)
    {range : PgVersionRange} (nonempty : range.isEmpty = false) :
    ∃ ctx', pgElmAddRootDependency ctx id range = some ctx' := by
  unfold pgElmAddRootDependency
  rw [nonempty]
  exact ⟨_, rfl⟩

theorem foldlM_some {α β : Type} {step : β → α → Option β} :
    ∀ (items : List α), (∀ item ∈ items, ∀ b, ∃ b', step b item = some b') →
      ∀ b, ∃ b', items.foldlM step b = some b' := by
  intro items
  induction items with
  | nil => intro _ b; exact ⟨b, rfl⟩
  | cons item rest ih =>
    intro steps b
    obtain ⟨next, first⟩ := steps item List.mem_cons_self b
    obtain ⟨last, others⟩ := ih (fun i on => steps i (List.mem_cons_of_mem _ on)) next
    exact ⟨last, by rw [List.foldlM_cons, first]; exact others⟩

/-- The roots of a strategy can be built exactly when every version text in its
maps can be read. -/
theorem rootsForStrategy_some_iff (elmJson : ElmJson) (request : AddRequest)
    (strategy : SolverStrategy) :
    (∃ ctx, rootsForStrategy elmJson request strategy = some ctx) ↔
      ∀ m ∈ strategyMaps elmJson.type request strategy,
        ∀ p ∈ (elmJson.maps m.field).packages, m.rangeOf p.version ≠ none := by
  constructor
  · intro ⟨ctx, built⟩ m used p member missing
    obtain ⟨range, read, -⟩ := (rootsForStrategy_built built).maps m used p member
    rw [read] at missing
    cases missing
  · intro readable
    have maps : ∀ ctx, ∃ ctx', buildRoots elmJson request strategy ctx = some ctx' := by
      intro ctx
      rw [buildRoots_eq]
      refine foldlM_some _ (fun m used => fun ctx => ?_) ctx
      refine foldlM_some _ (fun p member => fun ctx => ?_) ctx
      obtain ⟨range, read⟩ := Option.ne_none_iff_exists'.mp (readable m used p member)
      unfold solverAddRootDependency
      dsimp only
      rw [read]
      exact pgElmAddRootDependency_some _ _ (strategyMaps_nonempty used read)
    have requested : ∀ ctx, ∃ ctx', addRequested request strategy ctx = some ctx' := by
      intro ctx
      unfold addRequested
      refine pgElmAddRootDependency_some _ _ ?_
      unfold requestedRange
      split <;> rfl
    unfold rootsForStrategy
    split
    · obtain ⟨middle, first⟩ := requested pgElmContextNew
      obtain ⟨last, rest⟩ := maps middle
      exact ⟨last, by rw [first]; exact rest⟩
    · obtain ⟨middle, first⟩ := maps pgElmContextNew
      obtain ⟨last, rest⟩ := requested middle
      exact ⟨last, by rw [first]; exact rest⟩

/-! ## Versions and dependencies -/

/-- Every package has an id in some context. -/
theorem named_somewhere (name : PackageName) :
    ∃ (ctx : PgElmContext) (id : PgPackageId), ctx.Named id name :=
  ⟨_, _, (pgElmInternPackage_spec pgElmContextNew name).2.2⟩

/-- Copying keeps every entry exactly when there is room and every entry can be
read. -/
theorem copied_all_iff {ctx : PgElmContext} {entries : List SourceEntry} :
    List.Forall₂ (pgElmCopyDependencies pgDependencyBuffer ctx (namedEntries entries)).1.Becomes
        entries (pgElmCopyDependencies pgDependencyBuffer ctx (namedEntries entries)).2 ↔
      entries.length ≤ pgDependencyBuffer ∧
        ∀ e ∈ entries, e.1 ≠ none ∧ e.2.bind pgElmParseConstraint ≠ none := by
  have spec := (pgElmCopyDependencies_spec pgDependencyBuffer ctx (namedEntries entries)).2.2
  have room := pgElmCopyDependencies_length pgDependencyBuffer ctx (namedEntries entries)
  generalize pgElmCopyDependencies pgDependencyBuffer ctx (namedEntries entries) = copied at *
  obtain ⟨ctx', deps⟩ := copied
  dsimp only at spec room ⊢
  constructor
  · intro becomes
    refine ⟨by rw [becomes.length_eq]; exact room, fun e member => ?_⟩
    obtain ⟨dep, -, name, named, -, read⟩ := forall₂_left becomes member
    rw [named, read]
    exact ⟨Option.some_ne_none _, Option.some_ne_none _⟩
  · intro ⟨fits, read⟩
    have all : ∀ (entries : List SourceEntry),
        (∀ e ∈ entries, e.1 ≠ none ∧ e.2.bind pgElmParseConstraint ≠ none) →
        List.Forall₂ (fun e p => e.1 = some p.name ∧ e.2 = some p.version) entries
          (readable (namedEntries entries)) := by
      intro entries
      induction entries with
      | nil => intro _; exact .nil
      | cons e rest ih =>
        intro read
        obtain ⟨named, parsed⟩ := read e List.mem_cons_self
        obtain ⟨name, here⟩ := Option.ne_none_iff_exists'.mp named
        obtain ⟨range, bound⟩ := Option.ne_none_iff_exists'.mp parsed
        obtain ⟨text, there, accepted⟩ := Option.bind_eq_some_iff.mp bound
        have kept : readable (namedEntries (e :: rest)) =
            ⟨name, text⟩ :: readable (namedEntries rest) := by
          rw [namedEntries_cons, SourceEntry.package?, here, there]
          simp [readable, accepted]
        rw [kept]
        exact .cons ⟨here, there⟩ (ih fun e on => read e (List.mem_cons_of_mem _ on))
    have kept := all entries read
    rw [List.take_of_length_le (by rw [← kept.length_eq]; exact fits)] at spec
    have compose : ∀ {left : List SourceEntry} {middle : List Package}
        {right : List PgDependency},
        List.Forall₂ (fun e p => e.1 = some p.name ∧ e.2 = some p.version) left middle →
        List.Forall₂ ctx'.Reads middle right → List.Forall₂ ctx'.Becomes left right := by
      intro left middle right first
      induction first generalizing right with
      | nil => intro second; cases second; exact .nil
      | cons here _ ih =>
        intro second
        cases second with
        | cons reads rest =>
          refine .cons ⟨_, here.1, reads.1, ?_⟩ (ih rest)
          rw [here.2]
          exact reads.2
    exact compose kept spec

theorem ElmListing.getDependencies_named (L : ElmListing) {ctx : PgElmContext} {id : PgPackageId}
    {name : PackageName} (named : ctx.Named id name) (v : PgVersion) :
    L.getDependencies ctx id v pgDependencyBuffer =
      pgElmCopyDependencies pgDependencyBuffer ctx (L.entries name v) := by
  unfold ElmListing.getDependencies
  rw [if_neg (by decide), if_neg named.ne_root]
  rw [PgElmContext.Named] at named
  rw [named]

theorem ElmListing.getVersions_named (L : ElmListing) {ctx : PgElmContext} {id : PgPackageId}
    {name : PackageName} (named : ctx.Named id name) :
    L.getVersions ctx id pgDecisionVersionBuffer =
      (L.versions name).take pgDecisionVersionBuffer := by
  unfold ElmListing.getVersions
  rw [if_neg (by decide), if_neg named.ne_root]
  rw [PgElmContext.Named] at named
  rw [named]

/-- The solver sees the whole problem exactly when it fits. -/
theorem ElmListing.sees_iff {L : ElmListing} {source : ElmSource} (reads : L.ReadsFrom source)
    (elmJson : ElmJson) (request : AddRequest) (strategy : SolverStrategy) :
    SeesWhole L.provider source elmJson request strategy ↔
      Fits source elmJson request strategy := by
  have rootDeps : ∀ ctx : PgElmContext,
      (L.provider.getDependencies ctx pgElmRootPackageId pgElmRootVersion pgDependencyBuffer).2 =
        some (ctx.rootDeps.take pgDependencyBuffer) := by
    intro ctx
    rfl
  have copies : ∀ {ctx : PgElmContext} {id : PgPackageId} {name : PackageName} {v : PgVersion}
      {entries : List SourceEntry}, ctx.Named id name →
      source.entries name v = some entries →
      L.provider.getDependencies ctx id v pgDependencyBuffer =
        ((pgElmCopyDependencies pgDependencyBuffer ctx (namedEntries entries)).1,
          some (pgElmCopyDependencies pgDependencyBuffer ctx (namedEntries entries)).2) := by
    intro ctx id name v entries named here
    have list := reads.entries name v
    rw [here, Option.getD_some] at list
    simp only [ElmListing.provider, L.getDependencies_named named v, list]
  constructor
  · intro sees
    refine ⟨fun readable => ?_, fun name => ?_, fun name v member => ?_⟩
    · obtain ⟨ctx, built⟩ := (rootsForStrategy_some_iff elmJson request strategy).mpr readable
      obtain ⟨roots, reported⟩ := sees.roots ctx built
      rw [rootDeps] at reported
      have room := (List.take_eq_self_iff _).mp (Option.some.inj reported)
      rw [roots.length] at room
      omega
    · obtain ⟨ctx, id, named⟩ := named_somewhere name
      have listed := Option.some.inj (sees.versions ctx id name named)
      rw [L.getVersions_named named, reads.versions] at listed
      exact (List.take_eq_self_iff _).mp listed
    · obtain ⟨ctx, id, named⟩ := named_somewhere name
      obtain ⟨entries, ctx', deps, here, answer, becomes⟩ :=
        sees.dependencies ctx id name named v member
      rw [copies named here] at answer
      obtain ⟨first, second⟩ := Prod.mk.inj answer
      rw [← first, ← Option.some.inj second] at becomes
      exact ⟨entries, here, copied_all_iff.mp becomes⟩
  · intro fits
    refine ⟨fun ctx built => ?_, fun ctx id name named => ?_, fun ctx id name named v member => ?_⟩
    · have roots := rootsForStrategy_built built
      have room := fits.roots ((rootsForStrategy_some_iff elmJson request strategy).mp ⟨ctx, built⟩)
      refine ⟨roots, ?_⟩
      rw [rootDeps, (List.take_eq_self_iff _).mpr]
      rw [roots.length]
      omega
    · change some (L.getVersions ctx id pgDecisionVersionBuffer) = _
      rw [L.getVersions_named named, reads.versions,
        (List.take_eq_self_iff _).mpr (fits.versions name)]
    · obtain ⟨entries, here, whole⟩ := fits.dependencies name v member
      exact ⟨entries, _, _, here, copies named here, copied_all_iff.mpr whole⟩

/-- Through both wirings the solver sees the whole problem exactly when it fits. -/
theorem pgElmProviders_see_whole_iff (elmJson : ElmJson) (request : AddRequest)
    (strategy : SolverStrategy) :
    (∀ files : PgElmFiles,
      SeesWhole (pgElmMakeProvider files.env) files.source elmJson request strategy ↔
        Fits files.source elmJson request strategy) ∧
      ∀ registry : V2Registry,
        SeesWhole (pgElmV2MakeProvider registry) registry.source elmJson request strategy ↔
          Fits registry.source elmJson request strategy := by
  refine ⟨fun files => ?_, fun registry => ?_⟩
  · rw [pgElmMakeProvider_eq]
    exact ElmListing.sees_iff files.readsFrom elmJson request strategy
  · rw [pgElmV2MakeProvider_eq]
    exact ElmListing.sees_iff registry.readsFrom elmJson request strategy

/-- The packages of the sample registry, whose `elm.json` files are gone. -/
def sampleWithoutMetadata : PgElmFiles where
  registry := sampleState.registry
  online := false
  cached _ _ := none
  downloaded _ _ := none

/-- Without its `elm.json`, `elm/http` has no dependencies. -/
theorem pgElmProvider_drops_dependencies :
    ¬ ∀ (files : PgElmFiles) (elmJson : ElmJson) (request : AddRequest)
      (strategy : SolverStrategy),
      SeesWhole (pgElmMakeProvider files.env) files.source elmJson request strategy := by
  intro claim
  have sees := claim sampleWithoutMetadata (sampleApp none none) installHttp .exactAll
  obtain ⟨ctx, id, named⟩ := named_somewhere elmHttpPackage
  obtain ⟨entries, -, -, here, -⟩ :=
    sees.dependencies ctx id elmHttpPackage named ⟨2, 0, 0⟩ (by decide)
  have gone : sampleWithoutMetadata.source.entries elmHttpPackage ⟨2, 0, 0⟩ = none := rfl
  rw [gone] at here
  cases here

end ElmWrap
