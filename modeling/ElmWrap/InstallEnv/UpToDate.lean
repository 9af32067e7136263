import ElmWrap.InstallEnv.EnsureRegistry

/-!
# When a run is up to date

The three files are linked: `registry.dat` covers as many publications as its
counter says, it covers those of `.since-count`, and it covers those the `.etag`
stands for. Every run keeps the first two links. The third one is lost where the
new `ETag` is written although `registry.dat` has not been, and it says nothing
about a `registry.dat` that is gone; in both cases a later 304 hides publications.
-/

namespace ElmWrap

open Lib Lib.Binary

/-! ## Covered publications -/

/-- The registry lists every publication under an accepted name. -/
def Registry.Covers (registry : Registry) (published : List Publication) : Prop :=
  ∀ p ∈ published.filterMap Publication.read, registry.Has p.1.author p.1.project p.2

instance (registry : Registry) (published : List Publication) :
    Decidable (registry.Covers published) :=
  inferInstanceAs (Decidable (∀ p ∈ _, _))

variable {registry : Registry} {server : PackageServer} {run : EnsureRun} {cache : RegistryCache}

theorem Registry.Covers.sublist {few many : List Publication} (covers : registry.Covers many)
    (fewer : few.Sublist many) : registry.Covers few :=
  fun p on => covers p ((fewer.filterMap Publication.read).subset on)

/-- What the merges do to a registry: they only add versions, and count none. -/
structure Registry.Extends (old new : Registry) : Prop where
  wellFormed : old.WellFormed → new.WellFormed
  populated : old.WellFormed → old.Populated → new.Populated
  count : new.sinceCount = old.sinceCount
  has : old.WellFormed → ∀ author name version, old.Has author name version →
    new.Has author name version

namespace Registry.Extends

variable {old mid new : Registry}

theorem refl (registry : Registry) : registry.Extends registry :=
  ⟨id, fun _ => id, rfl, fun _ _ _ _ => id⟩

theorem trans (first : old.Extends mid) (second : mid.Extends new) : old.Extends new where
  wellFormed good := second.wellFormed (first.wellFormed good)
  populated good filled := second.populated (first.wellFormed good) (first.populated good filled)
  count := second.count.trans first.count
  has good _ _ _ has := second.has (first.wellFormed good) _ _ _ (first.has good _ _ _ has)

theorem add (registry : Registry) (author name : String) (version : Version) :
    registry.Extends (registryAddVersionEx registry author name version false).registry where
  wellFormed good := good.addVersionEx _ _ _ _
  populated _ filled author' name' bare := filled author' name' (bare_addVersionEx.mp bare).1
  count := registryAddVersionEx_uncounted registry author name version
  has _ _ _ _ has := has_addVersionEx.mpr (Or.inl has)

theorem sort (registry : Registry) : registry.Extends (registrySortEntries registry) where
  wellFormed good := good.sorted
  populated good filled author name bare := by
    apply filled author name
    unfold Bare at bare ⊢
    rw [versions_sort good] at bare
    exact bare
  count := by rw [registrySortEntries_eq]
  has good author name version has := by
    unfold Has at has ⊢
    rw [versions_sort good]
    exact has

theorem covers (grown : old.Extends new) (good : old.WellFormed) {published : List Publication}
    (covers : old.Covers published) : new.Covers published :=
  fun p on => grown.has good _ _ _ (covers p on)

end Registry.Extends

theorem registryMergeDat_extends (registry : Registry) (file : Option Bytes) :
    registry.Extends (registryMergeDat registry file).1 := by
  unfold registryMergeDat
  split
  · exact Registry.Extends.refl registry
  · rename_i other _
    obtain ⟨grown, ok⟩ := Registry.mergeEntries_induction (P := registry.Extends)
      (fun _ _ _ _ grown => grown.trans (Registry.Extends.add _ _ _ _)) other.entries
      (Registry.Extends.refl registry)
    split
    · rename_i merged result
      rw [result] at grown
      exact grown.trans (Registry.Extends.sort merged)
    · rename_i merged result
      rw [result] at grown
      exact grown

theorem foldl_extends {α : Type} {step : Registry → α → Registry}
    (grows : ∀ (registry : Registry) (a : α), registry.Extends (step registry a)) (items : List α)
    (registry : Registry) : registry.Extends (items.foldl step registry) := by
  induction items generalizing registry with
  | nil => exact Registry.Extends.refl registry
  | cons a rest ih => exact (grows registry a).trans (ih (step registry a))

theorem mergeLamderaRegistry_extends (registry : Registry) (lamdera : Option V2Registry) :
    registry.Extends (mergeLamderaRegistry registry lamdera) := by
  unfold mergeLamderaRegistry
  cases lamdera with
  | none => exact Registry.Extends.refl registry
  | some index =>
    apply Registry.Extends.trans _ (Registry.Extends.sort _)
    apply foldl_extends
    intro registry entry
    apply foldl_extends
    intro registry v
    exact Registry.Extends.add registry _ _ _

/-! ## Loading the answers -/

/-- A full answer read into a registry adds what has been published. -/
theorem parseAllPackagesJson_covers {published : List Publication} {json : Json}
    (document : AllPackagesDocument published json) (countable : published.length ≤ sizeMax)
    (good : registry.WellFormed) (filled : registry.Populated) :
    ∃ loaded, parseAllPackagesJson (some json) registry = (loaded, true) ∧
      loaded.WellFormed ∧ loaded.Populated ∧ loaded.sinceCount = published.length ∧
      loaded.Covers published := by
  rcases parseAllPackagesJson_eq json registry with ⟨loaded, fits⟩ | ⟨_, _, _, beyond⟩
  · rw [document.count] at loaded fits
    have wellFormed := (good.readPackages json.children).setCount fits
    refine ⟨_, loaded, wellFormed.sorted, ?_, ?_, ?_⟩
    · apply (Registry.Extends.sort _).populated wellFormed
      intro author name bare
      rcases Registry.bare_readPackages bare with old | ⟨package, member, opens⟩
      · exact filled author name old
      · exact document.not_opens member author name opens
    · rw [registrySortEntries_eq]
    · intro p on
      apply (Registry.Extends.sort _).has wellFormed
      exact Registry.has_readPackages.mpr
        (Or.inr ⟨p, (document.lists p).mpr on, rfl, rfl, rfl⟩)
  · rw [document.count] at beyond
    omega

/-- An incremental answer adds what came after the publications that are known. -/
theorem parseSinceResponse_covers {published : List Publication} {known : Nat} {json : Json}
    (document : SinceDocument (published.drop known) json) (countable : published.length ≤ sizeMax)
    (seen : known ≤ published.length) (good : registry.WellFormed) (filled : registry.Populated)
    (count : registry.sinceCount = known) (covers : registry.Covers (published.take known)) :
    ∃ updated, parseSinceResponse (some json) registry = (updated, true) ∧
      updated.WellFormed ∧ updated.Populated ∧ updated.sinceCount = published.length ∧
      updated.Covers published := by
  obtain ⟨texts, rfl, listed⟩ := document
  have lengths : (texts.map Json.string).length = published.length - known := by
    rw [List.length_map, listed.length_eq, List.length_map, List.length_drop]
  have total : registry.sinceCount + (texts.map Json.string).length = published.length := by
    omega
  refine ⟨_, ?_, (good.addAll (sinceVersions (texts.map Json.string))).setCount
    (total.symm ▸ countable), ?_, total, ?_⟩
  · rw [parseSinceResponse_eq, if_neg]
    intro beyond
    omega
  · intro author name bare
    exact filled author name (Registry.bare_addAll.mp bare).1
  · intro p on
    apply Registry.has_addAll.mpr
    rw [← List.take_append_drop known published, List.filterMap_append] at on
    rcases List.mem_append.mp on with old | new
    · exact Or.inl (covers p old)
    · exact Or.inr ⟨p, (SinceDocument.lists listed p).mpr new, rfl, rfl, rfl⟩

/-! ## Linked files -/

/-- A registry that covers as many publications as it counts. -/
structure Registry.Records (registry : Registry) (published : List Publication) (known : Nat) :
    Prop where
  wellFormed : registry.WellFormed
  populated : registry.Populated
  count : registry.sinceCount = known
  seen : known ≤ published.length
  covers : registry.Covers (published.take known)

theorem Registry.Records.full {published : List Publication} (wellFormed : registry.WellFormed)
    (populated : registry.Populated) (count : registry.sinceCount = published.length)
    (covers : registry.Covers published) :
    registry.Records published published.length :=
  ⟨wellFormed, populated, count, Nat.le_refl _, by rw [List.take_length]; exact covers⟩

theorem Registry.Records.written {published : List Publication} {known : Nat}
    (records : registry.Records published known) : (registryDatWrite registry).isSome = true :=
  (registryDatWrite_isSome registry).mpr
    ((Registry.populated_iff records.wellFormed).mp records.populated)

/-- What the three files say about the publications fits together. -/
structure Linked (server : PackageServer) (published : List Publication)
    (cache : RegistryCache) : Prop where
  dat : ∀ stored, cache.registryDat = some stored → stored.Records published stored.sinceCount
  sinceCount : ∀ count, cache.sinceCount = some count → count ≤ published.length ∧
    ∀ stored, cache.registryDat = some stored → stored.Covers (published.take count)
  etag : ∀ tag, cache.etag = some tag → ∃ old, old <+: published ∧ server.etag old = some tag ∧
    ∀ stored, cache.registryDat = some stored → stored.Covers old

namespace Linked

variable {server : PackageServer} {published : List Publication} {cache : RegistryCache}

theorem empty : Linked server [] RegistryCache.empty where
  dat := by
    intro stored none
    cases none
  sinceCount := by
    intro count none
    cases none
  etag := by
    intro tag none
    cases none

/-- More publications leave the links alone. -/
theorem later (linked : Linked server published cache) {now : List Publication}
    (grown : published <+: now) : Linked server now cache := by
  have taken : ∀ count, count ≤ published.length → now.take count = published.take count := by
    intro count seen
    obtain ⟨new, rfl⟩ := grown
    exact List.take_append_of_le_length seen
  refine ⟨?_, ?_, ?_⟩
  · intro stored present
    have records := linked.dat stored present
    exact ⟨records.wellFormed, records.populated, rfl, records.seen.trans grown.length_le,
      by rw [taken _ records.seen]; exact records.covers⟩
  · intro count present
    obtain ⟨seen, covers⟩ := linked.sinceCount count present
    exact ⟨seen.trans grown.length_le, by rw [taken _ seen]; exact covers⟩
  · intro tag present
    obtain ⟨old, front, named, covers⟩ := linked.etag tag present
    exact ⟨old, front.trans grown, named, covers⟩

/-- So does the loss of files. -/
theorem found (linked : Linked server published cache) (run : EnsureRun) :
    Linked server published (run.found cache) := by
  have dat : ∀ stored, (run.found cache).registryDat = some stored →
      cache.registryDat = some stored := by
    intro stored present
    unfold EnsureRun.found at present
    dsimp only at present
    split at present
    · cases present
    · exact present
  refine ⟨fun stored present => linked.dat stored (dat stored present), ?_, ?_⟩
  · intro count present
    unfold EnsureRun.found at present
    dsimp only at present
    split at present
    · cases present
    · obtain ⟨seen, covers⟩ := linked.sinceCount count present
      exact ⟨seen, fun stored there => covers stored (dat stored there)⟩
  · intro tag present
    unfold EnsureRun.found at present
    dsimp only at present
    split at present
    · cases present
    · obtain ⟨old, front, named, covers⟩ := linked.etag tag present
      exact ⟨old, front, named, fun stored there => covers stored (dat stored there)⟩

/-- A registry that covers what the one in the file covered can take its place. -/
theorem setDat (linked : Linked server published cache)
    (records : registry.Records published registry.sinceCount)
    (covers : ∀ few, few <+: published →
      (∀ stored, cache.registryDat = some stored → stored.Covers few) → registry.Covers few) :
    Linked server published { cache with registryDat := some registry } where
  dat := by
    intro stored same
    cases same
    exact records
  sinceCount := by
    intro count present
    obtain ⟨seen, covered⟩ := linked.sinceCount count present
    refine ⟨seen, ?_⟩
    intro stored same
    cases same
    exact covers _ (List.take_prefix _ _) covered
  etag := by
    intro tag present
    obtain ⟨old, front, named, covered⟩ := linked.etag tag present
    refine ⟨old, front, named, ?_⟩
    intro stored same
    cases same
    exact covers old front covered

theorem setSinceCount (linked : Linked server published cache) {count : Nat}
    (seen : count ≤ published.length)
    (covers : ∀ stored, cache.registryDat = some stored → stored.Covers (published.take count)) :
    Linked server published { cache with sinceCount := some count } where
  dat := linked.dat
  sinceCount := by
    intro other same
    cases same
    exact ⟨seen, covers⟩
  etag := linked.etag

theorem writeEtag (linked : Linked server published cache) {tag : String} {fails : Bool}
    (named : fails = false → ∃ old, old <+: published ∧ server.etag old = some tag ∧
      ∀ stored, cache.registryDat = some stored → stored.Covers old) :
    Linked server published (cache.writeEtag tag fails) := by
  unfold RegistryCache.writeEtag
  split
  · exact linked
  · rename_i works
    simp only [Bool.or_eq_true, decide_eq_true_eq, not_or, Bool.not_eq_true] at works
    refine ⟨linked.dat, linked.sinceCount, ?_⟩
    intro other same
    cases same
    exact named works.1

/-- The registry and its count are written, or the files stay as they are. -/
theorem cacheRegistry (linked : Linked server published cache)
    (records : registry.Records published published.length) (run : EnsureRun) :
    Linked server published (ElmWrap.cacheRegistry run registry cache) ∧
      (run.datFails = true ∧ ElmWrap.cacheRegistry run registry cache = cache ∨
        (ElmWrap.cacheRegistry run registry cache).registryDat = some registry) := by
  have covers : registry.Covers published := by
    have all := records.covers
    rw [List.take_length] at all
    exact all
  unfold ElmWrap.cacheRegistry RegistryCache.writeDat
  rw [records.written]
  by_cases fails : run.datFails = true
  · rw [if_pos (by simp [fails])]
    exact ⟨linked, Or.inl ⟨fails, rfl⟩⟩
  · rw [if_neg (by simp [fails])]
    dsimp only
    have stored := linked.setDat (records.count.symm ▸ records) fun few front _ =>
      covers.sublist front.sublist
    unfold RegistryCache.writeSinceCount
    split
    · exact ⟨stored, Or.inr rfl⟩
    · refine ⟨stored.setSinceCount (records.count ▸ Nat.le_refl _) ?_, Or.inr rfl⟩
      intro other same
      cases same
      exact covers.sublist (List.take_sublist _ _)

end Linked

/-! ## The parts of a run -/

/-- `known_version_count` after loading. -/
def RegistryCache.knownCount (cache : RegistryCache) : Nat :=
  match cache.registryDat with
  | none => 0
  | some stored => cache.sinceCount.getD stored.sinceCount

/-- The registry covers what the stored `ETag` stands for. -/
def Tagged (server : PackageServer) (published : List Publication) (cache : RegistryCache)
    (registry : Registry) : Prop :=
  ∀ tag, cache.etag = some tag → cache.registryDat ≠ none →
    ∃ old, old <+: published ∧ server.etag old = some tag ∧ registry.Covers old

theorem loadRegistry_spec (linked : Linked server run.published cache) :
    ∃ registry cache', loadRegistry run cache = (registry, cache.knownCount, cache') ∧
      registry.Records run.published cache.knownCount ∧
      Linked server run.published cache' ∧ Tagged server run.published cache' registry ∧
      (∀ stored, cache'.registryDat = some stored →
        stored.Covers (run.published.take cache.knownCount)) ∧
      cache'.etag = cache.etag ∧ (cache'.registryDat = none ↔ cache.registryDat = none) := by
  unfold loadRegistry RegistryCache.knownCount
  cases present : cache.registryDat with
  | none =>
    refine ⟨registryCreate, cache, rfl, ⟨Registry.WellFormed.create, ?_, rfl, Nat.zero_le _, ?_⟩,
      linked, ?_, ?_, rfl, by rw [present]⟩
    · intro author name bare
      cases bare
    · intro p on
      simp at on
    · intro tag _ there
      exact absurd present there
    · intro stored there
      rw [present] at there
      cases there
  | some stored =>
    have records := linked.dat stored present
    dsimp only
    generalize merged_eq : mergeLamderaRegistry (registryMergeDat (registrySortEntries stored)
      run.localDev).1 run.lamdera = merged
    have grown : stored.Extends merged := merged_eq ▸
      ((Registry.Extends.sort stored).trans (registryMergeDat_extends _ _)).trans
        (mergeLamderaRegistry_extends _ _)
    have good := grown.wellFormed records.wellFormed
    have filled := grown.populated records.wellFormed records.populated
    have count := grown.count
    have tagged : ∀ registry : Registry, merged.entries = registry.entries →
        ∀ cache' : RegistryCache, cache'.etag = cache.etag →
        Tagged server run.published cache' registry := by
      intro registry same cache' kept tag there _
      rw [kept] at there
      obtain ⟨old, front, named, covers⟩ := linked.etag tag there
      refine ⟨old, front, named, fun p on => ?_⟩
      exact (Registry.has_of_entries same).mp
        (grown.covers records.wellFormed (covers stored present) p on)
    have asStored : merged.Records run.published stored.sinceCount :=
      ⟨good, filled, count, records.seen, grown.covers records.wellFormed records.covers⟩
    have inFile : ∀ known, stored.Covers (run.published.take known) → ∀ other,
        cache.registryDat = some other → other.Covers (run.published.take known) := by
      intro known covers other there
      rw [present] at there
      cases there
      exact covers
    cases counter : cache.sinceCount with
    | none =>
      exact ⟨merged, cache, rfl, asStored, linked, tagged merged rfl cache rfl,
        inFile _ records.covers, rfl, by rw [present]⟩
    | some canonical =>
      obtain ⟨seen, covered⟩ := linked.sinceCount canonical counter
      dsimp only
      rw [Option.getD_some]
      by_cases same : canonical = merged.sinceCount
      · have known : stored.sinceCount = canonical := by rw [same, count]
        rw [if_pos same, known]
        exact ⟨merged, cache, rfl, known ▸ asStored, linked, tagged merged rfl cache rfl,
          inFile _ (covered stored present), rfl, by rw [present]⟩
      · rw [if_neg same]
        have repaired : Registry.Records { merged with sinceCount := canonical }
            run.published canonical :=
          ⟨good.setCount (seen.trans run.countable), filled, rfl, seen,
            grown.covers records.wellFormed (covered stored present)⟩
        -- the repair writes a registry that covers what the file covered
        have rewritten := linked.setDat repaired fun few _ covers =>
          grown.covers records.wellFormed (covers stored present)
        have written := repaired.written
        unfold RegistryCache.writeDat
        rw [written]
        by_cases fails : run.repairFails = true
        · rw [if_pos (by simp [fails])]
          exact ⟨_, cache, rfl, repaired, linked, tagged _ rfl cache rfl,
            inFile _ (covered stored present), rfl, by rw [present]⟩
        · rw [if_neg (by simp [fails])]
          refine ⟨_, _, rfl, repaired, rewritten, tagged _ rfl _ rfl, ?_, rfl, by simp⟩
          intro other same
          cases same
          exact repaired.covers

/-- The registry that has just been read covers everything; the files stay linked
unless the new `ETag` is written over an old `registry.dat`. -/
theorem Linked.record (linked : Linked server run.published cache)
    (records : registry.Records run.published run.published.length) {tag : String}
    (current : server.etag run.published = some tag)
    (keeps : run.datFails = true → run.etagFails = true ∨ cache.registryDat = none) :
    Linked server run.published ((ElmWrap.cacheRegistry run registry cache).writeEtag tag
      run.etagFails) := by
  obtain ⟨written, outcome⟩ := linked.cacheRegistry records run
  apply written.writeEtag
  intro works
  refine ⟨run.published, List.prefix_refl _, current, ?_⟩
  intro stored present
  rcases outcome with ⟨fails, same⟩ | replaced
  · rw [same] at present
    rcases keeps fails with etagFails | gone
    · rw [etagFails] at works
      cases works
    · rw [gone] at present
      cases present
  · rw [replaced] at present
    cases present
    have all := records.covers
    rw [List.take_length] at all
    exact all

theorem installEnvFetchRegistry_spec {known : Nat} (linked : Linked server run.published cache)
    (records : registry.Records run.published known)
    (tagged : Tagged server run.published cache registry)
    (keeps : run.datFails = true → run.getFails = false → server.etag run.published ≠ none →
      cache.etag ≠ server.etag run.published →
      run.etagFails = true ∨ cache.registryDat = none) :
    Linked server run.published (installEnvFetchRegistry server run registry cache).cache ∧
      (installEnvFetchRegistry server run registry cache).registry.WellFormed ∧
      ((installEnvFetchRegistry server run registry cache).ok = true →
        (cache.registryDat = none → server.etag run.published ≠ none →
          cache.etag ≠ server.etag run.published) →
        (installEnvFetchRegistry server run registry cache).registry.Covers run.published) := by
  unfold installEnvFetchRegistry
  dsimp only
  by_cases fails : run.getFails = true
  · rw [if_pos fails]
    exact ⟨linked, records.wellFormed, fun ok => by cases ok⟩
  rw [if_neg fails]
  by_cases modified : (cache.etag.isSome && decide (server.etag run.published = cache.etag)) = true
  · rw [if_pos modified]
    simp only [Bool.and_eq_true, decide_eq_true_eq] at modified
    obtain ⟨present, same⟩ := modified
    obtain ⟨tag, there⟩ := Option.isSome_iff_exists.mp present
    have current : server.etag run.published = some tag := same.trans there
    -- the stored tag is the one of the current list
    have covers : (cache.registryDat = none → server.etag run.published ≠ none →
        cache.etag ≠ server.etag run.published) → registry.Covers run.published := by
      intro sighted
      have stored : cache.registryDat ≠ none := fun gone =>
        sighted gone (by rw [current]; exact Option.some_ne_none tag) same.symm
      obtain ⟨old, front, named, covers⟩ := tagged tag there stored
      have whole := server.etag_names old run.published front (named.trans current.symm)
        (by rw [named]; exact Option.some_ne_none tag)
      exact whole ▸ covers
    have again : Linked server run.published (cache.writeEtag tag run.etagFails) :=
      linked.writeEtag fun _ => linked.etag tag there
    simp only [current] at covers ⊢
    split
    · exact ⟨again, records.wellFormed, fun _ => covers⟩
    · exact ⟨linked, records.wellFormed, fun _ => covers⟩
  · rw [if_neg modified]
    obtain ⟨loaded, read, good, filled, count, covers⟩ := parseAllPackagesJson_covers
      (server.allPackages_document run.published) run.countable records.wellFormed
      records.populated
    rw [read]
    dsimp only
    have grown := Registry.Extends.sort loaded
    have full := Registry.Records.full (grown.wellFormed good) (grown.populated good filled)
      (grown.count.trans count) (grown.covers good covers)
    have all := grown.covers good covers
    cases current : server.etag run.published with
    | none => exact ⟨(linked.cacheRegistry full run).1, full.wellFormed, fun _ _ => all⟩
    | some tag =>
      refine ⟨linked.record full current ?_, full.wellFormed, fun _ _ => all⟩
      intro datFails
      apply keeps datFails (Bool.eq_false_iff.mpr fails)
      · rw [current]
        exact Option.some_ne_none tag
      · intro same
        apply modified
        simp [same, current]

theorem cacheRegistry_etag (run : EnsureRun) (registry : Registry) (cache : RegistryCache) :
    (cacheRegistry run registry cache).etag = cache.etag := by
  unfold cacheRegistry RegistryCache.writeDat RegistryCache.writeSinceCount
  by_cases fails : (run.datFails || !(registryDatWrite registry).isSome) = true
  · rw [if_pos fails]
  · rw [if_neg fails]
    dsimp only
    split
    · exact rfl
    · exact rfl

theorem updateSince_spec {known : Nat} {etag : Option String}
    (linked : Linked server run.published cache) (records : registry.Records run.published known)
    (inFile : ∀ stored, cache.registryDat = some stored → stored.Covers (run.published.take known))
    (named : etag = cache.etag ∨ etag = server.etag run.published)
    (keeps : run.datFails = true → run.getFails = false → known < run.published.length →
      etag ≠ none → etag ≠ cache.etag → run.etagFails = true) :
    Linked server run.published (updateSince server run registry known etag cache).cache ∧
      (updateSince server run registry known etag cache).registry.WellFormed ∧
      (run.getFails = false →
        (updateSince server run registry known etag cache).registry.Covers run.published) := by
  unfold updateSince
  by_cases fails : run.getFails = true
  · rw [if_pos fails]
    refine ⟨linked, records.wellFormed, ?_⟩
    intro answered
    rw [fails] at answered
    cases answered
  rw [if_neg fails]
  obtain ⟨updated, read, good, filled, count, covers⟩ := parseSinceResponse_covers
    (server.since_document run.published known) run.countable records.seen records.wellFormed
    records.populated records.count records.covers
  rw [read]
  dsimp only
  have grown := Registry.Extends.sort updated
  have full := Registry.Records.full (grown.wellFormed good) (grown.populated good filled)
    (grown.count.trans count) (grown.covers good covers)
  by_cases new : updated.sinceCount > known
  · rw [if_pos new]
    dsimp only
    have written := (linked.cacheRegistry full run).1
    cases etag with
    | none => exact ⟨written, full.wellFormed, fun _ => grown.covers good covers⟩
    | some tag =>
      refine ⟨?_, full.wellFormed, fun _ => grown.covers good covers⟩
      dsimp only
      by_cases old : some tag = cache.etag
      · exact written.writeEtag fun _ =>
          written.etag tag ((cacheRegistry_etag run _ cache).trans old.symm)
      · apply linked.record full (named.resolve_left old).symm
        intro datFails
        exact Or.inl (keeps datFails (Bool.eq_false_iff.mpr fails) (by omega)
          (Option.some_ne_none tag) old)
  · rw [if_neg new]
    dsimp only
    -- nothing is new, so the file covers everything
    have seen := records.seen
    have whole : known = run.published.length := by omega
    rw [whole, List.take_length] at inFile
    cases etag with
    | none => exact ⟨linked, good, fun _ => covers⟩
    | some tag =>
      refine ⟨?_, good, fun _ => covers⟩
      apply linked.writeEtag
      intro _
      rcases named with old | current
      · exact linked.etag tag old.symm
      · exact ⟨run.published, List.prefix_refl _, current.symm, inFile⟩

theorem installEnvUpdateRegistry_spec {known : Nat} (linked : Linked server run.published cache)
    (records : registry.Records run.published known)
    (inFile : ∀ stored, cache.registryDat = some stored → stored.Covers (run.published.take known))
    (tagged : Tagged server run.published cache registry) (present : cache.registryDat ≠ none)
    (keeps : run.datFails = true → run.getFails = false → run.headFails = false →
      known < run.published.length → cache.etag ≠ none → server.etag run.published ≠ none →
      cache.etag ≠ server.etag run.published → run.etagFails = true) :
    Linked server run.published (installEnvUpdateRegistry server run registry known cache).cache ∧
      (installEnvUpdateRegistry server run registry known cache).registry.WellFormed ∧
      (run.getFails = false →
        (installEnvUpdateRegistry server run registry known cache).registry.Covers
          run.published) := by
  unfold installEnvUpdateRegistry
  cases stored : cache.etag with
  | none =>
    apply updateSince_spec linked records inFile (Or.inl stored.symm)
    intro _ _ _ some _
    exact absurd rfl some
  | some etag =>
    dsimp only
    by_cases silent : (decide (etag = "") || run.headFails) = true
    · rw [if_pos silent]
      exact updateSince_spec linked records inFile (Or.inl stored.symm)
        fun _ _ _ _ other => absurd stored.symm other
    rw [if_neg silent]
    simp only [Bool.or_eq_true, decide_eq_true_eq, not_or, Bool.not_eq_true] at silent
    by_cases same : server.etag run.published = some etag
    · rw [if_pos same]
      obtain ⟨old, front, named, covers⟩ := tagged etag stored present
      have whole := server.etag_names old run.published front (named.trans same.symm)
        (by rw [named]; exact Option.some_ne_none etag)
      have again : Linked server run.published (cache.writeEtag etag run.etagFails) :=
        linked.writeEtag fun _ => linked.etag etag stored
      split
      · exact ⟨again, records.wellFormed, fun _ => whole ▸ covers⟩
      · exact ⟨linked, records.wellFormed, fun _ => whole ▸ covers⟩
    · rw [if_neg same]
      cases current : server.etag run.published with
      | none =>
        exact updateSince_spec linked records inFile (Or.inl stored.symm)
          fun _ _ _ _ other => absurd stored.symm other
      | some tag =>
        apply updateSince_spec linked records inFile (Or.inr current.symm)
        intro datFails answered new _ other
        apply keeps datFails answered silent.2 new
        · rw [stored]
          exact Option.some_ne_none etag
        · rw [current]
          exact Option.some_ne_none tag
        · intro eq
          exact other (eq.trans current).symm

/-! ## Runs -/

/-- The run learns something new, cannot write it to the `registry.dat` it has found,
and writes the new `ETag` nevertheless. -/
def EnsureRun.Forgets (server : PackageServer) (run : EnsureRun) (cache : RegistryCache) : Prop :=
  let found := run.found cache
  run.offline = false ∧ run.getFails = false ∧ run.datFails = true ∧ run.etagFails = false ∧
    found.registryDat ≠ none ∧ server.etag run.published ≠ none ∧
    found.etag ≠ server.etag run.published ∧
    (found.knownCount = 0 ∨
      run.skipRegistryUpdate = false ∧ run.headFails = false ∧ found.etag ≠ none ∧
        found.knownCount < run.published.length)

/-- The run finds no `registry.dat`, but the `ETag` of the current list. -/
def EnsureRun.Blind (server : PackageServer) (run : EnsureRun) (cache : RegistryCache) : Prop :=
  let found := run.found cache
  run.offline = false ∧ run.getFails = false ∧ found.registryDat = none ∧
    server.etag run.published ≠ none ∧ found.etag = server.etag run.published

/-- The run is online, and asks the server and gets its answers. -/
def EnsureRun.Answered (run : EnsureRun) : Prop :=
  run.offline = false ∧ run.skipRegistryUpdate = false ∧ run.getFails = false

theorem installEnvEnsureV1Registry_spec (linked : Linked server run.published cache)
    (kept : ¬ run.Forgets server cache) :
    Linked server run.published (installEnvEnsureV1Registry server run cache).cache ∧
      (¬ run.Blind server cache → run.Answered →
        (installEnvEnsureV1Registry server run cache).ok = true →
        (installEnvEnsureV1Registry server run cache).registry.Covers run.published) := by
  obtain ⟨registry, files, loaded, records, filesLinked, tagged, inFile, etag, dat⟩ :=
    loadRegistry_spec (linked.found run)
  unfold installEnvEnsureV1Registry
  rw [loaded]
  dsimp only
  by_cases offline : run.offline = true
  · rw [if_pos offline]
    refine ⟨filesLinked, ?_⟩
    intro _ answered
    rw [answered.1] at offline
    cases offline
  rw [if_neg offline]
  have online : run.offline = false := Bool.eq_false_iff.mpr offline
  by_cases unknown : (run.found cache).knownCount = 0
  · rw [if_pos unknown]
    obtain ⟨recorded, good, covers⟩ := installEnvFetchRegistry_spec filesLinked records tagged (by
      intro datFails answered tagNow other
      by_contra neither
      simp only [not_or, Bool.not_eq_true] at neither
      exact kept ⟨online, answered, datFails, neither.1, fun gone => neither.2 (dat.mpr gone),
        tagNow, etag ▸ other, Or.inl unknown⟩)
    split
    · rename_i fetched
      refine ⟨recorded, ?_⟩
      intro sighted answered _
      apply (mergeLamderaRegistry_extends _ _).covers good
      apply covers fetched
      intro gone tagNow same
      exact sighted ⟨online, answered.2.2, dat.mp gone, tagNow, etag ▸ same⟩
    · rename_i failed
      exact ⟨recorded, fun _ _ ok => absurd ok failed⟩
  · rw [if_neg unknown]
    have present : files.registryDat ≠ none := by
      intro gone
      apply unknown
      unfold RegistryCache.knownCount
      rw [dat.mp gone]
    by_cases skipped : run.skipRegistryUpdate = true
    · rw [if_pos skipped]
      refine ⟨filesLinked, ?_⟩
      intro _ answered
      rw [answered.2.1] at skipped
      cases skipped
    · rw [if_neg skipped]
      obtain ⟨recorded, good, covers⟩ := installEnvUpdateRegistry_spec filesLinked records inFile
        tagged present (by
          intro datFails answered head new stored tagNow other
          by_contra works
          exact kept ⟨online, answered, datFails, Bool.eq_false_iff.mpr works,
            fun gone => present (dat.mpr gone), tagNow, etag ▸ other,
            Or.inr ⟨Bool.eq_false_iff.mpr skipped, head, etag ▸ stored, new⟩⟩)
      refine ⟨recorded, ?_⟩
      intro _ answered _
      exact (mergeLamderaRegistry_extends _ _).covers good (covers answered.2.2)

theorem cacheAfter_append (server : PackageServer) (runs : List EnsureRun) (run : EnsureRun) :
    cacheAfter server (runs ++ [run]) =
      (installEnvEnsureV1Registry server run (cacheAfter server runs)).cache := by
  unfold cacheAfter
  rw [List.foldl_append]
  rfl

/-- Runs that forget nothing keep the files linked, for whatever is published later. -/
theorem cacheAfter_linked {runs : List EnsureRun}
    (grows : runs.Pairwise fun a b => a.published <+: b.published)
    (kept : ∀ before run after, runs = before ++ run :: after →
      ¬ run.Forgets server (cacheAfter server before)) {now : List Publication}
    (later : ∀ run ∈ runs, run.published <+: now) :
    Linked server now (cacheAfter server runs) := by
  induction runs using List.reverseRecOn generalizing now with
  | nil => exact Linked.empty.later List.nil_prefix
  | append_singleton runs run ih =>
    obtain ⟨earlier, _, last⟩ := List.pairwise_append.mp grows
    rw [cacheAfter_append]
    have linked := ih earlier
      (fun before r after split => kept before r (after ++ [run]) (by rw [split]; simp))
      (fun r on => last r on run List.mem_cons_self)
    have recorded := (installEnvEnsureV1Registry_spec linked (kept runs run [] rfl)).1
    exact recorded.later (later run (List.mem_append_right _ List.mem_cons_self))

/-- In a sequence of runs against a growing list of publications none of which forgets
what it has learned, or finds an `ETag` without its `registry.dat`, every run that gets
its answers and reports success has a registry with all that is published. -/
theorem installEnvEnsureV1Registry_up_to_date {server : PackageServer} {runs : List EnsureRun}
    (grows : runs.Pairwise fun a b => a.published <+: b.published)
    (sound : ∀ before run after, runs = before ++ run :: after →
      ¬ run.Forgets server (cacheAfter server before) ∧
        ¬ run.Blind server (cacheAfter server before)) :
    ∀ before run after, runs = before ++ run :: after → run.Answered →
      (installEnvEnsureV1Registry server run (cacheAfter server before)).ok = true →
      (installEnvEnsureV1Registry server run (cacheAfter server before)).registry.Covers
        run.published := by
  intro before run after split answered ok
  subst split
  obtain ⟨earlier, _, last⟩ := List.pairwise_append.mp grows
  have linked := cacheAfter_linked earlier
    (fun first r rest split => (sound first r (rest ++ run :: after) (by rw [split]; simp)).1)
    (fun r on => last r on run List.mem_cons_self)
  obtain ⟨kept, sighted⟩ := sound before run after rfl
  exact (installEnvEnsureV1Registry_spec linked kept).2 sighted answered ok

/-! ### Sample runs -/

/-- A server whose `ETag` has a character for each publication, and one more. -/
def countingServer : PackageServer where
  etag published := some (String.ofList (List.replicate (published.length + 1) 'v'))
  allPackages published :=
    .object (published.map fun p => (p.package, .array [.string p.version]))
  since published n := .array ((published.drop n).map fun p => .string p.text)
  etag_nonempty := by
    intro published same
    have text := congrArg String.toList (Option.some.inj same)
    simp at text
  etag_names := by
    intro old new front same _
    have text := congrArg List.length (String.ofList_injective (Option.some.inj same))
    rw [List.length_replicate, List.length_replicate] at text
    exact front.eq_of_length (by omega)
  allPackages_document := by
    intro published
    refine ⟨published.map fun p => (p.package, [p.version]), by simp, ?_, ?_⟩
    · intro p on
      obtain ⟨q, _, rfl⟩ := List.mem_map.mp on
      exact List.cons_ne_nil _ _
    · rw [List.flatMap_map]
      exact List.Perm.of_eq List.map_eq_flatMap.symm
  since_document := by
    intro published n
    exact ⟨(published.drop n).map Publication.text, by rw [List.map_map]; rfl, List.Perm.refl _⟩

/-- A first run, and a second one after another publication. -/
def firstRun : EnsureRun := { published := [publishedCore], countable := by decide }

def secondRun : EnsureRun :=
  { published := [publishedCore, publishedJson], countable := by decide }

theorem secondRun_up_to_date :
    (installEnvEnsureV1Registry countingServer secondRun
      (cacheAfter countingServer [firstRun])).registry.Has "elm" "json" ⟨1, 1, 3⟩ := by
  have grows : [firstRun, secondRun].Pairwise fun a b => a.published <+: b.published := by
    simp [firstRun, secondRun]
  have covers := @installEnvEnsureV1Registry_up_to_date countingServer _ grows (by
    intro before run after split
    rcases before with _ | ⟨_, _ | ⟨_, _ | ⟨_, rest⟩⟩⟩
    · cases split
      exact ⟨fun forgets => (by cases forgets.2.2.1), fun blind => (by cases blind.2.2.2.2)⟩
    · cases split
      exact ⟨fun forgets => (by cases forgets.2.2.1),
        fun blind => absurd blind.2.2.1 (by decide)⟩
    · cases split
    · cases split) [firstRun] secondRun [] rfl ⟨rfl, rfl, rfl⟩ (by decide)
  have read : (⟨⟨"elm", "json", by decide, by decide, by decide⟩,
      ⟨1, 1, 3⟩⟩ : PackageName × Version) ∈ secondRun.published.filterMap Publication.read := by
    decide
  exact covers _ read

/-- The first run cannot write `registry.dat`, and the second one is told that nothing
has changed. -/
def afterLostWrite : EnsureResult :=
  installEnvEnsureV1Registry countingServer firstRun
    (cacheAfter countingServer [{ firstRun with datFails := true }])

/-- Two runs work, a third one cannot write what is new, and the fourth one is told that
nothing has changed. -/
def afterLostUpdate : EnsureResult :=
  installEnvEnsureV1Registry countingServer secondRun
    (cacheAfter countingServer [firstRun, { secondRun with datFails := true }])

/-- Both report success without the publications. -/
theorem installEnvEnsureV1Registry_forgets :
    (firstRun.Answered ∧ afterLostWrite.ok = true ∧
      ¬ afterLostWrite.registry.Covers firstRun.published) ∧
    secondRun.Answered ∧ afterLostUpdate.ok = true ∧
      ¬ afterLostUpdate.registry.Covers secondRun.published :=
  ⟨⟨⟨rfl, rfl, rfl⟩, by decide, by decide⟩,
    ⟨rfl, rfl, rfl⟩, by decide, by decide⟩

end ElmWrap
