import ElmWrap.V2Index.Reading
import ElmWrap.Registry.Operations
import ElmWrap.Solver.PgElm

/-!
# The order of the versions in a V2 registry

The solver and the upgrade command take the first valid version of a package for
its greatest one, so the versions have to stand newest first. Neither
`v2_registry_parse` nor `v2_registry_merge_local_dev` sorts: the first keeps the
order of the text, over all sections of a package, and the second appends what
the package does not have yet. The order is kept by exactly the texts that are
written in it.
-/

namespace ElmWrap

open Lib

/-! ## The versions the readers pick -/

/-- The search of `upgrade_single_package_v2` for the latest version. -/
def latestVersionV2 (versions : List V2PackageVersion) (major_upgrade : Bool)
    (current_version : Version) : Option Version :=
  (versions.find? fun v =>
    v.status = .valid && (major_upgrade || v.major = current_version.major)).map
      V2PackageVersion.version

/-- All packages have their versions strictly newest first. -/
def NewestFirst (registry : V2Registry) : Prop :=
  ∀ key versions, registry.stored key = some versions →
    Keyed.Descending (versions.map V2PackageVersion.version)

/-- What the solver and the upgrade command pick is the greatest valid version of those they
can pick from. -/
structure PicksGreatest (registry : V2Registry) : Prop where
  solver : ∀ ctx pkg name, pkg ≠ pgElmRootPackageId → pgElmGetAuthorName ctx pkg = some name →
    ∀ capacity (allowed : PgVersion → Bool) v,
      ((pgElmV2ProviderGetVersions registry ctx pkg capacity).filter allowed).head? = some v →
      ∀ w ∈ registry.validVersions name, allowed w = true → w ≤ v
  upgrade : ∀ key versions, registry.stored key = some versions →
    ∀ major_upgrade current_version v,
      latestVersionV2 versions major_upgrade current_version = some v →
      ∀ w ∈ versions, w.status = .valid →
        (major_upgrade = true ∨ w.major = current_version.major) → w.version ≤ v

theorem V2Registry.validVersions_stored (registry : V2Registry) (name : PackageName) :
    registry.validVersions name =
      (((registry.stored name.key).getD []).filter fun pv => pv.status = .valid).map
        V2PackageVersion.version := by
  unfold V2Registry.validVersions V2Registry.stored
  rw [v2RegistryFind_eq]
  unfold PackageName.key
  cases Keyed.lookup V2PackageEntry.key (name.author, name.project) registry.entries with
  | none => rfl
  | some entry => rfl

/-- With the versions newest first, the first valid one is the greatest. -/
theorem NewestFirst.picksGreatest {registry : V2Registry} (newest : NewestFirst registry) :
    PicksGreatest registry where
  solver ctx pkg name notRoot named capacity allowed v picked w listed passes := by
    have descending : Keyed.Descending (registry.validVersions name) := by
      rw [V2Registry.validVersions_stored]
      cases found : registry.stored name.key with
      | none => exact List.Pairwise.nil
      | some versions =>
        apply List.Pairwise.sublist _ (newest name.key versions found)
        exact List.filter_sublist.map _
    unfold pgElmV2ProviderGetVersions at picked
    by_cases empty : capacity = 0
    · rw [if_pos empty] at picked
      cases picked
    · rw [if_neg empty, if_neg notRoot, named, List.head?_filter] at picked
      have first : (registry.validVersions name).find? allowed = some v := by
        have whole := @List.take_append_drop _ capacity (registry.validVersions name)
        rw [← whole, List.find?_append]
        dsimp only at picked
        rw [picked]
        rfl
      have same : Keyed.Descending ((registry.validVersions name).map id) := by
        rw [List.map_id]
        exact descending
      exact same.find?_greatest first listed passes
  upgrade key versions found major_upgrade current_version v picked w listed valid major := by
    unfold latestVersionV2 at picked
    obtain ⟨pv, first, same⟩ := Option.map_eq_some_iff.mp picked
    have descending := newest key versions found
    have passes : (decide (w.status = .valid) &&
        (major_upgrade || decide (w.major = current_version.major))) = true := by
      simpa [valid] using major
    rw [← same]
    exact descending.find?_greatest first listed passes

/-! ## The text of an index -/

/-- The version lines of every package stand in strictly descending order, over all its
sections. -/
def IndexDescending (data : List Char) : Prop :=
  ∀ key, Keyed.Descending ((versionSectionsOf data key).map lineVersion)

theorem map_sectionVersion (blocks : List (Line × List Line)) :
    (blocks.map sectionVersion).map V2PackageVersion.version = blocks.map lineVersion := by
  rw [List.map_map]
  apply List.map_congr_left
  intro block _
  exact sectionVersion_version block

theorem v2RegistryParse_newestFirst {data : List Char} {registry : V2Registry}
    (parsed : v2RegistryParse data = some registry) :
    NewestFirst registry ↔ IndexDescending data := by
  constructor
  · intro newest key
    have found := v2RegistryParse_stored parsed key
    by_cases none : sectionsOf data key = []
    · rw [versionSectionsOf_none none]
      exact List.Pairwise.nil
    · rw [if_neg none] at found
      rw [← map_sectionVersion]
      exact newest key _ found
  · intro descending key versions found
    rw [v2RegistryParse_stored parsed key] at found
    split at found
    · cases found
    · cases found
      rw [map_sectionVersion]
      exact descending key

/-! ## One merge -/

/-- The versions that `v2_registry_merge_local_dev` appends: of those of the file, the ones that
are not there yet, where they stand first. -/
def freshVersions : List Version → List Version → List Version
  | _, [] => []
  | present, v :: rest =>
    if v ∈ present then freshVersions present rest else v :: freshVersions (present ++ [v]) rest

theorem freshVersions_cons (present : List Version) (v : Version) (rest : List Version) :
    freshVersions present (v :: rest) =
      if v ∈ present then freshVersions present rest
      else v :: freshVersions (present ++ [v]) rest :=
  rfl

theorem mergeV2Versions_versions (local_versions versions : List V2PackageVersion) :
    (mergeV2Versions local_versions versions).map V2PackageVersion.version =
      versions.map V2PackageVersion.version ++
        freshVersions (versions.map V2PackageVersion.version)
          (local_versions.map V2PackageVersion.version) := by
  induction local_versions generalizing versions with
  | nil => exact (List.append_nil _).symm
  | cons pv local_versions ih =>
    unfold mergeV2Versions at ih ⊢
    rw [List.foldl_cons, ih, List.map_cons, freshVersions_cons]
    by_cases there : pv.version ∈ versions.map V2PackageVersion.version
    · obtain ⟨v, member, same⟩ := List.mem_map.mp there
      have known : (versions.any fun v => v.version = pv.version) = true :=
        List.any_eq_true.mpr ⟨v, member, decide_eq_true same⟩
      rw [if_pos there, if_pos known]
    · have new : ¬ (versions.any fun v => v.version = pv.version) = true := by
        intro known
        obtain ⟨v, member, same⟩ := List.any_eq_true.mp known
        exact there (List.mem_map.mpr ⟨v, member, of_decide_eq_true same⟩)
      rw [if_neg there, if_neg new, List.map_append, List.append_assoc]
      rfl

/-- A merge adds to every package what the file has for it. -/
theorem mergeV2Entries_stored {entries : List V2PackageEntry}
    (distinct : Keyed.Distinct V2PackageEntry.key entries) (registry : V2Registry)
    (key : String × String) :
    (mergeV2Entries entries registry).stored key =
      match Keyed.lookup V2PackageEntry.key key entries with
      | none => registry.stored key
      | some entry => some (mergeV2Versions entry.versions ((registry.stored key).getD [])) := by
  induction entries generalizing registry with
  | nil => rfl
  | cons entry entries ih =>
    obtain ⟨absent, rest⟩ := List.nodup_cons.mp distinct
    unfold mergeV2Entries at ih ⊢
    rw [List.foldl_cons, ih rest, V2Registry.stored_setVersions, V2Registry.stored_addEntry,
      Keyed.lookup_cons]
    by_cases same : key = entry.key
    · have here : key = (entry.author, entry.name) := same
      rw [if_pos same, if_pos here, if_pos same.symm,
        Keyed.lookup_none.mpr (same ▸ absent)]
      rfl
    · have other : key ≠ (entry.author, entry.name) := same
      rw [if_neg same, if_neg other, if_neg (Ne.symm same)]

/-- What a readable file adds to a package comes below what the package has, and in descending
order. -/
def MergeDescending (registry : V2Registry) (file : Option (List Char)) : Prop :=
  ∀ data, file = some data → indexReadable data = true → ∀ key,
    let present := ((registry.stored key).getD []).map V2PackageVersion.version
    let fresh := freshVersions present ((versionSectionsOf data key).map lineVersion)
    Keyed.Descending fresh ∧ ∀ v ∈ present, ∀ w ∈ fresh, w < v

theorem v2RegistryMergeLocalDev_stored {data : List Char} (readable : indexReadable data = true)
    (registry : V2Registry) (key : String × String) :
    (v2RegistryMergeLocalDev registry (some data)).1.stored key =
      if sectionsOf data key = [] then registry.stored key
      else some (mergeV2Versions ((versionSectionsOf data key).map sectionVersion)
        ((registry.stored key).getD [])) := by
  cases parsed : v2RegistryParse data with
  | none =>
    rw [v2RegistryParse_eq, if_pos readable] at parsed
    cases parsed
  | some localDev =>
    have found := v2RegistryParse_stored parsed key
    unfold V2Registry.stored at found
    unfold v2RegistryMergeLocalDev
    dsimp only
    rw [parsed]
    dsimp only
    rw [mergeV2Entries_stored (v2RegistryParse_distinct parsed)]
    by_cases none : sectionsOf data key = []
    · rw [if_pos none] at found
      rw [if_pos none, Option.map_eq_none_iff.mp found]
    · rw [if_neg none] at found
      obtain ⟨entry, there, versions⟩ := Option.map_eq_some_iff.mp found
      rw [if_neg none, there, ← versions]

/-- One merge keeps the order if and only if the file is written in it. -/
theorem v2RegistryMergeLocalDev_newestFirst {registry : V2Registry}
    (newest : NewestFirst registry) (file : Option (List Char)) :
    NewestFirst (v2RegistryMergeLocalDev registry file).1 ↔ MergeDescending registry file := by
  cases file with
  | none =>
    constructor
    · intro _ data same
      cases same
    · intro _
      exact newest
  | some data =>
    cases readable : indexReadable data with
    | false =>
      have unread : v2RegistryParse data = none := by
        rw [v2RegistryParse_eq, readable]
        rfl
      have same : (v2RegistryMergeLocalDev registry (some data)).1 = registry := by
        unfold v2RegistryMergeLocalDev
        dsimp only
        rw [unread]
      rw [same]
      constructor
      · intro _ other same read
        cases same
        rw [readable] at read
        cases read
      · intro _
        exact newest
    | true =>
      have present : ∀ key, Keyed.Descending
          (((registry.stored key).getD []).map V2PackageVersion.version) := by
        intro key
        cases found : registry.stored key with
        | none => exact List.Pairwise.nil
        | some versions => exact newest key versions found
      constructor
      · intro merged other same _ key
        cases same
        dsimp only
        by_cases none : sectionsOf data key = []
        · rw [versionSectionsOf_none none]
          apply And.intro
          · exact List.Pairwise.nil
          · intro v _ w member
            cases member
        · have found := v2RegistryMergeLocalDev_stored readable registry key
          rw [if_neg none] at found
          have descending := merged key _ found
          rw [mergeV2Versions_versions, map_sectionVersion] at descending
          obtain ⟨_, fresh, below⟩ := List.pairwise_append.mp descending
          exact ⟨fresh, below⟩
      · intro written key versions found
        rw [v2RegistryMergeLocalDev_stored readable] at found
        split at found
        · exact newest key versions found
        · cases found
          rw [mergeV2Versions_versions, map_sectionVersion]
          obtain ⟨fresh, below⟩ := written data rfl readable key
          exact List.pairwise_append.mpr ⟨present key, fresh, below⟩

/-! ## Runs -/

/-- A sequence of merges into the same registry. -/
def mergeRun (registry : V2Registry) (files : List (Option (List Char))) : V2Registry :=
  files.foldl (fun registry file => (v2RegistryMergeLocalDev registry file).1) registry

/-- Every file is written in the order, for the registry it is merged into. -/
def MergesDescending : V2Registry → List (Option (List Char)) → Prop
  | _, [] => True
  | registry, file :: files =>
    MergeDescending registry file ∧
      MergesDescending (v2RegistryMergeLocalDev registry file).1 files

theorem mergeRun_newestFirst {registry : V2Registry} (newest : NewestFirst registry)
    (files : List (Option (List Char))) :
    (∀ front, front <+: files → NewestFirst (mergeRun registry front)) ↔
      MergesDescending registry files := by
  induction files generalizing registry with
  | nil =>
    constructor
    · intro _
      trivial
    · intro _ front shorter
      rw [List.prefix_nil.mp shorter]
      exact newest
  | cons file files ih =>
    have step := v2RegistryMergeLocalDev_newestFirst newest file
    constructor
    · intro all
      have one : NewestFirst (v2RegistryMergeLocalDev registry file).1 :=
        all [file] (List.prefix_cons_inj file |>.mpr List.nil_prefix)
      apply And.intro
      · exact step.mp one
      · apply (ih one).mp
        intro front shorter
        exact all (file :: front) ((List.prefix_cons_inj file).mpr shorter)
    · intro written front shorter
      cases front with
      | nil => exact newest
      | cons first front =>
        obtain ⟨same, rest⟩ := List.cons_prefix_cons.mp shorter
        rw [same]
        exact (ih (step.mpr written.1)).mpr written.2 front rest

/-- After an index and any merges, all packages have their versions strictly newest first, and
what is picked is the greatest valid version, if and only if the index and the files are
written in this order. -/
theorem v2_versions_newest_first {data : List Char} {registry : V2Registry}
    (parsed : v2RegistryParse data = some registry) (files : List (Option (List Char))) :
    (∀ front, front <+: files →
      NewestFirst (mergeRun registry front) ∧ PicksGreatest (mergeRun registry front)) ↔
      IndexDescending data ∧ MergesDescending registry files := by
  have index := v2RegistryParse_newestFirst parsed
  constructor
  · intro all
    have newest : NewestFirst registry := (all [] List.nil_prefix).1
    apply And.intro
    · exact index.mp newest
    · apply (mergeRun_newestFirst newest files).mp
      intro front shorter
      exact (all front shorter).1
  · intro written front shorter
    have newest := (mergeRun_newestFirst (index.mpr written.1) files).mpr written.2 front shorter
    exact ⟨newest, newest.picksGreatest⟩

/-- An index with one version of one package. -/
def olderIndex : List Char :=
  ("format 2\nelm 0.19.1\n\npackage: a/b\n    version: 1.0.0\n    status: valid\n" ++
    "    license: MIT\n    dependencies:\n").toList

/-- A local-dev registry with the next version of it. -/
def newerLocalDev : List Char :=
  ("format 2\nelm 0.19.1\n\npackage: a/b\n    version: 1.0.1\n    status: valid\n" ++
    "    license: MIT\n    dependencies:\n").toList

/-- What is read of `olderIndex`. -/
def olderRegistry : V2Registry := ⟨[⟨"a", "b", [⟨1, 0, 0, .valid, []⟩]⟩]⟩

theorem olderIndex_parsed : v2RegistryParse olderIndex = some olderRegistry := by decide

/-- After the merge the older version stands first, and is picked. -/
theorem v2_versions_newest_first_fails :
    ¬ ∀ data registry files, v2RegistryParse data = some registry →
      ∀ front, front <+: files →
        NewestFirst (mergeRun registry front) ∧ PicksGreatest (mergeRun registry front) := by
  intro claim
  obtain ⟨newest, picks⟩ := claim olderIndex olderRegistry [some newerLocalDev] olderIndex_parsed
    [some newerLocalDev] List.prefix_rfl
  have stored : (mergeRun olderRegistry [some newerLocalDev]).stored ("a", "b") =
      some [⟨1, 0, 0, .valid, []⟩, ⟨1, 0, 1, .valid, []⟩] := by decide
  have greatest := picks.upgrade ("a", "b") _ stored true ⟨1, 0, 0⟩ ⟨1, 0, 0⟩ rfl
    ⟨1, 0, 1, .valid, []⟩ (by decide) rfl (Or.inl rfl)
  exact absurd greatest (by decide)

theorem v2_versions_newest_first_older :
    (∀ front, front <+: [some newerLocalDev] →
      NewestFirst (mergeRun olderRegistry front) ∧ PicksGreatest (mergeRun olderRegistry front)) ↔
      IndexDescending olderIndex ∧ MergesDescending olderRegistry [some newerLocalDev] :=
  v2_versions_newest_first olderIndex_parsed [some newerLocalDev]

end ElmWrap
