import ElmWrap.Build.Artifacts
import ElmWrap.ElmJson

/-!
# Which artifacts are reported as present

`check_package_artifact_status` looks for a stored map with as many entries as
the package has dependencies in the plan, each of them such a dependency. That
is the map of the dependencies unless a dependency is not in the plan, an entry
is repeated or a stored name is not read in full.
-/

namespace ElmWrap

open Lib Lib.Binary

/-! ## The dependencies of a package -/

/-- The package dependencies that `elm_json_read` gives for a package in the cache. -/
abbrev PackageMaps := String → String → String → Option PackageMap

/-- The names in the maps. -/
def dependencyLists (maps : PackageMaps) : PackageDependencies := fun author name version =>
  (maps author name version).map fun map =>
    map.packages.map fun p => (p.name.author, p.name.project)

/-- All dependencies of a package; `none` where its `elm.json` is not read. -/
def dependenciesOf (maps : PackageMaps) (pkg : BuildPackage) : Option (List String) :=
  match cutAt '/' pkg.name.toList with
  | none => none
  | some (author, name) =>
    (maps (String.ofList author) (String.ofList name) pkg.version).map fun map =>
      map.packages.map fun p => p.name.full

/-- A version is selected for a package. -/
def Selected (plan : List BuildPackage) (name version : String) : Prop :=
  ∃ other ∈ plan, other.name = name ∧ other.version = version

/-- The dependencies are known, and a version is selected for each of them. -/
def AllSelected (maps : PackageMaps) (plan : List BuildPackage) (pkg : BuildPackage) : Prop :=
  ∃ deps, dependenciesOf maps pkg = some deps ∧ ∀ dep ∈ deps, ∃ version, Selected plan dep version

/-- A stored map is the map from each dependency of the package to the version selected for it. -/
def IsDependencyMap (maps : PackageMaps) (plan : List BuildPackage) (pkg : BuildPackage)
    (entries : List StoredEntry) : Prop :=
  ∃ deps, dependenciesOf maps pkg = some deps ∧
    (∀ dep ∈ deps, ∃ version, Selected plan dep version) ∧
    ∀ name version, ⟨name, version⟩ ∈ entries.map StoredEntry.full ↔
      name ∈ deps ∧ Selected plan name version

/-- A file holds the dependency map of a package. -/
def HoldsDependencyMap (maps : PackageMaps) (plan : List BuildPackage) (pkg : BuildPackage)
    (data : Bytes) : Prop :=
  ∃ stored, decodeArtifacts data = some stored ∧
    ∃ entries ∈ stored, IsDependencyMap maps plan pkg entries

/-- A stored map has as many entries as the package has dependencies in the plan, and each entry,
as it is read, is one of them in its selected version. -/
def LooksSelected (plan : List BuildPackage) (pkg : BuildPackage) (entries : List StoredEntry) :
    Prop :=
  entries.length = pkg.deps.length ∧ ∀ entry ∈ entries,
    entry.shown.name ∈ pkg.deps ∧ Selected plan entry.shown.name entry.shown.version

/-- A stored map has the dependencies in the plan, in their selected versions. -/
def ListsSelected (plan : List BuildPackage) (pkg : BuildPackage) (entries : List StoredEntry) :
    Prop :=
  ∀ name version, ⟨name, version⟩ ∈ entries.map StoredEntry.full ↔
    name ∈ pkg.deps ∧ Selected plan name version

/-- Nothing is stored twice. -/
def Unrepeated (entries : List StoredEntry) : Prop := (entries.map StoredEntry.full).Nodup

/-! ## The plan -/

/-- A plan with the dependencies that have been read for it. -/
structure Planned (maps : PackageMaps) (plan : List BuildPackage) : Prop where
  unique : (plan.map BuildPackage.name).Nodup
  deps : ∀ pkg ∈ plan, pkg.deps = readDeps (dependencyLists maps) plan pkg

theorem full_length (p : PackageName) : p.full.toList.length ≤ 255 := by
  have author := length_le_utf8ByteSize p.author
  have project := length_le_utf8ByteSize p.project
  have short := p.short
  unfold maxPackageNameLength at short
  rw [p.full_toList, List.length_append, List.length_cons]
  omega

/-- The buffer holds a name in full. -/
theorem packageNameBuf_full (p : PackageName) : packageNameBuf p.author p.project = p.full := by
  apply String.toList_inj.mp
  have short := full_length p
  rw [p.full_toList] at short ⊢
  rw [packageNameBuf, String.toList_ofList, List.take_of_length_le short]

/-- What is read for a package are its dependencies in the plan. -/
theorem readDeps_eq (maps : PackageMaps) (plan : List BuildPackage) (pkg : BuildPackage) :
    readDeps (dependencyLists maps) plan pkg =
      ((dependenciesOf maps pkg).getD []).filter fun dep =>
        plan.any fun other => other.name = dep := by
  unfold readDeps dependenciesOf dependencyLists
  cases cutAt '/' pkg.name.toList with
  | none => rfl
  | some parts =>
    obtain ⟨author, name⟩ := parts
    dsimp only
    cases maps (String.ofList author) (String.ofList name) pkg.version with
    | none => rfl
    | some map =>
      simp only [Option.map_some, Option.getD_some, List.map_map, Function.comp_def,
        packageNameBuf_full]

theorem dependenciesOf_full {maps : PackageMaps} {pkg : BuildPackage} {deps : List String}
    (known : dependenciesOf maps pkg = some deps) :
    deps.Nodup ∧ ∀ dep ∈ deps, ∃ p : PackageName, dep = p.full := by
  unfold dependenciesOf at known
  split at known
  · cases known
  · obtain ⟨map, -, rfl⟩ := Option.map_eq_some_iff.mp known
    refine ⟨?_, fun dep member => ?_⟩
    · have names := map.nodup.map (fun _ _ => PackageName.full_injective)
      rwa [List.map_map] at names
    · obtain ⟨p, -, rfl⟩ := List.mem_map.mp member
      exact ⟨p.name, rfl⟩

theorem getD_nodup {maps : PackageMaps} {pkg : BuildPackage} :
    ((dependenciesOf maps pkg).getD []).Nodup := by
  cases known : dependenciesOf maps pkg with
  | none => exact List.nodup_nil
  | some deps => exact (dependenciesOf_full known).1

variable {maps : PackageMaps} {plan : List BuildPackage} {pkg : BuildPackage}

namespace Planned

theorem deps_nodup (planned : Planned maps plan) (member : pkg ∈ plan) : pkg.deps.Nodup := by
  rw [planned.deps pkg member, readDeps_eq]
  exact getD_nodup.filter _

theorem deps_known (planned : Planned maps plan) (member : pkg ∈ plan) {deps : List String}
    (known : dependenciesOf maps pkg = some deps) {dep : String} :
    dep ∈ pkg.deps ↔ dep ∈ deps ∧ ∃ version, Selected plan dep version := by
  rw [planned.deps pkg member, readDeps_eq, known, Option.getD_some, List.mem_filter]
  simp [Selected]

/-- The dependencies in the plan are accepted packages. -/
theorem deps_full (planned : Planned maps plan) (member : pkg ∈ plan) {dep : String}
    (listed : dep ∈ pkg.deps) : ∃ p : PackageName, dep = p.full := by
  cases known : dependenciesOf maps pkg with
  | none =>
    rw [planned.deps pkg member, readDeps_eq, known] at listed
    cases listed
  | some deps =>
    exact (dependenciesOf_full known).2 dep ((planned.deps_known member known).mp listed).1

theorem deps_selected (planned : Planned maps plan) (member : pkg ∈ plan) {dep : String}
    (listed : dep ∈ pkg.deps) : ∃ other ∈ plan, other.name = dep := by
  rw [planned.deps pkg member, readDeps_eq, List.mem_filter] at listed
  simpa using listed.2

/-- The plan that `compute_package_build_order` leaves has the dependencies that have been read. -/
theorem of_order {packages order : List BuildPackage}
    (unique : (packages.map BuildPackage.name).Nodup) (fresh : ∀ pkg ∈ packages, pkg.deps = [])
    (found : computePackageBuildOrder (dependencyLists maps) packages = some order) :
    Planned maps order := by
  have filled : ∀ pkg ∈ collectDeps (dependencyLists maps) packages, ∃ old ∈ packages,
      pkg = { old with deps := readDeps (dependencyLists maps) packages old } := by
    intro pkg member
    obtain ⟨old, on, rfl⟩ := List.mem_map.mp member
    refine ⟨old, on, ?_⟩
    rw [fresh old on, List.nil_append]
  have lists : ∀ pkg ∈ collectDeps (dependencyLists maps) packages, pkg.deps.Nodup := by
    intro pkg member
    obtain ⟨old, -, rfl⟩ := filled pkg member
    rw [readDeps_eq]
    exact getD_nodup.filter _
  have perm := ((computePackageBuildOrder_order _ packages unique lists).2 order found).perm
  have names : (order.map BuildPackage.name).Perm (packages.map BuildPackage.name) := by
    rw [← collectDeps_names (dependencyLists maps) packages]
    exact perm.map _
  refine ⟨names.nodup_iff.mpr unique, fun pkg member => ?_⟩
  obtain ⟨old, -, rfl⟩ := filled pkg (perm.mem_iff.mp member)
  rw [readDeps_eq, readDeps_eq]
  have same : ∀ dep, (packages.any fun other => other.name = dep) =
      order.any fun other => other.name = dep := by
    intro dep
    have on := names.mem_iff (a := dep)
    rw [Bool.eq_iff_iff]
    simpa using on.symm
  simp only [same]
  rfl

/-! ## The expected fingerprint -/

theorem find_selected (planned : Planned maps plan) {other : BuildPackage} (on : other ∈ plan) :
    plan.find? (fun candidate => candidate.name = other.name) = some other := by
  cases found : plan.find? fun candidate => candidate.name = other.name with
  | none =>
    have none_ := List.find?_eq_none.mp found other on
    simp at none_
  | some first =>
    have same : first.name = other.name := by
      simpa using List.find?_some found
    rw [eq_of_name planned.unique (List.mem_of_find?_eq_some found) on same]

theorem mem_expected (planned : Planned maps plan) {entry : FingerprintEntry} :
    entry ∈ buildExpectedFingerprint pkg plan ↔
      entry.name ∈ pkg.deps ∧ Selected plan entry.name entry.version := by
  unfold buildExpectedFingerprint
  rw [List.mem_filterMap]
  constructor
  · rintro ⟨dep, listed, made⟩
    obtain ⟨other, found, rfl⟩ := Option.map_eq_some_iff.mp made
    have same : other.name = dep := by simpa using List.find?_some found
    exact ⟨same ▸ listed, other, List.mem_of_find?_eq_some found, rfl, rfl⟩
  · rintro ⟨listed, other, on, named, versioned⟩
    refine ⟨entry.name, listed, ?_⟩
    rw [← named, planned.find_selected on, Option.map_some, named, versioned]

/-- The names of the expected fingerprint are the dependencies in the plan. -/
theorem expected_names (planned : Planned maps plan) (member : pkg ∈ plan) :
    (buildExpectedFingerprint pkg plan).map FingerprintEntry.name = pkg.deps := by
  have each : ∀ deps : List String, (∀ dep ∈ deps, ∃ other ∈ plan, other.name = dep) →
      (deps.filterMap fun dep => (plan.find? fun other => other.name = dep).map fun other =>
        (⟨other.name, other.version⟩ : FingerprintEntry)).map FingerprintEntry.name = deps := by
    intro deps
    induction deps with
    | nil => exact fun _ => rfl
    | cons dep deps ih =>
      intro all
      obtain ⟨other, on, rfl⟩ := all dep List.mem_cons_self
      rw [List.filterMap_cons, planned.find_selected on, Option.map_some, List.map_cons,
        ih fun dep later => all dep (List.mem_cons_of_mem _ later)]
  exact each pkg.deps fun dep listed => planned.deps_selected member listed

theorem expected_nodup (planned : Planned maps plan) (member : pkg ∈ plan) :
    (buildExpectedFingerprint pkg plan).Nodup := by
  have names := planned.deps_nodup member
  rw [← planned.expected_names member] at names
  exact names.of_map

theorem fingerprintsMatch_iff (planned : Planned maps plan) (member : pkg ∈ plan)
    {entries : List StoredEntry} :
    fingerprintsMatch (entries.map StoredEntry.shown) (buildExpectedFingerprint pkg plan) = true ↔
      LooksSelected plan pkg entries := by
  have count := congrArg List.length (planned.expected_names member)
  rw [List.length_map] at count
  unfold fingerprintsMatch LooksSelected
  simp only [Bool.and_eq_true, decide_eq_true_eq, List.length_map, count, List.all_map,
    List.all_eq_true, Function.comp_apply, List.any_eq_true, exists_eq_right',
    planned.mem_expected]

/-- The artifacts are reported as present when a stored map looks like the selected
dependencies. -/
theorem present_iff (planned : Planned maps plan) (member : pkg ∈ plan) (data : Bytes) :
    checkPackageArtifactStatus (some data) pkg plan = .present ↔
      ∃ stored, decodeArtifacts data = some stored ∧ WithinLimits stored ∧
        ∃ entries ∈ stored, LooksSelected plan pkg entries := by
  unfold checkPackageArtifactStatus
  dsimp only
  rw [parseArtifactFingerprints_eq]
  cases decodes : decodeArtifacts data with
  | none => simp
  | some stored =>
    rw [Option.bind_some]
    have found : ((stored.map (List.map StoredEntry.shown)).any fun fingerprint =>
        fingerprintsMatch fingerprint (buildExpectedFingerprint pkg plan)) = true ↔
          ∃ entries ∈ stored, LooksSelected plan pkg entries := by
      simp only [List.any_map, Function.comp_def, List.any_eq_true,
        planned.fingerprintsMatch_iff member]
    by_cases limits : WithinLimits stored
    · rw [if_pos limits]
      dsimp only
      constructor
      · intro status
        split at status
        · rename_i looks
          exact ⟨stored, rfl, limits, found.mp looks⟩
        · cases status
      · rintro ⟨_, same, -, looks⟩
        cases same
        rw [if_pos (found.mpr looks)]
    · rw [if_neg limits]
      constructor
      · intro status
        cases status
      · rintro ⟨_, same, within, -⟩
        cases same
        exact absurd within limits

end Planned

/-! ## Maps that look like the dependency map -/

theorem isDependencyMap_iff (planned : Planned maps plan) (member : pkg ∈ plan)
    {entries : List StoredEntry} :
    IsDependencyMap maps plan pkg entries ↔
      AllSelected maps plan pkg ∧ ListsSelected plan pkg entries := by
  have same : ∀ deps, dependenciesOf maps pkg = some deps → ∀ name version,
      (name ∈ pkg.deps ∧ Selected plan name version ↔
        name ∈ deps ∧ Selected plan name version) := by
    intro deps known name version
    rw [planned.deps_known member known]
    exact ⟨fun on => ⟨on.1.1, on.2⟩, fun on => ⟨⟨on.1, version, on.2⟩, on.2⟩⟩
  constructor
  · intro ⟨deps, known, all, pairs⟩
    exact ⟨⟨deps, known, all⟩, fun name version =>
      (pairs name version).trans (same deps known name version).symm⟩
  · intro ⟨⟨deps, known, all⟩, lists⟩
    exact ⟨deps, known, all, fun name version =>
      (lists name version).trans (same deps known name version)⟩

/-- A map that looks like the selected dependencies has them, unless an entry is repeated or a name
is not read in full. -/
theorem LooksSelected.lists (planned : Planned maps plan) (member : pkg ∈ plan)
    {entries : List StoredEntry} (looks : LooksSelected plan pkg entries)
    (unrepeated : Unrepeated entries) (plain : ∀ entry ∈ entries, StoredEntry.Plain entry) :
    ListsSelected plan pkg entries := by
  obtain ⟨count, each⟩ := looks
  have size := congrArg List.length (planned.expected_names member)
  rw [List.length_map] at size
  have inside : entries.map StoredEntry.full ⊆ buildExpectedFingerprint pkg plan := by
    intro entry on
    obtain ⟨stored, found, rfl⟩ := List.mem_map.mp on
    rw [planned.mem_expected, ← StoredEntry.shown_eq_full.mpr (plain stored found)]
    exact each stored found
  have perm : (entries.map StoredEntry.full).Perm (buildExpectedFingerprint pkg plan) := by
    apply (List.subperm_of_subset unrepeated inside).perm_of_length_le
    rw [List.length_map, count, size]
  intro name version
  rw [perm.mem_iff, planned.mem_expected]

/-- The names of accepted packages are read in full. -/
theorem StoredEntry.plain_of_full {entry : StoredEntry} {p : PackageName}
    (name : entry.name = p.full) : entry.Plain := by
  have text := congrArg String.toList name
  rw [StoredEntry.name_toList] at text
  have visible : ∀ c ∈ p.full.toList, c.toNat ≠ 0 := by
    intro c on
    rw [p.full_toList] at on
    rcases List.mem_append.mp on with author | rest
    · have := (p.author_short.bytes c author).1
      omega
    · rcases List.mem_cons.mp rest with rfl | project
      · decide
      · have := (p.project_short.bytes c project).1
        omega
  have none_ : ∀ bytes : Bytes,
      (∀ c ∈ bytes.map fun b => Char.ofNat b.toNat, c ∈ p.full.toList) → 0 ∉ bytes := by
    intro bytes part zero
    exact visible _ (part _ (List.mem_map_of_mem zero)) rfl
  have short := full_length p
  rw [← text, List.length_append, List.length_map, List.length_cons, List.length_map] at short
  refine ⟨none_ _ fun c on => ?_, none_ _ fun c on => ?_, by omega⟩
  · rw [← text]
    exact List.mem_append_left _ on
  · rw [← text]
    exact List.mem_append_right _ (List.mem_cons_of_mem _ on)

/-- A map that has the selected dependencies looks like them, unless an entry is repeated. -/
theorem ListsSelected.looks (planned : Planned maps plan) (member : pkg ∈ plan)
    {entries : List StoredEntry} (lists : ListsSelected plan pkg entries)
    (unrepeated : Unrepeated entries) : LooksSelected plan pkg entries := by
  have same : ∀ entry, entry ∈ entries.map StoredEntry.full ↔
      entry ∈ buildExpectedFingerprint pkg plan := by
    intro entry
    rw [planned.mem_expected, lists entry.name entry.version]
  have perm : (entries.map StoredEntry.full).Perm (buildExpectedFingerprint pkg plan) :=
    (List.perm_ext_iff_of_nodup unrepeated (planned.expected_nodup member)).mpr same
  have size := congrArg List.length (planned.expected_names member)
  have count := perm.length_eq
  rw [List.length_map] at size count
  refine ⟨count.trans size, fun entry on => ?_⟩
  have expected := (same entry.full).mp (List.mem_map_of_mem on)
  rw [planned.mem_expected] at expected
  obtain ⟨p, full⟩ := planned.deps_full member expected.1
  rw [StoredEntry.shown_eq_full.mpr (StoredEntry.plain_of_full full)]
  exact expected

/-! ## When the report is right -/

/-- What the plan, the metadata and the maps of a file have to be like: a map that looks like the
selected dependencies is stored only where all are selected, and the dependency map only within the
limits. There it has no repeated entry, or the maps with repeated entries and names that are not
read in full make no difference: one of them looks like the dependency map where one has its
entries. -/
structure ArtifactsTell (maps : PackageMaps) (plan : List BuildPackage) (pkg : BuildPackage)
    (stored : List (List StoredEntry)) : Prop where
  selected : WithinLimits stored → (∃ entries ∈ stored, LooksSelected plan pkg entries) →
    AllSelected maps plan pkg
  limits : AllSelected maps plan pkg → (∃ entries ∈ stored, ListsSelected plan pkg entries) →
    WithinLimits stored
  told : AllSelected maps plan pkg → WithinLimits stored →
    (∃ entries ∈ stored, Unrepeated entries ∧ ListsSelected plan pkg entries) ∨
      ((∃ entries ∈ stored, (¬ Unrepeated entries ∨ ∃ entry ∈ entries, ¬ StoredEntry.Plain entry) ∧
          LooksSelected plan pkg entries) ↔
        ∃ entries ∈ stored, ¬ Unrepeated entries ∧ ListsSelected plan pkg entries)

theorem status_iff (planned : Planned maps plan) (member : pkg ∈ plan) (data : Bytes) :
    (checkPackageArtifactStatus (some data) pkg plan = .present ↔
        HoldsDependencyMap maps plan pkg data) ↔
      ∀ stored, decodeArtifacts data = some stored → ArtifactsTell maps plan pkg stored := by
  rw [planned.present_iff member]
  unfold HoldsDependencyMap
  cases decodeArtifacts data with
  | none => simp
  | some stored =>
    simp only [Option.some.injEq, forall_eq', exists_eq_left', isDependencyMap_iff planned member]
    constructor
    · intro right
      refine ⟨fun limits looks => ?_, fun selected ⟨entries, on, lists⟩ => ?_,
        fun selected limits => or_iff_not_imp_left.mpr fun none_ => ⟨?_, ?_⟩⟩
      · obtain ⟨_, _, selected, _⟩ := right.mp ⟨limits, looks⟩
        exact selected
      · exact (right.mpr ⟨entries, on, selected, lists⟩).1
      · rintro ⟨entries, on, -, looks⟩
        obtain ⟨other, found, -, lists⟩ := right.mp ⟨limits, entries, on, looks⟩
        exact ⟨other, found, fun once => none_ ⟨other, found, once, lists⟩, lists⟩
      · rintro ⟨entries, on, -, lists⟩
        obtain ⟨-, other, found, looks⟩ := right.mpr ⟨entries, on, selected, lists⟩
        refine ⟨other, found, ?_, looks⟩
        by_contra fine
        simp only [not_or, not_not, not_exists, not_and] at fine
        exact none_ ⟨other, found, fine.1, looks.lists planned member fine.1 fine.2⟩
    · intro tell
      constructor
      · rintro ⟨limits, entries, on, looks⟩
        have selected := tell.selected limits ⟨entries, on, looks⟩
        rcases tell.told selected limits with ⟨other, found, -, lists⟩ | same
        · exact ⟨other, found, selected, lists⟩
        · by_cases fine : Unrepeated entries ∧ ∀ entry ∈ entries, StoredEntry.Plain entry
          · exact ⟨entries, on, selected, looks.lists planned member fine.1 fine.2⟩
          · rw [not_and_or, not_forall₂] at fine
            simp only [exists_prop] at fine
            obtain ⟨other, found, -, lists⟩ := same.mp ⟨entries, on, fine, looks⟩
            exact ⟨other, found, selected, lists⟩
      · rintro ⟨entries, on, selected, lists⟩
        have limits := tell.limits selected ⟨entries, on, lists⟩
        refine ⟨limits, ?_⟩
        by_cases once : Unrepeated entries
        · exact ⟨entries, on, lists.looks planned member once⟩
        rcases tell.told selected limits with ⟨other, found, unrepeated, others⟩ | same
        · exact ⟨other, found, others.looks planned member unrepeated⟩
        · obtain ⟨other, found, -, looks⟩ := same.mpr ⟨entries, on, once, lists⟩
          exact ⟨other, found, looks⟩

/-- Artifacts are reported as present when the dependency map is stored, exactly if the plan and the
stored maps tell it, and a set of maps is read back within the limits and with plain names. -/
theorem artifacts_iff {maps : PackageMaps} {packages order : List BuildPackage}
    (unique : (packages.map BuildPackage.name).Nodup) (fresh : ∀ pkg ∈ packages, pkg.deps = [])
    (found : computePackageBuildOrder (dependencyLists maps) packages = some order)
    {pkg : BuildPackage} (member : pkg ∈ order) (data : List UInt8)
    (stored : List (List StoredEntry)) :
    ((checkPackageArtifactStatus (some data) pkg order = .present ↔
        HoldsDependencyMap maps order pkg data) ↔
      ∀ stored, decodeArtifacts data = some stored → ArtifactsTell maps order pkg stored) ∧
    (parseArtifactFingerprints (encodeArtifacts stored) =
        some (stored.map (List.map StoredEntry.full)) ↔
      WithinLimits stored ∧ ∀ entries ∈ stored, ∀ entry ∈ entries, StoredEntry.Plain entry) :=
  ⟨status_iff (Planned.of_order unique fresh found) member data, parse_encode_iff stored⟩

/-! ## Two packages -/

def elmTimePackage : PackageName where
  author := "elm"
  project := "time"
  validAuthor := elm_validAuthor
  validProject := by decide
  short := by decide

/-- `elm/task` depends on `elm/core` and `elm/time`. -/
def taskMaps : PackageMaps := fun _ name _ =>
  if name = "task" then
    some ⟨[⟨elmCorePackage, "1.0.0 <= v < 2.0.0"⟩, ⟨elmTimePackage, "1.0.0 <= v < 2.0.0"⟩],
      by decide⟩
  else some packageMapCreate

/-- A plan with `elm/task` and `elm/core` alone. -/
def taskPackages : List BuildPackage :=
  [⟨"elm/task", "1.0.0", "", []⟩, ⟨"elm/core", "1.0.5", "", []⟩]

def taskOrder : List BuildPackage :=
  [⟨"elm/core", "1.0.5", "", []⟩, ⟨"elm/task", "1.0.0", "", ["elm/core"]⟩]

theorem taskOrder_found :
    computePackageBuildOrder (dependencyLists taskMaps) taskPackages = some taskOrder := by
  decide

/-- An entry for a package by `elm`. -/
def elmEntry (project : Bytes) (version : Version) (short : project.length < 256) : StoredEntry :=
  ⟨[101, 108, 109], project, version, by decide, short⟩

/-- `elm/core` 1.0.5. -/
def coreEntry : StoredEntry := elmEntry [99, 111, 114, 101] ⟨1, 0, 5⟩ (by decide)

/-- A package by `elm` with a long name. -/
def longEntry (n : Nat) (small : n < 256) : StoredEntry :=
  elmEntry (List.replicate n 97) ⟨1, 0, 0⟩ (by rw [List.length_replicate]; exact small)

theorem longEntry_plain {n : Nat} {small : n < 256} (plain : (longEntry n small).Plain) :
    n ≤ 251 := by
  have short : 3 + 1 + (List.replicate n (97 : UInt8)).length ≤ 255 := plain.short
  rw [List.length_replicate] at short
  omega

theorem artifacts_iff_task :
    ((checkPackageArtifactStatus (some (encodeArtifacts [[coreEntry]]))
        ⟨"elm/core", "1.0.5", "", []⟩ taskOrder = .present ↔
      HoldsDependencyMap taskMaps taskOrder ⟨"elm/core", "1.0.5", "", []⟩
        (encodeArtifacts [[coreEntry]])) ↔
      ∀ stored, decodeArtifacts (encodeArtifacts [[coreEntry]]) = some stored →
        ArtifactsTell taskMaps taskOrder ⟨"elm/core", "1.0.5", "", []⟩ stored) ∧
    (parseArtifactFingerprints (encodeArtifacts [[coreEntry]]) =
        some ([[coreEntry]].map (List.map StoredEntry.full)) ↔
      WithinLimits [[coreEntry]] ∧
        ∀ entries ∈ [[coreEntry]], ∀ entry ∈ entries, StoredEntry.Plain entry) :=
  @artifacts_iff taskMaps taskPackages taskOrder (by decide) (by decide) taskOrder_found _
    (by decide) _ _

/-- Artifacts for `elm/core` alone are reported as present for `elm/task`, for whose dependency
`elm/time` no version is selected; and a long name is cut off. -/
theorem artifacts_iff_fails :
    (computePackageBuildOrder (dependencyLists taskMaps) taskPackages = some taskOrder ∧
      checkPackageArtifactStatus (some (encodeArtifacts [[coreEntry]]))
        ⟨"elm/task", "1.0.0", "", ["elm/core"]⟩ taskOrder = .present ∧
      ¬ HoldsDependencyMap taskMaps taskOrder ⟨"elm/task", "1.0.0", "", ["elm/core"]⟩
        (encodeArtifacts [[coreEntry]])) ∧
    ∃ long : StoredEntry, parseArtifactFingerprints (encodeArtifacts [[long]]) ≠
      some [[long.full]] := by
  refine ⟨⟨taskOrder_found, by decide, ?_⟩,
    longEntry 252 (by decide), fun parsed => ?_⟩
  · rintro ⟨stored, -, entries, -, deps, known, all, -⟩
    have listed : dependenciesOf taskMaps ⟨"elm/task", "1.0.0", "", ["elm/core"]⟩ =
        some ["elm/core", "elm/time"] := by
      decide
    cases known.symm.trans listed
    obtain ⟨version, other, on, named, -⟩ := all "elm/time" (by simp)
    have absent : ∀ other ∈ taskOrder, other.name ≠ "elm/time" := by decide
    exact absent other on named
  · have plain := ((parse_encode_iff _).mp parsed).2 _ List.mem_cons_self _ List.mem_cons_self
    exact absurd (longEntry_plain plain) (by decide)

end ElmWrap
