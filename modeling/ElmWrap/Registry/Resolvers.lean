import ElmWrap.Exposed.Scan
import ElmWrap.Lib.Greatest
import ElmWrap.Registry.Resolve
import Mathlib.Data.List.Infix

/-!
# Three ways to pick a version

The docs command picks the version of a dependency by `registry.dat`, and by the
directories of the package cache where there is no such file
(`commands/publish/docs/dependency_cache.c`); `debug include-tree` picks it by the
directories (`commands/debug/include_tree.c`). That a path is not too long, and that
the name `readdir` returns stays as it is while the directory is read, is taken for
granted.
-/

namespace ElmWrap

open Lib

/-! ## The functions -/

/-- What `readdir` and `stat` say of an entry of a directory. -/
structure DirEntry where
  dName : String
  isDir : Bool
deriving DecidableEq, Repr

/-- `version_is_constraint`. -/
def versionIsConstraint (text : String) : Bool :=
  (strstr "<=".toList text.toList).isSome || (strstr "<".toList text.toList).isSome

/-- `resolve_version_from_registry`; `none` for a `registry.dat` that cannot be loaded. -/
def resolveVersionFromRegistry (registry : Option Registry) (author name constraint : String) :
    Option String :=
  match registry with
  | none => none
  | some registry =>
    (registryResolveConstraint registry author name constraint).map versionToString

/-- The body of the loop of `resolve_version_from_filesystem`. -/
def highestVersion (range : VersionRange) (highest : Option Version) (entry : DirEntry) :
    Option Version :=
  if entry.dName.toList.head? = some '.' then highest
  else
    match versionParseSafe entry.dName with
    | none => highest
    | some v =>
      -- whether the upper bound is itself in the range is not asked
      if versionCompare v range.lower.v ≥ 0 ∧ versionCompare v range.upper.v < 0 then
        match highest with
        | none => some v
        | some h => if versionCompare v h > 0 then some v else some h
      else highest

/-- `resolve_version_from_filesystem`; `none` for a directory that cannot be opened. -/
def resolveVersionFromFilesystem (packageDir : Option (List DirEntry)) (constraint : String) :
    Option String :=
  match versionParseConstraint constraint with
  | none => none
  | some range =>
    match packageDir with
    | none => none
    | some entries => (entries.foldl (highestVersion range) none).map versionToString

/-- The body of the loop of `resolve_cached_package_version`: the best version and its name. -/
def bestCached (range : VersionRange) (best : Option (Version × String)) (entry : DirEntry) :
    Option (Version × String) :=
  if entry.dName = "." ∨ entry.dName = ".." then best
  else if !entry.isDir then best
  else
    match versionParseSafe entry.dName with
    | none => best
    | some cand =>
      if !versionInRange cand range then best
      else
        match best with
        | none => some (cand, entry.dName)
        | some b => if versionCompare cand b.1 > 0 then some (cand, entry.dName) else some b

/-- `resolve_cached_package_version`. -/
def resolveCachedPackageVersion (packageDir : Option (List DirEntry))
    (versionOrConstraint : String) : Option String :=
  if !versionIsConstraint versionOrConstraint then some versionOrConstraint
  else
    match versionParseConstraint versionOrConstraint with
    | none => none
    | some range =>
      match packageDir with
      | none => none
      | some entries => (entries.foldl (bestCached range) none).map Prod.snd

/-! ## What they are to pick -/

/-- The greatest of the versions that the constraint admits, as text; none where it admits
none of them. -/
structure Picks (versions : List Version) (constraint : String) (result : Option String) :
    Prop where
  greatest : ∀ text, result = some text → ∃ v ∈ versions, text = versionToString v ∧
    Admits constraint v ∧ ∀ w ∈ versions, Admits constraint w → versionCompare w v ≤ 0
  failure : result = none ↔ ∀ v ∈ versions, ¬ Admits constraint v

/-- The versions are those that the registry lists, and each has its directory in the cache.
Other entries of the directory do not read as a version. -/
structure InBoth (registry : Registry) (author name : String)
    (packageDir : Option (List DirEntry)) (versions : List Version) : Prop where
  listed : ∀ v, registry.Lists author name v ↔ v ∈ versions
  cached : ∀ v ∈ versions, ⟨versionToString v, true⟩ ∈ packageDir.getD []
  others : ∀ entry ∈ packageDir.getD [], ∀ v, versionParseSafe entry.dName = some v →
    v ∈ versions ∧ entry = ⟨versionToString v, true⟩

/-- The three functions pick the same version, the greatest that is admitted. -/
def PickTheSame (registry : Registry) (author name : String)
    (packageDir : Option (List DirEntry)) (versions : List Version) (constraint : String) :
    Prop :=
  ∃ result, Picks versions constraint result ∧
    resolveVersionFromRegistry (some registry) author name constraint = result ∧
    resolveVersionFromFilesystem packageDir constraint = result ∧
    resolveCachedPackageVersion packageDir constraint = result

theorem strstr_isSome {needle text : List Char} :
    (strstr needle text).isSome = true ↔ needle <:+: text := by
  induction text with
  | nil =>
    unfold strstr
    rw [List.infix_nil]
    split
    · rename_i empty
      simp [empty]
    · rename_i other
      simp [other]
  | cons c text ih =>
    unfold strstr
    rw [List.infix_cons_iff, ← ih, ← List.isPrefixOf_iff_prefix]
    split
    · rename_i here
      simp [here]
    · rename_i elsewhere
      simp [elsewhere]

theorem versionIsConstraint_iff {text : String} :
    versionIsConstraint text = true ↔ '<' ∈ text.toList := by
  have two : "<=".toList = ['<', '='] := by decide
  have one : "<".toList = ['<'] := by decide
  unfold versionIsConstraint
  rw [Bool.or_eq_true, strstr_isSome, strstr_isSome, two, one, List.singleton_infix_iff]
  constructor
  · rintro (le | less)
    · exact le.subset List.mem_cons_self
    · exact less
  · exact Or.inr

/-! ## What each of them picks -/

section Picking

variable {registry : Registry} {author name constraint : String}
  {packageDir : Option (List DirEntry)} {versions : List Version} {range : VersionRange}

theorem Picks.unique {first second : Option String} (one : Picks versions constraint first)
    (two : Picks versions constraint second) : first = second := by
  cases first with
  | none => exact (two.failure.mpr (one.failure.mp rfl)).symm
  | some text =>
    cases second with
    | none => exact one.failure.mpr (two.failure.mp rfl)
    | some other =>
      obtain ⟨v, listed, rfl, admitted, above⟩ := one.greatest text rfl
      obtain ⟨w, listed', rfl, admitted', above'⟩ := two.greatest other rfl
      have below := above w listed' admitted'
      have up := above' v listed admitted
      have order := versionCompare_above (a := v) (b := w)
      have order' := versionCompare_above (a := w) (b := v)
      rw [Version.key_injective (a := v) (b := w) (by omega)]

/-- A loop that keeps the greatest of the candidates picks, when the candidates are the
versions that are admitted. -/
theorem picks_of_keeps {α : Type} (version : α → Version) (text : α → String) {items : List α}
    {kept : Option α} (keeps : Greatest.Keeps (fun a => (version a).key) items kept)
    (named : ∀ a ∈ items, text a = versionToString (version a))
    (candidates : ∀ v, (∃ a ∈ items, version a = v) ↔ v ∈ versions ∧ Admits constraint v) :
    Picks versions constraint (kept.map text) where
  greatest := by
    intro result same
    obtain ⟨a, here, rfl⟩ := Option.map_eq_some_iff.mp same
    obtain ⟨member, above⟩ := keeps.greatest a here
    obtain ⟨listed, admitted⟩ := (candidates (version a)).mp ⟨a, member, rfl⟩
    refine ⟨version a, listed, named a member, admitted, ?_⟩
    intro w listed' admitted'
    obtain ⟨b, inside, rfl⟩ := (candidates w).mpr ⟨listed', admitted'⟩
    have order := versionCompare_above (a := version b) (b := version a)
    have below := above b inside
    omega
  failure := by
    rw [Option.map_eq_none_iff, keeps.failure, List.eq_nil_iff_forall_not_mem]
    constructor
    · intro none v listed admitted
      obtain ⟨a, member, _⟩ := (candidates v).mpr ⟨listed, admitted⟩
      exact none a member
    · intro none a member
      obtain ⟨listed, admitted⟩ := (candidates (version a)).mp ⟨a, member, rfl⟩
      exact none _ listed admitted

theorem resolveVersionFromRegistry_picks (sorted : registry.NonAscending)
    (present : InBoth registry author name packageDir versions) :
    Picks versions constraint
      (resolveVersionFromRegistry (some registry) author name constraint) := by
  have resolves := registryResolveConstraint_spec sorted author name constraint
  unfold resolveVersionFromRegistry
  refine ⟨?_, ?_⟩
  · intro text same
    obtain ⟨v, found, rfl⟩ := Option.map_eq_some_iff.mp same
    obtain ⟨listed, admitted, above⟩ := resolves.greatest v found
    exact ⟨v, (present.listed v).mp listed, rfl, admitted,
      fun w member => above w ((present.listed w).mpr member)⟩
  · rw [Option.map_eq_none_iff, resolves.failure]
    constructor
    · rintro (unknown | none_)
      · intro v member
        obtain ⟨entry, found, _⟩ := (present.listed v).mpr member
        rw [unknown] at found
        cases found
      · exact fun v member => none_ v ((present.listed v).mpr member)
    · exact fun none_ => Or.inr fun v listed => none_ v ((present.listed v).mp listed)

/-- The version of an entry that `resolve_version_from_filesystem` takes into account. -/
def fileSystemCandidate (range : VersionRange) (entry : DirEntry) : Option Version :=
  if entry.dName.toList.head? = some '.' then none
  else (versionParseSafe entry.dName).filter fun v =>
    versionCompare v range.lower.v ≥ 0 ∧ versionCompare v range.upper.v < 0

theorem foldl_highestVersion (entries : List DirEntry) :
    entries.foldl (highestVersion range) none =
      (entries.filterMap (fileSystemCandidate range)).foldl
        (Greatest.keepGreater Version.key) none := by
  have step : ∀ highest entry, highestVersion range highest entry =
      match fileSystemCandidate range entry with
      | none => highest
      | some v => Greatest.keepGreater Version.key highest v := by
    intro highest entry
    unfold highestVersion fileSystemCandidate
    split
    · rfl
    cases versionParseSafe entry.dName with
    | none => rfl
    | some v =>
      dsimp only [Option.filter]
      by_cases inside : versionCompare v range.lower.v ≥ 0 ∧ versionCompare v range.upper.v < 0
      · rw [if_pos inside, if_pos (decide_eq_true inside)]
        cases highest with
        | none => rfl
        | some h => simp only [Greatest.keepGreater, versionCompare_above]
      · rw [if_neg inside, if_neg (by simpa using inside)]
  rw [List.foldl_filterMap]
  congr 1
  funext highest entry
  rw [step]
  cases fileSystemCandidate range entry with
  | none => rfl
  | some v => rfl

/-- The version and the name of an entry that `resolve_cached_package_version` takes into
account. -/
def cachedCandidate (range : VersionRange) (entry : DirEntry) : Option (Version × String) :=
  if entry.dName = "." ∨ entry.dName = ".." then none
  else if !entry.isDir then none
  else ((versionParseSafe entry.dName).filter fun v => versionInRange v range).map
    fun v => (v, entry.dName)

theorem foldl_bestCached (entries : List DirEntry) :
    entries.foldl (bestCached range) none =
      (entries.filterMap (cachedCandidate range)).foldl
        (Greatest.keepGreater fun a : Version × String => a.1.key) none := by
  have step : ∀ best entry, bestCached range best entry =
      match cachedCandidate range entry with
      | none => best
      | some a => Greatest.keepGreater (fun a : Version × String => a.1.key) best a := by
    intro best entry
    unfold bestCached cachedCandidate
    split
    · rfl
    split
    · rfl
    cases versionParseSafe entry.dName with
    | none => rfl
    | some v =>
      by_cases inside : versionInRange v range = true
      · rw [Option.filter, if_pos inside]
        dsimp only
        rw [inside]
        cases best with
        | none => rfl
        | some b =>
          simp only [Bool.not_true, Bool.false_eq_true, if_false, Option.map_some,
            Greatest.keepGreater, versionCompare_above]
      · rw [Option.filter, if_neg inside]
        dsimp only
        rw [Bool.eq_false_of_not_eq_true inside]
        rfl
  rw [List.foldl_filterMap]
  congr 1
  funext best entry
  rw [step]
  cases cachedCandidate range entry with
  | none => rfl
  | some a => rfl

theorem admits_range (parsed : versionParseConstraint constraint = some range) (v : Version) :
    Admits constraint v ↔ versionInRange v range = true := by
  unfold Admits
  rw [parsed]
  simp

/-- The name of a version does not start with a dot. -/
theorem versionToString_head (v : Version) : (versionToString v).toList.head? ≠ some '.' := by
  have digits := Nat.toDigits_ne_nil (n := v.major.toNat) (b := 10)
  obtain ⟨c, rest, form⟩ := List.exists_cons_of_ne_nil digits
  have digit : c.isDigit = true :=
    Nat.isDigit_of_mem_toDigits (by decide) (by decide) (form ▸ List.mem_cons_self)
  simp only [versionToString, String.toList_append, Nat.toList_repr, form, List.cons_append,
    List.head?_cons, ne_eq, Option.some.injEq]
  rintro rfl
  cases digit

theorem resolveVersionFromFilesystem_picks
    (present : InBoth registry author name packageDir versions)
    (parsed : versionParseConstraint constraint = some range)
    (halfOpen : ∀ v, versionInRange v range = true ↔
      versionCompare v range.lower.v ≥ 0 ∧ versionCompare v range.upper.v < 0) :
    Picks versions constraint (resolveVersionFromFilesystem packageDir constraint) := by
  have candidates : ∀ v, (∃ a ∈ (packageDir.getD []).filterMap (fileSystemCandidate range),
      a = v) ↔ v ∈ versions ∧ Admits constraint v := by
    intro v
    rw [admits_range parsed, halfOpen]
    simp only [List.mem_filterMap, fileSystemCandidate]
    constructor
    · rintro ⟨_, ⟨entry, inside, taken⟩, rfl⟩
      split at taken
      · cases taken
      · obtain ⟨read, within⟩ := Option.filter_eq_some_iff.mp taken
        exact ⟨(present.others entry inside _ read).1, of_decide_eq_true within⟩
    · rintro ⟨listed, within⟩
      refine ⟨v, ⟨_, present.cached v listed, ?_⟩, rfl⟩
      rw [if_neg (versionToString_head v), versionParseSafe_versionToString]
      exact Option.filter_eq_some_iff.mpr ⟨rfl, decide_eq_true within⟩
  have kept := picks_of_keeps id versionToString (Greatest.keeps_foldl Version.key _)
    (fun _ _ => rfl) candidates
  rw [← foldl_highestVersion] at kept
  unfold resolveVersionFromFilesystem
  rw [parsed]
  cases packageDir with
  | none => exact kept
  | some entries => exact kept

theorem resolveCachedPackageVersion_picks
    (present : InBoth registry author name packageDir versions)
    (parsed : versionParseConstraint constraint = some range)
    (form : versionIsConstraint constraint = true) :
    Picks versions constraint (resolveCachedPackageVersion packageDir constraint) := by
  have named : ∀ a ∈ (packageDir.getD []).filterMap (cachedCandidate range),
      a.1 ∈ versions ∧ versionInRange a.1 range = true ∧ a.2 = versionToString a.1 := by
    intro a member
    obtain ⟨entry, inside, taken⟩ := List.mem_filterMap.mp member
    unfold cachedCandidate at taken
    split at taken
    · cases taken
    split at taken
    · cases taken
    · obtain ⟨v, found, rfl⟩ := Option.map_eq_some_iff.mp taken
      obtain ⟨read, within⟩ := Option.filter_eq_some_iff.mp found
      obtain ⟨listed, same⟩ := present.others entry inside v read
      exact ⟨listed, within, congrArg DirEntry.dName same⟩
  have candidates : ∀ v, (∃ a ∈ (packageDir.getD []).filterMap (cachedCandidate range),
      a.1 = v) ↔ v ∈ versions ∧ Admits constraint v := by
    intro v
    rw [admits_range parsed]
    constructor
    · rintro ⟨a, member, rfl⟩
      exact ⟨(named a member).1, (named a member).2.1⟩
    · rintro ⟨listed, within⟩
      refine ⟨(v, versionToString v), List.mem_filterMap.mpr
        ⟨_, present.cached v listed, ?_⟩, rfl⟩
      have head := versionToString_head v
      have noDots : ¬ (versionToString v = "." ∨ versionToString v = "..") := by
        rintro (one | two)
        · rw [one] at head
          exact head (by decide)
        · rw [two] at head
          exact head (by decide)
      unfold cachedCandidate
      rw [if_neg noDots, versionParseSafe_versionToString, Option.filter, if_pos within]
      rfl
  have kept := picks_of_keeps Prod.fst Prod.snd
    (Greatest.keeps_foldl (fun a : Version × String => a.1.key) _)
    (fun a member => (named a member).2.2) candidates
  rw [← foldl_bestCached] at kept
  unfold resolveCachedPackageVersion
  rw [form, parsed]
  cases packageDir with
  | none => exact kept
  | some entries => exact kept

/-- No version is at least a single version and below it. -/
theorem resolveVersionFromFilesystem_exact {v : Version}
    (parsed : versionParseConstraint constraint = some (versionRangeExact v)) :
    resolveVersionFromFilesystem packageDir constraint = none := by
  have none_ : ∀ entries : List DirEntry,
      entries.filterMap (fileSystemCandidate (versionRangeExact v)) = [] := by
    intro entries
    rw [List.filterMap_eq_nil_iff]
    intro entry _
    unfold fileSystemCandidate
    split
    · rfl
    · rw [Option.filter_eq_none_iff]
      intro w _ within
      obtain ⟨above, below⟩ := of_decide_eq_true within
      exact absurd below (not_lt.mpr above)
  unfold resolveVersionFromFilesystem
  rw [parsed]
  cases packageDir with
  | none => rfl
  | some entries =>
    dsimp only
    rw [foldl_highestVersion, none_]
    rfl

/-- The three functions agree on every constraint that is a range. On a single version they
agree only when it is not there and is written with a `<`: the directories are searched for
a version below it, and `debug include-tree` takes the text as it is when it has no `<`. -/
theorem pickTheSame_iff (sorted : registry.NonAscending)
    (present : InBoth registry author name packageDir versions)
    (parsed : versionParseConstraint constraint = some range) :
    PickTheSame registry author name packageDir versions constraint ↔
      range.upper.inclusive = false ∨
        (versionIsConstraint constraint = true ∧ range.lower.v ∉ versions) := by
  have byRegistry := @resolveVersionFromRegistry_picks _ _ _ constraint _ _ sorted present
  rcases versionParseConstraint_forms parsed with ⟨lower, upper, rfl, less⟩ | ⟨v, rfl⟩
  · have form := versionIsConstraint_iff.mpr less
    have halfOpen : ∀ v, versionInRange v (rangeBetween lower upper) = true ↔
        versionCompare v lower ≥ 0 ∧ versionCompare v upper < 0 := by
      intro v
      rw [versionInRange_between]
      have above := versionCompare_above (a := lower) (b := v)
      have below := versionCompare_neg (a := v) (b := lower)
      omega
    have byFiles := resolveVersionFromFilesystem_picks present parsed halfOpen
    have byCache := resolveCachedPackageVersion_picks present parsed form
    exact ⟨fun _ => Or.inl rfl, fun _ => ⟨_, byRegistry, rfl, byFiles.unique byRegistry,
      byCache.unique byRegistry⟩⟩
  · have byFiles := @resolveVersionFromFilesystem_exact _ packageDir v parsed
    have admits : ∀ w, Admits constraint w ↔ w = v := by
      intro w
      rw [admits_range parsed, versionInRange_exact]
    constructor
    · rintro ⟨result, picks, _, files, cache⟩
      rw [byFiles] at files
      subst files
      refine Or.inr ⟨?_, fun listed => picks.failure.mp rfl v listed ((admits v).mpr rfl)⟩
      cases form : versionIsConstraint constraint with
      | true => rfl
      | false =>
        unfold resolveCachedPackageVersion at cache
        rw [form] at cache
        cases cache
    · rintro (halfOpen | ⟨form, unlisted⟩)
      · cases halfOpen
      · have byCache := resolveCachedPackageVersion_picks present parsed form
        have nothing : Picks versions constraint none := by
          refine ⟨fun text none => (nomatch none), fun _ w listed admitted => ?_, fun _ => rfl⟩
          rw [(admits w).mp admitted] at listed
          exact unlisted listed
        exact ⟨none, nothing, byRegistry.unique nothing, byFiles, byCache.unique nothing⟩

end Picking

/-- The directories of the versions of `coreRegistry`. -/
def coreDirectory : List DirEntry :=
  [⟨".", true⟩, ⟨"..", true⟩, ⟨"1.0.0", true⟩, ⟨"1.0.5", true⟩]

theorem coreDirectory_inBoth :
    InBoth coreRegistry "elm" "core" (some coreDirectory) [⟨1, 0, 5⟩, ⟨1, 0, 0⟩] where
  listed := by
    intro v
    unfold Registry.Lists
    have found : registryFind coreRegistry "elm" "core" =
        some ⟨"elm", "core", [⟨1, 0, 5⟩, ⟨1, 0, 0⟩]⟩ := by decide
    rw [found]
    simp
  cached := by decide
  others := by
    have dot : versionParseSafe "." = none := by decide
    have dots : versionParseSafe ".." = none := by decide
    have first : versionParseSafe "1.0.0" = some ⟨1, 0, 0⟩ := by decide
    have last : versionParseSafe "1.0.5" = some ⟨1, 0, 5⟩ := by decide
    intro entry member v parsed
    simp only [coreDirectory, Option.getD_some, List.mem_cons, List.not_mem_nil, or_false]
      at member
    rcases member with rfl | rfl | rfl | rfl
    · cases dot.symm.trans parsed
    · cases dots.symm.trans parsed
    · cases first.symm.trans parsed
      decide
    · cases last.symm.trans parsed
      decide

theorem pickTheSame_iff_range :
    PickTheSame coreRegistry "elm" "core" (some coreDirectory) [⟨1, 0, 5⟩, ⟨1, 0, 0⟩]
        "1.0.0 <= v < 2.0.0" ↔
      (rangeBetween ⟨1, 0, 0⟩ ⟨2, 0, 0⟩).upper.inclusive = false ∨
        (versionIsConstraint "1.0.0 <= v < 2.0.0" = true ∧
          (rangeBetween ⟨1, 0, 0⟩ ⟨2, 0, 0⟩).lower.v ∉ ([⟨1, 0, 5⟩, ⟨1, 0, 0⟩] : List Version)) :=
  pickTheSame_iff coreRegistry_nonAscending coreDirectory_inBoth (by decide)

/-- A version that is listed and in the cache is not found in the directories. -/
theorem pickTheSame_fails :
    InBoth coreRegistry "elm" "core" (some coreDirectory) [⟨1, 0, 5⟩, ⟨1, 0, 0⟩] ∧
      versionParseConstraint "1.0.0" = some (versionRangeExact ⟨1, 0, 0⟩) ∧
      ¬ PickTheSame coreRegistry "elm" "core" (some coreDirectory) [⟨1, 0, 5⟩, ⟨1, 0, 0⟩]
        "1.0.0" := by
  have parsed : versionParseConstraint "1.0.0" = some (versionRangeExact ⟨1, 0, 0⟩) := by decide
  refine ⟨coreDirectory_inBoth, parsed, ?_⟩
  rintro ⟨result, picks, _, files, _⟩
  rw [resolveVersionFromFilesystem_exact parsed] at files
  subst files
  refine picks.failure.mp rfl ⟨1, 0, 0⟩ (by decide) ((admits_range parsed _).mpr ?_)
  exact versionInRange_exact.mpr rfl

end ElmWrap
