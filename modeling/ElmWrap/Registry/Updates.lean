import ElmWrap.Registry.Contents

/-!
# Full and incremental updates

A package server publishes one version of a package after the other. It answers
`/all-packages` with everything published so far, and `/all-packages/since/n`
with what came after the first `n`. A registry that mirrors the first `n`
publications mirrors all of them once the second answer is applied, and a mirror
is unique: it is what the full answer of the later time gives.
-/

namespace ElmWrap

open Lib

/-- A published version of a package, as the server prints both: the version is one
that is read, and `@`, which separates the two in an answer, is not in the name. -/
structure Publication where
  package : String
  version : String
  plain : '@' ∉ package.toList
  readable : (versionParseSafe version).isSome = true

/-- `author/package@version`. -/
def Publication.text (p : Publication) : String := p.package ++ "@" ++ p.version

/-- What is read of a publication: nothing where `parse_package_name` refuses the
package. -/
def Publication.read (p : Publication) : Option (PackageName × Version) :=
  (parsePackageName p.package).map fun name => (name, versionParse p.version)

/-- An answer to `/all-packages`: an object of arrays of versions, in any order. -/
def AllPackagesDocument (published : List Publication) (json : Json) : Prop :=
  ∃ packages : List (String × List String),
    json = .object (packages.map fun p => (p.1, .array (p.2.map .string))) ∧
    (∀ p ∈ packages, p.2 ≠ []) ∧
    (packages.flatMap fun p => p.2.map fun version => (p.1, version)).Perm
      (published.map fun p => (p.package, p.version))

/-- An answer to `/all-packages/since/n`: an array of publications, in any order. -/
def SinceDocument (published : List Publication) (json : Json) : Prop :=
  ∃ texts : List String, json = .array (texts.map .string) ∧
    texts.Perm (published.map Publication.text)

/-- The registry holds what has been published, and nothing else. -/
structure Registry.Mirrors (registry : Registry) (published : List Publication) : Prop where
  wellFormed : registry.WellFormed
  sorted : registry.Sorted
  populated : registry.Populated
  count : registry.sinceCount = published.length
  has : ∀ author name version, registry.Has author name version ↔
    ∃ p ∈ published.filterMap Publication.read,
      p.1.author = author ∧ p.1.project = name ∧ p.2 = version

/-- A mirror is unique. -/
theorem Registry.Mirrors.unique {registry other : Registry} {published : List Publication}
    (left : registry.Mirrors published) (right : other.Mirrors published) : registry = other :=
  Registry.ext_has left.wellFormed right.wellFormed left.sorted right.sorted left.populated
    right.populated (left.count.trans right.count.symm)
    fun author name version =>
      (left.has author name version).trans (right.has author name version).symm

/-! ## The full answer -/

theorem mem_itemVersions {name : PackageName} {texts : List String} {p : PackageName × Version} :
    p ∈ itemVersions name (texts.map .string) ↔ ∃ text ∈ texts, p = (name, versionParse text) := by
  have all : (texts.map Json.string).filterMap Json.text? = texts := by
    rw [List.filterMap_map]
    exact List.filterMap_some
  unfold itemVersions
  rw [all]
  simp [eq_comm]

theorem mem_packageVersions {key : String} {texts : List String} {p : PackageName × Version} :
    p ∈ packageVersions (some key, .array (texts.map .string)) ↔
      ∃ text ∈ texts, (parsePackageName key).map (fun name => (name, versionParse text)) =
        some p := by
  unfold packageVersions
  simp only [Option.bind_some]
  cases parsePackageName key with
  | none => simp
  | some name =>
    dsimp only
    rw [mem_itemVersions]
    simp [eq_comm]

/-- What the members of the full answer say is what has been published. -/
theorem AllPackagesDocument.lists {published : List Publication} {json : Json}
    (document : AllPackagesDocument published json) (p : PackageName × Version) :
    p ∈ json.children.flatMap packageVersions ↔ p ∈ published.filterMap Publication.read := by
  obtain ⟨packages, rfl, _, listed⟩ := document
  have pairs : ∀ key version, (∃ q ∈ packages, q.1 = key ∧ version ∈ q.2) ↔
      ∃ q ∈ published, q.package = key ∧ q.version = version := by
    intro key version
    have same := listed.mem_iff (a := (key, version))
    simp only [List.mem_flatMap, List.mem_map, Prod.mk.injEq] at same
    constructor
    · intro ⟨q, on, key_eq, member⟩
      exact same.mp ⟨q, on, version, member, key_eq, rfl⟩
    · intro published
      obtain ⟨q, on, text, member, key_eq, version_eq⟩ := same.mpr published
      exact ⟨q, on, key_eq, version_eq ▸ member⟩
  unfold Json.children
  simp only [List.mem_flatMap, List.map_map, List.mem_map, List.mem_filterMap,
    Function.comp_apply, Publication.read]
  constructor
  · intro ⟨_, ⟨q, on, rfl⟩, member⟩
    obtain ⟨text, inside, read⟩ := mem_packageVersions.mp member
    obtain ⟨r, published, key_eq, version_eq⟩ := (pairs q.1 text).mp ⟨q, on, rfl, inside⟩
    exact ⟨r, published, by rw [key_eq, version_eq]; exact read⟩
  · intro ⟨r, published, read⟩
    obtain ⟨q, on, key_eq, inside⟩ := (pairs r.package r.version).mpr ⟨r, published, rfl, rfl⟩
    refine ⟨_, ⟨q, on, rfl⟩, mem_packageVersions.mpr ⟨r.version, inside, ?_⟩⟩
    rw [key_eq]
    exact read

theorem AllPackagesDocument.count {published : List Publication} {json : Json}
    (document : AllPackagesDocument published json) :
    (json.children.map packageCount).sum = published.length := by
  obtain ⟨packages, rfl, _, listed⟩ := document
  have lengths := listed.length_eq
  rw [List.length_flatMap, List.length_map] at lengths
  rw [← lengths]
  unfold Json.children
  simp [Function.comp_def, packageCount]

theorem AllPackagesDocument.not_opens {published : List Publication} {json : Json}
    (document : AllPackagesDocument published json) {package : Option String × Json}
    (member : package ∈ json.children) (author name : String) : ¬ Opens package author name := by
  obtain ⟨packages, rfl, nonempty, _⟩ := document
  intro ⟨key, items, accepted, same, _, _, _, empty⟩
  unfold Json.children at member
  simp only [List.map_map, List.mem_map, Function.comp_apply] at member
  obtain ⟨q, on, rfl⟩ := member
  obtain ⟨_, array⟩ := Prod.mk.inj same
  cases Json.array.inj array
  rw [List.filterMap_map] at empty
  apply nonempty q on
  exact List.filterMap_some.symm.trans empty

/-- Loading a full answer gives the mirror of what has been published. -/
theorem parseAllPackagesJson_mirrors {published : List Publication} {json : Json}
    (document : AllPackagesDocument published json) :
    (parseAllPackagesJson (some json) registryCreate).2 = decide (published.length ≤ sizeMax) ∧
    ((parseAllPackagesJson (some json) registryCreate).2 = true →
      (parseAllPackagesJson (some json) registryCreate).1.Mirrors published) := by
  rcases parseAllPackagesJson_eq json registryCreate with ⟨loaded, fits⟩ | ⟨_, _, failed, beyond⟩
  · rw [document.count] at loaded fits
    rw [loaded]
    refine ⟨(decide_eq_true fits).symm, fun _ => ?_⟩
    have read := Registry.WellFormed.create.readPackages json.children
    have wellFormed := read.setCount fits
    have contents := fun author name => Registry.versions_sort wellFormed author name
    exact {
      wellFormed := wellFormed.sorted
      sorted := Registry.sorted_sort wellFormed
      populated := by
        intro author name bare
        unfold Registry.Bare at bare
        rw [contents] at bare
        rcases Registry.bare_readPackages bare with old | ⟨package, member, opens⟩
        · cases old
        · exact document.not_opens member author name opens
      count := by rw [registrySortEntries_eq]
      has := by
        intro author name version
        unfold Registry.Has
        rw [contents]
        refine Registry.has_readPackages.trans ?_
        simp only [document.lists]
        simp [Registry.Has] }
  · rw [document.count] at beyond
    rw [failed]
    exact ⟨(decide_eq_false (Nat.not_le.mpr beyond)).symm, fun ok => by cases ok⟩

/-! ## The incremental answer -/

theorem parsePackageWithVersion_text (p : Publication) :
    parsePackageWithVersion p.text = p.read := by
  have text : p.text.toList = p.package.toList ++ '@' :: p.version.toList := by
    simp [Publication.text]
  obtain ⟨version, safe⟩ := Option.isSome_iff_exists.mp p.readable
  unfold parsePackageWithVersion Publication.read
  rw [text, cutAt_append p.plain, versionParse_of_safe safe]
  simp only [String.ofList_toList, safe]
  cases parsePackageName p.package with
  | none => rfl
  | some name => rfl

theorem SinceDocument.lists {published : List Publication} {texts : List String}
    (listed : texts.Perm (published.map Publication.text)) (p : PackageName × Version) :
    p ∈ sinceVersions (texts.map .string) ↔ p ∈ published.filterMap Publication.read := by
  have all : (texts.map Json.string).filterMap Json.text? = texts := by
    rw [List.filterMap_map]
    exact List.filterMap_some
  unfold sinceVersions
  rw [all, (listed.filterMap _).mem_iff, List.filterMap_map]
  simp only [Function.comp_def, parsePackageWithVersion_text]

/-- Applying an incremental answer to a mirror of what was published before gives,
once sorted, the mirror of everything. -/
theorem parseSinceResponse_mirrors {registry : Registry} {before after : List Publication}
    {json : Json} (mirrors : registry.Mirrors before) (document : SinceDocument after json) :
    (parseSinceResponse (some json) registry).2 =
        decide ((before ++ after).length ≤ sizeMax) ∧
    ((parseSinceResponse (some json) registry).2 = true →
      (registrySortEntries (parseSinceResponse (some json) registry).1).Mirrors
        (before ++ after)) := by
  obtain ⟨texts, rfl, listed⟩ := document
  have lengths : (texts.map Json.string).length = after.length := by
    rw [List.length_map, listed.length_eq, List.length_map]
  have counted := mirrors.wellFormed.counted
  rw [mirrors.count] at counted
  rw [parseSinceResponse_eq, lengths, mirrors.count, List.length_append]
  split
  · rename_i beyond
    exact ⟨(decide_eq_false (Nat.not_le.mpr beyond.1)).symm, fun ok => by cases ok⟩
  · rename_i room
    have fits : before.length + after.length ≤ sizeMax := by
      by_contra beyond
      apply room
      refine ⟨by omega, ?_⟩
      intro none
      rw [none, List.length_nil] at lengths
      omega
    refine ⟨(decide_eq_true fits).symm, fun _ => ?_⟩
    have wellFormed := (mirrors.wellFormed.addAll
      (sinceVersions (texts.map Json.string))).setCount fits
    have contents := fun author name => Registry.versions_sort wellFormed author name
    exact {
      wellFormed := wellFormed.sorted
      sorted := Registry.sorted_sort wellFormed
      populated := by
        intro author name bare
        unfold Registry.Bare at bare
        rw [contents] at bare
        exact mirrors.populated author name (Registry.bare_addAll.mp bare).1
      count := by rw [registrySortEntries_eq, List.length_append]
      has := by
        intro author name version
        unfold Registry.Has
        rw [contents]
        refine Registry.has_addAll.trans ?_
        simp only [SinceDocument.lists listed, mirrors.has, List.filterMap_append,
          List.mem_append, or_and_right, exists_or] }

theorem Registry.has_of_entries {registry other : Registry}
    (same : registry.entries = other.entries) {author name : String} {version : Version} :
    registry.Has author name version ↔ other.Has author name version := by
  unfold Registry.Has Registry.versions registryFind
  rw [same]

/-- Applying an answer again changes no entry, whatever came of it the first time. -/
theorem parseSinceResponse_again (json : Option Json) (registry : Registry) :
    (parseSinceResponse json (parseSinceResponse json registry).1).1.entries =
      (parseSinceResponse json registry).1.entries := by
  cases json with
  | none => rfl
  | some json =>
    cases json with
    | array items =>
      have first := parseSinceResponse_entries items registry
      have known : ∀ p ∈ sinceVersions items,
          (parseSinceResponse (some (.array items)) registry).1.Has
            p.1.author p.1.project p.2 := by
        intro p on
        apply (Registry.has_of_entries first).mpr
        exact Registry.has_addAll.mpr (Or.inr ⟨p, on, rfl, rfl, rfl⟩)
      rw [parseSinceResponse_entries, Registry.addAll_known known]
    | null => rfl
    | bool value => rfl
    | number literal => rfl
    | string value => rfl
    | object members => rfl

/-! ## Both paths lead to the same registry -/

/-- The full answer of a time and the incremental answer since then give what the
full answer of the later time gives, and both paths succeed together. An answer that
is applied again, whatever became of it before, changes no versions. -/
theorem incremental_update_is_full_update (history : List Publication) (n : Nat)
    {early since late : Json} (loaded : AllPackagesDocument (history.take n) early)
    (update : SinceDocument (history.drop n) since) (full : AllPackagesDocument history late) :
    let old := parseAllPackagesJson (some early) registryCreate
    let new := parseSinceResponse (some since) old.1
    let reloaded := parseAllPackagesJson (some late) registryCreate
    reloaded.2 = (old.2 && new.2) ∧
    (reloaded.2 = true → registrySortEntries new.1 = reloaded.1) ∧
    (parseSinceResponse (some since) new.1).1.entries = new.1.entries ∧
    ∀ response registry, (parseSinceResponse response
        (parseSinceResponse response registry).1).1.entries =
      (parseSinceResponse response registry).1.entries := by
  have parts : history.take n ++ history.drop n = history := List.take_append_drop n history
  have total := congrArg List.length parts
  rw [List.length_append] at total
  obtain ⟨oldOk, oldMirrors⟩ := parseAllPackagesJson_mirrors loaded
  obtain ⟨fullOk, fullMirrors⟩ := parseAllPackagesJson_mirrors full
  dsimp only
  refine ⟨?_, ?_, parseSinceResponse_again _ _, parseSinceResponse_again⟩
  · by_cases fits : (history.take n).length ≤ sizeMax
    · have mirrors := oldMirrors (oldOk.trans (decide_eq_true fits))
      obtain ⟨newOk, _⟩ := parseSinceResponse_mirrors mirrors update
      rw [newOk, parts, fullOk, oldOk, decide_eq_true fits, Bool.true_and]
    · rw [fullOk, oldOk, decide_eq_false fits, decide_eq_false (by omega), Bool.false_and]
  · intro ok
    rw [fullOk, decide_eq_true_eq] at ok
    have fits : (history.take n).length ≤ sizeMax := by omega
    have mirrors := oldMirrors (oldOk.trans (decide_eq_true fits))
    obtain ⟨newOk, newMirrors⟩ := parseSinceResponse_mirrors mirrors update
    rw [parts] at newOk newMirrors
    exact (newMirrors (newOk.trans (decide_eq_true ok))).unique
      (fullMirrors (fullOk.trans (decide_eq_true ok)))

def publishedCore : Publication := ⟨"elm/core", "1.0.0", by decide, by decide⟩

def publishedJson : Publication := ⟨"elm/json", "1.1.3", by decide, by decide⟩

/-- `elm/core` is published, then `elm/json`, then `elm/core` again. -/
def sampleHistory : List Publication := [
  publishedCore,
  publishedJson,
  ⟨"elm/core", "1.0.5", by decide, by decide⟩]

def sampleEarly : Json := .object [("elm/core", .array [.string "1.0.0"])]

def sampleSince : Json := .array [.string "elm/core@1.0.5", .string "elm/json@1.1.3"]

def sampleLate : Json := .object [
  ("elm/json", .array [.string "1.1.3"]),
  ("elm/core", .array [.string "1.0.0", .string "1.0.5"])]

theorem sampleHistory_update_is_full_update :
    registrySortEntries (parseSinceResponse (some sampleSince)
        (parseAllPackagesJson (some sampleEarly) registryCreate).1).1 =
      (parseAllPackagesJson (some sampleLate) registryCreate).1 :=
  (incremental_update_is_full_update sampleHistory 1
    ⟨[("elm/core", ["1.0.0"])], rfl, by decide, by decide⟩
    ⟨["elm/core@1.0.5", "elm/json@1.1.3"], rfl, by decide⟩
    ⟨[("elm/json", ["1.1.3"]), ("elm/core", ["1.0.0", "1.0.5"])], rfl, by decide,
      by decide⟩).2.1 (by decide)

end ElmWrap
