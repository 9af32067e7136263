import ElmWrap.CJson
import ElmWrap.PackageName

/-!
# The manifest of a mirror

`mirror_manifest.c`: the versions a mirror holds with their hashes, and the file
they are kept in. The file is given by the value cJSON reads from it; a character
of a name stands for a byte.
-/

namespace ElmWrap.Mirror

open Lib (Json)

/-! ## In memory -/

/-- `MirrorVersionEntry`. -/
structure MirrorVersionEntry where
  version : String
  hash : String
  url : Option String
deriving DecidableEq

/-- `MirrorPackageEntry`. -/
structure MirrorPackageEntry where
  author : String
  name : String
  versions : List MirrorVersionEntry
deriving DecidableEq

/-- `MirrorManifest`. -/
structure MirrorManifest where
  generated : Option String
  source : Option String
  packages : List MirrorPackageEntry
deriving DecidableEq

/-- `mirror_manifest_create`. -/
def mirrorManifestCreate : MirrorManifest := ⟨none, none, []⟩

/-- The version entry `mirror_manifest_add` replaces or appends. -/
def putVersion (entry : MirrorVersionEntry) : List MirrorVersionEntry → List MirrorVersionEntry
  | [] => [entry]
  | old :: rest =>
    if old.version = entry.version then { old with hash := entry.hash, url := entry.url } :: rest
    else old :: putVersion entry rest

/-- The package `find_or_create_package` gives, with the version put into it. -/
def putPackage (author name : String) (entry : MirrorVersionEntry) :
    List MirrorPackageEntry → List MirrorPackageEntry
  | [] => [⟨author, name, [entry]⟩]
  | pkg :: rest =>
    if pkg.author = author ∧ pkg.name = name then
      { pkg with versions := putVersion entry pkg.versions } :: rest
    else pkg :: putPackage author name entry rest

/-- `mirror_manifest_add`. -/
def mirrorManifestAdd (m : MirrorManifest) (author name version hash : String)
    (url : Option String) : MirrorManifest :=
  { m with packages := putPackage author name ⟨version, hash, url⟩ m.packages }

/-- `mirror_manifest_lookup`. -/
def mirrorManifestLookup (m : MirrorManifest) (author name version : String) : Option String :=
  match m.packages.find? fun pkg => pkg.author = author ∧ pkg.name = name with
  | none => none
  | some pkg =>
    (pkg.versions.find? fun entry => entry.version = version).map MirrorVersionEntry.hash

/-- `mirror_manifest_set_generated`. -/
def mirrorManifestSetGenerated (m : MirrorManifest) (timestamp : Option String) :
    MirrorManifest :=
  match timestamp with
  | none => m
  | some timestamp => { m with generated := some timestamp }

/-- `mirror_manifest_set_source`. -/
def mirrorManifestSetSource (m : MirrorManifest) (source : String) : MirrorManifest :=
  { m with source := some source }

/-! ## The file -/

/-- The key of a package, which is cut to the buffer it is printed to. -/
def pkgKey (author name : String) : String :=
  String.ofList ((author.toList ++ '/' :: name.toList).take (maxPackageNameLength - 1))

/-- A member for a text that is there. -/
def textMember (name : String) : Option String → List (String × Json)
  | none => []
  | some text => [(name, .string text)]

def versionMember (entry : MirrorVersionEntry) : String × Json :=
  (entry.version, .object (("hash", .string entry.hash) :: textMember "url" entry.url))

def packageMember (pkg : MirrorPackageEntry) : String × Json :=
  (pkgKey pkg.author pkg.name, .object (pkg.versions.map versionMember))

/-- What `mirror_manifest_write_json` writes. -/
def mirrorManifestWriteJson (m : MirrorManifest) : Json :=
  .object (textMember "generated" m.generated ++ textMember "source" m.source ++
    [("packages", .object (m.packages.map packageMember))])

/-- The arguments of a call of `mirror_manifest_add`. -/
structure MirrorManifestEntry where
  author : String
  name : String
  entry : MirrorVersionEntry
deriving DecidableEq

/-- What `mirror_manifest_load_json` adds for a member of a package. -/
def loadVersion (author name : String) (child : Option String × Json) :
    Option MirrorManifestEntry :=
  match child with
  | (some version, .object members) =>
    match (getObjectItem (.object members) "hash").bind Json.text? with
    | none => none
    | some hash =>
      some ⟨author, name, version, hash, (getObjectItem (.object members) "url").bind Json.text?⟩
  | _ => none

/-- What `mirror_manifest_load_json` adds for a member of `packages`. -/
def loadPackage (member : String × Json) : List MirrorManifestEntry :=
  match cutAt '/' member.1.toList with
  | none => []
  | some (author, name) =>
    member.2.children.filterMap (loadVersion (String.ofList author) (String.ofList name))

/-- What `mirror_manifest_load_json` adds, in its order. -/
def loadEntries (root : Json) : List MirrorManifestEntry :=
  match getObjectItem root "packages" with
  | some (.object members) => members.flatMap loadPackage
  | _ => []

/-- `mirror_manifest_load_json`, for a file that is read and parsed. -/
def mirrorManifestLoadJson (root : Json) : MirrorManifest :=
  (loadEntries root).foldl
    (fun m e => mirrorManifestAdd m e.author e.name e.entry.version e.entry.hash e.entry.url)
    { mirrorManifestCreate with
      generated := (getObjectItem root "generated").bind Json.text?
      source := (getObjectItem root "source").bind Json.text? }

/-! ## What a manifest holds -/

/-- The manifest has a hash for a version. -/
def MirrorManifest.Holds (m : MirrorManifest) (author name version : String) : Prop :=
  (mirrorManifestLookup m author name version).isSome

instance (m : MirrorManifest) (author name version : String) :
    Decidable (m.Holds author name version) :=
  inferInstanceAs (Decidable (_ = true))

theorem find_putVersion (entry : MirrorVersionEntry) (version : String)
    (versions : List MirrorVersionEntry) :
    ((putVersion entry versions).find? fun e => e.version = version).isSome =
      ((versions.find? fun e => e.version = version).isSome || entry.version = version) := by
  induction versions with
  | nil => by_cases same : entry.version = version <;> simp [putVersion, same]
  | cons old rest ih =>
    unfold putVersion
    split
    · rename_i replaced
      by_cases same : old.version = version <;> simp [← replaced, same]
    · by_cases same : old.version = version
      · simp [same]
      · simpa [List.find?_cons, same] using ih

/-- The versions held for a package. -/
def heldVersions (author name : String) (packages : List MirrorPackageEntry) :
    List MirrorVersionEntry :=
  ((packages.find? fun pkg => pkg.author = author ∧ pkg.name = name).map
    MirrorPackageEntry.versions).getD []

theorem MirrorManifest.holds_iff {m : MirrorManifest} {author name version : String} :
    m.Holds author name version ↔
      ((heldVersions author name m.packages).find? fun e => e.version = version).isSome := by
  unfold MirrorManifest.Holds mirrorManifestLookup heldVersions
  cases m.packages.find? fun pkg => pkg.author = author ∧ pkg.name = name <;> simp

theorem heldVersions_putPackage (author name : String) (entry : MirrorVersionEntry)
    (author' name' : String) (packages : List MirrorPackageEntry) :
    heldVersions author' name' (putPackage author name entry packages) =
      if author = author' ∧ name = name' then
        putVersion entry (heldVersions author' name' packages)
      else heldVersions author' name' packages := by
  induction packages with
  | nil =>
    by_cases same : author = author' ∧ name = name'
    · simp [heldVersions, putPackage, putVersion, same]
    · rw [if_neg same]
      simp only [heldVersions, putPackage, List.find?_cons, List.find?_nil, decide_eq_false same]
  | cons pkg rest ih =>
    unfold putPackage
    split
    · rename_i found
      obtain ⟨rfl, rfl⟩ := found
      by_cases same : pkg.author = author' ∧ pkg.name = name'
      · simp [heldVersions, same]
      · rw [if_neg same]
        simp only [heldVersions, List.find?_cons, decide_eq_false same]
    · rename_i other
      by_cases here : pkg.author = author' ∧ pkg.name = name'
      · have different : ¬ (author = author' ∧ name = name') := by
          rintro ⟨rfl, rfl⟩
          exact other here
        rw [if_neg different]
        simp only [heldVersions, List.find?_cons, decide_eq_true here]
      · simpa only [heldVersions, List.find?_cons, decide_eq_false here] using ih

/-- Adding a version makes the manifest hold it, and changes nothing else of what it holds. -/
theorem holds_mirrorManifestAdd (m : MirrorManifest) (author name version hash : String)
    (url : Option String) {author' name' version' : String} :
    (mirrorManifestAdd m author name version hash url).Holds author' name' version' ↔
      m.Holds author' name' version' ∨ author = author' ∧ name = name' ∧ version = version' := by
  rw [MirrorManifest.holds_iff, MirrorManifest.holds_iff]
  simp only [mirrorManifestAdd, heldVersions_putPackage]
  by_cases same : author = author' ∧ name = name'
  · rw [if_pos same, find_putVersion]
    simp [same]
  · rw [if_neg same]
    constructor
    · exact .inl
    · rintro (held | ⟨author, name, -⟩)
      · exact held
      · exact absurd ⟨author, name⟩ same

theorem holds_foldl_add (entries : List MirrorManifestEntry) (m : MirrorManifest)
    {author name version : String} :
    (entries.foldl (fun m e => mirrorManifestAdd m e.author e.name e.entry.version e.entry.hash
      e.entry.url) m).Holds author name version ↔
      m.Holds author name version ∨
        ∃ e ∈ entries, e.author = author ∧ e.name = name ∧ e.entry.version = version := by
  induction entries generalizing m with
  | nil => simp
  | cons e entries ih => simp [ih, holds_mirrorManifestAdd, or_assoc]

/-- A manifest that is read holds what its file lists. -/
theorem holds_mirrorManifestLoadJson {root : Json} {author name version : String} :
    (mirrorManifestLoadJson root).Holds author name version ↔
      ∃ e ∈ loadEntries root, e.author = author ∧ e.name = name ∧ e.entry.version = version := by
  unfold mirrorManifestLoadJson
  rw [holds_foldl_add]
  constructor
  · rintro (held | found)
    · cases held
    · exact found
  · exact .inr

/-! ## Reading back what is written -/

/-- The name of a package keeps its parts in a key of the file. -/
structure Storable (author name : String) : Prop where
  plain : '/' ∉ author.toList
  short : author.toList.length + 1 + name.toList.length < maxPackageNameLength

instance (author name : String) : Decidable (Storable author name) :=
  decidable_of_iff ('/' ∉ author.toList ∧
      author.toList.length + 1 + name.toList.length < maxPackageNameLength)
    ⟨fun fits => ⟨fits.1, fits.2⟩, fun fits => ⟨fits.plain, fits.short⟩⟩

theorem loadEntries_write (m : MirrorManifest) :
    loadEntries (mirrorManifestWriteJson m) =
      m.packages.flatMap fun pkg => loadPackage (packageMember pkg) := by
  have generated : (lowered "generated" = lowered "packages") = False := by decide
  have source : (lowered "source" = lowered "packages") = False := by decide
  have found : getObjectItem (mirrorManifestWriteJson m) "packages" =
      some (.object (m.packages.map packageMember)) := by
    unfold getObjectItem mirrorManifestWriteJson
    cases m.generated <;> cases m.source <;>
      simp [Json.children, textMember, generated, source]
  unfold loadEntries
  rw [found]
  simp only [List.flatMap_map]

/-- A version is read back from its member, with the parts of the key. -/
theorem loadVersion_versionMember (author name : String) (entry : MirrorVersionEntry) :
    loadVersion author name (some (versionMember entry).1, (versionMember entry).2) =
      some ⟨author, name, entry⟩ := by
  have hash : (lowered "hash" = lowered "url") = False := by decide
  obtain ⟨version, hash', url⟩ := entry
  cases url <;>
    simp [loadVersion, versionMember, getObjectItem, Json.children, textMember, Json.text?, hash]

theorem loadPackage_packageMember (pkg : MirrorPackageEntry) :
    loadPackage (packageMember pkg) =
      match cutAt '/' (pkgKey pkg.author pkg.name).toList with
      | none => []
      | some (author, name) =>
        pkg.versions.map fun entry => ⟨String.ofList author, String.ofList name, entry⟩ := by
  unfold loadPackage packageMember
  cases cutAt '/' (pkgKey pkg.author pkg.name).toList with
  | none => rfl
  | some parts =>
    simp only [Json.children, List.map_map, List.filterMap_map]
    rw [← List.filterMap_eq_map]
    exact List.filterMap_congr fun entry _ => loadVersion_versionMember _ _ entry

theorem cutAt_pkgKey {author name : String} (storable : Storable author name) :
    cutAt '/' (pkgKey author name).toList = some (author.toList, name.toList) := by
  have short := storable.short
  have whole : (author.toList ++ '/' :: name.toList).length ≤ maxPackageNameLength - 1 := by
    simp only [List.length_append, List.length_cons]
    omega
  rw [pkgKey, String.toList_ofList, List.take_of_length_le whole, cutAt_append storable.plain]

/-- What is written of a storable name is held when it is read back. -/
theorem MirrorManifest.Holds.reload {m : MirrorManifest} {author name version : String}
    (held : m.Holds author name version) (storable : Storable author name) :
    (mirrorManifestLoadJson (mirrorManifestWriteJson m)).Holds author name version := by
  rw [MirrorManifest.holds_iff, heldVersions] at held
  cases found : m.packages.find? fun pkg => pkg.author = author ∧ pkg.name = name with
  | none =>
    rw [found] at held
    cases held
  | some pkg =>
    rw [found] at held
    obtain ⟨entry, there⟩ := Option.isSome_iff_exists.mp held
    have same := List.find?_some found
    obtain ⟨rfl, rfl⟩ := of_decide_eq_true same
    rw [holds_mirrorManifestLoadJson, loadEntries_write]
    have version := of_decide_eq_true (List.find?_some there :)
    refine ⟨⟨pkg.author, pkg.name, entry⟩, ?_, rfl, rfl, version⟩
    refine List.mem_flatMap.mpr ⟨pkg, List.mem_of_find?_eq_some found, ?_⟩
    rw [loadPackage_packageMember, cutAt_pkgKey storable]
    simpa using List.mem_of_find?_eq_some there

/-- A name that is read from a file of `mirror_manifest_write_json` is storable. -/
theorem MirrorManifest.Holds.storable {m : MirrorManifest} {author name version : String}
    (held : (mirrorManifestLoadJson (mirrorManifestWriteJson m)).Holds author name version) :
    Storable author name := by
  rw [holds_mirrorManifestLoadJson, loadEntries_write] at held
  obtain ⟨e, listed, rfl, rfl, -⟩ := held
  obtain ⟨pkg, -, member⟩ := List.mem_flatMap.mp listed
  rw [loadPackage_packageMember] at member
  split at member
  · cases member
  · rename_i author name cut
    obtain ⟨entry, -, rfl⟩ := List.mem_map.mp member
    have key := cutAt_some cut
    have length : (pkgKey pkg.author pkg.name).toList.length ≤ maxPackageNameLength - 1 := by
      rw [pkgKey, String.toList_ofList]
      exact List.length_take_le _ _
    rw [key, List.length_append, List.length_cons] at length
    constructor
    · rw [String.toList_ofList]
      exact not_mem_of_cutAt cut
    · have positive : 0 < maxPackageNameLength := by decide
      simp only [String.toList_ofList]
      omega

end ElmWrap.Mirror
