import Mathlib.Data.List.Nodup
import ElmWrap.CJsonPrint
import ElmWrap.Mirror.MirrorManifest

/-!
# The file of a mirror's manifest

`mirror_manifest_write_json` prints a manifest with cJSON, and `mirror_manifest_load_json`
parses a file that is not too large. A manifest comes back exactly when the keys of its
packages keep their parts and its file is not too large.
-/

namespace ElmWrap.Mirror

open Lib (Json)
open Lib.JsonText

/-! ## Writing and loading -/

/-- `MAX_LARGE_BUFFER_LENGTH`. -/
def maxLargeBufferLength : Nat := 65536

/-- The file `mirror_manifest_write_json` writes. -/
def mirrorManifestText (printNumber : String → List Char) (m : MirrorManifest) : List Char :=
  cjsonPrint printNumber (mirrorManifestWriteJson m)

/-- `mirror_manifest_load_json` on the contents of a file. -/
def mirrorManifestLoad (contents : List Char) : Option MirrorManifest :=
  if maxLargeBufferLength * 64 < contents.length then none
  else (cjsonParse contents).map mirrorManifestLoadJson

/-- A call that changes a manifest. -/
inductive ManifestCall
  | add (author name version hash : String) (url : Option String)
  | setGenerated (timestamp : Option String)
  | setSource (source : String)
deriving DecidableEq

def ManifestCall.run (m : MirrorManifest) : ManifestCall → MirrorManifest
  | add author name version hash url => mirrorManifestAdd m author name version hash url
  | setGenerated timestamp => mirrorManifestSetGenerated m timestamp
  | setSource source => mirrorManifestSetSource m source

/-- The arguments of a call are C strings. -/
def ManifestCall.Strings : ManifestCall → Prop
  | add author name version hash url => NulFree author ∧ NulFree name ∧ NulFree version ∧
      NulFree hash ∧ ∀ text ∈ url, NulFree text
  | setGenerated timestamp => ∀ text ∈ timestamp, NulFree text
  | setSource source => NulFree source

instance : DecidablePred ManifestCall.Strings
  | .add author name version hash url => inferInstanceAs (Decidable (NulFree author ∧
      NulFree name ∧ NulFree version ∧ NulFree hash ∧ ∀ text ∈ url, NulFree text))
  | .setGenerated timestamp => inferInstanceAs (Decidable (∀ text ∈ timestamp, NulFree text))
  | .setSource source => inferInstanceAs (Decidable (NulFree source))

/-- The manifest that calls build from a new one. -/
def builtManifest (calls : List ManifestCall) : MirrorManifest :=
  calls.foldl ManifestCall.run mirrorManifestCreate

/-! ## The length of the file -/

/-- `escape_characters` of `print_string_ptr`, for one character. -/
def escapeCharacters (c : Char) : Nat :=
  if c = '"' ∨ c = '\\' ∨ c = '\x08' ∨ c = '\x0c' ∨ c = '\n' ∨ c = '\r' ∨ c = '\t' then 1
  else if c.toNat < 32 then 5
  else 0

/-- The length of a string in quotes. -/
def printedLength (text : String) : Nat :=
  2 + (text.toList.map fun c => 1 + escapeCharacters c).sum

/-- The length of an object, given those of its names and values. -/
def objectLength (depth : Nat) (members : List (Nat × Nat)) : Nat :=
  3 + depth + (members.map fun m => depth + 1 + m.1 + 2 + m.2 + 1).sum + (members.length - 1)

/-- The length of a member for a text that is there. -/
def textLength (name : String) : Option String → List (Nat × Nat)
  | none => []
  | some text => [(printedLength name, printedLength text)]

def MirrorVersionEntry.length (entry : MirrorVersionEntry) : Nat :=
  objectLength 3 ((printedLength "hash", printedLength entry.hash) :: textLength "url" entry.url)

def MirrorPackageEntry.length (pkg : MirrorPackageEntry) : Nat :=
  objectLength 2 (pkg.versions.map fun entry => (printedLength entry.version, entry.length))

/-- The length of the file of a manifest. -/
def MirrorManifest.fileLength (m : MirrorManifest) : Nat :=
  objectLength 0 (textLength "generated" m.generated ++ textLength "source" m.source ++
    [(printedLength "packages",
      objectLength 1 (m.packages.map fun pkg =>
        (printedLength (pkgKey pkg.author pkg.name), pkg.length)))])

theorem length_printChar (c : Char) : (printChar c).length = 1 + escapeCharacters c := by
  by_cases short : c = '"' ∨ c = '\\' ∨ c = '\x08' ∨ c = '\x0c' ∨ c = '\n' ∨ c = '\r' ∨ c = '\t'
  · rcases short with rfl | rfl | rfl | rfl | rfl | rfl | rfl <;> rfl
  · rw [escapeCharacters, if_neg short, printChar]
    simp only [not_or] at short
    obtain ⟨quote, slash, back, feed, line, ret, tab⟩ := short
    by_cases control : c.toNat < 32
    · rw [if_neg fun plain => absurd plain.1 (by omega), if_neg slash, if_neg quote, if_neg back,
        if_neg feed, if_neg line, if_neg ret, if_neg tab, if_pos control]
      rfl
    · rw [if_pos ⟨by omega, quote, slash⟩, if_neg control]
      rfl

theorem length_printString (text : String) :
    (printString text).length = printedLength text := by
  simp only [printString, printedLength, List.length_append, List.length_cons, List.length_nil,
    List.length_flatMap, length_printChar]
  omega

section

variable {printNumber : String → List Char}

theorem length_printMembers (depth : Nat) (members : List (String × Json)) :
    (printMembers printNumber depth members).length =
      (members.map fun m => depth + printedLength m.1 + 2 +
        (printValue printNumber depth m.2).length + 1).sum + (members.length - 1) := by
  induction members with
  | nil => rfl
  | cons member members ih =>
    obtain ⟨name, value⟩ := member
    rw [printMembers, printMember]
    simp only [List.length_append, List.length_cons, List.length_nil, length_printString, ih,
      tabs, List.length_replicate, List.map_cons, List.sum_cons]
    cases members with
    | nil => simp; omega
    | cons next members => simp; omega

theorem length_printObject (depth : Nat) (members : List (String × Json)) :
    (printValue printNumber depth (.object members)).length =
      objectLength depth (members.map fun m =>
        (printedLength m.1, (printValue printNumber (depth + 1) m.2).length)) := by
  rw [printValue, objectLength]
  simp only [List.length_append, List.length_cons, List.length_nil, length_printMembers, tabs,
    List.length_replicate, List.map_map, List.length_map, Function.comp_def]
  omega

theorem textMember_lengths (depth : Nat) (name : String) (text : Option String) :
    (textMember name text).map (fun m =>
      (printedLength m.1, (printValue printNumber depth m.2).length)) = textLength name text := by
  cases text with
  | none => rfl
  | some text =>
    simp only [textMember, textLength, List.map_cons, List.map_nil, printValue,
      length_printString]

theorem length_mirrorManifestText (m : MirrorManifest) :
    (mirrorManifestText printNumber m).length = m.fileLength := by
  have version : ∀ entry : MirrorVersionEntry,
      (printValue printNumber 3 (versionMember entry).2).length = entry.length := by
    intro entry
    rw [versionMember, length_printObject, List.map_cons, textMember_lengths, printValue,
      length_printString]
    rfl
  have package : ∀ pkg : MirrorPackageEntry,
      (printValue printNumber 2 (packageMember pkg).2).length = pkg.length := by
    intro pkg
    rw [packageMember, length_printObject, List.map_map]
    simp only [Function.comp_def, version]
    rfl
  rw [mirrorManifestText, cjsonPrint, mirrorManifestWriteJson, length_printObject, List.map_append,
    List.map_append, textMember_lengths, textMember_lengths]
  simp only [List.map_cons, List.map_nil, length_printObject, List.map_map, Function.comp_def,
    package]
  rfl

end

/-! ## Manifests that calls build -/

/-- What holds of every manifest that calls build. -/
structure MirrorManifest.Built (m : MirrorManifest) : Prop where
  names : (m.packages.map fun pkg => (pkg.author, pkg.name)).Nodup
  some : ∀ pkg ∈ m.packages, pkg.versions ≠ []
  versions : ∀ pkg ∈ m.packages, (pkg.versions.map MirrorVersionEntry.version).Nodup

/-- All strings of a manifest are C strings. -/
structure MirrorManifest.Strings (m : MirrorManifest) : Prop where
  generated : ∀ text ∈ m.generated, NulFree text
  source : ∀ text ∈ m.source, NulFree text
  names : ∀ pkg ∈ m.packages, NulFree pkg.author ∧ NulFree pkg.name
  entries : ∀ pkg ∈ m.packages, ∀ entry ∈ pkg.versions,
    NulFree entry.version ∧ NulFree entry.hash ∧ ∀ text ∈ entry.url, NulFree text

theorem versions_putVersion (entry : MirrorVersionEntry) (versions : List MirrorVersionEntry) :
    (putVersion entry versions).map MirrorVersionEntry.version =
      if entry.version ∈ versions.map MirrorVersionEntry.version then
        versions.map MirrorVersionEntry.version
      else versions.map MirrorVersionEntry.version ++ [entry.version] := by
  induction versions with
  | nil => rfl
  | cons old rest ih =>
    rw [putVersion]
    by_cases same : old.version = entry.version
    · rw [if_pos same, if_pos (by simp [same])]
      rfl
    · rw [if_neg same, List.map_cons, ih]
      by_cases listed : entry.version ∈ rest.map MirrorVersionEntry.version
      · have there : entry.version ∈ (old :: rest).map MirrorVersionEntry.version :=
          List.mem_cons_of_mem _ listed
        rw [if_pos listed, if_pos there]
        rfl
      · have fresh : entry.version ∉ (old :: rest).map MirrorVersionEntry.version := by
          rw [List.map_cons, List.mem_cons, not_or]
          exact ⟨fun here => same here.symm, listed⟩
        rw [if_neg listed, if_neg fresh]
        rfl

theorem mem_putVersion {entry other : MirrorVersionEntry} {versions : List MirrorVersionEntry}
    (member : other ∈ putVersion entry versions) :
    other ∈ versions ∨ other.version = entry.version ∧ other.hash = entry.hash ∧
      other.url = entry.url := by
  induction versions with
  | nil => exact Or.inr (List.mem_singleton.mp member ▸ ⟨rfl, rfl, rfl⟩)
  | cons old rest ih =>
    rw [putVersion] at member
    split at member
    · rename_i same
      rcases List.mem_cons.mp member with rfl | there
      · exact Or.inr ⟨same, rfl, rfl⟩
      · exact Or.inl (List.mem_cons_of_mem _ there)
    · rcases List.mem_cons.mp member with rfl | there
      · exact Or.inl List.mem_cons_self
      · exact (ih there).imp_left (List.mem_cons_of_mem _)

theorem names_putPackage (author name : String) (entry : MirrorVersionEntry)
    (packages : List MirrorPackageEntry) :
    (putPackage author name entry packages).map (fun pkg => (pkg.author, pkg.name)) =
      if (author, name) ∈ packages.map (fun pkg => (pkg.author, pkg.name)) then
        packages.map fun pkg => (pkg.author, pkg.name)
      else packages.map (fun pkg => (pkg.author, pkg.name)) ++ [(author, name)] := by
  induction packages with
  | nil => rfl
  | cons pkg rest ih =>
    rw [putPackage]
    by_cases same : pkg.author = author ∧ pkg.name = name
    · rw [if_pos same, if_pos (by simp [same])]
      rfl
    · rw [if_neg same, List.map_cons, ih]
      by_cases listed : (author, name) ∈ rest.map fun pkg => (pkg.author, pkg.name)
      · have there : (author, name) ∈ (pkg :: rest).map fun pkg => (pkg.author, pkg.name) :=
          List.mem_cons_of_mem _ listed
        rw [if_pos listed, if_pos there]
        rfl
      · have fresh : (author, name) ∉ (pkg :: rest).map fun pkg => (pkg.author, pkg.name) := by
          rw [List.map_cons, List.mem_cons, not_or]
          exact ⟨fun here => same ⟨(congrArg Prod.fst here).symm, (congrArg Prod.snd here).symm⟩,
            listed⟩
        rw [if_neg listed, if_neg fresh]
        rfl

/-- A package after an addition was there before, with the version put into it, or is new. -/
theorem mem_putPackage {author name : String} {entry : MirrorVersionEntry}
    {pkg : MirrorPackageEntry} {packages : List MirrorPackageEntry}
    (member : pkg ∈ putPackage author name entry packages) :
    pkg ∈ packages ∨ pkg.author = author ∧ pkg.name = name ∧
      ∃ versions, pkg.versions = putVersion entry versions ∧
        (versions = [] ∨ ∃ old ∈ packages, old.versions = versions) := by
  induction packages with
  | nil =>
    rw [List.mem_singleton.mp member]
    exact Or.inr ⟨rfl, rfl, [], rfl, Or.inl rfl⟩
  | cons old rest ih =>
    rw [putPackage] at member
    split at member
    · rename_i same
      rcases List.mem_cons.mp member with rfl | there
      · exact Or.inr ⟨same.1, same.2, _, rfl, Or.inr ⟨old, List.mem_cons_self, rfl⟩⟩
      · exact Or.inl (List.mem_cons_of_mem _ there)
    · rcases List.mem_cons.mp member with rfl | there
      · exact Or.inl List.mem_cons_self
      · rcases ih there with before | ⟨sameAuthor, sameName, versions, put, origin⟩
        · exact Or.inl (List.mem_cons_of_mem _ before)
        · refine Or.inr ⟨sameAuthor, sameName, versions, put, origin.imp_right ?_⟩
          rintro ⟨other, listed, same⟩
          exact ⟨other, List.mem_cons_of_mem _ listed, same⟩

theorem MirrorManifest.Built.add {m : MirrorManifest} (built : m.Built)
    (author name version hash : String) (url : Option String) :
    (mirrorManifestAdd m author name version hash url).Built where
  names := by
    rw [mirrorManifestAdd, names_putPackage]
    split
    · exact built.names
    · rename_i fresh
      exact List.concat_eq_append ▸ List.Nodup.concat fresh built.names
  some pkg member := by
    rcases mem_putPackage member with before | ⟨-, -, versions, put, -⟩
    · exact built.some pkg before
    · rw [put]
      cases versions with
      | nil => exact List.cons_ne_nil _ _
      | cons old rest =>
        rw [putVersion]
        split <;> exact List.cons_ne_nil _ _
  versions pkg member := by
    rcases mem_putPackage member with before | ⟨-, -, versions, put, origin⟩
    · exact built.versions pkg before
    · have distinct : (versions.map MirrorVersionEntry.version).Nodup := by
        rcases origin with rfl | ⟨old, listed, rfl⟩
        · exact List.nodup_nil
        · exact built.versions old listed
      rw [put, versions_putVersion]
      split
      · exact distinct
      · rename_i fresh
        exact List.concat_eq_append ▸ List.Nodup.concat fresh distinct

theorem MirrorManifest.Strings.add {m : MirrorManifest} (strings : m.Strings)
    {author name version hash : String} {url : Option String} (authored : NulFree author)
    (named : NulFree name) (versioned : NulFree version) (hashed : NulFree hash)
    (located : ∀ text ∈ url, NulFree text) :
    (mirrorManifestAdd m author name version hash url).Strings where
  generated := strings.generated
  source := strings.source
  names pkg member := by
    rcases mem_putPackage member with before | ⟨rfl, rfl, -⟩
    · exact strings.names pkg before
    · exact ⟨authored, named⟩
  entries pkg member entry listed := by
    rcases mem_putPackage member with before | ⟨-, -, versions, put, origin⟩
    · exact strings.entries pkg before entry listed
    · rw [put] at listed
      rcases mem_putVersion listed with old | ⟨version_eq, hash_eq, url_eq⟩
      · rcases origin with rfl | ⟨other, there, rfl⟩
        · cases old
        · exact strings.entries other there entry old
      · rw [version_eq, hash_eq, url_eq]
        exact ⟨versioned, hashed, located⟩

/-- What calls build is built, of C strings. -/
theorem builtManifest_spec {calls : List ManifestCall} (strings : ∀ call ∈ calls, call.Strings) :
    (builtManifest calls).Built ∧ (builtManifest calls).Strings := by
  have run : ∀ m : MirrorManifest, m.Built → m.Strings →
      (calls.foldl ManifestCall.run m).Built ∧ (calls.foldl ManifestCall.run m).Strings := by
    induction calls with
    | nil => exact fun m built all => ⟨built, all⟩
    | cons call calls ih =>
      intro m built all
      have here := strings call List.mem_cons_self
      refine ih (fun other member => strings other (List.mem_cons_of_mem _ member)) _ ?_ ?_
      · cases call with
        | add => exact built.add _ _ _ _ _
        | setGenerated timestamp => cases timestamp <;> exact ⟨built.1, built.2, built.3⟩
        | setSource => exact ⟨built.1, built.2, built.3⟩
      · cases call with
        | add => exact all.add here.1 here.2.1 here.2.2.1 here.2.2.2.1 here.2.2.2.2
        | setGenerated timestamp =>
          cases timestamp with
          | none => exact all
          | some text => exact ⟨here, all.source, all.names, all.entries⟩
        | setSource source =>
          refine ⟨all.generated, ?_, all.names, all.entries⟩
          rintro text ⟨rfl⟩
          exact here
  refine run _ ⟨List.nodup_nil, List.forall_mem_nil _, List.forall_mem_nil _⟩ ?_
  exact ⟨by rintro _ ⟨⟩, by rintro _ ⟨⟩, List.forall_mem_nil _, List.forall_mem_nil _⟩

end ElmWrap.Mirror
