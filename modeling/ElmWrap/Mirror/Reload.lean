import Mathlib.Data.List.Induction
import ElmWrap.Mirror.ManifestFile

/-!
# Reloading a mirror's manifest

Loading adds what the file lists, in its order. Adding the versions of distinct packages
to a manifest rebuilds the packages one after the other.
-/

namespace ElmWrap.Mirror

open Lib (Json)
open Lib.JsonText

/-! ## Rebuilding packages -/

/-- The additions for the versions of a package. -/
def MirrorPackageEntry.additions (pkg : MirrorPackageEntry) : List MirrorManifestEntry :=
  pkg.versions.map fun entry => ⟨pkg.author, pkg.name, entry⟩

/-- The packages after additions. -/
def addAll (packages : List MirrorPackageEntry) (entries : List MirrorManifestEntry) :
    List MirrorPackageEntry :=
  entries.foldl (fun packages e => putPackage e.author e.name e.entry packages) packages

theorem addAll_append (packages : List MirrorPackageEntry)
    (first second : List MirrorManifestEntry) :
    addAll packages (first ++ second) = addAll (addAll packages first) second :=
  List.foldl_append

theorem foldl_mirrorManifestAdd (entries : List MirrorManifestEntry) (m : MirrorManifest) :
    entries.foldl (fun m e => mirrorManifestAdd m e.author e.name e.entry.version e.entry.hash
      e.entry.url) m = { m with packages := addAll m.packages entries } := by
  induction entries generalizing m with
  | nil => rfl
  | cons e entries ih => exact ih _

theorem putVersion_fresh {entry : MirrorVersionEntry} {versions : List MirrorVersionEntry}
    (fresh : entry.version ∉ versions.map MirrorVersionEntry.version) :
    putVersion entry versions = versions ++ [entry] := by
  induction versions with
  | nil => rfl
  | cons old rest ih =>
    rw [List.map_cons, List.mem_cons, not_or] at fresh
    rw [putVersion, if_neg fun same => fresh.1 same.symm, ih fresh.2]
    rfl

/-- Behind packages of other names, a package gets a version. -/
theorem putPackage_behind {author name : String} (entry : MirrorVersionEntry)
    {packages : List MirrorPackageEntry}
    (fresh : (author, name) ∉ packages.map fun pkg => (pkg.author, pkg.name))
    (rest : List MirrorPackageEntry) :
    putPackage author name entry (packages ++ rest) =
      packages ++ putPackage author name entry rest := by
  induction packages with
  | nil => rfl
  | cons pkg packages ih =>
    rw [List.map_cons, List.mem_cons, not_or] at fresh
    have other : ¬ (pkg.author = author ∧ pkg.name = name) := by
      rintro ⟨rfl, rfl⟩
      exact fresh.1 rfl
    rw [List.cons_append, putPackage, if_neg other, ih fresh.2]
    rfl

theorem addAll_versions {author name : String} {packages : List MirrorPackageEntry}
    (fresh : (author, name) ∉ packages.map fun pkg => (pkg.author, pkg.name))
    (before versions : List MirrorVersionEntry)
    (distinct : ((before ++ versions).map MirrorVersionEntry.version).Nodup) :
    addAll (packages ++ [⟨author, name, before⟩])
        (versions.map fun entry => ⟨author, name, entry⟩) =
      packages ++ [⟨author, name, before ++ versions⟩] := by
  induction versions generalizing before with
  | nil =>
    rw [List.append_nil]
    rfl
  | cons entry versions ih =>
    have new : entry.version ∉ before.map MirrorVersionEntry.version := by
      rw [List.map_append, List.map_cons] at distinct
      have apart := (List.nodup_append.mp distinct).2.2
      exact fun member => apart _ member _ List.mem_cons_self rfl
    have same : before ++ entry :: versions = before ++ [entry] ++ versions := by simp
    have rest := ih (before ++ [entry]) (same ▸ distinct)
    have put : putPackage author name entry [⟨author, name, before⟩] =
        [⟨author, name, before ++ [entry]⟩] := by
      rw [putPackage, if_pos ⟨rfl, rfl⟩, putVersion_fresh new]
    rw [List.map_cons, addAll, List.foldl_cons, putPackage_behind entry fresh, put, same]
    exact rest

/-- The additions of a package of a new name append it. -/
theorem addAll_package {packages : List MirrorPackageEntry} {pkg : MirrorPackageEntry}
    (fresh : (pkg.author, pkg.name) ∉ packages.map fun pkg => (pkg.author, pkg.name))
    (some_ : pkg.versions ≠ [])
    (distinct : (pkg.versions.map MirrorVersionEntry.version).Nodup) :
    addAll packages pkg.additions = packages ++ [pkg] := by
  obtain ⟨author, name, versions⟩ := pkg
  cases versions with
  | nil => exact absurd rfl some_
  | cons entry versions =>
    have first : putPackage author name entry packages =
        packages ++ [⟨author, name, [entry]⟩] := by
      have behind := putPackage_behind entry fresh []
      rwa [List.append_nil] at behind
    rw [MirrorPackageEntry.additions, List.map_cons, addAll, List.foldl_cons, first]
    exact addAll_versions fresh [entry] versions distinct

/-- The additions of distinct packages rebuild them. -/
theorem addAll_packages {packages : List MirrorPackageEntry}
    (names : (packages.map fun pkg => (pkg.author, pkg.name)).Nodup)
    (some_ : ∀ pkg ∈ packages, pkg.versions ≠ [])
    (distinct : ∀ pkg ∈ packages, (pkg.versions.map MirrorVersionEntry.version).Nodup) :
    addAll [] (packages.flatMap MirrorPackageEntry.additions) = packages := by
  induction packages using List.reverseRecOn with
  | nil => rfl
  | append_singleton packages pkg ih =>
    rw [List.map_append, List.map_cons, List.map_nil] at names
    obtain ⟨before, -, apart⟩ := List.nodup_append.mp names
    have fresh : (pkg.author, pkg.name) ∉ packages.map fun pkg => (pkg.author, pkg.name) :=
      fun member => apart _ member _ List.mem_cons_self rfl
    have last : pkg ∈ packages ++ [pkg] :=
      List.mem_append_right _ (List.mem_singleton.mpr rfl)
    rw [List.flatMap_append, addAll_append,
      ih before (fun p member => some_ p (List.mem_append_left _ member))
        (fun p member => distinct p (List.mem_append_left _ member))]
    rw [List.flatMap_cons, List.flatMap_nil, List.append_nil]
    exact addAll_package fresh (some_ pkg last) (distinct pkg last)

/-! ## Loading what was written -/

theorem getObjectItem_texts (m : MirrorManifest) :
    (getObjectItem (mirrorManifestWriteJson m) "generated").bind Json.text? = m.generated ∧
      (getObjectItem (mirrorManifestWriteJson m) "source").bind Json.text? = m.source := by
  have sourceGenerated : (lowered "source" = lowered "generated") = False := by decide
  have packagesGenerated : (lowered "packages" = lowered "generated") = False := by decide
  have generatedSource : (lowered "generated" = lowered "source") = False := by decide
  have packagesSource : (lowered "packages" = lowered "source") = False := by decide
  unfold getObjectItem mirrorManifestWriteJson
  cases m.generated <;> cases m.source <;>
    simp [Json.children, textMember, Json.text?, sourceGenerated, packagesGenerated,
      generatedSource, packagesSource]

theorem mirrorManifestLoadJson_write {m : MirrorManifest} (built : m.Built)
    (storable : ∀ pkg ∈ m.packages, Storable pkg.author pkg.name) :
    mirrorManifestLoadJson (mirrorManifestWriteJson m) = m := by
  have listed : loadEntries (mirrorManifestWriteJson m) =
      m.packages.flatMap MirrorPackageEntry.additions := by
    rw [loadEntries_write]
    refine List.flatMap_congr fun pkg member => ?_
    rw [loadPackage_packageMember, cutAt_pkgKey (storable pkg member)]
    simp only [String.ofList_toList]
    rfl
  obtain ⟨generated, source⟩ := getObjectItem_texts m
  rw [mirrorManifestLoadJson, foldl_mirrorManifestAdd, listed, generated, source]
  dsimp only [mirrorManifestCreate]
  rw [addAll_packages built.names built.some built.versions]

theorem MirrorManifest.Built.holds {m : MirrorManifest} (built : m.Built)
    {pkg : MirrorPackageEntry} (member : pkg ∈ m.packages) :
    ∃ version, m.Holds pkg.author pkg.name version := by
  have isSome : (m.packages.find? fun other =>
      other.author = pkg.author ∧ other.name = pkg.name).isSome := by
    rw [List.find?_isSome]
    exact ⟨pkg, member, by simp⟩
  obtain ⟨first, found⟩ := Option.isSome_iff_exists.mp isSome
  have some_ := built.some first (List.mem_of_find?_eq_some found)
  obtain ⟨entry, rest, same⟩ := List.exists_cons_of_ne_nil some_
  refine ⟨entry.version, ?_⟩
  rw [MirrorManifest.holds_iff, heldVersions, found, Option.map_some, Option.getD_some, same]
  simp

/-- A manifest comes back only if all its packages are storable. -/
theorem storable_of_reload {m : MirrorManifest} (built : m.Built)
    (same : mirrorManifestLoadJson (mirrorManifestWriteJson m) = m) :
    ∀ pkg ∈ m.packages, Storable pkg.author pkg.name := by
  intro pkg member
  obtain ⟨version, held⟩ := built.holds member
  exact MirrorManifest.Holds.storable (same ▸ held)

/-! ## The file -/

theorem nulFree_pkgKey {author name : String} (authored : NulFree author) (named : NulFree name) :
    NulFree (pkgKey author name) := by
  unfold NulFree pkgKey
  rw [String.toList_ofList]
  intro member
  rcases List.mem_append.mp (List.mem_of_mem_take member) with inAuthor | rest
  · exact authored inAuthor
  · rcases List.mem_cons.mp rest with slash | inName
    · cases slash
    · exact named inName

section

variable {printNumber : String → List Char}

/-- The members for a text are written as they are printed. -/
theorem written_textMember {n depth : Nat} {name : String} (named : NulFree name)
    {text : Option String} (plain : ∀ t ∈ text, NulFree t) :
    ∀ member ∈ textMember name text, NulFree member.1 ∧
      Written n member.2 (printValue printNumber depth member.2) := by
  intro member listed
  cases text with
  | none => cases listed
  | some text =>
    rw [List.mem_singleton.mp listed]
    exact ⟨named, written_printString (plain text rfl)⟩

theorem written_versionMember {n depth : Nat} {entry : MirrorVersionEntry}
    (hashed : NulFree entry.hash) (located : ∀ text ∈ entry.url, NulFree text) :
    Written (n + 1) (versionMember entry).2
      (printValue printNumber depth (versionMember entry).2) := by
  have url : ∀ member ∈ textMember "url" entry.url, NulFree member.1 ∧
      Written n member.2 (printValue printNumber (depth + 1) member.2) :=
    written_textMember (by decide) located
  refine written_printObject ?_ ?_
  · rintro member listed
    rcases List.mem_cons.mp listed with rfl | rest
    · exact (by decide : NulFree "hash")
    · exact (url member rest).1
  · rintro member listed
    rcases List.mem_cons.mp listed with rfl | rest
    · exact written_printString hashed
    · exact (url member rest).2

theorem written_packageMember {n depth : Nat} {pkg : MirrorPackageEntry}
    (entries : ∀ entry ∈ pkg.versions,
      NulFree entry.version ∧ NulFree entry.hash ∧ ∀ text ∈ entry.url, NulFree text) :
    Written (n + 2) (packageMember pkg).2
      (printValue printNumber depth (packageMember pkg).2) := by
  refine written_printObject ?_ ?_
  · intro member listed
    obtain ⟨entry, there, rfl⟩ := List.mem_map.mp listed
    exact (entries entry there).1
  · intro member listed
    obtain ⟨entry, there, rfl⟩ := List.mem_map.mp listed
    exact written_versionMember (entries entry there).2.1 (entries entry there).2.2

theorem written_manifest {n : Nat} {m : MirrorManifest} (strings : m.Strings) :
    Written (n + 4) (mirrorManifestWriteJson m) (mirrorManifestText printNumber m) := by
  have packages : Written (n + 3) (.object (m.packages.map packageMember))
      (printValue printNumber 1 (.object (m.packages.map packageMember))) := by
    refine written_printObject ?_ ?_
    · intro member listed
      obtain ⟨pkg, there, rfl⟩ := List.mem_map.mp listed
      exact nulFree_pkgKey (strings.names pkg there).1 (strings.names pkg there).2
    · intro member listed
      obtain ⟨pkg, there, rfl⟩ := List.mem_map.mp listed
      exact written_packageMember (strings.entries pkg there)
  have generated : ∀ member ∈ textMember "generated" m.generated, NulFree member.1 ∧
      Written (n + 3) member.2 (printValue printNumber 1 member.2) :=
    written_textMember (by decide) strings.generated
  have source : ∀ member ∈ textMember "source" m.source, NulFree member.1 ∧
      Written (n + 3) member.2 (printValue printNumber 1 member.2) :=
    written_textMember (by decide) strings.source
  refine written_printObject ?_ ?_
  · intro member listed
    rcases List.mem_append.mp listed with texts | last
    · rcases List.mem_append.mp texts with first | second
      · exact (generated member first).1
      · exact (source member second).1
    · rw [List.mem_singleton.mp last]
      exact (by decide : NulFree "packages")
  · intro member listed
    rcases List.mem_append.mp listed with texts | last
    · rcases List.mem_append.mp texts with first | second
      · exact (generated member first).2
      · exact (source member second).2
    · rw [List.mem_singleton.mp last]
      exact packages

theorem cjsonParse_mirrorManifestText {m : MirrorManifest} (strings : m.Strings) :
    cjsonParse (mirrorManifestText printNumber m) = some (mirrorManifestWriteJson m) := by
  have written : Written cjsonNestingLimit (mirrorManifestWriteJson m)
      (mirrorManifestText printNumber m) := written_manifest (n := 996) strings
  exact cjsonParse_cjsonPrint written

/-- Loading the file of a manifest. -/
theorem mirrorManifestLoad_text {m : MirrorManifest} (strings : m.Strings) :
    mirrorManifestLoad (mirrorManifestText printNumber m) =
      if maxLargeBufferLength * 64 < m.fileLength then none
      else some (mirrorManifestLoadJson (mirrorManifestWriteJson m)) := by
  rw [mirrorManifestLoad, length_mirrorManifestText, cjsonParse_mirrorManifestText strings,
    Option.map_some]

end

/-- The file of a manifest that calls have built gives it back exactly when every package name
is storable and the file is not too large. -/
theorem mirrorManifest_reload_iff (printNumber : String → List Char) (calls : List ManifestCall)
    (strings : ∀ call ∈ calls, call.Strings) :
    mirrorManifestLoad (mirrorManifestText printNumber (builtManifest calls)) =
        some (builtManifest calls) ↔
      (∀ pkg ∈ (builtManifest calls).packages, Storable pkg.author pkg.name) ∧
        (builtManifest calls).fileLength ≤ maxLargeBufferLength * 64 := by
  obtain ⟨built, plain⟩ := builtManifest_spec strings
  rw [mirrorManifestLoad_text plain]
  constructor
  · intro same
    split at same
    · cases same
    · rename_i fits
      exact ⟨storable_of_reload built (Option.some.inj same), Nat.not_lt.mp fits⟩
  · rintro ⟨storable, fits⟩
    rw [if_neg (Nat.not_lt.mpr fits), mirrorManifestLoadJson_write built storable]

/-- Calls for two versions of a package, with a quote and a control character among the texts. -/
def plainCalls : List ManifestCall :=
  [.setGenerated (some "2024-01-01T00:00:00Z"), .setSource "package \"mirror\"",
    .add "elm" "core" "1.0.4" "0a" (some "https://github.com/elm/core\x01"),
    .add "elm" "core" "1.0.5" "0b" none]

theorem mirrorManifest_reload_plain :
    mirrorManifestLoad (mirrorManifestText String.toList (builtManifest plainCalls)) =
      some (builtManifest plainCalls) :=
  (mirrorManifest_reload_iff String.toList plainCalls (by decide)).mpr
    ⟨by decide, by decide⟩

/-- A name of so many letters. -/
def letters (n : Nat) : String := String.ofList (List.replicate n 'b')

theorem letters_nulFree (n : Nat) : NulFree (letters n) := by
  rw [NulFree, letters, String.toList_ofList]
  intro member
  cases List.eq_of_mem_replicate member

/-- A name whose key does not fit the buffer. -/
theorem letters_not_storable {n : Nat} (long : 254 ≤ n) : ¬ Storable "a" (letters n) := by
  intro storable
  have short := storable.short
  have length : (letters n).toList.length = n := by
    rw [letters, String.toList_ofList, List.length_replicate]
  have author : "a".toList.length = 1 := rfl
  rw [length, author, maxPackageNameLength] at short
  omega

/-- An author with a slash comes back as another one, and the long name does not come back. -/
theorem mirrorManifest_reload_fails :
    (mirrorManifestLoad (mirrorManifestText String.toList
        (builtManifest [.add "a/b" "c" "1.0.0" "0a" none])) =
      some (builtManifest [.add "a" "b/c" "1.0.0" "0a" none]) ∧
      builtManifest [.add "a" "b/c" "1.0.0" "0a" none] ≠
        builtManifest [.add "a/b" "c" "1.0.0" "0a" none]) ∧
    mirrorManifestLoad (mirrorManifestText String.toList
        (builtManifest [.add "a" (letters 254) "1.0.0" "0a" none])) ≠
      some (builtManifest [.add "a" (letters 254) "1.0.0" "0a" none]) := by
  have slash : (builtManifest [.add "a/b" "c" "1.0.0" "0a" none]).Strings :=
    (builtManifest_spec (by decide)).2
  have calls : ∀ call ∈ [ManifestCall.add "a" (letters 254) "1.0.0" "0a" none], call.Strings := by
    intro call member
    rw [List.mem_singleton.mp member]
    exact ⟨by decide, letters_nulFree 254, by decide, by decide, by decide⟩
  obtain ⟨built, long⟩ := builtManifest_spec calls
  rw [mirrorManifestLoad_text slash, mirrorManifestLoad_text long]
  refine ⟨⟨by decide, by decide⟩, fun same => ?_⟩
  split at same
  · cases same
  · have storable := storable_of_reload built (Option.some.inj same) _ List.mem_cons_self
    exact letters_not_storable (Nat.le_refl 254) storable

end ElmWrap.Mirror
