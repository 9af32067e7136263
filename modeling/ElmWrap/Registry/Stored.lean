import ElmWrap.Registry.Runs
import Mathlib.Data.Fintype.Card

/-!
# Writing a registry and loading it again

The names that `parse_package_name` accepts fit the one-byte lengths of the file,
and a package has fewer versions than the loader can hold. So a registry that the
operations of `registry.c` have made under such names is written and loaded
without a loss, once each of its entries has a version.
-/

namespace ElmWrap

open Lib Lib.Binary

/-! ## Accepted names -/

theorem isUnreserved_byte {c : Char} (unreserved : isUnreserved c = true) :
    0 < c.toNat ∧ c.toNat < 256 := by
  unfold isUnreserved at unreserved
  delta Char.isUpper Char.isLower at unreserved
  simp only [Bool.or_eq_true, Char.isDigit, Bool.and_eq_true, decide_eq_true_eq,
    UInt32.le_iff_toNat_le] at unreserved
  rcases unreserved with (((((upper | lower) | digit) | dash) | dot) | underscore) | tilde
  · simp at upper
    omega
  · simp at lower
    omega
  · simp at digit
    omega
  · subst dash
    decide
  · subst dot
    decide
  · subst underscore
    decide
  · subst tilde
    decide

theorem length_le_utf8Len (cs : List Char) : cs.length ≤ String.utf8Len cs := by
  induction cs with
  | nil => exact Nat.zero_le _
  | cons c cs ih =>
    have := c.utf8Size_pos
    rw [String.utf8Len_cons, List.length_cons]
    omega

theorem length_le_utf8ByteSize (text : String) : text.toList.length ≤ text.utf8ByteSize := by
  have bytes := length_le_utf8Len text.toList
  rw [← String.utf8ByteSize_ofList, String.ofList_toList] at bytes
  exact bytes

namespace PackageName

theorem author_short (p : PackageName) : ShortCString p.author where
  bytes := by
    intro c on
    have valid := p.validAuthor
    simp only [isValidUrlPathComponentLike, Bool.and_eq_true] at valid
    exact isUnreserved_byte (List.all_eq_true.mp valid.2 c on)
  short := by
    have size := p.short
    have count := length_le_utf8ByteSize p.author
    unfold maxPackageNameLength at size
    omega

theorem project_short (p : PackageName) : ShortCString p.project where
  bytes := by
    intro c on
    have valid := p.validProject
    simp only [isValidElmProjectName, Bool.and_eq_true] at valid
    have allowed := List.all_eq_true.mp valid.1.2 c on
    apply isUnreserved_byte
    simp only [Bool.or_eq_true] at allowed
    unfold isUnreserved
    rcases allowed with (lower | digit) | dash
    · simp [lower]
    · simp [digit]
    · simp [dash]
  short := by
    have size := p.short
    have count := length_le_utf8ByteSize p.project
    unfold maxPackageNameLength at size
    omega

end PackageName

/-! ## Versions -/

/-- There are not as many versions as the loader can hold. -/
theorem length_le_of_descending {versions : List Version}
    (descending : Keyed.Descending versions) : versions.length ≤ sizeMax / sizeofVersion := by
  have nodup : (versions.map fun v => (⟨v.key, v.key_lt⟩ : Fin 281474976710656)).Nodup :=
    descending.nodup.map fun v w same => Version.key_injective (congrArg Fin.val same)
  have bound := nodup.length_le_card
  rw [List.length_map, Fintype.card_fin] at bound
  have most : 281474976710656 ≤ sizeMax / sizeofVersion := by decide
  omega

/-! ## Registries under accepted names -/

/-- The author and the name are those of an accepted package name. -/
def Accepted (author name : String) : Prop :=
  ∃ accepted : PackageName, accepted.author = author ∧ accepted.project = name

/-- A call of `registry_add_entry`, `registry_add_version` or
`registry_remove_version_ex` under an accepted name. -/
def RegistryOperation.Named : RegistryOperation → Prop
  | .addEntry author name => Accepted author name
  | .addVersion author name _ _ => Accepted author name
  | .removeVersion author name _ _ => Accepted author name
  | _ => False

/-- All entries are under accepted names. -/
def Registry.Named (registry : Registry) : Prop :=
  ∀ entry ∈ registry.entries, Accepted entry.author entry.name

namespace Registry.Named

variable {registry : Registry}

theorem addEntry (named : registry.Named) {author name : String}
    (accepted : Accepted author name) : (registryAddEntry registry author name).Named := by
  unfold registryAddEntry
  split
  · exact named
  · intro entry member
    rcases List.mem_append.mp member with old | new
    · exact named entry old
    · rw [List.mem_singleton.mp new]
      exact accepted

theorem setVersions (named : registry.Named) (author name : String)
    (f : List Version → List Version) : (registry.setVersions author name f).Named := by
  intro entry member
  rcases Keyed.mem_update member with old | ⟨before, old, _, rfl⟩
  · exact named entry old
  · exact named before old

theorem run (named : registry.Named) {operation : RegistryOperation}
    (accepted : operation.Named) : (operation.run registry).1.Named := by
  cases operation with
  | addEntry author name => exact named.addEntry accepted
  | addVersion author name version countForSince =>
    have entered := named.addEntry accepted
    unfold RegistryOperation.run
    dsimp only
    rw [registryAddVersionEx_eq]
    split
    · exact entered
    · exact entered.setVersions author name _
  | removeVersion author name version decrement =>
    have lowered : ∀ r : Registry, r.Named → Named
        (if decrement && r.sinceCount > 0 then { r with sinceCount := r.sinceCount - 1 }
          else r) := by
      intro r good
      split
      · exact good
      · exact good
    unfold RegistryOperation.run registryRemoveVersionEx
    dsimp only
    split
    · exact named
    · split
      · exact named
      · apply lowered
        split
        · exact fun entry member => named entry (Keyed.mem_remove member)
        · exact named.setVersions author name _
  | merge file => cases accepted
  | parseAllPackages json => cases accepted
  | parseSince json => cases accepted

end Registry.Named

theorem runRegistry_named {operations : List RegistryOperation}
    (named : ∀ operation ∈ operations, operation.Named) : (runRegistry operations).Named := by
  induction operations using List.reverseRecOn with
  | nil =>
    intro entry member
    cases member
  | append_singleton operations operation ih =>
    rw [runRegistry_append]
    exact (ih fun o on => named o (List.mem_append_left _ on)).run
      (named operation (List.mem_append_right _ List.mem_cons_self))

/-! ## The round trip -/

/-- A registry made under accepted names is refused by the writer exactly when an entry
has no versions. Otherwise it is loaded again: with the same counter, and under every
author and name the same versions in the same order. -/
theorem registryLoadFromDat_registryDatWrite {operations : List RegistryOperation}
    (named : ∀ operation ∈ operations, operation.Named)
    (inMemory : (runRegistry operations).entries.length * sizeofRegistryEntry ≤ sizeMax) :
    ((registryDatWrite (runRegistry operations)).isSome = true ↔
      ∀ entry ∈ (runRegistry operations).entries, entry.versions ≠ []) ∧
    ∀ bytes, registryDatWrite (runRegistry operations) = some bytes →
      ∃ loaded, registryLoadFromDat bytes = some loaded ∧
        loaded.sinceCount = (runRegistry operations).sinceCount ∧
        loaded.entries.Perm (runRegistry operations).entries ∧
        ∀ author name, loaded.versions author name =
          (runRegistry operations).versions author name := by
  refine ⟨registryDatWrite_isSome _, ?_⟩
  intro bytes written
  have wellFormed := runRegistry_wellFormed operations
  have storable : ∀ entry ∈ (runRegistry operations).entries, entry.Storable := by
    intro entry member
    obtain ⟨accepted, author, name⟩ := runRegistry_named named entry member
    exact {
      author := author ▸ accepted.author_short
      name := name ▸ accepted.project_short
      versions := length_le_of_descending (wellFormed.descending entry member) }
  have fits : (runRegistry operations).entries.length ≤ sizeMax / sizeofRegistryEntry :=
    (Nat.le_div_iff_mul_le (by decide)).mpr inMemory
  refine ⟨_, registryLoadFromDat_of_write storable wellFormed.counted fits written, ?_, ?_, ?_⟩
  · rw [registrySortEntries_eq]
  · rw [registrySortEntries_eq]
    exact Keyed.perm_sortBy _
  · exact Registry.versions_sort wellFormed

/-- Two packages, one of them with a version that needs the long format. -/
def sampleOperations : List RegistryOperation := [
  .addVersion "elm" "json" ⟨1, 0, 0⟩ true,
  .addVersion "elm" "core" ⟨1, 0, 5⟩ true,
  .addVersion "elm" "core" ⟨1, 256, 0⟩ true]

theorem sampleOperations_loaded :
    ∃ bytes, registryDatWrite (runRegistry sampleOperations) = some bytes ∧
      ∃ loaded, registryLoadFromDat bytes = some loaded ∧
        loaded.versions "elm" "core" = some [⟨1, 256, 0⟩, ⟨1, 0, 5⟩] := by
  have named : ∀ operation ∈ sampleOperations, operation.Named := by
    intro operation member
    have json : Accepted "elm" "json" :=
      ⟨⟨"elm", "json", by decide, by decide, by decide⟩, rfl, rfl⟩
    have core : Accepted "elm" "core" :=
      ⟨⟨"elm", "core", by decide, by decide, by decide⟩, rfl, rfl⟩
    simp only [sampleOperations, List.mem_cons, List.not_mem_nil, or_false] at member
    rcases member with rfl | rfl | rfl
    · exact json
    · exact core
    · exact core
  obtain ⟨writable, back⟩ := registryLoadFromDat_registryDatWrite named (by decide)
  obtain ⟨bytes, written⟩ := Option.isSome_iff_exists.mp (writable.mpr (by decide))
  obtain ⟨loaded, read, _, _, versions⟩ := back bytes written
  refine ⟨bytes, written, loaded, read, ?_⟩
  rw [versions]
  decide

/-- The writer refuses what `registry_add_entry` leaves behind. -/
theorem registryDatWrite_addEntry :
    Accepted "elm" "core" ∧ registryDatWrite (runRegistry [.addEntry "elm" "core"]) = none :=
  ⟨⟨⟨"elm", "core", by decide, by decide, by decide⟩, rfl, rfl⟩,
    by decide⟩

end ElmWrap
