import ElmWrap.Registry.Contents
import ElmWrap.Lib.Binary
import Mathlib.Data.List.TakeWhile

/-!
# The file format of the V1 registry

`registry_dat_write` and `registry_load_from_dat` of `registry.c`, on the bytes of
the file; that the file can be written and read is taken for granted. A character
of an author or a name stands for a byte.
-/

namespace ElmWrap

open Lib Lib.Binary

/-- `sizeof(RegistryEntry)`. -/
def sizeofRegistryEntry : Nat := 32

/-- `sizeof(Version)`. -/
def sizeofVersion : Nat := 6

/-! ## Writing -/

/-- The bytes of a C string, up to the terminating zero. -/
def cStringBytes (text : String) : Bytes := text.toList.map fun c => UInt8.ofNat c.toNat

/-- An author or a name with its length; the cast of `strlen` to `uint8_t` wraps. -/
def writeName (text : String) : Bytes :=
  let bytes := cStringBytes text
  let length := UInt8.ofNat bytes.length
  length :: bytes.take length.toNat

/-- `write_version`. -/
def writeVersion (v : Version) : Bytes :=
  if v.major < 255 && v.minor < 256 && v.patch < 256 then
    [v.major.toUInt8, v.minor.toUInt8, v.patch.toUInt8]
  else
    255 :: (u64be v.major.toNat ++ u64be v.minor.toNat ++ u64be v.patch.toNat)

/-- The body of the loop over the entries; `none` where the entry has no versions. -/
def writeEntry (entry : RegistryEntry) : Option Bytes :=
  match entry.versions with
  | [] => none
  | newest :: previous =>
    some (writeName entry.author ++ writeName entry.name ++ writeVersion newest ++
      u64be previous.length ++ previous.flatMap writeVersion)

/-- The loop over the entries. -/
def writeEntries : List RegistryEntry → Option Bytes
  | [] => some []
  | entry :: rest =>
    match writeEntry entry with
    | none => none
    | some bytes => (writeEntries rest).map fun more => bytes ++ more

/-- `registry_dat_write`: the bytes of the file, `none` when it returns `false`. -/
def registryDatWrite (registry : Registry) : Option Bytes :=
  (writeEntries registry.entries).map fun bytes =>
    u64be registry.sinceCount ++ u64be registry.entries.length ++ bytes

/-! ## Reading -/

/-- The C string in a buffer that ends with a zero. -/
def cString (bytes : Bytes) : String :=
  String.ofList ((bytes.takeWhile (· ≠ 0)).map fun b => Char.ofNat b.toNat)

/-- An author or a name. -/
def readName : Reader String := fun bytes =>
  match readU8 bytes with
  | none => none
  | some (length, bytes) => (readBytes length.toNat bytes).map fun p => (cString p.1, p.2)

/-- A component of the extended format, clamped. -/
def clampUInt16 (n : Nat) : UInt16 := if n > 65535 then 65535 else UInt16.ofNat n

/-- `read_version`. -/
def readVersion : Reader Version := fun bytes =>
  match readU8 bytes with
  | none => none
  | some (major, bytes) =>
    if major = 255 then
      (readMany readU64be 3 bytes).bind fun p =>
        match p with
        | ([major, minor, patch], rest) =>
          some (⟨clampUInt16 major, clampUInt16 minor, clampUInt16 patch⟩, rest)
        | _ => none
    else
      (readMany readU8 2 bytes).bind fun p =>
        match p with
        | ([minor, patch], rest) => some (⟨major.toUInt16, minor.toUInt16, patch.toUInt16⟩, rest)
        | _ => none

/-- The body of the loop over the entries. -/
def readEntry : Reader RegistryEntry := fun bytes => do
  let (author, bytes) ← readName bytes
  let (name, bytes) ← readName bytes
  let (newest, bytes) ← readVersion bytes
  let (prevCount, bytes) ← readU64be bytes
  if prevCount > sizeMax - 1 then none
  else if 1 + prevCount > sizeMax / sizeofVersion then none
  else
    let (previous, bytes) ← readMany readVersion prevCount bytes
    some (⟨author, name, newest :: previous⟩, bytes)

/-- `registry_load_from_dat`; `none` when it returns `NULL`. Bytes behind the last
entry are not looked at. -/
def registryLoadFromDat (bytes : Bytes) : Option Registry := do
  let (sinceCount, bytes) ← readU64be bytes
  if sinceCount > sizeMax then none
  else
    let (entryCount, bytes) ← readU64be bytes
    if entryCount > sizeMax then none
    else if entryCount > sizeMax / sizeofRegistryEntry then none
    else
      let (entries, _) ← readMany readEntry entryCount bytes
      some (registrySortEntries { entries := entries, sinceCount := sinceCount })

/-! ## Reading back what is written -/

/-- A text whose characters are bytes other than zero, at most 255 of them. -/
structure ShortCString (text : String) : Prop where
  bytes : ∀ c ∈ text.toList, 0 < c.toNat ∧ c.toNat < 256
  short : text.toList.length < 256

theorem cString_cStringBytes {text : String}
    (bytes : ∀ c ∈ text.toList, 0 < c.toNat ∧ c.toNat < 256) :
    cString (cStringBytes text) = text := by
  have whole : (cStringBytes text).takeWhile (· ≠ 0) = cStringBytes text := by
    apply List.takeWhile_eq_self_iff.mpr
    intro b member
    obtain ⟨c, on, rfl⟩ := List.mem_map.mp member
    obtain ⟨positive, small⟩ := bytes c on
    have value : (UInt8.ofNat c.toNat).toNat = c.toNat := by
      rw [UInt8.toNat_ofNat']
      omega
    simp only [ne_eq, decide_not, Bool.not_eq_eq_eq_not, Bool.not_true, decide_eq_false_iff_not]
    intro zero
    rw [zero] at value
    simp at value
    omega
  unfold cString
  rw [whole]
  apply String.toList_inj.mp
  rw [String.toList_ofList]
  unfold cStringBytes
  rw [List.map_map]
  conv_rhs => rw [← List.map_id text.toList]
  apply List.map_congr_left
  intro c on
  obtain ⟨_, small⟩ := bytes c on
  simp only [Function.comp_apply, UInt8.toNat_ofNat', id_eq]
  rw [Nat.mod_eq_of_lt (by omega)]
  simp

theorem readName_writeName {text : String} (short : ShortCString text) (rest : Bytes) :
    readName (writeName text ++ rest) = some (text, rest) := by
  have count : (cStringBytes text).length = text.toList.length := List.length_map _
  have length : (UInt8.ofNat (cStringBytes text).length).toNat = (cStringBytes text).length := by
    rw [UInt8.toNat_ofNat']
    have := short.short
    omega
  unfold writeName readName
  dsimp only [List.cons_append, readU8]
  rw [length, List.take_length, readBytes_append]
  simp [cString_cStringBytes short.bytes]

theorem clampUInt16_toNat (x : UInt16) : clampUInt16 x.toNat = x := by
  unfold clampUInt16
  have small := x.toNat_lt
  rw [if_neg (by omega)]
  simp

theorem toUInt16_toUInt8 {x : UInt16} (small : x < 256) : x.toUInt8.toUInt16 = x := by
  apply UInt16.toNat_inj.mp
  rw [UInt16.lt_iff_toNat_lt] at small
  simp at small ⊢
  omega

theorem readVersion_writeVersion (v : Version) (rest : Bytes) :
    readVersion (writeVersion v ++ rest) = some (v, rest) := by
  unfold writeVersion
  by_cases small : (v.major < 255 && v.minor < 256 && v.patch < 256) = true
  · rw [if_pos small]
    simp only [Bool.and_eq_true, decide_eq_true_eq] at small
    obtain ⟨⟨major, minor⟩, patch⟩ := small
    have plain : v.major.toUInt8 ≠ 255 := by
      intro same
      have value := congrArg UInt8.toNat same
      rw [UInt16.lt_iff_toNat_lt] at major
      simp at value major
      omega
    unfold readVersion
    simp only [List.cons_append, List.nil_append, readU8, readMany, if_neg plain,
      Option.bind_some]
    rw [toUInt16_toUInt8 (UInt16.lt_trans major (by decide)), toUInt16_toUInt8 minor,
      toUInt16_toUInt8 patch]
  · rw [if_neg small]
    have wide : ∀ x : UInt16, x.toNat < 2 ^ 64 := fun x => by
      have := x.toNat_lt
      omega
    unfold readVersion
    simp only [List.cons_append, readU8, if_true, List.append_assoc, readMany]
    rw [readU64be_u64be (wide _)]
    dsimp only
    rw [readU64be_u64be (wide _)]
    dsimp only
    rw [readU64be_u64be (wide _)]
    simp [clampUInt16_toNat]

/-- What `registry_load_from_dat` checks of an entry, and what its names are. -/
structure RegistryEntry.Storable (entry : RegistryEntry) : Prop where
  author : ShortCString entry.author
  name : ShortCString entry.name
  versions : entry.versions.length ≤ sizeMax / sizeofVersion

theorem readEntry_intro {bytes bytes₁ bytes₂ bytes₃ bytes₄ bytes₅ : Bytes} {author name : String}
    {newest : Version} {count : Nat} {previous : List Version}
    (author_read : readName bytes = some (author, bytes₁))
    (name_read : readName bytes₁ = some (name, bytes₂))
    (newest_read : readVersion bytes₂ = some (newest, bytes₃))
    (count_read : readU64be bytes₃ = some (count, bytes₄))
    (small : ¬ count > sizeMax - 1) (fits : ¬ 1 + count > sizeMax / sizeofVersion)
    (previous_read : readMany readVersion count bytes₄ = some (previous, bytes₅)) :
    readEntry bytes = some (⟨author, name, newest :: previous⟩, bytes₅) := by
  unfold readEntry
  simp only [author_read, name_read, newest_read, count_read, previous_read, if_neg small,
    if_neg fits, Option.bind_eq_bind, Option.bind_some]

theorem readEntry_writeEntry {entry : RegistryEntry} (storable : entry.Storable) {bytes : Bytes}
    (written : writeEntry entry = some bytes) (rest : Bytes) :
    readEntry (bytes ++ rest) = some (entry, rest) := by
  obtain ⟨author, name, versions⟩ := entry
  cases versions with
  | nil => cases written
  | cons newest previous =>
    cases written
    have count := storable.versions
    have most : sizeMax / sizeofVersion < 2 ^ 64 - 2 := by decide
    rw [List.length_cons] at count
    simp only [List.append_assoc]
    have small : previous.length < 2 ^ 64 := by omega
    apply readEntry_intro (readName_writeName storable.author _)
      (readName_writeName storable.name _) (readVersion_writeVersion newest _)
      (readU64be_u64be small _)
    · rw [sizeMax_eq]
      omega
    · omega
    · exact readMany_flatMap (fun v _ => readVersion_writeVersion v) rest

theorem readEntries_writeEntries {entries : List RegistryEntry}
    (storable : ∀ entry ∈ entries, entry.Storable) {bytes : Bytes}
    (written : writeEntries entries = some bytes) (rest : Bytes) :
    readMany readEntry entries.length (bytes ++ rest) = some (entries, rest) := by
  induction entries generalizing bytes with
  | nil =>
    cases written
    rfl
  | cons entry entries ih =>
    unfold writeEntries at written
    split at written
    · cases written
    · rename_i first wrote
      obtain ⟨more, others, rfl⟩ := Option.map_eq_some_iff.mp written
      rw [List.append_assoc, List.length_cons, readMany,
        readEntry_writeEntry (storable entry List.mem_cons_self) wrote]
      dsimp only
      rw [ih (fun e on => storable e (List.mem_cons_of_mem entry on)) others]

theorem registryLoadFromDat_intro {bytes bytes₁ bytes₂ bytes₃ : Bytes} {since count : Nat}
    {entries : List RegistryEntry} (since_read : readU64be bytes = some (since, bytes₁))
    (counted : ¬ since > sizeMax) (count_read : readU64be bytes₁ = some (count, bytes₂))
    (small : ¬ count > sizeMax) (fits : ¬ count > sizeMax / sizeofRegistryEntry)
    (entries_read : readMany readEntry count bytes₂ = some (entries, bytes₃)) :
    registryLoadFromDat bytes =
      some (registrySortEntries { entries := entries, sinceCount := since }) := by
  unfold registryLoadFromDat
  simp only [since_read, count_read, entries_read, if_neg counted, if_neg small, if_neg fits,
    Option.bind_eq_bind, Option.bind_some]

/-- A registry that fits what the reader checks is read back, its entries sorted. -/
theorem registryLoadFromDat_of_write {registry : Registry}
    (storable : ∀ entry ∈ registry.entries, entry.Storable)
    (counted : registry.sinceCount ≤ sizeMax)
    (fits : registry.entries.length ≤ sizeMax / sizeofRegistryEntry) {bytes : Bytes}
    (written : registryDatWrite registry = some bytes) :
    registryLoadFromDat bytes = some (registrySortEntries registry) := by
  obtain ⟨entries, wrote, rfl⟩ := Option.map_eq_some_iff.mp written
  have most : sizeMax / sizeofRegistryEntry < 2 ^ 64 - 2 := by decide
  have max := sizeMax_eq
  rw [List.append_assoc]
  apply registryLoadFromDat_intro (readU64be_u64be (by omega) _) (by omega)
    (readU64be_u64be (by omega) _) (by omega) (by omega)
  have back := readEntries_writeEntries storable wrote []
  rw [List.append_nil] at back
  exact back

theorem writeEntries_isSome (entries : List RegistryEntry) :
    (writeEntries entries).isSome = true ↔ ∀ entry ∈ entries, entry.versions ≠ [] := by
  induction entries with
  | nil => simp [writeEntries]
  | cons entry entries ih =>
    obtain ⟨author, name, versions⟩ := entry
    unfold writeEntries
    cases versions with
    | nil => simp [writeEntry]
    | cons newest previous => simp [writeEntry, ih]

/-- The writer fails at an entry without versions, and nowhere else. -/
theorem registryDatWrite_isSome (registry : Registry) :
    (registryDatWrite registry).isSome = true ↔
      ∀ entry ∈ registry.entries, entry.versions ≠ [] := by
  unfold registryDatWrite
  rw [Option.isSome_map, writeEntries_isSome]

/-! ## What can be read -/

theorem readName_short {bytes rest : Bytes} {text : String}
    (read : readName bytes = some (text, rest)) : ShortCString text := by
  unfold readName at read
  cases bytes with
  | nil => cases read
  | cons length bytes =>
    dsimp only [readU8] at read
    obtain ⟨⟨taken, left⟩, took, same⟩ := Option.map_eq_some_iff.mp read
    cases same
    unfold readBytes at took
    split at took
    · cases took
      have chars : ∀ c ∈ (cString (bytes.take length.toNat)).toList,
          0 < c.toNat ∧ c.toNat < 256 := by
        intro c member
        unfold cString at member
        rw [String.toList_ofList] at member
        obtain ⟨b, before, rfl⟩ := List.mem_map.mp member
        have nonzero : b ≠ 0 := by simpa using List.mem_takeWhile_imp before
        have positive : 0 < b.toNat := by
          rw [Nat.pos_iff_ne_zero]
          intro zero
          exact nonzero (UInt8.toNat_inj.mp zero)
        have small := b.toNat_lt
        have valid : b.toNat.isValidChar := Or.inl (by omega)
        have value : (Char.ofNat b.toNat).toNat = b.toNat := by
          unfold Char.ofNat
          rw [dif_pos valid]
          rfl
        rw [value]
        exact ⟨positive, small⟩
      refine ⟨chars, ?_⟩
      have most := (List.takeWhile_prefix (l := bytes.take length.toNat) (· ≠ 0)).length_le
      rw [List.length_take] at most
      have small := length.toNat_lt
      unfold cString
      dsimp only
      rw [String.toList_ofList, List.length_map]
      omega
    · cases took

/-- An entry that is read can be stored, and has a version. -/
theorem readEntry_some {bytes rest : Bytes} {entry : RegistryEntry}
    (read : readEntry bytes = some (entry, rest)) :
    ShortCString entry.author ∧ ShortCString entry.name ∧ entry.versions ≠ [] := by
  unfold readEntry at read
  simp only [Option.bind_eq_bind, Option.bind_eq_some_iff] at read
  obtain ⟨⟨author, bytes₁⟩, author_read, ⟨name, bytes₂⟩, name_read, ⟨newest, bytes₃⟩, _,
    ⟨count, bytes₄⟩, _, read⟩ := read
  split at read
  · cases read
  split at read
  · cases read
  obtain ⟨⟨previous, bytes₅⟩, _, same⟩ := Option.bind_eq_some_iff.mp read
  cases same
  exact ⟨readName_short author_read, readName_short name_read, List.cons_ne_nil newest previous⟩

/-- What is loaded has storable names and a version in every entry, and fits in memory. -/
theorem registryLoadFromDat_some {bytes : Bytes} {registry : Registry}
    (loaded : registryLoadFromDat bytes = some registry) :
    (∀ entry ∈ registry.entries, ShortCString entry.author ∧ ShortCString entry.name ∧
      entry.versions ≠ []) ∧
    registry.entries.length ≤ sizeMax / sizeofRegistryEntry ∧
    registrySortEntries registry = registry := by
  unfold registryLoadFromDat at loaded
  simp only [Option.bind_eq_bind, Option.bind_eq_some_iff] at loaded
  obtain ⟨⟨since, bytes₁⟩, _, loaded⟩ := loaded
  split at loaded
  · cases loaded
  obtain ⟨⟨count, bytes₂⟩, _, loaded⟩ := Option.bind_eq_some_iff.mp loaded
  split at loaded
  · cases loaded
  split at loaded
  · cases loaded
  rename_i fits
  obtain ⟨⟨entries, bytes₃⟩, entries_read, same⟩ := Option.bind_eq_some_iff.mp loaded
  cases same
  obtain ⟨length, each⟩ := readMany_forall (fun _ _ _ => readEntry_some) entries_read
  have sorted : (registrySortEntries { entries := entries, sinceCount := since }).entries.Perm
      entries := by
    rw [registrySortEntries_eq]
    exact Keyed.perm_sortBy entries
  refine ⟨?_, ?_, ?_⟩
  · intro entry member
    exact each entry (sorted.mem_iff.mp member)
  · rw [sorted.length_eq, length]
    omega
  · simp only [registrySortEntries_eq, Keyed.sortBy_sortBy]

end ElmWrap
