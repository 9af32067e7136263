import ElmWrap.Build.PackageOrder
import ElmWrap.Registry.Stored

/-!
# The fingerprints in `artifacts.dat`

`build_driver.c` takes the artifacts of a package as usable when the file lists
the versions that are selected for its dependencies. The reader is compared with
the documented format, and the comparison of the fingerprints with what they
stand for: maps from packages to versions.
-/

namespace ElmWrap

open Lib Lib.Binary

/-! ## `build_driver.c` -/

/-- `FingerprintEntry`: `author/project` and `major.minor.patch`. -/
structure FingerprintEntry where
  name : String
  version : String
deriving DecidableEq, Repr

/-- `Fingerprint`; `count` is the length. -/
abbrev Fingerprint := List FingerprintEntry

/-- The version of an entry. -/
def readEntryVersion : Reader Version := fun bytes => do
  let (major, bytes) ← readU8 bytes
  if major = 255 then
    let (major, bytes) ← readU16be bytes
    let (minor, bytes) ← readU16be bytes
    let (patch, bytes) ← readU16be bytes
    some (⟨major, minor, patch⟩, bytes)
  else
    let (minor, bytes) ← readU8 bytes
    let (patch, bytes) ← readU8 bytes
    some (⟨major.toUInt16, minor.toUInt16, patch.toUInt16⟩, bytes)

/-- The body of the loop over the entries of a fingerprint. -/
def readFingerprintEntry : Reader FingerprintEntry := fun bytes => do
  let (author, bytes) ← readName bytes
  let (project, bytes) ← readName bytes
  let (version, bytes) ← readEntryVersion bytes
  some (⟨packageNameBuf author project, versionToString version⟩, bytes)

/-- The body of the loop over the fingerprints. -/
def readFingerprint : Reader Fingerprint := fun bytes => do
  let (mapSize, bytes) ← readU64be bytes
  if mapSize > 1000 then none else readMany readFingerprintEntry mapSize bytes

/-- `parse_artifact_fingerprints`; `none` where it returns `NULL`. -/
def parseArtifactFingerprints (data : Bytes) : Option (List Fingerprint) := do
  let (setSize, bytes) ← readU64be data
  if setSize > 1000 then none
  else (readMany readFingerprint setSize bytes).map Prod.fst

/-- `build_expected_fingerprint`. -/
def buildExpectedFingerprint (pkg : BuildPackage) (plan : List BuildPackage) : Fingerprint :=
  pkg.deps.filterMap fun dep =>
    (plan.find? fun other => other.name = dep).map fun other => ⟨other.name, other.version⟩

/-- `fingerprints_match`. -/
def fingerprintsMatch (a b : Fingerprint) : Bool :=
  a.length = b.length && a.all fun entry => b.any fun other => entry = other

/-- `ArtifactStatus`. -/
inductive ArtifactStatus
  | missing
  | present
  | stale
deriving DecidableEq, Repr

/-- `check_package_artifact_status`, given the contents of the file, `none` where it is not there
or cannot be read. -/
def checkPackageArtifactStatus (file : Option Bytes) (pkg : BuildPackage)
    (plan : List BuildPackage) : ArtifactStatus :=
  match file with
  | none => .missing
  | some data =>
    match parseArtifactFingerprints data with
    | none => .stale
    | some fingerprints =>
      let expected := buildExpectedFingerprint pkg plan
      if fingerprints.any fun stored => fingerprintsMatch stored expected then .present
      else .stale

/-! ## The documented format -/

/-- An entry of a stored map. -/
structure StoredEntry where
  author : Bytes
  project : Bytes
  version : Version
  authorShort : author.length < 256
  projectShort : project.length < 256
deriving DecidableEq

/-- The bytes of a text, each as a character. -/
def byteText (bytes : Bytes) : String := String.ofList (bytes.map fun b => Char.ofNat b.toNat)

/-- `author/project`. -/
def StoredEntry.name (entry : StoredEntry) : String :=
  byteText entry.author ++ "/" ++ byteText entry.project

/-- The entry as a pair of texts. -/
def StoredEntry.full (entry : StoredEntry) : FingerprintEntry :=
  ⟨entry.name, versionToString entry.version⟩

/-- The entry as the code reads it: a name ends at a zero byte and after 255 characters. -/
def StoredEntry.shown (entry : StoredEntry) : FingerprintEntry :=
  ⟨packageNameBuf (cString entry.author) (cString entry.project), versionToString entry.version⟩

theorem length_take_toNat (length : UInt8) (bytes : Bytes) :
    (bytes.take length.toNat).length < 256 := by
  have small := length.toNat_lt
  rw [List.length_take]
  omega

/-- A length in one byte and as many bytes. -/
def readShort : Reader { bytes : Bytes // bytes.length < 256 } := fun bytes =>
  match readU8 bytes with
  | none => none
  | some (length, bytes) =>
    if length.toNat ≤ bytes.length then
      some (⟨bytes.take length.toNat, length_take_toNat length bytes⟩, bytes.drop length.toNat)
    else none

def readStoredEntry : Reader StoredEntry := fun bytes => do
  let (author, bytes) ← readShort bytes
  let (project, bytes) ← readShort bytes
  let (version, bytes) ← readEntryVersion bytes
  some (⟨author.1, project.1, version, author.2, project.2⟩, bytes)

def readStoredMap : Reader (List StoredEntry) := fun bytes => do
  let (mapSize, bytes) ← readU64be bytes
  readMany readStoredEntry mapSize bytes

/-- The set of maps at the front of a file. -/
def decodeArtifacts (data : Bytes) : Option (List (List StoredEntry)) := do
  let (setSize, bytes) ← readU64be data
  (readMany readStoredMap setSize bytes).map Prod.fst

def writeShort (bytes : Bytes) : Bytes := UInt8.ofNat bytes.length :: bytes

/-- A version, in the compact form where it fits. -/
def writeEntryVersion (v : Version) : Bytes :=
  if v.major < 255 && v.minor < 256 && v.patch < 256 then
    [v.major.toUInt8, v.minor.toUInt8, v.patch.toUInt8]
  else 255 :: (u16be v.major ++ u16be v.minor ++ u16be v.patch)

def writeStoredEntry (entry : StoredEntry) : Bytes :=
  writeShort entry.author ++ writeShort entry.project ++ writeEntryVersion entry.version

def writeStoredMap (entries : List StoredEntry) : Bytes :=
  u64be entries.length ++ entries.flatMap writeStoredEntry

/-- The file of a set of maps. -/
def encodeArtifacts (maps : List (List StoredEntry)) : Bytes :=
  u64be maps.length ++ maps.flatMap writeStoredMap

/-! ## The reader and the format -/

/-- The set and its maps are not above the limits of the reader. -/
def WithinLimits (maps : List (List StoredEntry)) : Prop :=
  maps.length ≤ 1000 ∧ ∀ entries ∈ maps, entries.length ≤ 1000

instance (maps : List (List StoredEntry)) : Decidable (WithinLimits maps) := by
  unfold WithinLimits
  infer_instance

theorem readName_eq (bytes : Bytes) :
    readName bytes = (readShort bytes).map fun r => (cString r.1.1, r.2) := by
  unfold readName readShort
  cases readU8 bytes with
  | none => rfl
  | some first =>
    obtain ⟨length, rest⟩ := first
    dsimp only
    unfold readBytes
    split <;> rfl

theorem readFingerprintEntry_eq (bytes : Bytes) :
    readFingerprintEntry bytes = (readStoredEntry bytes).map fun r => (r.1.shown, r.2) := by
  unfold readFingerprintEntry readStoredEntry
  simp only [readName_eq, Option.bind_eq_bind]
  cases readShort bytes with
  | none => rfl
  | some author =>
    simp only [Option.map_some, Option.bind_some]
    cases readShort author.2 with
    | none => rfl
    | some project =>
      simp only [Option.map_some, Option.bind_some]
      cases readEntryVersion project.2 <;> rfl

/-- A fingerprint is a stored map within the limit. -/
theorem readFingerprint_eq (bytes : Bytes) :
    readFingerprint bytes = (readStoredMap bytes).bind fun r =>
      if decide (r.1.length ≤ 1000) then some (r.1.map StoredEntry.shown, r.2) else none := by
  unfold readFingerprint readStoredMap
  simp only [Option.bind_eq_bind]
  cases readU64be bytes with
  | none => rfl
  | some first =>
    obtain ⟨mapSize, rest⟩ := first
    have shown : ∀ n, readMany readFingerprintEntry n rest =
        (readMany readStoredEntry n rest).bind fun r =>
          if r.1.all fun _ => true then some (r.1.map StoredEntry.shown, r.2) else none := by
      intro n
      refine readMany_checked (fun bytes => ?_) n rest
      rw [readFingerprintEntry_eq]
      cases readStoredEntry bytes <;> rfl
    simp only [Option.bind_some, shown]
    cases entries : readMany readStoredEntry mapSize rest with
    | none => simp
    | some r =>
      have count := (readMany_forall (P := fun _ => True) (fun _ _ _ _ => trivial) entries).1
      simp only [Option.bind_some, List.all_eq_true, implies_true, if_true, count,
        decide_eq_true_eq]
      by_cases large : mapSize > 1000
      · rw [if_pos large, if_neg (by omega)]
      · rw [if_neg large, if_pos (by omega)]

/-- What is parsed is what the format says, within the limits. -/
theorem parseArtifactFingerprints_eq (data : Bytes) :
    parseArtifactFingerprints data = (decodeArtifacts data).bind fun maps =>
      if WithinLimits maps then some (maps.map (List.map StoredEntry.shown)) else none := by
  unfold parseArtifactFingerprints decodeArtifacts
  simp only [Option.bind_eq_bind]
  cases readU64be data with
  | none => rfl
  | some first =>
    obtain ⟨setSize, rest⟩ := first
    have checked := readMany_checked (p := fun entries : List StoredEntry => entries.length ≤ 1000)
      (f := List.map StoredEntry.shown) readFingerprint_eq setSize rest
    simp only [Option.bind_some]
    rw [checked]
    cases maps : readMany readStoredMap setSize rest with
    | none => simp
    | some r =>
      have count := (readMany_forall (P := fun _ => True) (fun _ _ _ _ => trivial) maps).1
      simp only [Option.bind_some, Option.map_some, List.all_eq_true, decide_eq_true_eq]
      by_cases large : setSize > 1000
      · rw [if_pos large, if_neg]
        intro limits
        have small := limits.1
        omega
      · rw [if_neg large]
        by_cases small : ∀ entries ∈ r.1, entries.length ≤ 1000
        · rw [if_pos small, if_pos ⟨by omega, small⟩]
          rfl
        · rw [if_neg small, if_neg fun limits => small limits.2]
          rfl

/-! ## Reading back what is encoded -/

theorem readShort_writeShort (bytes : { bytes : Bytes // bytes.length < 256 }) (rest : Bytes) :
    readShort (writeShort bytes.1 ++ rest) = some (bytes, rest) := by
  have short := bytes.2
  have length : (UInt8.ofNat bytes.1.length).toNat = bytes.1.length := by
    rw [UInt8.toNat_ofNat']
    omega
  unfold writeShort readShort
  simp only [List.cons_append, readU8, length, List.length_append, Nat.le_add_right, if_true,
    List.take_left, List.drop_left]

theorem readEntryVersion_writeEntryVersion (v : Version) (rest : Bytes) :
    readEntryVersion (writeEntryVersion v ++ rest) = some (v, rest) := by
  unfold writeEntryVersion
  by_cases small : (v.major < 255 && v.minor < 256 && v.patch < 256) = true
  · rw [if_pos small]
    simp only [Bool.and_eq_true, decide_eq_true_eq] at small
    obtain ⟨⟨major, minor⟩, patch⟩ := small
    have plain : v.major.toUInt8 ≠ 255 := by
      intro same
      have value := congrArg UInt8.toNat same
      rw [UInt16.lt_iff_toNat_lt] at major
      simp at value major
      omega
    unfold readEntryVersion
    simp only [List.cons_append, List.nil_append, readU8, Option.bind_eq_bind, Option.bind_some,
      if_neg plain]
    rw [toUInt16_toUInt8 (UInt16.lt_trans major (by decide)), toUInt16_toUInt8 minor,
      toUInt16_toUInt8 patch]
  · rw [if_neg small]
    unfold readEntryVersion
    simp only [List.cons_append, readU8, Option.bind_eq_bind, Option.bind_some, if_true,
      List.append_assoc, readU16be_u16be]

theorem readStoredEntry_writeStoredEntry (entry : StoredEntry) (rest : Bytes) :
    readStoredEntry (writeStoredEntry entry ++ rest) = some (entry, rest) := by
  have author := readShort_writeShort ⟨entry.author, entry.authorShort⟩
  have project := readShort_writeShort ⟨entry.project, entry.projectShort⟩
  unfold readStoredEntry writeStoredEntry
  simp only [List.append_assoc, Option.bind_eq_bind]
  simp only [author, project, Option.bind_some, readEntryVersion_writeEntryVersion]

theorem readStoredMap_writeStoredMap {entries : List StoredEntry}
    (few : entries.length < 2 ^ 64) (rest : Bytes) :
    readStoredMap (writeStoredMap entries ++ rest) = some (entries, rest) := by
  unfold readStoredMap writeStoredMap
  rw [List.append_assoc, readU64be_u64be few]
  exact readMany_flatMap (fun entry _ rest => readStoredEntry_writeStoredEntry entry rest) rest

theorem decodeArtifacts_encodeArtifacts {maps : List (List StoredEntry)}
    (limits : WithinLimits maps) : decodeArtifacts (encodeArtifacts maps) = some maps := by
  have few : maps.length < 2 ^ 64 := by
    have := limits.1
    omega
  have each : ∀ entries ∈ maps, ∀ rest,
      readStoredMap (writeStoredMap entries ++ rest) = some (entries, rest) := by
    intro entries member rest
    have := limits.2 entries member
    exact readStoredMap_writeStoredMap (by omega) rest
  have all := readMany_flatMap each []
  rw [List.append_nil] at all
  unfold decodeArtifacts encodeArtifacts
  rw [readU64be_u64be few]
  simp only [Option.bind_eq_bind, Option.bind_some, all, Option.map_some]

/-! ## Names that are read in full -/

/-- The names of an entry have no zero byte and fit into the buffer together. -/
structure StoredEntry.Plain (entry : StoredEntry) : Prop where
  author : 0 ∉ entry.author
  project : 0 ∉ entry.project
  short : entry.author.length + 1 + entry.project.length ≤ 255

theorem cString_toList (bytes : Bytes) :
    (cString bytes).toList = (bytes.takeWhile (· ≠ 0)).map fun b => Char.ofNat b.toNat := by
  rw [cString, String.toList_ofList]

theorem StoredEntry.name_toList (entry : StoredEntry) :
    entry.name.toList = (entry.author.map fun b => Char.ofNat b.toNat) ++
      '/' :: (entry.project.map fun b => Char.ofNat b.toNat) := by
  simp [StoredEntry.name, byteText]

theorem takeWhile_plain {bytes : Bytes} (plain : 0 ∉ bytes) :
    bytes.takeWhile (· ≠ 0) = bytes := by
  apply List.takeWhile_eq_self_iff.mpr
  intro b member
  simp only [ne_eq, decide_not, Bool.not_eq_eq_eq_not, Bool.not_true, decide_eq_false_iff_not]
  rintro rfl
  exact plain member

theorem takeWhile_length_eq {bytes : Bytes} :
    (bytes.takeWhile (· ≠ 0)).length = bytes.length ↔ 0 ∉ bytes := by
  constructor
  · intro same zero
    have whole := (List.takeWhile_prefix (p := (· ≠ 0)) (l := bytes)).eq_of_length same
    have nonzero := List.takeWhile_eq_self_iff.mp whole 0 zero
    simp at nonzero
  · intro plain
    rw [takeWhile_plain plain]

/-- An entry is read as it is stored when its names are plain. -/
theorem StoredEntry.shown_eq_full {entry : StoredEntry} :
    entry.shown = entry.full ↔ entry.Plain := by
  have author := (List.takeWhile_prefix (p := (· ≠ 0)) (l := entry.author)).length_le
  have project := (List.takeWhile_prefix (p := (· ≠ 0)) (l := entry.project)).length_le
  constructor
  · intro same
    have names : entry.shown.name.toList = entry.full.name.toList := by rw [same]
    have count := congrArg List.length names
    simp only [StoredEntry.shown, StoredEntry.full, packageNameBuf, StoredEntry.name_toList,
      String.toList_ofList, cString_toList, List.length_take, List.length_append, List.length_map,
      List.length_cons] at count
    refine ⟨takeWhile_length_eq.mp ?_, takeWhile_length_eq.mp ?_, ?_⟩ <;> omega
  · intro plain
    have text : packageNameBuf (cString entry.author) (cString entry.project) = entry.name := by
      apply String.toList_inj.mp
      rw [packageNameBuf, String.toList_ofList, cString_toList, cString_toList,
        takeWhile_plain plain.author, takeWhile_plain plain.project, StoredEntry.name_toList,
        List.take_of_length_le]
      have := plain.short
      simp only [List.length_append, List.length_map, List.length_cons]
      omega
    unfold StoredEntry.shown StoredEntry.full
    rw [text]

/-- A set of maps is parsed as it is encoded, within the limits and with plain names. -/
theorem parse_encode_iff (maps : List (List StoredEntry)) :
    parseArtifactFingerprints (encodeArtifacts maps) =
        some (maps.map (List.map StoredEntry.full)) ↔
      WithinLimits maps ∧ ∀ entries ∈ maps, ∀ entry ∈ entries, StoredEntry.Plain entry := by
  rw [parseArtifactFingerprints_eq]
  constructor
  · intro parsed
    obtain ⟨decoded, decodes, rest⟩ := Option.bind_eq_some_iff.mp parsed
    split at rest
    · rename_i limits
      have same := Option.some_inj.mp rest
      -- the sizes that are read are the sizes that are written
      have sizes : decoded.map List.length = maps.map List.length := by
        have both := congrArg (List.map List.length) same
        simpa [List.map_map, Function.comp_def] using both
      have within : WithinLimits maps := by
        refine ⟨?_, fun entries member => ?_⟩
        · have count := congrArg List.length sizes
          rw [List.length_map, List.length_map] at count
          have := limits.1
          omega
        · have on : entries.length ∈ decoded.map List.length := by
            rw [sizes]
            exact List.mem_map_of_mem member
          obtain ⟨other, found, count⟩ := List.mem_map.mp on
          have := limits.2 other found
          omega
      rw [decodeArtifacts_encodeArtifacts within] at decodes
      cases decodes
      refine ⟨within, fun entries member entry on => StoredEntry.shown_eq_full.mp ?_⟩
      exact List.map_inj_left.mp (List.map_inj_left.mp same entries member) entry on
    · cases rest
  · rintro ⟨within, plain⟩
    rw [decodeArtifacts_encodeArtifacts within, Option.bind_some, if_pos within]
    refine congrArg some (List.map_congr_left fun entries member => ?_)
    exact List.map_congr_left fun entry on =>
      StoredEntry.shown_eq_full.mpr (plain entries member entry on)

end ElmWrap
