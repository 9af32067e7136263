import ElmWrap.Kit.InstallCmd
import ElmWrap.Lib.ReadOrder

/-!
# The order in which directories are read

What `kit install` finds next to a kitfile, entry by entry as `readdir` lists it: of
several versions of a tool with a binary and a licence `scan_tools_folder` takes the
one it meets last, and of several versions of a package that is named without one
`install_one_package` takes the one it meets first. That paths are not too long and
directories can be opened is taken for granted.
-/

namespace ElmWrap.Kit

open Lib

/-! ## What is on disk -/

/-- An entry of `tools/NAME`. -/
structure ToolVersionDir where
  name : Component
  isDirectory : Bool
  /-- `bin/NAME` below it is a regular file and not empty. -/
  hasBinary : Bool
  /-- `LICENSE` below it is a regular file and not empty. -/
  hasLicense : Bool
deriving DecidableEq

/-- An entry of `tools`. -/
structure ToolDir where
  name : Component
  isDirectory : Bool
  /-- `LICENSE` below it is a regular file and not empty. -/
  hasLicense : Bool
  versions : List ToolVersionDir
  distinct : (versions.map ToolVersionDir.name).Nodup

/-- An entry of `packages/ELM_VERSION/AUTHOR/NAME`. -/
structure PackageVersionDir where
  name : Component
  isDirectory : Bool
  /-- `elm.json` below it is a regular file. -/
  hasElmJson : Bool
deriving DecidableEq

/-- A directory `packages/ELM_VERSION/AUTHOR/NAME`. -/
structure KitPackageDir where
  author : Component
  name : Component
  versions : List PackageVersionDir
  distinct : (versions.map PackageVersionDir.name).Nodup

/-- What is next to a kitfile. -/
structure KitDisk where
  kitfileDir : String
  tools : List ToolDir
  distinctTools : (tools.map ToolDir.name).Nodup
  packages : List KitPackageDir
  distinctPackages : (packages.map fun d => (d.author, d.name)).Nodup

/-! ## The scans -/

/-- An entry whose name starts with a dot. -/
def Component.hidden (name : Component) : Bool := name.text.startsWith "."

/-- `tools/NAME/VERSION/bin/NAME`. -/
def binPath (kitfileDir : String) (tool version : Component) : String :=
  kitfileDir ++ "/tools/" ++ tool.text ++ "/" ++ version.text ++ "/bin/" ++ tool.text

/-- The tests that an entry has to pass to be a version of the tool. -/
def ToolVersionDir.complete (v : ToolVersionDir) : Bool :=
  !v.name.hidden && v.isDirectory && v.hasBinary && v.hasLicense

/-- The inner loop of `scan_tools_folder`. -/
def chosenVersion (kitfileDir : String) (t : ToolDir) : Option String :=
  if !t.isDirectory then none
  else t.versions.foldl (fun chosen v =>
    if v.complete then some (binPath kitfileDir t.name v.name) else chosen) none

/-- `tool_has_local_license`. -/
def toolHasLocalLicense (disk : KitDisk) (name : ToolName) : Bool :=
  disk.tools.any fun t => t.name.text = name.text && t.isDirectory &&
    (t.hasLicense || t.versions.any fun v => !v.name.hidden && v.hasLicense)

/-- The tests that an entry has to pass to be a version of the package. -/
def PackageVersionDir.complete (v : PackageVersionDir) : Bool :=
  !v.name.hidden && v.isDirectory && v.hasElmJson

/-- The loop of `install_one_package` for a package without a version. -/
def firstVersion (versions : List PackageVersionDir) : Option Component :=
  (versions.find? PackageVersionDir.complete).map PackageVersionDir.name

/-- The entries of `packages/ELM_VERSION/AUTHOR/NAME`, none where there is no such directory. -/
def KitDisk.versionsOf (disk : KitDisk) (author name : Component) : List PackageVersionDir :=
  (disk.packages.find? fun d => d.author = author ∧ d.name = name).elim []
    KitPackageDir.versions

/-- What the scans of a kit run see. -/
def KitDisk.source (disk : KitDisk) : KitSource where
  tools := disk.tools.map fun t => (t.name, chosenVersion disk.kitfileDir t)
  packages := disk.packages.flatMap fun d =>
    (d.versions.filter fun v => v.isDirectory && v.hasElmJson).map fun v =>
      (d.author, d.name, v.name)
  toolHasLocalLicense := toolHasLocalLicense disk

/-! ## What a run resolves -/

/-- The run uses this binary for the tool. -/
def ResolvesTool (disk : KitDisk) (m : KitManifest) (name binary : String) : Prop :=
  ∃ t ∈ (kitPrepareLocalSourceManifest (some disk.source) m).tools,
    t.name.text = name ∧ t.localBinPath = some binary

/-- The version that the run uses of a package named without one. -/
def resolvedVersion (disk : KitDisk) (p : KitPackage) : Option Component :=
  firstVersion (disk.versionsOf p.author p.name)

/-- The same tool with its versions in another order. -/
structure ToolDir.Relisted (t t' : ToolDir) : Prop where
  name : t'.name = t.name
  isDirectory : t'.isDirectory = t.isDirectory
  hasLicense : t'.hasLicense = t.hasLicense
  versions : t'.versions.Perm t.versions

/-- The same package with its versions in another order. -/
structure KitPackageDir.Relisted (d d' : KitPackageDir) : Prop where
  author : d'.author = d.author
  name : d'.name = d.name
  versions : d'.versions.Perm d.versions

/-- The same files, with every directory listed in some other order. -/
structure KitDisk.Relisted (disk disk' : KitDisk) : Prop where
  kitfileDir : disk'.kitfileDir = disk.kitfileDir
  tools : ∀ t ∈ disk.tools, ∃ t' ∈ disk'.tools, t.Relisted t'
  onlyTools : ∀ t' ∈ disk'.tools, ∃ t ∈ disk.tools, t.Relisted t'
  packages : ∀ d ∈ disk.packages, ∃ d' ∈ disk'.packages, d.Relisted d'
  onlyPackages : ∀ d' ∈ disk'.packages, ∃ d ∈ disk.packages, d.Relisted d'

/-- What the run resolves is the same in whatever order the directories are listed. -/
def OrderFree (disk : KitDisk) (m : KitManifest) : Prop :=
  ∀ disk', disk.Relisted disk' →
    (∀ name binary, ResolvesTool disk' m name binary ↔ ResolvesTool disk m name binary) ∧
    ∀ p ∈ m.packages, p.version = none → resolvedVersion disk' p = resolvedVersion disk p

/-- `scan_tools_folder` looks into the directory. -/
def Scanned (m : KitManifest) (t : ToolDir) : Prop :=
  t.isDirectory = true ∧ t.name.hidden = false ∧ validToolName t.name.text = true ∧
    manifestHasToolNamed m.tools t.name.text = false

/-- The kit ships at most one version of every tool that is looked for, and of every package
that is named without a version. -/
structure SingleVersions (disk : KitDisk) (m : KitManifest) : Prop where
  tools : ∀ t ∈ disk.tools, Scanned m t →
    (t.versions.filter ToolVersionDir.complete).length ≤ 1
  packages : ∀ p ∈ m.packages, p.version = none →
    ((disk.versionsOf p.author p.name).filter PackageVersionDir.complete).length ≤ 1

/-! ## What the scans keep -/

/-- The names of the complete versions of a tool, in the order of the listing. -/
def ToolDir.versionNames (t : ToolDir) : List Component :=
  (t.versions.filter ToolVersionDir.complete).map ToolVersionDir.name

/-- The last one is taken. -/
theorem chosenVersion_eq (kitfileDir : String) (t : ToolDir) :
    chosenVersion kitfileDir t = if t.isDirectory then
      t.versionNames.getLast?.map (binPath kitfileDir t.name)
    else none := by
  unfold chosenVersion ToolDir.versionNames
  rw [ReadOrder.foldl_last, List.getLast?_map, Option.map_map]
  cases t.isDirectory with
  | false => rfl
  | true => rfl

/-- The names of the complete versions of a package, in the order of the listing. -/
def versionNames (versions : List PackageVersionDir) : List Component :=
  (versions.filter PackageVersionDir.complete).map PackageVersionDir.name

/-- The first one is taken. -/
theorem firstVersion_eq (versions : List PackageVersionDir) :
    firstVersion versions = (versionNames versions).head? := by
  unfold firstVersion versionNames
  rw [List.head?_map, List.head?_filter]

theorem Component.ext_text {a b : Component} (same : a.text = b.text) : a = b := by
  cases a
  cases b
  cases same
  rfl

theorem Component.hidden_eq (name : Component) :
    name.hidden = ".".toList.isPrefixOf name.text.toList := by
  unfold Component.hidden
  rw [Bool.eq_iff_iff, String.startsWith_string_iff, List.isPrefixOf_iff_prefix]

theorem binPath_injective (kitfileDir : String) (tool : Component) :
    Function.Injective (binPath kitfileDir tool) := by
  intro a b same
  apply Component.ext_text
  apply String.toList_inj.mp
  have texts := congrArg String.toList same
  simpa [binPath] using texts

/-- The tool that is discovered in a directory, next to the tools of the manifest. -/
def discovered (tools : List KitTool) (entry : Component × Option String) : Option KitTool :=
  if entry.1.hidden || manifestHasToolNamed tools entry.1.text then none
  else entry.2.bind fun binary =>
    if valid : validToolName entry.1.text = true then
      some ⟨⟨entry.1.text, valid⟩, none, some binary⟩
    else none

theorem discovered_name {tools : List KitTool} {entry : Component × Option String} {t : KitTool}
    (found : discovered tools entry = some t) : t.name.text = entry.1.text := by
  unfold discovered at found
  split at found
  · cases found
  · obtain ⟨binary, _, named⟩ := Option.bind_eq_some_iff.mp found
    split at named
    · cases named
      rfl
    · cases named

/-- One directory: what is discovered is added. -/
theorem scanToolsFolder_cons (tools : List KitTool) (entry : Component × Option String)
    (rest : List (Component × Option String)) :
    scanToolsFolder tools (entry :: rest) =
      scanToolsFolder (tools ++ (discovered tools entry).toList) rest := by
  obtain ⟨name, binary⟩ := entry
  conv_lhs => unfold scanToolsFolder
  unfold discovered Component.hidden
  split
  · rw [Option.toList_none, List.append_nil]
  · cases binary with
    | none => rw [Option.bind_none, Option.toList_none, List.append_nil]
    | some binary =>
      rw [Option.bind_some]
      dsimp only
      split
      · rfl
      · rw [Option.toList_none, List.append_nil]

/-- A tool of another name does not change what is discovered. -/
theorem discovered_append {tools : List KitTool} {t : KitTool} {entry : Component × Option String}
    (other : t.name.text ≠ entry.1.text) :
    discovered (tools ++ [t]) entry = discovered tools entry := by
  unfold discovered manifestHasToolNamed
  rw [List.any_append, List.any_cons, List.any_nil, decide_eq_false other, Bool.or_false,
    Bool.or_false]

/-- The tools after a scan of directories with distinct names. -/
theorem scanToolsFolder_eq {entries : List (Component × Option String)}
    (distinct : (entries.map fun e => e.1.text).Nodup) (tools : List KitTool) :
    scanToolsFolder tools entries = tools ++ entries.filterMap (discovered tools) := by
  induction entries generalizing tools with
  | nil => exact (List.append_nil tools).symm
  | cons entry rest ih =>
    rw [List.map_cons, List.nodup_cons] at distinct
    rw [scanToolsFolder_cons, ih distinct.2]
    cases found : discovered tools entry with
    | none => rw [List.filterMap_cons_none found, Option.toList_none, List.append_nil]
    | some t =>
      have same : rest.filterMap (discovered (tools ++ [t])) =
          rest.filterMap (discovered tools) := by
        refine List.filterMap_congr fun e member => discovered_append fun equal => ?_
        rw [discovered_name found] at equal
        exact distinct.1 (List.mem_map.mpr ⟨e, member, equal.symm⟩)
      rw [List.filterMap_cons_some found, Option.toList_some, same, List.append_assoc,
        List.singleton_append]

/-- The binaries a run uses: those of the manifest, and for each other tool the one found in
its directory. -/
theorem resolvesTool_iff {disk : KitDisk} {m : KitManifest} {name binary : String} :
    ResolvesTool disk m name binary ↔
      (∃ t ∈ m.tools, t.name.text = name ∧ t.localBinPath = some binary ∧
        (t.url.isNone || toolHasLocalLicense disk t.name) = true) ∨
      ∃ t ∈ disk.tools, t.name.text = name ∧ Scanned m t ∧
        chosenVersion disk.kitfileDir t = some binary := by
  have distinct : ((disk.tools.map fun t => (t.name, chosenVersion disk.kitfileDir t)).map
      fun e => e.1.text).Nodup := by
    rw [List.map_map]
    have names := disk.distinctTools.map (f := Component.text) fun a b => Component.ext_text
    rwa [List.map_map] at names
  have tools : ResolvesTool disk m name binary ↔
      ∃ t, (t ∈ m.tools ∨ ∃ d ∈ disk.tools,
        discovered m.tools (d.name, chosenVersion disk.kitfileDir d) = some t) ∧
        (t.url.isNone || toolHasLocalLicense disk t.name) = true ∧
        t.name.text = name ∧ t.localBinPath = some binary := by
    unfold ResolvesTool kitPrepareLocalSourceManifest KitDisk.source
    dsimp only
    rw [scanToolsFolder_eq distinct]
    simp only [List.mem_filter, List.mem_append, List.mem_filterMap, List.mem_map,
      exists_exists_and_eq_and, and_assoc]
  rw [tools]
  constructor
  · rintro ⟨t, kept | ⟨d, member, found⟩, licensed, named, path⟩
    · exact Or.inl ⟨t, kept, named, path, licensed⟩
    · refine Or.inr ⟨d, member, (discovered_name found).symm.trans named, ?_⟩
      unfold discovered at found
      split at found
      · cases found
      rename_i looked
      obtain ⟨b, chosen, valid⟩ := Option.bind_eq_some_iff.mp found
      split at valid
      · rename_i validName
        cases valid
        rw [Bool.or_eq_true, not_or] at looked
        have directory : d.isDirectory = true := by
          dsimp only at chosen
          rw [chosenVersion_eq] at chosen
          split at chosen
          · assumption
          · cases chosen
        exact ⟨⟨directory, Bool.eq_false_of_not_eq_true looked.1, validName,
          Bool.eq_false_of_not_eq_true looked.2⟩, chosen.trans path⟩
      · cases valid
  · rintro (⟨t, kept, named, path, licensed⟩ | ⟨d, member, named, scanned, chosen⟩)
    · exact ⟨t, Or.inl kept, licensed, named, path⟩
    · obtain ⟨_, visible, valid, new⟩ := scanned
      refine ⟨⟨⟨d.name.text, valid⟩, none, some binary⟩, Or.inr ⟨d, member, ?_⟩, rfl, named, rfl⟩
      unfold discovered
      dsimp only
      rw [visible, new, chosen, Option.bind_some, dif_pos valid]
      rfl

/-! ## Other orders -/

section Orders

variable {disk disk' : KitDisk} {m : KitManifest}

theorem ToolDir.Relisted.names {t t' : ToolDir} (relisted : t.Relisted t') :
    t'.versionNames.Perm t.versionNames :=
  (relisted.versions.filter _).map _

theorem ToolDir.Relisted.scanned {t t' : ToolDir} (relisted : t.Relisted t') :
    Scanned m t' ↔ Scanned m t := by
  unfold Scanned
  rw [relisted.name, relisted.isDirectory]

theorem ToolDir.Relisted.licensed {t t' : ToolDir} (relisted : t.Relisted t') (name : ToolName) :
    (t'.name.text = name.text && t'.isDirectory &&
        (t'.hasLicense || t'.versions.any fun v => !v.name.hidden && v.hasLicense)) =
      (t.name.text = name.text && t.isDirectory &&
        (t.hasLicense || t.versions.any fun v => !v.name.hidden && v.hasLicense)) := by
  rw [relisted.name, relisted.isDirectory, relisted.hasLicense, relisted.versions.any_eq]

theorem KitDisk.Relisted.licensed (relisted : disk.Relisted disk') (name : ToolName) :
    toolHasLocalLicense disk' name = toolHasLocalLicense disk name := by
  unfold toolHasLocalLicense
  apply Bool.eq_iff_iff.mpr
  rw [List.any_eq_true, List.any_eq_true]
  constructor
  · rintro ⟨t', member, licensed⟩
    obtain ⟨t, listed, same⟩ := relisted.onlyTools t' member
    exact ⟨t, listed, same.licensed name ▸ licensed⟩
  · rintro ⟨t, member, licensed⟩
    obtain ⟨t', listed, same⟩ := relisted.tools t member
    exact ⟨t', listed, (same.licensed name).trans licensed⟩

/-- With a single version the order of the listing makes no difference to a tool. -/
theorem ToolDir.Relisted.chosen {t t' : ToolDir} (relisted : t.Relisted t')
    (single : t.versionNames.length ≤ 1) (kitfileDir : String) :
    chosenVersion kitfileDir t' = chosenVersion kitfileDir t := by
  rw [chosenVersion_eq, chosenVersion_eq, relisted.name, relisted.isDirectory,
    ReadOrder.eq_of_perm_short relisted.names single]

theorem KitDisk.versionsOf_mem {d : KitPackageDir} (member : d ∈ disk.packages) :
    disk.versionsOf d.author d.name = d.versions := by
  unfold KitDisk.versionsOf
  cases found : disk.packages.find? fun other => other.author = d.author ∧ other.name = d.name with
  | none =>
    have other := List.find?_eq_none.mp found d member
    simp at other
  | some other =>
    have named : other.author = d.author ∧ other.name = d.name := by
      simpa using List.find?_some found
    have same := List.inj_on_of_nodup_map disk.distinctPackages
      (List.mem_of_find?_eq_some found) member (Prod.ext named.1 named.2)
    rw [same]
    rfl

theorem KitDisk.versionsOf_absent {author name : Component}
    (absent : ∀ d ∈ disk.packages, ¬ (d.author = author ∧ d.name = name)) :
    disk.versionsOf author name = [] := by
  unfold KitDisk.versionsOf
  rw [List.find?_eq_none.mpr fun d member => by simpa using absent d member]
  rfl

theorem KitDisk.Relisted.versionsOf (relisted : disk.Relisted disk') (author name : Component) :
    (disk'.versionsOf author name).Perm (disk.versionsOf author name) := by
  by_cases present : ∃ d ∈ disk.packages, d.author = author ∧ d.name = name
  · obtain ⟨d, member, rfl, rfl⟩ := present
    obtain ⟨d', listed, same⟩ := relisted.packages d member
    have versions' := KitDisk.versionsOf_mem listed
    rw [same.author, same.name] at versions'
    rw [versions', KitDisk.versionsOf_mem member]
    exact same.versions
  · have absent : ∀ d ∈ disk.packages, ¬ (d.author = author ∧ d.name = name) :=
      fun d member named => present ⟨d, member, named⟩
    have absent' : ∀ d' ∈ disk'.packages, ¬ (d'.author = author ∧ d'.name = name) := by
      intro d' member named
      obtain ⟨d, listed, same⟩ := relisted.onlyPackages d' member
      exact absent d listed ⟨same.author ▸ named.1, same.name ▸ named.2⟩
    rw [KitDisk.versionsOf_absent absent, KitDisk.versionsOf_absent absent']

/-- Single versions are found in whatever order the directories are listed. -/
theorem SingleVersions.orderFree (single : SingleVersions disk m) : OrderFree disk m := by
  intro disk' relisted
  constructor
  · intro name binary
    rw [resolvesTool_iff, resolvesTool_iff]
    refine or_congr (by simp only [relisted.licensed]) ⟨?_, ?_⟩
    · rintro ⟨t', member, named, scanned, chosen⟩
      obtain ⟨t, listed, same⟩ := relisted.onlyTools t' member
      have scanned := same.scanned.mp scanned
      have one : t.versionNames.length ≤ 1 :=
        (List.length_map _).trans_le (single.tools t listed scanned)
      rw [relisted.kitfileDir, same.chosen one] at chosen
      exact ⟨t, listed, same.name ▸ named, scanned, chosen⟩
    · rintro ⟨t, member, named, scanned, chosen⟩
      obtain ⟨t', listed, same⟩ := relisted.tools t member
      have one : t.versionNames.length ≤ 1 :=
        (List.length_map _).trans_le (single.tools t member scanned)
      rw [← same.chosen one, ← relisted.kitfileDir] at chosen
      exact ⟨t', listed, (congrArg Component.text same.name).trans named,
        same.scanned.mpr scanned, chosen⟩
  · intro p member unversioned
    have names : (versionNames (disk'.versionsOf p.author p.name)).Perm
        (versionNames (disk.versionsOf p.author p.name)) :=
      ((relisted.versionsOf p.author p.name).filter _).map _
    have one : (versionNames (disk.versionsOf p.author p.name)).length ≤ 1 :=
      (List.length_map _).trans_le (single.packages p member unversioned)
    unfold resolvedVersion
    rw [firstVersion_eq, firstVersion_eq, ReadOrder.eq_of_perm_short names one]

/-! ## The other way round -/

/-- The versions of the tool the other way round. -/
def ToolDir.turned (t : ToolDir) : ToolDir where
  name := t.name
  isDirectory := t.isDirectory
  hasLicense := t.hasLicense
  versions := t.versions.reverse
  distinct := by
    rw [List.map_reverse]
    exact List.nodup_reverse.mpr t.distinct

/-- The versions of the package the other way round. -/
def KitPackageDir.turned (d : KitPackageDir) : KitPackageDir where
  author := d.author
  name := d.name
  versions := d.versions.reverse
  distinct := by
    rw [List.map_reverse]
    exact List.nodup_reverse.mpr d.distinct

/-- All versions the other way round. -/
def KitDisk.turned (disk : KitDisk) : KitDisk where
  kitfileDir := disk.kitfileDir
  tools := disk.tools.map ToolDir.turned
  distinctTools := by
    rw [List.map_map]
    exact disk.distinctTools
  packages := disk.packages.map KitPackageDir.turned
  distinctPackages := by
    rw [List.map_map]
    exact disk.distinctPackages

theorem ToolDir.relisted_turned (t : ToolDir) : t.Relisted t.turned :=
  ⟨rfl, rfl, rfl, t.versions.reverse_perm⟩

theorem KitPackageDir.relisted_turned (d : KitPackageDir) : d.Relisted d.turned :=
  ⟨rfl, rfl, d.versions.reverse_perm⟩

theorem KitDisk.relisted_turned (disk : KitDisk) : disk.Relisted disk.turned where
  kitfileDir := rfl
  tools := fun t member => ⟨t.turned, List.mem_map_of_mem member, t.relisted_turned⟩
  onlyTools := by
    intro t' member
    obtain ⟨t, listed, rfl⟩ := List.mem_map.mp member
    exact ⟨t, listed, t.relisted_turned⟩
  packages := fun d member => ⟨d.turned, List.mem_map_of_mem member, d.relisted_turned⟩
  onlyPackages := by
    intro d' member
    obtain ⟨d, listed, rfl⟩ := List.mem_map.mp member
    exact ⟨d, listed, d.relisted_turned⟩

theorem ToolDir.versionNames_turned (t : ToolDir) :
    t.turned.versionNames = t.versionNames.reverse := by
  unfold ToolDir.versionNames ToolDir.turned
  rw [List.filter_reverse, List.map_reverse]

theorem ToolDir.versionNames_nodup (t : ToolDir) : t.versionNames.Nodup :=
  t.distinct.sublist (List.filter_sublist.map _)

theorem KitDisk.versionsOf_turned (disk : KitDisk) (author name : Component) :
    disk.turned.versionsOf author name = (disk.versionsOf author name).reverse := by
  unfold KitDisk.versionsOf KitDisk.turned
  rw [List.find?_map]
  change Option.elim (Option.map _ (disk.packages.find? fun d => d.author = author ∧
    d.name = name)) _ _ = _
  cases disk.packages.find? fun d => d.author = author ∧ d.name = name with
  | none => rfl
  | some d => rfl

theorem KitDisk.versionsOf_nodup (disk : KitDisk) (author name : Component) :
    ((disk.versionsOf author name).map PackageVersionDir.name).Nodup := by
  unfold KitDisk.versionsOf
  cases disk.packages.find? fun d => d.author = author ∧ d.name = name with
  | none => exact List.nodup_nil
  | some d => exact d.distinct

/-- A run that does not depend on the order meets single versions only. -/
theorem OrderFree.single (free : OrderFree disk m) : SingleVersions disk m := by
  obtain ⟨binaries, versions⟩ := free disk.turned disk.relisted_turned
  constructor
  · intro t member scanned
    have same : t.versionNames.head? = t.versionNames.getLast? := by
      cases last : t.versionNames.getLast? with
      | none => rw [List.getLast?_eq_none_iff.mp last, List.head?_nil]
      | some v =>
        have chosen : chosenVersion disk.kitfileDir t =
            some (binPath disk.kitfileDir t.name v) := by
          rw [chosenVersion_eq, if_pos scanned.1, last]
          rfl
        have used := (binaries t.name.text _).mpr
          (resolvesTool_iff.mpr (Or.inr ⟨t, member, rfl, scanned, chosen⟩))
        rcases resolvesTool_iff.mp used with ⟨own, listed, named, _⟩ |
          ⟨t', listed, named, _, turned⟩
        · have there : manifestHasToolNamed m.tools t.name.text = true :=
            List.any_eq_true.mpr ⟨own, listed, decide_eq_true named⟩
          rw [scanned.2.2.2] at there
          cases there
        · obtain ⟨other, inside, rfl⟩ := List.mem_map.mp listed
          have equal : other = t := List.inj_on_of_nodup_map disk.distinctTools inside member
            (Component.ext_text named)
          subst equal
          have directory : other.turned.isDirectory = true := scanned.1
          rw [chosenVersion_eq, if_pos directory, ToolDir.versionNames_turned,
            List.getLast?_reverse] at turned
          obtain ⟨w, first, path⟩ := Option.map_eq_some_iff.mp turned
          rw [first, binPath_injective _ _ path]
    have short := ReadOrder.short_of_head_eq_last t.versionNames_nodup same
    unfold ToolDir.versionNames at short
    rwa [List.length_map] at short
  · intro p member unversioned
    have same := versions p member unversioned
    unfold resolvedVersion at same
    have distinct : (versionNames (disk.versionsOf p.author p.name)).Nodup :=
      (disk.versionsOf_nodup p.author p.name).sublist (List.filter_sublist.map _)
    have turned : versionNames (disk.versionsOf p.author p.name).reverse =
        (versionNames (disk.versionsOf p.author p.name)).reverse := by
      unfold versionNames
      rw [List.filter_reverse, List.map_reverse]
    rw [firstVersion_eq, firstVersion_eq, KitDisk.versionsOf_turned, turned,
      List.head?_reverse] at same
    have short := ReadOrder.short_of_head_eq_last distinct same.symm
    unfold versionNames at short
    rwa [List.length_map] at short

end Orders

/-- What a run resolves does not depend on the order in which the directories are listed
exactly when the kit ships single versions. -/
theorem orderFree_iff (disk : KitDisk) (m : KitManifest) :
    OrderFree disk m ↔ SingleVersions disk m :=
  ⟨OrderFree.single, SingleVersions.orderFree⟩

/-- Two versions of one tool. -/
def twoToolVersions : KitDisk where
  kitfileDir := "kit"
  tools := [{
    name := ⟨"run", by decide⟩
    isDirectory := true
    hasLicense := false
    versions := [⟨⟨"1.0.0", by decide⟩, true, true, true⟩, ⟨⟨"2.0.0", by decide⟩, true, true, true⟩]
    distinct := by decide }]
  distinctTools := by decide
  packages := []
  distinctPackages := List.nodup_nil

/-- A kit without entries. -/
def bareKit : KitManifest where
  compilerName := "elm"
  compilerVersion := "0.19.1"
  kitName := "kit"
  kitVersion := "1.0.0"
  tools := []
  packages := []
  localDevs := []

/-- Which of them is used depends on the order. -/
theorem orderFree_fails : ¬ OrderFree twoToolVersions bareKit := by
  intro free
  obtain ⟨run, versions⟩ : ∃ t ∈ twoToolVersions.tools, t.name.text = "run" ∧
      t.isDirectory = true ∧ t.versionNames.length = 2 := by
    refine ⟨_, List.mem_cons_self, rfl, rfl, ?_⟩
    simp [ToolDir.versionNames, List.filter_cons, ToolVersionDir.complete, Component.hidden_eq]
    rfl
  obtain ⟨member, named, directory, two⟩ := versions
  have visible : run.name.hidden = false := by
    rw [Component.hidden_eq, named]
    decide
  have valid : validToolName run.name.text = true := by
    rw [named]
    decide
  have short := free.single.tools run member ⟨directory, visible, valid, rfl⟩
  unfold ToolDir.versionNames at two
  rw [List.length_map] at two
  omega

end ElmWrap.Kit
