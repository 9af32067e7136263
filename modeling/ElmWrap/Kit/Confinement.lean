import ElmWrap.Kit.UpdateCmd

/-!
# Where the paths of a kit lead

Every path that installing or updating a kit changes lies in the directory designated
for it exactly where the versions of the kitfile and the entries of the archives that
are downloaded do not lead out of it.
-/

namespace ElmWrap.Kit

open Lib.Paths

/-! ## Paths below a directory -/

/-- The names along the path are in the directory, or on the way to it. -/
def Ways (home : Place) (rest : List String) : Prop :=
  ∀ place ∈ (below home rest).way, home <+: place ∨ place <+: home

/-- The path leads into the directory. -/
def Lands (home : Place) (rest : List String) : Prop := home <+: (below home rest).place

/-- The deed is done in the directory designated for it; directories may also be made on the way
to it. -/
def Deed.Inside (d : Deed) : Prop :=
  match d.kind with
  | .directories => ∀ place ∈ d.path.way, d.home <+: place ∨ place <+: d.home
  | _ => d.home <+: d.path.place

instance (d : Deed) : Decidable d.Inside := by
  unfold Deed.Inside
  split <;> infer_instance

/-- All deeds are inside. -/
def AllInside (deeds : List Deed) : Prop := ∀ d ∈ deeds, d.Inside

instance (deeds : List Deed) : Decidable (AllInside deeds) := List.decidableBAll _ deeds

@[simp] theorem AllInside.nil : AllInside [] := fun _ member => nomatch member

@[simp] theorem AllInside.cons {d : Deed} {deeds : List Deed} :
    AllInside (d :: deeds) ↔ d.Inside ∧ AllInside deeds := List.forall_mem_cons

@[simp] theorem AllInside.append {first second : List Deed} :
    AllInside (first ++ second) ↔ AllInside first ∧ AllInside second := List.forall_mem_append

@[simp] theorem AllInside.ite {p : Prop} [Decidable p] {first second : List Deed} :
    AllInside (if p then first else second) ↔
      (p → AllInside first) ∧ (¬p → AllInside second) := by
  split <;> simp_all

theorem AllInside.flatMap {α : Type} {items : List α} {deeds : α → List Deed} :
    AllInside (items.flatMap deeds) ↔ ∀ item ∈ items, AllInside (deeds item) := by
  unfold AllInside
  simp only [List.mem_flatMap, forall_exists_index, and_imp]
  exact ⟨fun all item member d => all d item member, fun all d item member => all item member d⟩

theorem AllInside.map {α : Type} {items : List α} {deed : α → Deed} :
    AllInside (items.map deed) ↔ ∀ item ∈ items, (deed item).Inside := by
  unfold AllInside
  simp

theorem fixed_inside (kind : DeedKind) (place : Place) : (fixed kind place).Inside := by
  cases kind with
  | directories => exact fun _ member => nomatch member
  | entry => exact List.prefix_refl _
  | tree => exact List.prefix_refl _

theorem Component.segments (c : Component) : segments c.text.toList = [.name c.text.toList] := by
  have component := c.component
  simp only [isComponent, Bool.and_eq_true, decide_eq_true_eq] at component
  obtain ⟨⟨⟨nonempty, slash⟩, here⟩, up⟩ := component
  have plain : '/' ∉ c.text.toList := by simpa using slash
  unfold Lib.Paths.segments
  rw [List.splitOn_eq_singleton plain]
  have filled : c.text.toList ≠ [] := by simpa using nonempty
  simp [filled, here, up]

theorem below_cons (root : Place) (text : String) (rest : List String) :
    (below root (text :: rest)).parts = segments text.toList ++ (below root rest).parts := by
  unfold below
  cases rest with
  | nil => simp
  | cons next rest => simp [List.intercalate_cons_cons, segments_slash]

theorem below_append (root : Place) (first second : List String) :
    (below root (first ++ second)).parts =
      (below root first).parts ++ (below root second).parts := by
  induction first with
  | nil => rfl
  | cons text first ih => rw [List.cons_append, below_cons, below_cons, ih, List.append_assoc]

theorem below_names (root : Place) (names : List Component) :
    (below root (names.map Component.text)).parts =
      names.map fun name => .name name.text.toList := by
  induction names with
  | nil => rfl
  | cons name names ih =>
    rw [List.map_cons, below_cons, ih, Component.segments, List.map_cons]
    rfl

/-- Names lead down from a root. -/
theorem resolve_names (root : Place) (names : List Component) :
    resolve root (names.map fun name => .name name.text.toList) = under root names := by
  unfold under
  rw [← prefix_resolve_names, List.map_map]
  rfl

/-- The names on the way to a place below a root. -/
theorem way_names {root place : Place} {names : List Component}
    (member : place ∈ way root (names.map fun name => .name name.text.toList)) :
    root <+: place ∧ place <+: under root names := by
  unfold under
  induction names generalizing root with
  | nil => cases member
  | cons name names ih =>
    rw [List.map_cons, List.append_cons]
    rcases List.mem_cons.mp member with rfl | later
    · exact ⟨List.prefix_append .., List.prefix_append ..⟩
    · exact ⟨(List.prefix_append ..).trans (ih later).1, (ih later).2⟩

/-- A deed below its directory. -/
theorem homeDeed_inside {root : Place} {names : List Component} {kind : DeedKind}
    {rest : List String} :
    (homeDeed root names kind rest).Inside ↔
      match kind with
      | .directories => Ways (under root names) rest
      | _ => Lands (under root names) rest := by
  have parts : (homeDeed root names kind rest).path.parts =
      (names.map fun name => .name name.text.toList) ++ (below (under root names) rest).parts := by
    unfold homeDeed
    rw [below_append, below_names]
    rfl
  have place : (homeDeed root names kind rest).path.place =
      (below (under root names) rest).place := by
    unfold Path.place
    rw [parts, resolve_append]
    exact congrArg (resolve · _) (resolve_names root names)
  have lands : under root names <+: (homeDeed root names kind rest).path.place ↔
      Lands (under root names) rest := by rw [place, Lands]
  cases kind with
  | entry => exact lands
  | tree => exact lands
  | directories =>
    have split : (homeDeed root names .directories rest).path.way =
        way root (names.map fun name => .name name.text.toList) ++
          (below (under root names) rest).way := by
      unfold Path.way
      rw [parts, way_append]
      exact congrArg (_ ++ way · _) (resolve_names root names)
    constructor
    · intro inside p member
      exact inside p (split ▸ List.mem_append_right _ member)
    · intro ways p member
      rw [split] at member
      rcases List.mem_append.mp member with before | after
      · exact .inr (way_names before).2
      · exact ways p after

/-! ## Versions -/

theorem Lands.nil (home : Place) : Lands home [] := List.prefix_refl _

theorem Ways.nil (home : Place) : Ways home [] := fun _ member => nomatch member

/-- What is below a path that leads into the directory is in it as well. -/
theorem Lands.component {home : Place} {rest : List String} (lands : Lands home rest)
    (name : Component) : Lands home (rest ++ [name.text]) := by
  unfold Lands Path.place at lands ⊢
  rw [below_append, resolve_append, show [name.text] = [name].map Component.text from rfl,
    below_names]
  exact lands.trans (List.prefix_append ..)

theorem Lands.names (home : Place) (names : List Component) :
    Lands home (names.map Component.text) := by
  unfold Lands Path.place
  rw [below_names]
  exact (resolve_names home names).symm ▸ List.prefix_append ..

theorem Ways.names (home : Place) (names : List Component) :
    Ways home (names.map Component.text) := by
  intro place member
  unfold Path.way at member
  rw [below_names] at member
  exact .inl (way_names member).1

/-! ## Fitting versions -/

/-- The versions of a package that is installed or downloaded. -/
def PackageFits (places : KitPlaces) (p : KitPackage) : Prop :=
  ∀ version ∈ p.version,
    Ways (under places.packagesDir [p.author, p.name]) [version] ∧
      Lands (under places.packagesDir [p.author, p.name]) [version]

/-- The path of an entry that is extracted leads into the directory. -/
def EntryFits (home : Place) (version : String) (entry : ZipEntry) : Prop :=
  shouldExtractPath entry.filename = true →
    Ways home [version, relPath entry.filename] ∧
      (entry.isDirectory = false → Lands home [version, relPath entry.filename])

/-- The archive of a package that is downloaded. -/
def ArchiveFits (places : KitPlaces) (archives : Archives) (p : KitPackage) : Prop :=
  ∀ version ∈ p.version, ∀ entry ∈ archives p.author p.name version,
    EntryFits (under places.packagesDir [p.author, p.name]) version entry

/-- The version of a local-dev package that is registered. -/
def LocalDevFits (places : KitPlaces) (ld : KitLocalDev) : Prop :=
  Lands (under places.packagesDir [ld.author, ld.name]) [ld.version] ∧
    Ways (under places.wrapHome [localDevTrackingDir, ld.author, ld.name]) [ld.version] ∧
    Lands (under places.wrapHome [localDevTrackingDir, ld.author, ld.name]) [ld.version, "PATH"]

/-- The version of a local-dev package that is removed. -/
def RemovalFits (places : KitPlaces) (ld : KitLocalDev) : Prop :=
  Lands (under places.packagesDir [ld.author, ld.name]) [ld.version] ∧
    Lands (under places.wrapHome [localDevTrackingDir, ld.author, ld.name]) [ld.version]

/-- The version of a kit whose tool is downloaded. -/
def ToolFits (places : KitPlaces) (tool : KitTool) (kitVersion : String) : Prop :=
  Ways (under places.wrapHome [kitToolsDir, tool.name.component]) [kitVersion, "bin"] ∧
    Lands (under places.wrapHome [kitToolsDir, tool.name.component]) [kitVersion, "bin"]

variable {places : KitPlaces}

theorem copied_component {file : String} (member : file ∈ "src" :: filesToCopy ++ metadataFiles) :
    isComponent file.toList = true := by
  revert file
  simp only [filesToCopy, metadataFiles, List.cons_append, List.nil_append, List.forall_mem_cons]
  refine ⟨?_, ?_, ?_, ?_, ?_, ?_, ?_, ?_, fun _ member => nomatch member⟩ <;> decide

theorem Lands.file {home : Place} {version file : String} (lands : Lands home [version])
    (member : file ∈ "src" :: filesToCopy ++ metadataFiles) : Lands home [version, file] :=
  lands.component ⟨file, copied_component member⟩

theorem copyDirectorySelective_inside {meets : PackageMeets} {author name : Component}
    {version : String}
    (ways : Ways (under places.packagesDir [author, name]) [version])
    (lands : Lands (under places.packagesDir [author, name]) [version]) :
    AllInside (copyDirectorySelective places meets author name version) := by
  unfold copyDirectorySelective
  refine AllInside.cons.mpr ⟨homeDeed_inside.2 ways, AllInside.ite.mpr ⟨fun _ => ?_, by simp⟩⟩
  refine AllInside.append.mpr ⟨AllInside.map.mpr fun file member => ?_, ?_⟩
  · have listed := (List.mem_filter.mp member).1
    exact homeDeed_inside.2 (lands.file (by simp [listed]))
  · simp only [AllInside.ite, AllInside.cons, AllInside.nil, and_true, implies_true]
    exact fun _ => homeDeed_inside.2 (lands.file (by simp))

theorem installFromFile_inside {meets : PackageMeets} {author name : Component}
    {version : String}
    (ways : Ways (under places.packagesDir [author, name]) [version])
    (lands : Lands (under places.packagesDir [author, name]) [version]) :
    AllInside (installFromFile places meets author name version) := by
  unfold installFromFile
  simp only [AllInside.cons, AllInside.ite, AllInside.append, AllInside.nil, implies_true, and_true]
  exact ⟨homeDeed_inside.2 (Ways.nil _), fun _ => ⟨fun _ => homeDeed_inside.2 lands,
    copyDirectorySelective_inside ways lands⟩⟩

/-- An entry stays in the directory of the package exactly where its path does. -/
theorem extractedEntry_inside {author name : Component} {version : String} {entry : ZipEntry} :
    AllInside (extractedEntry places author name version entry) ↔
      EntryFits (under places.packagesDir [author, name]) version entry := by
  unfold extractedEntry EntryFits
  cases shouldExtractPath entry.filename with
  | false => simp
  | true =>
    cases entry.isDirectory with
    | true => simp [cacheDeed, homeDeed_inside]
    | false =>
      let file := cacheDeed places author name .entry [version, relPath entry.filename]
      obtain ⟨inner, outer⟩ := file.path.way_dirname
      have ways : (∀ p ∈ file.path.way, file.home <+: p ∨ p <+: file.home) ↔
          Ways (under places.packagesDir [author, name]) [version, relPath entry.filename] :=
        @homeDeed_inside _ _ .directories _
      have lands : file.home <+: file.path.place ↔
          Lands (under places.packagesDir [author, name]) [version, relPath entry.filename] :=
        @homeDeed_inside _ _ .entry _
      simp only [Bool.not_true, Bool.false_eq_true, if_false, AllInside.cons, AllInside.nil,
        and_true, true_imp_iff, ← ways, ← lands]
      constructor
      · intro ⟨parents, inside⟩
        refine ⟨fun p member => ?_, inside⟩
        rcases outer p member with parent | rfl
        · exact parents p parent
        · exact .inl inside
      · exact fun ⟨all, inside⟩ => ⟨fun p member => all p (inner member), inside⟩

variable {m : KitManifest} {run : KitRun} {body : String}

theorem installEnvDownloadPackage_inside {meets : PackageMeets} {author name : Component}
    {version : String} (ways : Ways (under run.places.packagesDir [author, name]) [version])
    (lands : Lands (under run.places.packagesDir [author, name]) [version])
    (archive : ∀ entry ∈ run.archives author name version,
      EntryFits (under run.places.packagesDir [author, name]) version entry) :
    AllInside (installEnvDownloadPackage run meets author name version) := by
  have directories : (cacheDeed run.places author name .directories [version]).Inside :=
    homeDeed_inside.2 ways
  unfold installEnvDownloadPackage
  split
  · simp only [AllInside.ite, AllInside.nil, implies_true, and_true]
    exact fun _ => copyDirectorySelective_inside ways lands
  · simp only [AllInside.ite, AllInside.nil, AllInside.cons, AllInside.append, implies_true,
      and_true, true_and]
    refine fun _ => ⟨fun _ => ⟨directories, AllInside.map.mpr fun file member => ?_⟩,
      fun _ => ⟨fixed_inside .., fun _ => ⟨directories, AllInside.flatMap.mpr ?_⟩⟩⟩
    · have listed := (List.mem_filter.mp member).1
      exact homeDeed_inside.2 (lands.file (by simp [listed]))
    · exact fun entry member =>
        extractedEntry_inside.2 (archive entry (List.mem_filter.mp member).1)

theorem installOnePackage_inside {meets : PackageMeets} {p : KitPackage}
    (fits : PackageFits run.places p)
    (archive : ArchiveFits run.places run.archives p ∨
      ∀ version ∈ p.version, run.scanned p.author p.name version = true) :
    AllInside (installOnePackage run meets p) := by
  unfold installOnePackage
  split
  · rename_i version found
    obtain ⟨ways, lands⟩ := fits version found
    simp only [AllInside.ite, Bool.or_eq_true, not_or]
    refine ⟨fun _ => installFromFile_inside ways lands, fun elsewhere => ?_⟩
    rcases archive with archive | scanned
    · exact installEnvDownloadPackage_inside ways lands (archive version found)
    · exact absurd (scanned version found) elsewhere.2
  · split
    · rename_i version _
      exact installFromFile_inside (Ways.names _ [version]) (Lands.names _ [version])
    · exact AllInside.nil

theorem localDevRegistries_inside : AllInside (localDevRegistries places) := by
  simp [localDevRegistries, fixed_inside]

theorem installOneLocalDev_inside {meets : LocalDevMeets} {ld : KitLocalDev}
    (fits : LocalDevFits places ld) : AllInside (installOneLocalDev places meets ld) := by
  obtain ⟨cache, ways, lands⟩ := fits
  unfold installOneLocalDev
  simp only [AllInside.ite, AllInside.nil, AllInside.cons, AllInside.append, implies_true,
    and_true, true_and]
  exact fun _ => ⟨homeDeed_inside.2 (Ways.nil _), fun _ => ⟨fun _ => homeDeed_inside.2 cache,
    fun _ => ⟨⟨homeDeed_inside.2 cache, homeDeed_inside.2 ways,
      fun _ => homeDeed_inside.2 lands⟩, localDevRegistries_inside⟩⟩⟩

theorem deregisterOldLocalDev_inside {meets : RemovalMeets} {ld : KitLocalDev}
    (fits : RemovalFits places ld) : AllInside (deregisterOldLocalDev places meets ld) := by
  unfold deregisterOldLocalDev
  simp only [AllInside.ite, AllInside.nil, AllInside.cons, AllInside.append, implies_true,
    and_true]
  exact ⟨⟨fun _ => homeDeed_inside.2 fits.1, localDevRegistries_inside⟩,
    fun _ => homeDeed_inside.2 fits.2⟩

/-- A name with an ending that has no slash. -/
def Component.ending (name : Component) (ending : String) (plain : '/' ∉ ending.toList) :
    Component where
  text := name.text ++ ending
  component := by
    have component := name.component
    simp only [isComponent, Bool.and_eq_true, decide_eq_true_eq] at component ⊢
    obtain ⟨⟨⟨nonempty, slash⟩, here⟩, up⟩ := component
    rw [String.toList_append]
    have filled : name.text.toList ≠ [] := by simpa using nonempty
    have slashes : '/' ∉ name.text.toList := by simpa using slash
    refine ⟨⟨⟨by simp [filled], by simp [slashes, plain]⟩, fun same => ?_⟩, fun same => ?_⟩
    · rcases List.append_eq_singleton_iff.mp same with ⟨empty, _⟩ | ⟨one, _⟩
      · exact filled empty
      · exact here one
    · cases text : name.text.toList with
      | nil => exact filled text
      | cons c rest =>
        rw [text, List.cons_append, List.cons.injEq] at same
        obtain ⟨rfl, same⟩ := same
        rcases List.append_eq_singleton_iff.mp same with ⟨rfl, _⟩ | ⟨rfl, _⟩
        · exact here text
        · exact up text

/-- The ending of a file being downloaded. -/
theorem part_plain (pid : Nat) : '/' ∉ (".part." ++ pid.repr).toList := by
  rw [String.toList_append]
  intro member
  rcases List.mem_append.mp member with dot | digit
  · revert dot
    decide
  · rw [Nat.toList_repr] at digit
    exact absurd (Nat.isDigit_of_mem_toDigits (by decide) (by decide) digit) (by decide)

theorem downloadToolBinary_inside {pid : Nat} {meets : ToolMeets} {tool : KitTool}
    {kitVersion : String} (fits : ToolFits places tool kitVersion) :
    AllInside (downloadToolBinary places pid meets tool.name kitVersion) := by
  obtain ⟨ways, lands⟩ := fits
  unfold downloadToolBinary
  simp only [AllInside.ite, AllInside.nil, AllInside.cons, implies_true, and_true]
  exact ⟨homeDeed_inside.2 ways, fun _ =>
    ⟨homeDeed_inside.2 (lands.component (tool.name.component.ending _ (part_plain pid))),
      fun _ => homeDeed_inside.2 (lands.component tool.name.component)⟩⟩

theorem toolDownload_inside {i : Nat} {tool : KitTool}
    (fits : tool.url.isSome → ToolFits run.places tool m.kitVersion) :
    AllInside (toolDownload run m i tool) := by
  unfold toolDownload
  simp only [AllInside.ite, AllInside.nil, implies_true, and_true]
  exact fun url => downloadToolBinary_inside (fits url)

theorem linkDeed_inside (name : ToolName) : (linkDeed places name).Inside :=
  homeDeed_inside.2 (Lands.nil _)

theorem installAllTools_inside
    (fits : ∀ tool ∈ m.tools, tool.url.isSome → ToolFits run.places tool m.kitVersion) :
    AllInside (installAllTools run m).1 := by
  unfold installAllTools
  split
  · exact AllInside.nil
  · refine AllInside.flatMap.mpr fun item member => ?_
    unfold installOneTool
    simp only [AllInside.append, AllInside.ite, AllInside.cons, AllInside.nil, and_true,
      implies_true, linkDeed_inside]
    exact toolDownload_inside (fits item.1 (List.fst_mem_of_mem_zipIdx member))

theorem kitDownloadTools_inside {items : List (KitTool × Nat)}
    (fits : ∀ item ∈ items, item.1.url.isSome → ToolFits run.places item.1 m.kitVersion) :
    AllInside (kitDownloadTools run m items).1 := by
  induction items with
  | nil => exact AllInside.nil
  | cons item items ih =>
    have first : AllInside (toolDownload run m item.2 item.1) :=
      toolDownload_inside (fits item List.mem_cons_self)
    unfold kitDownloadTools
    split
    · exact AllInside.append.mpr
        ⟨first, ih fun item member => fits item (List.mem_cons_of_mem _ member)⟩
    · exact first

/-! ## The local source -/

/-- Tools that are found have no URL. -/
theorem mem_scanToolsFolder {found : List (Component × Option String)} :
    ∀ {tools : List KitTool} {tool : KitTool}, tool ∈ scanToolsFolder tools found →
      tool.url.isSome → tool ∈ tools := by
  induction found with
  | nil => exact fun member _ => member
  | cons entry found ih =>
    intro tools tool member url
    unfold scanToolsFolder at member
    split at member
    · exact ih member url
    · split at member
      · exact ih member url
      · split at member
        · rcases List.mem_append.mp (ih member url) with old | new
          · exact old
          · rw [List.mem_singleton.mp new] at url
            cases url
        · exact ih member url

/-- Packages that are found have the name of a directory for their version. -/
theorem mem_scanPackagesFolder {localDevs : List KitLocalDev}
    {found : List (Component × Component × Component)} :
    ∀ {packages : List KitPackage} {p : KitPackage},
      p ∈ scanPackagesFolder localDevs packages found →
        p ∈ packages ∨ ∃ version : Component, p.version = some version.text ∧
          (p.author, p.name, version) ∈ found := by
  induction found with
  | nil => exact fun member => .inl member
  | cons entry found ih =>
    intro packages p member
    unfold scanPackagesFolder at member
    split at member
    · exact (ih member).imp_right fun ⟨version, named, among⟩ =>
        ⟨version, named, List.mem_cons_of_mem _ among⟩
    · rcases ih member with old | ⟨version, named, among⟩
      · rcases List.mem_append.mp old with older | new
        · exact .inl older
        · rw [List.mem_singleton.mp new]
          exact .inr ⟨_, rfl, List.mem_cons_self⟩
      · exact .inr ⟨version, named, List.mem_cons_of_mem _ among⟩

theorem prepared_tools {source : Option KitSource} {tool : KitTool}
    (member : tool ∈ (kitPrepareLocalSourceManifest source m).tools) (url : tool.url.isSome) :
    tool ∈ m.tools := by
  cases source with
  | none => exact member
  | some source => exact mem_scanToolsFolder (List.mem_filter.mp member).1 url

theorem prepared_packages {p : KitPackage}
    (member : p ∈ (kitPrepareLocalSourceManifest run.source m).packages) :
    p ∈ m.packages ∨ ∃ version : Component, p.version = some version.text ∧
      run.scanned p.author p.name version.text = true := by
  unfold KitRun.scanned
  cases found : run.source with
  | none =>
    rw [found] at member
    exact .inl member
  | some source =>
    rw [found] at member
    refine (mem_scanPackagesFolder member).imp_right fun ⟨version, named, among⟩ => ?_
    refine ⟨version, named, List.any_eq_true.mpr ⟨_, among, ?_⟩⟩
    simp

theorem prepared_localDevs (source : Option KitSource) (m : KitManifest) :
    (kitPrepareLocalSourceManifest source m).localDevs = m.localDevs := by
  cases source <;> rfl

theorem prepared_kitVersion (source : Option KitSource) (m : KitManifest) :
    (kitPrepareLocalSourceManifest source m).kitVersion = m.kitVersion := by
  cases source <;> rfl

/-! ## Whole runs -/

theorem installAllLocalDevs_inside (fits : ∀ ld ∈ m.localDevs, LocalDevFits run.places ld) :
    AllInside (installAllLocalDevs run m) :=
  AllInside.flatMap.mpr fun _ member =>
    installOneLocalDev_inside (fits _ (List.fst_mem_of_mem_zipIdx member))

theorem installAllPackages_inside (fits : ∀ p ∈ m.packages, PackageFits run.places p)
    (archives : ∀ p ∈ m.packages, ArchiveFits run.places run.archives p) :
    AllInside (installAllPackages run (kitPrepareLocalSourceManifest run.source m)) := by
  refine AllInside.flatMap.mpr fun item member => ?_
  rcases prepared_packages (List.fst_mem_of_mem_zipIdx member) with
    explicit | ⟨version, named, scanned⟩
  · exact installOnePackage_inside (fits _ explicit) (.inl (archives _ explicit))
  · refine installOnePackage_inside (fun text has => ?_) (.inr fun text has => ?_)
    · obtain rfl : version.text = text := Option.some_inj.mp (named.symm.trans has)
      exact ⟨Ways.names _ [version], Lands.names _ [version]⟩
    · obtain rfl : version.text = text := Option.some_inj.mp (named.symm.trans has)
      exact scanned

theorem ensureToolBinPath_inside (run : KitRun) (m : KitManifest) :
    AllInside (ensureToolBinPath run m).1 := by
  unfold ensureToolBinPath
  split
  · exact AllInside.nil
  · simp [fixed_inside]

/-- The versions of a kitfile that is installed, and the archives of its packages. -/
structure InstallFits (places : KitPlaces) (archives : Archives) (m : KitManifest) : Prop where
  localDevs : ∀ ld ∈ m.localDevs, LocalDevFits places ld
  packages : ∀ p ∈ m.packages, PackageFits places p
  archives : ∀ p ∈ m.packages, ArchiveFits places archives p
  tools : ∀ tool ∈ m.tools, ToolFits places tool m.kitVersion

theorem InstallFits.inside (read : readKitfile body = some m)
    (fits : InstallFits run.places run.archives m) :
    AllInside (cmdKitInstall run body) := by
  have binPath := ensureToolBinPath_inside run (kitPrepareLocalSourceManifest run.source m)
  unfold cmdKitInstall
  rw [read]
  simp only
  split
  · exact AllInside.nil
  · split
    · exact AllInside.nil
    · split
      · rename_i ensured
        rwa [ensured] at binPath
      · rename_i deeds ensured
        rw [ensured] at binPath
        simp only [AllInside.ite, AllInside.append]
        refine ⟨fun _ => binPath, fun _ => ⟨⟨⟨binPath, ?_⟩, ?_⟩, ?_⟩⟩
        · refine installAllLocalDevs_inside ?_
          rw [prepared_localDevs]
          exact fits.localDevs
        · exact installAllPackages_inside fits.packages fits.archives
        · refine installAllTools_inside fun tool member url => ?_
          rw [prepared_kitVersion]
          exact fits.tools tool (prepared_tools member url)

/-- The versions of a kitfile that updates a kit in this directory, and the archives of its
packages. -/
structure UpdateFits (places : KitPlaces) (archives : Archives) (dir : KitDir)
    (m : KitManifest) : Prop where
  localDevs : ∀ ld ∈ m.localDevs, LocalDevFits places ld
  packages : ∀ p ∈ m.packages, PackageFits places p
  archives : ∀ p ∈ m.packages, ArchiveFits places archives p
  /-- The packages of the current version, which an update removes. -/
  removed : ∀ old body, kitReadCurrentManifest dir m.kitName = some (old, body) →
    old.kitVersion ≠ m.kitVersion → ∀ ld ∈ old.localDevs, RemovalFits places ld

/-- The version of a kit that is a valid name fits its tools. -/
theorem toolFits_of_valid (tool : KitTool) {kitVersion : String}
    (valid : validToolName kitVersion = true) : ToolFits places tool kitVersion :=
  ⟨Ways.names _ [ToolName.component ⟨kitVersion, valid⟩, ⟨"bin", by decide⟩],
    Lands.names _ [ToolName.component ⟨kitVersion, valid⟩, ⟨"bin", by decide⟩]⟩

theorem storeDeeds_inside (places : KitPlaces) (kit : ToolName) {version : String}
    (valid : validToolName version = true) : AllInside (storeDeeds places kit version) := by
  have home := Lands.names (under places.wrapHome [kitsDir, kit.component])
    [ToolName.component ⟨version, valid⟩]
  unfold storeDeeds
  simp only [AllInside.cons, AllInside.nil, and_true]
  refine ⟨homeDeed_inside.2 (Ways.names _ [ToolName.component ⟨version, valid⟩]), ?_, ?_⟩
  · exact homeDeed_inside.2 (home.component (kit.component.ending ".kit.tmp" (by decide)))
  · exact homeDeed_inside.2 (home.component (kit.component.ending ".kit" (by decide)))

theorem promoteDeeds_inside (places : KitPlaces) (kit : ToolName) :
    AllInside (promoteDeeds places kit) := by
  unfold promoteDeeds
  simp only [AllInside.cons, AllInside.nil, and_true]
  exact homeDeed_inside.2 (Lands.names _ [⟨"current", by decide⟩])

theorem removePrevious_inside {old : KitManifest}
    (fits : ∀ ld ∈ old.localDevs, RemovalFits run.places ld) :
    AllInside (removePrevious run old) := by
  unfold removePrevious
  refine AllInside.append.mpr ⟨AllInside.map.mpr fun _ _ => linkDeed_inside _,
    AllInside.flatMap.mpr fun item member => ?_⟩
  exact deregisterOldLocalDev_inside (fits _ (List.fst_mem_of_mem_zipIdx member))

theorem kitSymlinkTools_inside (run : KitRun) (m : KitManifest) :
    AllInside (kitSymlinkTools run m) :=
  AllInside.map.mpr fun _ _ => linkDeed_inside _

theorem installKit_inside {run : UpdateRun} {kit : ToolName} {kits : KitsDir}
    (valid : validToolName m.kitVersion = true)
    (localDevs : AllInside (installAllLocalDevs run.toKitRun m))
    (packages : AllInside (installAllPackages run.toKitRun m)) :
    AllInside (installKit run kit m body kits).deeds := by
  have tools : AllInside (installAllTools run.toKitRun m).1 :=
    installAllTools_inside fun tool _ _ => toolFits_of_valid tool valid
  have store := storeDeeds_inside run.places kit valid
  have promote := promoteDeeds_inside run.places kit
  unfold installKit
  split
  · rename_i deeds result
    rw [result] at tools
    simp only [AllInside.append]
    exact ⟨⟨localDevs, packages⟩, tools⟩
  · rename_i deeds result
    rw [result] at tools
    split
    · simp only [AllInside.append]
      exact ⟨⟨⟨localDevs, packages⟩, tools⟩, store⟩
    · simp only [AllInside.append]
      exact ⟨⟨⟨⟨localDevs, packages⟩, tools⟩, store⟩, promote⟩

theorem updateKit_inside {run : UpdateRun} {kit : ToolName} {m old : KitManifest} {kits : KitsDir}
    (valid : validToolName m.kitVersion = true)
    (localDevs : AllInside (installAllLocalDevs run.toKitRun m))
    (packages : AllInside (installAllPackages run.toKitRun m))
    (removed : AllInside (removePrevious run.toKitRun old)) :
    AllInside (updateKit run kit m old body kits).deeds := by
  have tools : AllInside (if noClient run.toKitRun m then ([], false)
      else kitDownloadTools run.toKitRun m m.tools.zipIdx).1 := by
    split
    · exact AllInside.nil
    · exact kitDownloadTools_inside fun item _ _ => toolFits_of_valid item.1 valid
  have store := storeDeeds_inside run.places kit valid
  have promote := promoteDeeds_inside run.places kit
  unfold updateKit
  split
  · rename_i deeds result
    rwa [result] at tools
  · rename_i deeds result
    rw [result] at tools
    split
    · simp only [AllInside.append]
      exact ⟨tools, store⟩
    · simp only [AllInside.append]
      exact ⟨⟨⟨⟨⟨⟨tools, store⟩, removed⟩, kitSymlinkTools_inside run.toKitRun m⟩, localDevs⟩,
        packages⟩, promote⟩

/-- What an update from an old version has read. -/
theorem kitMode_update {sha256 : String → String} {meets : StoreMeets} {dir : KitDir}
    {m old : KitManifest} (mode : kitMode sha256 meets dir m body = some (.update old)) :
    old.kitVersion ≠ m.kitVersion ∧
      ∃ oldBody, kitReadCurrentManifest dir m.kitName = some (old, oldBody) := by
  unfold kitMode at mode
  split at mode
  · cases mode
  · rename_i found oldBody read
    split at mode
    · split at mode <;> cases mode
    · rename_i other
      cases mode
      refine ⟨other, oldBody, ?_⟩
      split at read
      · exact read
      · cases read

theorem prepared_kitName (source : Option KitSource) (m : KitManifest) :
    (kitPrepareLocalSourceManifest source m).kitName = m.kitName := by
  cases source <;> rfl

theorem UpdateFits.inside {sha256 : String → String} {run : UpdateRun} {kits : KitsDir}
    (read : readKitfile body = some m)
    (fits : validToolName m.kitName = true → validToolName m.kitVersion = true →
      UpdateFits run.places run.archives (kits m.kitName) m) :
    AllInside (cmdKitUpdate sha256 run body kits).deeds := by
  have binPath := ensureToolBinPath_inside run.toKitRun (kitPrepareLocalSourceManifest run.source m)
  unfold cmdKitUpdate
  rw [read]
  simp only
  split
  · exact AllInside.nil
  unfold kitUpdateApply
  split
  · rename_i valid
    have fits := fits valid.1 valid.2
    have localDevs : AllInside
        (installAllLocalDevs run.toKitRun (kitPrepareLocalSourceManifest run.source m)) := by
      refine installAllLocalDevs_inside ?_
      rw [prepared_localDevs]
      exact fits.localDevs
    have packages : AllInside
        (installAllPackages run.toKitRun (kitPrepareLocalSourceManifest run.source m)) :=
      installAllPackages_inside fits.packages fits.archives
    have version :
        validToolName (kitPrepareLocalSourceManifest run.source m).kitVersion = true := by
      rw [prepared_kitVersion]
      exact valid.2
    simp only
    split
    · exact AllInside.nil
    · split
      · exact AllInside.nil
      · rename_i mode chosen
        split
        · exact AllInside.nil
        · split
          · exact AllInside.nil
          · split
            · rename_i ensured
              rwa [ensured] at binPath
            · rename_i deeds ensured
              rw [ensured] at binPath
              split
              · exact binPath
              · refine AllInside.append.mpr ⟨binPath, ?_⟩
                cases mode with
                | install => exact installKit_inside version localDevs packages
                | reinstall => exact installKit_inside version localDevs packages
                | update old =>
                  obtain ⟨other, oldBody, found⟩ := kitMode_update chosen
                  rw [prepared_kitName] at found
                  rw [prepared_kitVersion] at other
                  exact updateKit_inside version localDevs packages
                    (removePrevious_inside (fits.removed old oldBody found other))
  · exact AllInside.nil

/-! ## Runs where every call succeeds -/

def smoothPackage (inKit : Bool) : PackageMeets where
  inKit := inKit
  firstVersion := none
  madeBase := true
  there := true
  madeDirectory := true
  copies _ := true
  hasSrc := true
  inRepository := true
  needsMetadata := true
  fetches _ := true
  looksForArchive := true
  archived := true
  extracts _ := true

def smoothLocalDev : LocalDevMeets := ⟨true, true, true, true, true⟩

def smoothTool : ToolMeets := ⟨true, true, true, true⟩

/-- A run where every call succeeds, with the packages in the kit or with these archives. -/
def smoothRun (places : KitPlaces) (archives : Archives) (inKit : Bool) : KitRun where
  places := places
  archives := archives
  source := none
  dryRun := false
  confirmed := true
  toolBinPathKnown := true
  makesToolBinPath := false
  toolBinPathWritable := true
  environment := true
  protocolMode := .v1
  offline := false
  client := true
  pid := 1
  temporary := "000000.zip"
  localDev _ := smoothLocalDev
  package _ := smoothPackage inKit
  tool _ := smoothTool
  oldTool _ := true
  removal _ := ⟨true, true⟩

/-- An update where every call succeeds, except perhaps the reading of the current kitfile. -/
def smoothUpdate (places : KitPlaces) (archives : Archives) (inKit reads : Bool) :
    UpdateRun where
  toKitRun := smoothRun places archives inKit
  wrapHome := true
  store := ⟨reads, true, true, true, true⟩
  failures := false

variable {archives : Archives} {inKit : Bool}

theorem LocalDevFits.of_inside {ld : KitLocalDev}
    (inside : AllInside (installOneLocalDev places smoothLocalDev ld)) :
    LocalDevFits places ld := by
  simp only [installOneLocalDev, smoothLocalDev, AllInside.cons, AllInside.append,
    AllInside.nil, Bool.not_true, Bool.false_eq_true, if_false, if_true] at inside
  obtain ⟨_, ⟨cache, _⟩, ⟨_, ways, lands, _⟩, _⟩ := inside
  exact ⟨homeDeed_inside.1 cache, homeDeed_inside.1 ways, homeDeed_inside.1 lands⟩

theorem PackageFits.of_inside {p : KitPackage}
    (inside : AllInside (installOnePackage run (smoothPackage true) p)) :
    PackageFits run.places p := by
  intro version found
  have found : p.version = some version := found
  simp only [installOnePackage, found, smoothPackage, installFromFile, copyDirectorySelective,
    AllInside.cons, AllInside.append, Bool.true_or, if_true] at inside
  obtain ⟨_, ⟨lands, _⟩, ways, _⟩ := inside
  exact ⟨homeDeed_inside.1 ways, homeDeed_inside.1 lands⟩

theorem ArchiveFits.of_inside {p : KitPackage}
    (inside : AllInside
      (installOnePackage (smoothRun places archives false) (smoothPackage false) p)) :
    ArchiveFits places archives p := by
  intro version found entry member
  have found : p.version = some version := found
  simp only [installOnePackage, found, KitRun.scanned, smoothRun, smoothPackage,
    installEnvDownloadPackage, Option.any_none, Bool.or_self, Bool.false_eq_true, if_false,
    if_true, AllInside.append, AllInside.cons, AllInside.flatMap] at inside
  exact extractedEntry_inside.1 (inside.2.2.2 entry (List.mem_filter.mpr ⟨member, rfl⟩))

theorem ToolFits.of_inside {pid : Nat} {tool : KitTool} {kitVersion : String}
    (inside : AllInside (downloadToolBinary places pid smoothTool tool.name kitVersion)) :
    ToolFits places tool kitVersion := by
  simp only [downloadToolBinary, smoothTool, AllInside.cons, if_true] at inside
  obtain ⟨ways, part, _⟩ := inside
  have lands := homeDeed_inside.1 part
  refine ⟨homeDeed_inside.1 ways, ?_⟩
  let ending := tool.name.component.ending (".part." ++ pid.repr) (part_plain pid)
  have split : (below (under places.wrapHome [kitToolsDir, tool.name.component])
      [kitVersion, "bin", ending.text]).place =
      (below (under places.wrapHome [kitToolsDir, tool.name.component])
        [kitVersion, "bin"]).place ++ [ending.text.toList] := by
    unfold Path.place
    rw [show [kitVersion, "bin", ending.text] =
        [kitVersion, "bin"] ++ [ending].map Component.text from rfl, below_append,
      resolve_append, below_names]
    rfl
  unfold Lands at lands ⊢
  rw [show tool.name.text ++ (".part." ++ pid.repr) = ending.text from rfl, split] at lands
  rcases List.prefix_concat_iff.mp lands with same | inner
  · -- the directory of the tool is not called as the file being downloaded
    have last := congrArg List.getLast? same
    simp only [under, List.map_cons, List.map_nil, List.getLast?_append, List.getLast?_singleton,
      List.getLast?_cons_cons, Option.some_or, Option.some.injEq] at last
    have length := congrArg List.length last
    simp [ending, Component.ending, ToolName.component] at length
  · exact inner

theorem RemovalFits.of_inside {ld : KitLocalDev}
    (inside : AllInside (deregisterOldLocalDev places ⟨true, true⟩ ld)) :
    RemovalFits places ld := by
  simp only [deregisterOldLocalDev, AllInside.append, AllInside.cons, if_true] at inside
  obtain ⟨⟨⟨cache, _⟩, _⟩, tracking, _⟩ := inside
  exact ⟨homeDeed_inside.1 cache, homeDeed_inside.1 tracking⟩

theorem mem_zipIdx_of_mem {α : Type} {items : List α} {item : α} (member : item ∈ items) :
    ∃ i, (item, i) ∈ items.zipIdx := by
  obtain ⟨i, found⟩ := List.getElem?_of_mem member
  exact ⟨i, List.mk_mem_zipIdx_iff_getElem?.mpr found⟩

theorem localDevs_of_inside
    (inside : AllInside (installAllLocalDevs (smoothRun places archives inKit) m)) :
    ∀ ld ∈ m.localDevs, LocalDevFits places ld := by
  intro ld member
  obtain ⟨i, member⟩ := mem_zipIdx_of_mem member
  rw [installAllLocalDevs, AllInside.flatMap] at inside
  exact LocalDevFits.of_inside (inside (ld, i) member)

theorem packages_of_inside
    (inside : AllInside (installAllPackages (smoothRun places archives true) m)) :
    ∀ p ∈ m.packages, PackageFits places p := by
  intro p member
  obtain ⟨i, member⟩ := mem_zipIdx_of_mem member
  rw [installAllPackages, AllInside.flatMap] at inside
  exact PackageFits.of_inside (inside (p, i) member)

theorem archives_of_inside
    (inside : AllInside (installAllPackages (smoothRun places archives false) m)) :
    ∀ p ∈ m.packages, ArchiveFits places archives p := by
  intro p member
  obtain ⟨i, member⟩ := mem_zipIdx_of_mem member
  rw [installAllPackages, AllInside.flatMap] at inside
  exact ArchiveFits.of_inside (inside (p, i) member)

theorem readKitfile_urls (read : readKitfile body = some m) :
    ∀ tool ∈ m.tools, tool.url.isSome := by
  unfold readKitfile at read
  split at read
  · cases read
  · exact kitfileParse_urls read

theorem ensureToolBinPath_smooth (m : KitManifest) :
    ensureToolBinPath (smoothRun places archives inKit) m = ([], true) := by
  unfold ensureToolBinPath
  split <;> rfl

theorem cmdKitInstall_smooth (read : readKitfile body = some m) :
    cmdKitInstall (smoothRun places archives inKit) body =
      installAllLocalDevs (smoothRun places archives inKit) m ++
        installAllPackages (smoothRun places archives inKit) m ++
        (installAllTools (smoothRun places archives inKit) m).1 := by
  unfold cmdKitInstall
  rw [read]
  simp only [show (smoothRun places archives inKit).source = none from rfl,
    kitPrepareLocalSourceManifest, ensureToolBinPath_smooth,
    show (smoothRun places archives inKit).toolBinPathKnown = true from rfl, Bool.not_true,
    Bool.and_false]
  rfl

theorem InstallFits.of_inside (read : readKitfile body = some m)
    (inside : ∀ inKit, AllInside (cmdKitInstall (smoothRun places archives inKit) body)) :
    InstallFits places archives m := by
  simp only [cmdKitInstall_smooth read, AllInside.append] at inside
  obtain ⟨⟨localDevs, packages⟩, tools⟩ := inside true
  refine ⟨localDevs_of_inside localDevs, packages_of_inside packages,
    archives_of_inside (inside false).1.2, fun tool member => ?_⟩
  have url := readKitfile_urls read tool member
  obtain ⟨i, member⟩ := mem_zipIdx_of_mem member
  rw [installAllTools, noClient, show (smoothRun places archives true).client = true from rfl,
    Bool.not_true, Bool.false_and, if_neg Bool.false_ne_true, AllInside.flatMap] at tools
  have one := tools (tool, i) member
  rw [installOneTool, AllInside.append, toolDownload, if_pos url] at one
  exact ToolFits.of_inside one.1

/-- A kitfile is stored where `current` leads to one. -/
theorem kitStoreKitfile_smooth {meets : StoreMeets} {dir : KitDir} {kit version body : String}
    (makes : meets.makesDirectory = true) (writes : meets.writes = true)
    (current : (dir.currentBody kit).isSome) :
    (kitStoreKitfile meets version body dir).2 = true := by
  unfold KitDir.currentBody KitDir.stored at current
  unfold kitStoreKitfile
  split
  · split at current
    · cases current
    · cases entry : dir.current with
      | missing => simp [entry] at current
      | directory stored => simp [writes]
      | link target =>
        simp only [entry] at current
        split at current
        · cases current
        · rename_i other
          cases versions : dir.versions target with
          | none => simp [versions] at current
          | some stored => simp [other, writes, versions]
  · simp [makes, writes]

theorem kitDownloadTools_smooth (m : KitManifest) (items : List (KitTool × Nat)) :
    (kitDownloadTools (smoothRun places archives inKit) m items).2 = true := by
  induction items with
  | nil => rfl
  | cons item items ih =>
    have arrives : ((smoothRun places archives inKit).tool item.2).arrives item.1 = true := by
      simp [ToolMeets.arrives, smoothRun, smoothTool]
    rw [kitDownloadTools, if_pos arrives]
    exact ih

/-- An update of a kit with valid names, where every call succeeds. -/
theorem cmdKitUpdate_smooth {sha256 : String → String} {reads : Bool} {kits : KitsDir}
    (read : readKitfile body = some m) (name : validToolName m.kitName = true)
    (version : validToolName m.kitVersion = true) {mode : KitMode}
    (chosen : kitMode sha256 ⟨reads, true, true, true, true⟩ (kits m.kitName) m body = some mode) :
    (cmdKitUpdate sha256 (smoothUpdate places archives inKit reads) body kits).deeds =
      (match mode with
        | .update old =>
          updateKit (smoothUpdate places archives inKit reads) ⟨m.kitName, name⟩ m old body kits
        | _ =>
          installKit (smoothUpdate places archives inKit reads) ⟨m.kitName, name⟩ m body
            kits).deeds := by
  have ensured : ensureToolBinPath (smoothUpdate places archives inKit reads).toKitRun m =
      ([], true) := ensureToolBinPath_smooth m
  unfold cmdKitUpdate
  rw [read]
  simp only [show (smoothUpdate places archives inKit reads).dryRun = false from rfl,
    Bool.false_eq_true, if_false]
  unfold kitUpdateApply
  rw [dif_pos ⟨name, version⟩]
  cases mode <;>
    simp only [show (smoothUpdate places archives inKit reads).source = none from rfl,
      kitPrepareLocalSourceManifest,
      show (smoothUpdate places archives inKit reads).wrapHome = true from rfl,
      show (smoothUpdate places archives inKit reads).store =
        ⟨reads, true, true, true, true⟩ from rfl, chosen,
      show (smoothUpdate places archives inKit reads).confirmed = true from rfl,
      show (smoothUpdate places archives inKit reads).toolBinPathKnown = true from rfl, ensured,
      show (smoothUpdate places archives inKit reads).environment = true from rfl, Bool.not_true,
      Bool.and_false, Bool.false_eq_true, if_false, List.nil_append]

/-- What holds of an update where every call succeeds fits. -/
theorem UpdateFits.of_inside {sha256 : String → String} {kits : KitsDir}
    (read : readKitfile body = some m) (name : validToolName m.kitName = true)
    (version : validToolName m.kitVersion = true)
    (inside : ∀ inKit reads,
      AllInside (cmdKitUpdate sha256 (smoothUpdate places archives inKit reads) body kits).deeds) :
    UpdateFits places archives (kits m.kitName) m := by
  -- where the current kitfile cannot be read, the kit is installed
  have unread : kitMode sha256 ⟨false, true, true, true, true⟩ (kits m.kitName) m body =
      some .install := rfl
  have parts (inKit) : AllInside (installAllLocalDevs (smoothRun places archives inKit) m) ∧
      AllInside (installAllPackages (smoothRun places archives inKit) m) := by
    have installed := inside inKit false
    rw [cmdKitUpdate_smooth read name version unread] at installed
    simp only [installKit] at installed
    split at installed
    · exact AllInside.append.mp (AllInside.append.mp installed).1
    · split at installed
      · exact AllInside.append.mp (AllInside.append.mp (AllInside.append.mp installed).1).1
      · exact AllInside.append.mp
          (AllInside.append.mp (AllInside.append.mp (AllInside.append.mp installed).1).1).1
  refine ⟨localDevs_of_inside (parts true).1, packages_of_inside (parts true).2,
    archives_of_inside (parts false).2, fun old oldBody current other ld member => ?_⟩
  have mode : kitMode sha256 ⟨true, true, true, true, true⟩ (kits m.kitName) m body =
      some (.update old) := by
    simp [kitMode, current, other]
  have updated := inside true true
  rw [cmdKitUpdate_smooth read name version mode] at updated
  have found : ((kits m.kitName).currentBody m.kitName).isSome := by
    obtain ⟨body, found, _⟩ := Option.bind_eq_some_iff.mp current
    rw [found]
    rfl
  have stored : (kitStoreKitfile ⟨true, true, true, true, true⟩ m.kitVersion body
      (kits m.kitName)).2 = true := kitStoreKitfile_smooth rfl rfl found
  have tools := @kitDownloadTools_smooth places archives true m m.tools.zipIdx
  have removed : AllInside (removePrevious (smoothRun places archives true) old) := by
    simp only [updateKit] at updated
    split at updated
    · rename_i failed
      have ok := congrArg Prod.snd failed
      rw [show noClient (smoothUpdate places archives true true).toKitRun m = false from rfl] at ok
      cases tools.symm.trans ok
    · split at updated
      · rename_i failed
        cases stored.symm.trans (congrArg Prod.snd failed)
      · simp only [AllInside.append] at updated
        exact updated.1.1.1.1.2
  rw [removePrevious, AllInside.append, AllInside.flatMap] at removed
  obtain ⟨i, member⟩ := mem_zipIdx_of_mem member
  exact RemovalFits.of_inside (removed.2 (ld, i) member)

/-! ## Confinement -/

/-- Some directories. -/
def homePlaces : KitPlaces where
  wrapHome := ["home".toList, ".wrap".toList]
  elmHome := ["home".toList, ".elm".toList]
  packagesDir := ["home".toList, ".elm".toList, "packages".toList]
  registryPath := ["home".toList, ".elm".toList, "registry.dat".toList]
  toolBinPath := ["home".toList, "bin".toList]

/-- Archives with one file under a plain name. -/
def plainArchives : Archives := fun _ _ _ =>
  [⟨"b-1.0.0/src/B.elm", false, "module B exposing (..)"⟩]

end ElmWrap.Kit
