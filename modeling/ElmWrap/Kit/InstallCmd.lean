import ElmWrap.InstallEnv.DownloadPackage
import ElmWrap.Kit.Kitfile
import ElmWrap.Lib.Paths

/-!
# Installing and updating kits

`cmd_kit_install` and `kit_update_apply` of `commands/kit/install_cmd.c`: what they
do to the file system, with the directory designated for each path, and the kits
stored below `$WRAP_HOME/kits`. What a run finds on the disk and on the network is
given, and every call can fail. Files at places of their own, which no string of a
kitfile has a part in, are the registries, the archive being downloaded and the
directory of the tool links.
-/

namespace ElmWrap.Kit

open Lib.Paths

/-! ## Deeds -/

/-- The place of a directory or file. -/
abbrev Place := List (List Char)

/-- What is done at a path. -/
inductive DeedKind
  /-- The directories missing along the path are made. -/
  | directories
  /-- A file is written or replaced, or a link is made or removed. -/
  | entry
  /-- Anything below the path is removed or written over. -/
  | tree
deriving DecidableEq

/-- Something done to the file system. -/
structure Deed where
  kind : DeedKind
  path : Path (List Char)
  /-- The directory designated for it. -/
  home : Place

/-- The directories that the environment names. -/
structure KitPlaces where
  wrapHome : Place
  elmHome : Place
  packagesDir : Place
  registryPath : Place
  toolBinPath : Place

/-- The path that joins these texts to a root by slashes. -/
def below (root : Place) (texts : List String) : Path (List Char) :=
  ⟨root, segments (['/'].intercalate (texts.map String.toList)), false⟩

/-- The place with these names below a root. -/
def under (root : Place) (names : List Component) : Place :=
  root ++ names.map fun name => name.text.toList

/-- A deed below the directory with these names, which is designated for it. -/
def homeDeed (root : Place) (names : List Component) (kind : DeedKind) (rest : List String) :
    Deed :=
  ⟨kind, below root (names.map Component.text ++ rest), under root names⟩

/-- A deed at a place of its own. -/
def fixed (kind : DeedKind) (place : Place) : Deed := ⟨kind, ⟨place, [], false⟩, place⟩

/-- `LOCAL_DEV_TRACKING_DIR`. -/
def localDevTrackingDir : Component := ⟨"_local-dev", by decide⟩

/-- `KIT_TOOLS_DIR`. -/
def kitToolsDir : Component := ⟨"tools", by decide⟩

/-- The directory of the kits. -/
def kitsDir : Component := ⟨"kits", by decide⟩

/-- A deed in the package cache, for a package. -/
def cacheDeed (places : KitPlaces) (author name : Component) : DeedKind → List String → Deed :=
  homeDeed places.packagesDir [author, name]

/-- A deed in the tracking directory of a package. -/
def trackingDeed (places : KitPlaces) (author name : Component) : DeedKind → List String → Deed :=
  homeDeed places.wrapHome [localDevTrackingDir, author, name]

/-- A deed in the directory of a tool. -/
def toolDeed (places : KitPlaces) (name : ToolName) : DeedKind → List String → Deed :=
  homeDeed places.wrapHome [kitToolsDir, name.component]

/-- The link of a tool in `TOOL_BIN_PATH`. -/
def linkDeed (places : KitPlaces) (name : ToolName) : Deed :=
  homeDeed places.toolBinPath [name.component] .entry []

/-- A deed in the store of a kit. -/
def storeDeed (places : KitPlaces) (kit : ToolName) : DeedKind → List String → Deed :=
  homeDeed places.wrapHome [kitsDir, kit.component]

/-! ## What a run meets -/

/-- What the installation of a package meets: how far it gets. -/
structure PackageMeets where
  /-- The kit has a directory for the package, with an `elm.json`. -/
  inKit : Bool
  /-- The version found in the kit for a package without one. -/
  firstVersion : Option Component
  /-- The directory of the package's versions can be made. -/
  madeBase : Bool
  /-- `lstat` finds the destination. -/
  there : Bool
  /-- The directory of the version can be made. -/
  madeDirectory : Bool
  /-- The files that are copied. -/
  copies : String → Bool
  /-- The source has a directory `src`. -/
  hasSrc : Bool
  /-- The V2 repository has the package, and is not the cache itself. -/
  inRepository : Bool
  /-- Some of the metadata has to be downloaded. -/
  needsMetadata : Bool
  /-- The files that are downloaded. -/
  fetches : String → Bool
  /-- The archive is looked for, and arrives. -/
  looksForArchive : Bool
  archived : Bool
  /-- The entries that are extracted. -/
  extracts : ZipEntry → Bool

/-- What the registration of a local-dev package meets. -/
structure LocalDevMeets where
  /-- The kit has a directory for it whose `elm.json` is that of a package. -/
  inKit : Bool
  madeBase : Bool
  /-- `lstat` finds the path of the link. -/
  there : Bool
  /-- The link is made. -/
  linked : Bool
  madeDirectory : Bool

/-- What the installation of a tool meets. -/
structure ToolMeets where
  madeDirectory : Bool
  /-- The download arrives. -/
  downloaded : Bool
  /-- The file is renamed into place. -/
  renamed : Bool
  /-- The link is made, or the old one removed. -/
  links : Bool

/-- What the removal of a local-dev package meets. -/
structure RemovalMeets where
  /-- Its path in the cache is a link. -/
  isLink : Bool
  /-- Its tracking directory is there. -/
  tracked : Bool

/-- What is found next to a kitfile. -/
structure KitSource where
  /-- The directories below `tools`, and the binary found in them. -/
  tools : List (Component × Option String)
  /-- The directories below `packages/ELM_VERSION` with an `elm.json`. -/
  packages : List (Component × Component × Component)
  /-- `tool_has_local_license`. -/
  toolHasLocalLicense : ToolName → Bool

/-- The entries of the archive that a version's endpoint leads to. -/
abbrev Archives := Component → Component → String → List ZipEntry

/-- What a run meets, with `getpid` and the letters of a temporary file. -/
structure KitRun where
  places : KitPlaces
  archives : Archives
  /-- What is next to the kitfile; `none` where it comes from a URL. -/
  source : Option KitSource
  dryRun : Bool
  confirmed : Bool
  /-- `TOOL_BIN_PATH` is known, has to be made, and can be written. -/
  toolBinPathKnown : Bool
  makesToolBinPath : Bool
  toolBinPathWritable : Bool
  /-- The install environment can be set up. -/
  environment : Bool
  protocolMode : ProtocolMode
  offline : Bool
  /-- The HTTP client can be set up. -/
  client : Bool
  pid : Nat
  temporary : String
  localDev : Nat → LocalDevMeets
  package : Nat → PackageMeets
  tool : Nat → ToolMeets
  /-- The link of a tool to be removed is there. -/
  oldTool : Nat → Bool
  removal : Nat → RemovalMeets

/-! ## The local source -/

/-- `scan_tools_folder`. -/
def scanToolsFolder (tools : List KitTool) : List (Component × Option String) → List KitTool
  | [] => tools
  | (name, binary) :: rest =>
    if name.text.startsWith "." || manifestHasToolNamed tools name.text then
      scanToolsFolder tools rest
    else
      match binary with
      | none => scanToolsFolder tools rest
      | some binary =>
        if valid : validToolName name.text = true then
          scanToolsFolder (tools ++ [⟨⟨name.text, valid⟩, none, some binary⟩]) rest
        else scanToolsFolder tools rest

/-- `manifest_has_package`. -/
def manifestHasPackage (packages : List KitPackage) (author name : Component)
    (version : Option String) : Bool :=
  packages.any fun p => p.author = author && p.name = name && p.version = version

/-- `scan_packages_folder`. -/
def scanPackagesFolder (localDevs : List KitLocalDev) (packages : List KitPackage) :
    List (Component × Component × Component) → List KitPackage
  | [] => packages
  | (author, name, version) :: rest =>
    if author.text.startsWith "." || name.text.startsWith "." || version.text.startsWith "." ||
        manifestHasPackage packages author name (some version.text) ||
        manifestHasPackage packages author name none ||
        localDevs.any (fun ld =>
          ld.author = author && ld.name = name && ld.version = version.text) then
      scanPackagesFolder localDevs packages rest
    else
      scanPackagesFolder localDevs (packages ++ [⟨author, name, some version.text⟩]) rest

/-- `kit_prepare_local_source_manifest`. -/
def kitPrepareLocalSourceManifest (source : Option KitSource) (m : KitManifest) : KitManifest :=
  match source with
  | none => m
  | some source =>
    { m with
      tools := (scanToolsFolder m.tools source.tools).filter fun t =>
        t.url.isNone || source.toolHasLocalLicense t.name
      packages := scanPackagesFolder m.localDevs m.packages source.packages }

/-! ## Packages -/

/-- `copy_directory_selective`, into the cache. -/
def copyDirectorySelective (places : KitPlaces) (meets : PackageMeets) (author name : Component)
    (version : String) : List Deed :=
  cacheDeed places author name .directories [version] ::
    if meets.madeDirectory then
      (filesToCopy.filter meets.copies).map
          (fun file => cacheDeed places author name .entry [version, file]) ++
        if meets.hasSrc then [cacheDeed places author name .tree [version, "src"]] else []
    else []

/-- `install_from_file`. -/
def installFromFile (places : KitPlaces) (meets : PackageMeets) (author name : Component)
    (version : String) : List Deed :=
  cacheDeed places author name .directories [] ::
    if meets.madeBase then
      (if meets.there then [cacheDeed places author name .tree [version]] else []) ++
        copyDirectorySelective places meets author name version
    else []

/-- The body of the loop of `extract_zip_selective`. The directories missing on the way to a file
are made. -/
def extractedEntry (places : KitPlaces) (author name : Component) (version : String)
    (entry : ZipEntry) : List Deed :=
  let path := relPath entry.filename
  if !shouldExtractPath entry.filename then []
  else if entry.isDirectory then [cacheDeed places author name .directories [version, path]]
  else
    let file := cacheDeed places author name .entry [version, path]
    [{ file with kind := .directories, path := file.path.dirname }, file]

/-- `install_env_download_package`. -/
def installEnvDownloadPackage (run : KitRun) (meets : PackageMeets) (author name : Component)
    (version : String) : List Deed :=
  match run.protocolMode with
  | .v2 =>
    if meets.inRepository then copyDirectorySelective run.places meets author name version else []
  | .v1 =>
    if run.offline then []
    else
      (if meets.needsMetadata then
          cacheDeed run.places author name .directories [version] ::
            (metadataFiles.filter meets.fetches).map fun file =>
              cacheDeed run.places author name .entry [version, file]
        else []) ++
      (if meets.looksForArchive then
          fixed .entry (run.places.elmHome ++ [("elm-package-" ++ run.temporary).toList]) ::
            if meets.archived then
              cacheDeed run.places author name .directories [version] ::
                ((run.archives author name version).filter meets.extracts).flatMap
                  (extractedEntry run.places author name version)
            else []
        else [])

/-- The version is one of those found next to the kitfile. -/
def KitRun.scanned (run : KitRun) (author name : Component) (version : String) : Bool :=
  run.source.any fun source =>
    source.packages.any fun found =>
      found.1 = author && found.2.1 = name && found.2.2.text = version

/-- `install_one_package`. -/
def installOnePackage (run : KitRun) (meets : PackageMeets) (p : KitPackage) : List Deed :=
  match p.version with
  | some version =>
    if meets.inKit || run.scanned p.author p.name version then
      installFromFile run.places meets p.author p.name version
    else installEnvDownloadPackage run meets p.author p.name version
  | none =>
    match meets.firstVersion with
    | some version => installFromFile run.places meets p.author p.name version.text
    | none => []

/-! ## Local-dev packages -/

/-- The registries of local-dev packages. -/
def localDevRegistries (places : KitPlaces) : List Deed :=
  [fixed .entry places.registryPath,
    fixed .directories (under places.wrapHome [localDevTrackingDir]),
    fixed .entry (under places.wrapHome [localDevTrackingDir] ++ ["registry-local-dev.dat".toList])]

/-- `install_one_local_dev`. -/
def installOneLocalDev (places : KitPlaces) (meets : LocalDevMeets) (ld : KitLocalDev) :
    List Deed :=
  if !meets.inKit then []
  else
    -- `create_package_symlink`
    cacheDeed places ld.author ld.name .directories [] ::
      if !meets.madeBase then []
      else
        (if meets.there then [cacheDeed places ld.author ld.name .tree [ld.version]] else []) ++
          if !meets.linked then []
          else
            cacheDeed places ld.author ld.name .entry [ld.version] ::
              -- `save_local_dev_source_path`
              trackingDeed places ld.author ld.name .directories [ld.version] ::
                (if meets.madeDirectory then
                    [trackingDeed places ld.author ld.name .entry [ld.version, "PATH"]]
                  else []) ++
                localDevRegistries places

/-- The body of the loop of `deregister_old_local_devs`. -/
def deregisterOldLocalDev (places : KitPlaces) (meets : RemovalMeets) (ld : KitLocalDev) :
    List Deed :=
  (if meets.isLink then [cacheDeed places ld.author ld.name .entry [ld.version]] else []) ++
    localDevRegistries places ++
    if meets.tracked then [trackingDeed places ld.author ld.name .tree [ld.version]] else []

/-! ## Tools -/

/-- `download_tool_binary`. -/
def downloadToolBinary (places : KitPlaces) (pid : Nat) (meets : ToolMeets) (name : ToolName)
    (kitVersion : String) : List Deed :=
  toolDeed places name .directories [kitVersion, "bin"] ::
    if meets.madeDirectory then
      toolDeed places name .entry [kitVersion, "bin", name.text ++ (".part." ++ pid.repr)] ::
        if meets.downloaded then [toolDeed places name .entry [kitVersion, "bin", name.text]]
        else []
    else []

/-- The binary of a tool has arrived. -/
def ToolMeets.arrives (meets : ToolMeets) (tool : KitTool) : Bool :=
  tool.url.isNone || meets.madeDirectory && meets.downloaded && meets.renamed

/-- The download of a tool that has a URL. -/
def toolDownload (run : KitRun) (m : KitManifest) (i : Nat) (tool : KitTool) : List Deed :=
  if tool.url.isSome then
    downloadToolBinary run.places run.pid (run.tool i) tool.name m.kitVersion
  else []

/-- The body of the loop of `install_all_tools`. -/
def installOneTool (run : KitRun) (m : KitManifest) (i : Nat) (tool : KitTool) : List Deed :=
  toolDownload run m i tool ++
    if (run.tool i).arrives tool && (run.tool i).links then [linkDeed run.places tool.name] else []

/-- Some tool has to be downloaded, and the HTTP client cannot be set up. -/
def noClient (run : KitRun) (m : KitManifest) : Bool :=
  !run.client && m.tools.any fun t => t.url.isSome

/-- The loop of `kit_download_tools`, which stops at the first failure. -/
def kitDownloadTools (run : KitRun) (m : KitManifest) : List (KitTool × Nat) → List Deed × Bool
  | [] => ([], true)
  | (tool, i) :: rest =>
    if (run.tool i).arrives tool then
      let (deeds, ok) := kitDownloadTools run m rest
      (toolDownload run m i tool ++ deeds, ok)
    else (toolDownload run m i tool, false)

/-! ## `kit install` -/

def installAllLocalDevs (run : KitRun) (m : KitManifest) : List Deed :=
  m.localDevs.zipIdx.flatMap fun item => installOneLocalDev run.places (run.localDev item.2) item.1

def installAllPackages (run : KitRun) (m : KitManifest) : List Deed :=
  m.packages.zipIdx.flatMap fun item => installOnePackage run (run.package item.2) item.1

/-- `install_all_tools`, with its result. -/
def installAllTools (run : KitRun) (m : KitManifest) : List Deed × Bool :=
  if noClient run m then ([], false)
  else (m.tools.zipIdx.flatMap fun item => installOneTool run m item.2 item.1, true)

/-- `ensure_tool_bin_path`, where tools are installed: what it does, and whether the path can be
used. -/
def ensureToolBinPath (run : KitRun) (m : KitManifest) : List Deed × Bool :=
  if m.tools = [] then ([], true)
  else
    ((if run.makesToolBinPath then [fixed .directories run.places.toolBinPath] else []),
      run.toolBinPathWritable)

/-- `MAX_KIT_FILE_BYTES`. -/
def maxKitFileBytes : Nat := 1024 * 1024

/-- A kitfile that is short enough is read and parsed. -/
def readKitfile (body : String) : Option KitManifest :=
  if body.length > maxKitFileBytes then none else kitfileParse body

/-- `cmd_kit_install`, for the kitfile with this body. -/
def cmdKitInstall (run : KitRun) (body : String) : List Deed :=
  match readKitfile body with
  | none => []
  | some m =>
    if run.dryRun then []
    else
      let m := kitPrepareLocalSourceManifest run.source m
      if !run.confirmed || m.tools ≠ [] && !run.toolBinPathKnown then []
      else
        match ensureToolBinPath run m with
        | (deeds, false) => deeds
        | (deeds, true) =>
          if !run.environment then deeds
          else
            deeds ++ installAllLocalDevs run m ++ installAllPackages run m ++
              (installAllTools run m).1

end ElmWrap.Kit
