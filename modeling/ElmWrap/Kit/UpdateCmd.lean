import ElmWrap.Kit.InstallCmd

/-!
# Updating kits

`kit_update_apply` of `commands/kit/install_cmd.c`, on the kits stored below
`$WRAP_HOME/kits`. SHA-256 is given by what it computes.
-/

namespace ElmWrap.Kit

open Lib.Paths

/-! ## The store -/

/-- What `current` is in the directory of a kit. -/
inductive Current
  | missing
  /-- A link to the directory of this version. -/
  | link (version : String)
  /-- A directory, and the kitfile in it. -/
  | directory (stored : Option String)
deriving DecidableEq

/-- The directory of a kit: the directories of its versions with the kitfile in each, and
`current`. -/
structure KitDir where
  versions : String → Option (Option String)
  current : Current

/-- The directories of all kits. -/
abbrev KitsDir := String → KitDir

/-- The kitfile stored for a version. -/
def KitDir.stored (dir : KitDir) (version : String) : Option String := (dir.versions version).join

/-- The kitfile that `current` leads to. The name of a stored kitfile is the kit's, and
`find_kit_in_directory` does not see files whose name begins with a dot. -/
def KitDir.currentBody (dir : KitDir) (kit : String) : Option String :=
  if kit.startsWith "." then none
  else
    match dir.current with
    | .missing => none
    -- a link to itself
    | .link version => if version = "current" then none else dir.stored version
    | .directory stored => stored

/-- `kit_read_current_manifest`, where the file can be read. -/
def kitReadCurrentManifest (dir : KitDir) (kit : String) : Option (KitManifest × String) := do
  let body ← dir.currentBody kit
  let m ← readKitfile body
  some (m, body)

/-- What the calls on the store meet. -/
structure StoreMeets where
  /-- The current kitfile can be read. -/
  reads : Bool
  /-- A directory that is missing can be made. -/
  makesDirectory : Bool
  /-- The kitfile can be written and renamed into place. -/
  writes : Bool
  /-- The old link can be removed. -/
  unlinks : Bool
  /-- The new link can be made. -/
  links : Bool

/-- `kit_store_kitfile`: the directory, and whether the kitfile is stored. -/
def kitStoreKitfile (meets : StoreMeets) (version body : String) (dir : KitDir) : KitDir × Bool :=
  if version = "current" then
    -- the path of the version leads through `current`
    match dir.current with
    | .missing =>
      if !meets.makesDirectory then (dir, false)
      else if !meets.writes then ({ dir with current := .directory none }, false)
      else ({ dir with current := .directory (some body) }, true)
    | .link target =>
      if target = "current" || (dir.versions target).isNone || !meets.writes then (dir, false)
      else ({ dir with versions := Function.update dir.versions target (some (some body)) }, true)
    | .directory _ =>
      if !meets.writes then (dir, false)
      else ({ dir with current := .directory (some body) }, true)
  else if (dir.versions version).isNone && !meets.makesDirectory then (dir, false)
  else if !meets.writes then
    ({ dir with
        versions := Function.update dir.versions version (some (dir.stored version)) }, false)
  else ({ dir with versions := Function.update dir.versions version (some (some body)) }, true)

/-- `kit_promote_current`, with `replace_symlink`. -/
def kitPromoteCurrent (meets : StoreMeets) (version : String) (dir : KitDir) : KitDir × Bool :=
  match dir.current with
  | .directory _ => (dir, false)
  | .missing =>
    if meets.links then ({ dir with current := .link version }, true) else (dir, false)
  | .link _ =>
    if !meets.unlinks then (dir, false)
    else if meets.links then ({ dir with current := .link version }, true)
    else ({ dir with current := .missing }, false)

/-- The deeds of `kit_store_kitfile`. -/
def storeDeeds (places : KitPlaces) (kit : ToolName) (version : String) : List Deed :=
  [storeDeed places kit .directories [version],
    storeDeed places kit .entry [version, kit.text ++ ".kit.tmp"],
    storeDeed places kit .entry [version, kit.text ++ ".kit"]]

/-- The deeds of `kit_promote_current`. -/
def promoteDeeds (places : KitPlaces) (kit : ToolName) : List Deed :=
  [storeDeed places kit .entry ["current"]]

/-! ## The command -/

/-- What an update meets. -/
structure UpdateRun extends KitRun where
  /-- `WRAP_HOME` is configured, and the paths below it are short enough. -/
  wrapHome : Bool
  store : StoreMeets
  /-- Something fails that does not stop the run. -/
  failures : Bool

/-- The mode of an update; an update from a version has that version's manifest. -/
inductive KitMode
  | install
  | reinstall
  | update (old : KitManifest)

/-- An update needs `TOOL_BIN_PATH`, also for the links it removes. -/
def KitMode.needsToolBinPath (mode : KitMode) (m : KitManifest) : Bool :=
  m.tools ≠ [] ||
    match mode with
    | .update old => old.tools ≠ []
    | _ => false

/-- The mode for an offered kitfile; `none` where it is refused. -/
def kitMode (sha256 : String → String) (meets : StoreMeets) (dir : KitDir) (m : KitManifest)
    (body : String) : Option KitMode :=
  match if meets.reads then kitReadCurrentManifest dir m.kitName else none with
  | none => some .install
  | some (old, oldBody) =>
    if old.kitVersion = m.kitVersion then
      if sha256 body ≠ sha256 oldBody then none else some .reinstall
    else some (.update old)

/-- What an update leaves: the store, what has been done, and the exit status. -/
structure KitResult where
  kits : KitsDir
  deeds : List Deed
  exit : Nat

/-- `remove_old_tool_symlinks` and `deregister_old_local_devs`. -/
def removePrevious (run : KitRun) (old : KitManifest) : List Deed :=
  ((old.tools.zipIdx.filter fun item => run.oldTool item.2).map fun item =>
      linkDeed run.places item.1.name) ++
    old.localDevs.zipIdx.flatMap fun item =>
      deregisterOldLocalDev run.places (run.removal item.2) item.1

/-- `kit_symlink_tools`. -/
def kitSymlinkTools (run : KitRun) (m : KitManifest) : List Deed :=
  (m.tools.zipIdx.filter fun item => (run.tool item.2).links).map fun item =>
    linkDeed run.places item.1.name

/-- The installation and the reinstallation of a kit. -/
def installKit (run : UpdateRun) (kit : ToolName) (m : KitManifest) (body : String)
    (kits : KitsDir) : KitResult :=
  let packages := installAllLocalDevs run.toKitRun m ++ installAllPackages run.toKitRun m
  match installAllTools run.toKitRun m with
  | (tools, false) => ⟨kits, packages ++ tools, 1⟩
  | (tools, true) =>
    match kitStoreKitfile run.store m.kitVersion body (kits kit.text) with
    | (dir, false) =>
      ⟨Function.update kits kit.text dir,
        packages ++ tools ++ storeDeeds run.places kit m.kitVersion, 1⟩
    | (dir, true) =>
      let (dir, promoted) := kitPromoteCurrent run.store m.kitVersion dir
      ⟨Function.update kits kit.text dir,
        packages ++ tools ++ storeDeeds run.places kit m.kitVersion ++
          promoteDeeds run.places kit,
        if promoted && !run.failures then 0 else 1⟩

/-- The update of a kit from the version of `old`. -/
def updateKit (run : UpdateRun) (kit : ToolName) (m old : KitManifest) (body : String)
    (kits : KitsDir) : KitResult :=
  match if noClient run.toKitRun m then ([], false)
      else kitDownloadTools run.toKitRun m m.tools.zipIdx with
  | (tools, false) => ⟨kits, tools, 1⟩
  | (tools, true) =>
    match kitStoreKitfile run.store m.kitVersion body (kits kit.text) with
    | (dir, false) =>
      ⟨Function.update kits kit.text dir, tools ++ storeDeeds run.places kit m.kitVersion, 1⟩
    | (dir, true) =>
      let (dir, promoted) := kitPromoteCurrent run.store m.kitVersion dir
      ⟨Function.update kits kit.text dir,
        tools ++ storeDeeds run.places kit m.kitVersion ++ removePrevious run.toKitRun old ++
          kitSymlinkTools run.toKitRun m ++ installAllLocalDevs run.toKitRun m ++
          installAllPackages run.toKitRun m ++ promoteDeeds run.places kit,
        if promoted && !run.failures then 0 else 1⟩

/-- `kit_update_apply`. -/
def kitUpdateApply (sha256 : String → String) (run : UpdateRun) (m : KitManifest)
    (body : String) (kits : KitsDir) : KitResult :=
  if valid : validToolName m.kitName = true ∧ validToolName m.kitVersion = true then
    let kit : ToolName := ⟨m.kitName, valid.1⟩
    let m := kitPrepareLocalSourceManifest run.source m
    if !run.wrapHome then ⟨kits, [], 1⟩
    else
      match kitMode sha256 run.store (kits kit.text) m body with
      | none => ⟨kits, [], 1⟩
      | some mode =>
        if !run.confirmed then ⟨kits, [], 0⟩
        else if mode.needsToolBinPath m && !run.toolBinPathKnown then ⟨kits, [], 1⟩
        else
          match ensureToolBinPath run.toKitRun m with
          | (deeds, false) => ⟨kits, deeds, 1⟩
          | (deeds, true) =>
            if !run.environment then ⟨kits, deeds, 1⟩
            else
              let result :=
                match mode with
                | .update old => updateKit run kit m old body kits
                | _ => installKit run kit m body kits
              { result with deeds := deeds ++ result.deeds }
  else ⟨kits, [], 1⟩

/-- `cmd_kit_update`, for the kitfile with this body. -/
def cmdKitUpdate (sha256 : String → String) (run : UpdateRun) (body : String) (kits : KitsDir) :
    KitResult :=
  match readKitfile body with
  | none => ⟨kits, [], 1⟩
  | some m => if run.dryRun then ⟨kits, [], 0⟩ else kitUpdateApply sha256 run m body kits

end ElmWrap.Kit
