import ElmWrap.Publish.Policy

/-!
# What is published

The relations `publish_file` and `extra_file` of a package directory, in terms of the
directory: where files are, which modules they declare and import, and what they are
called. Every rule is read once, in `derived_means` and in the lemmas that build up a
derivation.
-/

namespace ElmWrap.Publish

open Lib

/-! ## Files of a directory -/

/-- A regular file of a name lies below some directories. -/
def FileAt (name : String) (path : RealPath) : Entries → List String → Prop
  | .done, _ => False
  | .file n real rest, dirs => dirs = [] ∧ n = name ∧ real = some path ∨ FileAt name path rest dirs
  | .directory n _ inside rest, dirs =>
    (∃ more, dirs = n :: more ∧ FileAt name path inside more) ∨ FileAt name path rest dirs
  | .other _ _ rest, dirs => FileAt name path rest dirs

variable {dir : PackageDirectory} {path : RealPath}

theorem mem_collectAllElmFiles {entries : Entries} :
    path ∈ collectAllElmFiles entries ↔
      ∃ name dirs, FileAt name path entries dirs ∧ isElmName name = true := by
  induction entries with
  | done => simp [collectAllElmFiles, FileAt]
  | file name real rest ih =>
    rw [collectAllElmFiles, List.mem_append, ih]
    constructor
    · rintro (here | ⟨other, dirs, there, elm⟩)
      · split at here
        · rename_i elm
          exact ⟨name, [], .inl ⟨rfl, rfl, Option.mem_toList.mp here⟩, elm⟩
        · cases here
      · exact ⟨other, dirs, .inr there, elm⟩
    · rintro ⟨other, dirs, ⟨-, rfl, rfl⟩ | there, elm⟩
      · rw [if_pos elm]
        exact .inl List.mem_cons_self
      · exact .inr ⟨other, dirs, there, elm⟩
  | directory name real inside rest ihInside ih =>
    rw [collectAllElmFiles, List.mem_append, ih, ihInside]
    constructor
    · rintro (⟨other, dirs, there, elm⟩ | ⟨other, dirs, there, elm⟩)
      · exact ⟨other, name :: dirs, .inl ⟨dirs, rfl, there⟩, elm⟩
      · exact ⟨other, dirs, .inr there, elm⟩
    · rintro ⟨other, dirs, ⟨more, -, there⟩ | there, elm⟩
      · exact .inl ⟨other, more, there, elm⟩
      · exact .inr ⟨other, dirs, there, elm⟩
  | other name real rest ih => exact ih

theorem mem_collectAllFiles {dontDescend : List String} {entries : Entries} :
    path ∈ (collectAllFilesWithSkippedDirs dontDescend entries).files ↔
      ∃ name dirs, FileAt name path entries dirs ∧ ∀ dir ∈ dirs, dir ∉ dontDescend := by
  induction entries with
  | done => simp [collectAllFilesWithSkippedDirs, FileAt]
  | file name real rest ih =>
    rw [collectAllFilesWithSkippedDirs, List.mem_append, ih]
    constructor
    · rintro (here | ⟨other, dirs, there, descends⟩)
      · refine ⟨name, [], .inl ⟨rfl, rfl, Option.mem_toList.mp here⟩, ?_⟩
        exact List.forall_mem_nil _
      · exact ⟨other, dirs, .inr there, descends⟩
    · rintro ⟨other, dirs, ⟨-, rfl, rfl⟩ | there, descends⟩
      · exact .inl List.mem_cons_self
      · exact .inr ⟨other, dirs, there, descends⟩
  | directory name real inside rest ihInside ih =>
    rw [collectAllFilesWithSkippedDirs]
    split
    · rename_i skipped
      rw [List.contains_eq_mem, decide_eq_true_iff] at skipped
      rw [ih]
      constructor
      · rintro ⟨other, dirs, there, descends⟩
        exact ⟨other, dirs, .inr there, descends⟩
      · rintro ⟨other, dirs, ⟨more, rfl, -⟩ | there, descends⟩
        · exact absurd skipped (descends name List.mem_cons_self)
        · exact ⟨other, dirs, there, descends⟩
    · rename_i open_
      rw [List.contains_eq_mem, decide_eq_true_iff] at open_
      rw [List.mem_append, ih, ihInside]
      constructor
      · rintro (⟨other, dirs, there, descends⟩ | ⟨other, dirs, there, descends⟩)
        · exact ⟨other, name :: dirs, .inl ⟨dirs, rfl, there⟩,
            List.forall_mem_cons.mpr ⟨open_, descends⟩⟩
        · exact ⟨other, dirs, .inr there, descends⟩
      · rintro ⟨other, dirs, ⟨more, rfl, there⟩ | there, descends⟩
        · exact .inl ⟨other, more, there, (List.forall_mem_cons.mp descends).2⟩
        · exact .inr ⟨other, dirs, there, descends⟩
  | other name real rest ih => exact ih

/-! ## Paths and names -/

theorem strrchr_none {c : Char} {text : List Char} (plain : c ∉ text) : strrchr c text = none := by
  induction text with
  | nil => rfl
  | cons d text ih =>
    rw [List.mem_cons, not_or] at plain
    rw [strrchr, ih plain.2, if_neg fun same => plain.1 same.symm]

theorem strrchr_append {c : Char} {before rest : List Char} (plain : c ∉ rest) :
    strrchr c (before ++ c :: rest) = some (c :: rest) := by
  induction before with
  | nil => rw [List.nil_append, strrchr, strrchr_none plain, if_pos rfl]
  | cons d before ih => rw [List.cons_append, strrchr, ih]

/-- The name of a file is what stands behind the last slash of its path. -/
theorem fileName_iff {name : List Char} (plain : '/' ∉ name) :
    PackageDirectory.fileName path = name ↔ ∃ above, path.text = above ++ '/' :: name := by
  unfold PackageDirectory.fileName
  constructor
  · intro same
    have slash : '/' ∈ path.text.reverse :=
      List.mem_reverse.mpr (List.mem_of_mem_head? path.absolute)
    obtain ⟨back, front, cut, plain'⟩ := List.eq_append_cons_of_mem slash
    have text : path.text = front.reverse ++ '/' :: back.reverse := by
      rw [← List.reverse_reverse path.text, cut]
      simp
    rw [text, strrchr_append (by simpa using plain')] at same
    exact ⟨front.reverse, by rw [text, ← same]; rfl⟩
  · rintro ⟨above, text⟩
    rw [text, strrchr_append plain]
    rfl

/-- A path relative to the root is a name just where the file lies in the root. -/
theorem relPath_iff {name : List Char} (relative : name.head? ≠ some '/') :
    dir.relPath path = name ↔ path.text = dir.root ++ '/' :: name := by
  unfold PackageDirectory.relPath
  constructor
  · intro same
    split at same
    · rename_i below
      obtain ⟨rest, text⟩ := List.isPrefixOf_iff_prefix.mp below
      rw [← text, ← same, ← text, List.append_assoc]
      simp
    · rw [← same] at relative
      exact absurd path.absolute relative
  · intro text
    have below : (dir.root ++ ['/']).isPrefixOf path.text = true :=
      List.isPrefixOf_iff_prefix.mpr ⟨name, by rw [text]; simp⟩
    rw [if_pos below, text]
    simp

theorem RealPath.ext {p q : RealPath} (same : p.text = q.text) : p = q := by
  cases p
  cases q
  cases same
  rfl

/-! ## What the relations mean -/

/-- A file of the package, outside the directories that are not descended into. -/
def Collected (dir : PackageDirectory) (path : RealPath) : Prop :=
  ∃ name dirs, FileAt name path dir.entries dirs ∧ ∀ inner ∈ dirs, inner ∉ dontDescendNames

/-- A file below `src` whose name ends in `.elm`. -/
def SourceFile (dir : PackageDirectory) (path : RealPath) : Prop :=
  ∃ name dirs, FileAt name path dir.src dirs ∧ isElmName name = true

/-- A module is exposed, or a source file of a reachable module imports it and there is a file
at its place. -/
inductive ReachableModule (dir : PackageDirectory) : String → Prop
  | exposed {moduleName : String} :
    moduleName ∈ dir.exposedModules → ReachableModule dir moduleName
  | imported {path : RealPath} {skeleton : SkeletonModule} {importer moduleName : String} :
    SourceFile dir path → dir.skeletonParse path = some skeleton →
    skeleton.moduleName = some importer → ReachableModule dir importer →
    moduleName ∈ skeleton.imports → dir.hasModuleFile moduleName = true →
    ReachableModule dir moduleName

/-- A source file declares a reachable module. -/
def DeclaresReachable (dir : PackageDirectory) (path : RealPath) : Prop :=
  SourceFile dir path ∧
    ∃ skeleton moduleName, dir.skeletonParse path = some skeleton ∧
      skeleton.moduleName = some moduleName ∧ ReachableModule dir moduleName

def metadataNames : List String := ["elm.json", "LICENSE", "README.md"]

def artifactNames : List String := ["docs.json", "endpoint.json"]

/-- What is published of a package directory. -/
inductive Published (dir : PackageDirectory) (path : RealPath) : Prop
  | root {name : String} :
    name ∈ metadataNames → path.text = dir.root ++ '/' :: name.toList → Published dir path
  | allowed : path ∈ dir.allowedRootFiles → Published dir path
  | artifact {above : List Char} {name : String} :
    name ∈ artifactNames → path.text = above ++ '/' :: name.toList → Published dir path
  | source : DeclaresReachable dir path → Published dir path

/-- What is derived before `extra_file`. -/
def Meaning (dir : PackageDirectory) : PublishPred → List (List Char) → Prop
  | .dontDescendInto, tuple => ∃ name ∈ dontDescendNames, tuple = [name.toList]
  | .reachableModule, tuple =>
    ∃ moduleName, tuple = [moduleName.toList] ∧ ReachableModule dir moduleName
  | .reachableFile, tuple => ∃ path, tuple = [path.text] ∧ DeclaresReachable dir path
  | .corePackageFile, tuple => ∃ path, tuple = [path.text, dir.relPath path] ∧
      Collected dir path ∧ Published dir path
  | .publishFile, tuple => ∃ path, tuple = [path.text, dir.relPath path] ∧
      Collected dir path ∧ Published dir path
  | .extraFile, _ => False
  | pred, tuple => PublishFact dir pred tuple

theorem metadataNames_relative : ∀ name ∈ metadataNames, name.toList.head? ≠ some '/' := by
  decide

theorem artifactNames_plain : ∀ name ∈ artifactNames, '/' ∉ name.toList := by
  decide

/-! ### Facts -/

theorem sourceFile_iff :
    SourceFile dir path ↔ path ∈ dir.elmFiles := mem_collectAllElmFiles.symm

theorem packageFileInfo_iff {tuple : List (List Char)} :
    PublishFact dir .packageFileInfo tuple ↔ ∃ path, Collected dir path ∧
      tuple = [path.text, dir.relPath path, PackageDirectory.fileName path] := by
  constructor
  · rintro ⟨member⟩
    exact ⟨_, mem_collectAllFiles.mp member, rfl⟩
  · rintro ⟨path, collected, rfl⟩
    exact .packageFileInfo (mem_collectAllFiles.mpr collected)

theorem exposedModule_iff {dir : PackageDirectory} {tuple : List (List Char)} :
    PublishFact dir .exposedModule tuple ↔
      ∃ moduleName ∈ dir.exposedModules, tuple = [moduleName.toList] := by
  constructor
  · rintro (_ | member)
    exact ⟨_, member, rfl⟩
  · rintro ⟨moduleName, member, rfl⟩
    exact .exposedModule member

theorem fileModule_iff {dir : PackageDirectory} {tuple : List (List Char)} :
    PublishFact dir .fileModule tuple ↔ ∃ path skeleton moduleName, SourceFile dir path ∧
      dir.skeletonParse path = some skeleton ∧ skeleton.moduleName = some moduleName ∧
        tuple = [path.text, moduleName.toList] := by
  constructor
  · rintro (_ | _ | ⟨source, declares⟩)
    obtain ⟨skeleton, parsed, declares⟩ := Option.bind_eq_some_iff.mp declares
    exact ⟨_, skeleton, _, sourceFile_iff.mpr source, parsed, declares, rfl⟩
  · rintro ⟨path, skeleton, moduleName, source, parsed, declares, rfl⟩
    exact .fileModule (sourceFile_iff.mp source)
      (Option.bind_eq_some_iff.mpr ⟨skeleton, parsed, declares⟩)

theorem fileImport_iff {dir : PackageDirectory} {tuple : List (List Char)} :
    PublishFact dir .fileImport tuple ↔ ∃ path skeleton moduleName, SourceFile dir path ∧
      dir.skeletonParse path = some skeleton ∧ moduleName ∈ skeleton.imports ∧
        dir.hasModuleFile moduleName = true ∧ tuple = [path.text, moduleName.toList] := by
  constructor
  · rintro (_ | _ | _ | @⟨path, _, source, member⟩)
    unfold PackageDirectory.fileImports at member
    split at member
    · cases member
    · rename_i skeleton parsed
      obtain ⟨imports, there⟩ := List.mem_filter.mp member
      exact ⟨path, skeleton, _, sourceFile_iff.mpr source, parsed, imports, there, rfl⟩
  · rintro ⟨path, skeleton, moduleName, source, parsed, imports, there, rfl⟩
    refine .fileImport (sourceFile_iff.mp source) ?_
    unfold PackageDirectory.fileImports
    rw [parsed]
    exact List.mem_filter.mpr ⟨imports, there⟩

theorem allowedRootFile_iff {tuple : List (List Char)} :
    PublishFact dir .allowedRootFile tuple ↔
      ∃ path ∈ dir.allowedRootFiles, tuple = [path.text] := by
  constructor
  · rintro (_ | _ | _ | _ | member)
    exact ⟨_, member, rfl⟩
  · rintro ⟨path, member, rfl⟩
    exact .allowedRootFile member

/-! ## What is derived is meant -/

/-- What the first stratum derives. -/
abbrev FirstStratum (dir : PackageDirectory) : Datalog.Interp PublishPred (List Char) :=
  Datalog.Derives (PublishFact dir) (publishPolicy.layer 0) fun _ _ => False

theorem Meaning.info {abs rel name : List Char}
    (info : Meaning dir .packageFileInfo [abs, rel, name]) : ∃ path, Collected dir path ∧
      abs = path.text ∧ rel = dir.relPath path ∧ name = PackageDirectory.fileName path := by
  obtain ⟨path, collected, same⟩ := packageFileInfo_iff.mp info
  simp only [List.cons.injEq, and_true] at same
  exact ⟨path, collected, same⟩

/-- Files with a name are published whatever directory they are in. -/
theorem Meaning.named {abs rel : List Char} {name : String} (artifact : name ∈ artifactNames)
    (info : Meaning dir .packageFileInfo [abs, rel, name.toList]) :
    Meaning dir .corePackageFile [abs, rel] := by
  obtain ⟨path, collected, rfl, rfl, named⟩ := info.info
  obtain ⟨above, text⟩ := (fileName_iff (artifactNames_plain name artifact)).mp named.symm
  exact ⟨path, rfl, collected, .artifact artifact text⟩

/-- The metadata files are published in the root. -/
theorem Meaning.rooted {abs name' : List Char} {rel : String} (metadata : rel ∈ metadataNames)
    (info : Meaning dir .packageFileInfo [abs, rel.toList, name']) :
    Meaning dir .publishFile [abs, rel.toList] := by
  obtain ⟨path, collected, rfl, inRoot, -⟩ := info.info
  have text := (relPath_iff (metadataNames_relative rel metadata)).mp inRoot.symm
  exact ⟨path, by rw [inRoot], collected, .root metadata text⟩

/-- The rules of the first stratum keep to what is meant. -/
theorem Meaning.closed {r : PublishRule} (member : r ∈ publishPolicy.layer 0)
    {σ : String → List Char} (body : ∀ a ∈ r.body, Meaning dir a.pred (a.tuple σ)) :
    Meaning dir r.head.pred (r.head.tuple σ) := by
  obtain ⟨rules, stratum⟩ := Datalog.Program.mem_layer.mp member
  simp only [publishPolicy, corePackageFiles, publishFiles, List.mem_append, List.mem_map,
    List.mem_cons, List.not_mem_nil, or_false] at rules
  rcases rules with (⟨name, listed, rfl⟩ | rfl | rfl | rfl | rfl | rfl | rfl | rfl) |
    (rfl | rfl | rfl | rfl | rfl)
  · exact ⟨name, by simpa [dontDescendNames] using listed, rfl⟩
  · obtain ⟨moduleName, exposed, same⟩ := exposedModule_iff.mp (body _ List.mem_cons_self)
    exact ⟨moduleName, same, .exposed exposed⟩
  · -- a file that declares a reachable module imports another one
    obtain ⟨path, file, -, skeleton, importer, parsed, declares, reachable⟩ :=
      body _ List.mem_cons_self
    obtain ⟨path', skeleton', moduleName, source, parsed', imports, there, same⟩ :=
      fileImport_iff.mp (body _ (List.mem_cons_of_mem _ List.mem_cons_self))
    obtain ⟨file', imported⟩ := List.cons.inj same
    obtain rfl : path = path' := RealPath.ext ((List.cons.inj file).1.symm.trans file')
    cases Option.some_inj.mp (parsed.symm.trans parsed')
    exact ⟨moduleName, imported, .imported source parsed declares reachable imports there⟩
  · obtain ⟨path, skeleton, moduleName, source, parsed, declares, same⟩ :=
      fileModule_iff.mp (body _ List.mem_cons_self)
    obtain ⟨moduleName', same', reachable⟩ := body _ (List.mem_cons_of_mem _ List.mem_cons_self)
    obtain ⟨file, same⟩ := List.cons.inj same
    obtain rfl : moduleName = moduleName' := String.toList_inj.mp
      ((List.cons.inj same).1.symm.trans (List.cons.inj same').1)
    exact ⟨path, congrArg (fun text => [text]) file, source, skeleton, moduleName, parsed,
      declares, reachable⟩
  · obtain ⟨path, collected, abs, rel, -⟩ := Meaning.info (body _ List.mem_cons_self)
    obtain ⟨path', file, reachable⟩ := body _ (List.mem_cons_of_mem _ List.mem_cons_self)
    obtain rfl : path = path' := RealPath.ext (abs.symm.trans (List.cons.inj file).1)
    exact ⟨path, congrArg₂ (fun abs rel => [abs, rel]) abs rel, collected, .source reachable⟩
  · obtain ⟨path, collected, abs, rel, -⟩ := Meaning.info (body _ List.mem_cons_self)
    obtain ⟨path', allowed, file⟩ :=
      allowedRootFile_iff.mp (body _ (List.mem_cons_of_mem _ List.mem_cons_self))
    obtain rfl : path = path' := RealPath.ext (abs.symm.trans (List.cons.inj file).1)
    exact ⟨path, congrArg₂ (fun abs rel => [abs, rel]) abs rel, collected, .allowed allowed⟩
  · exact Meaning.named (by decide) (body _ List.mem_cons_self)
  · exact Meaning.named (by decide) (body _ List.mem_cons_self)
  · have core := body _ List.mem_cons_self
    exact core
  · exact Meaning.rooted (by decide) (body _ List.mem_cons_self)
  · exact Meaning.rooted (by decide) (body _ List.mem_cons_self)
  · exact Meaning.rooted (by decide) (body _ List.mem_cons_self)
  · cases stratum

theorem derived_means {pred : PublishPred} {tuple : List (List Char)}
    (derived : FirstStratum dir pred tuple) : Meaning dir pred tuple := by
  refine derived.least ?_ fun r member σ body _ => Meaning.closed member body
  intro pred tuple fact
  cases fact with
  | packageFileInfo member => exact .packageFileInfo member
  | exposedModule member => exact .exposedModule member
  | fileModule file member => exact .fileModule file member
  | fileImport file member => exact .fileImport file member
  | allowedRootFile member => exact .allowedRootFile member

/-! ## What is meant is derived -/

section Derivations

variable {dir : PackageDirectory}

/-- The values of the variables in the rules about modules. -/
def moduleValues (file moduleName : List Char) : String → List Char :=
  fun v => if v = "File" then file else moduleName

/-- The values of the variables in the rules about files. -/
def fileValues (abs rel name : List Char) : String → List Char :=
  fun v => if v = "Abs" then abs else if v = "Rel" then rel else name

theorem mem_layer_zero {r : PublishRule} (member : r ∈ corePackageFiles ++ publishFiles)
    (first : publishPolicy.stratum r.head.pred = 0) : r ∈ publishPolicy.layer 0 :=
  Datalog.Program.mem_layer.mpr ⟨member, first⟩

theorem reachableFile_derived {skeleton : SkeletonModule} {moduleName : String}
    (source : SourceFile dir path) (parsed : dir.skeletonParse path = some skeleton)
    (declares : skeleton.moduleName = some moduleName)
    (reachable : FirstStratum dir .reachableModule [moduleName.toList]) :
    FirstStratum dir .reachableFile [path.text] := by
  have rule : reachableDeclared ∈ publishPolicy.layer 0 :=
    mem_layer_zero (by simp [corePackageFiles]) rfl
  have fact : PublishFact dir .fileModule [path.text, moduleName.toList] :=
    fileModule_iff.mpr ⟨path, skeleton, moduleName, source, parsed, declares, rfl⟩
  exact Datalog.Derives.binary (moduleValues path.text moduleName.toList) rule rfl rfl
    (.fact fact) reachable

theorem reachableModule_derived {moduleName : String}
    (reachable : ReachableModule dir moduleName) :
    FirstStratum dir .reachableModule [moduleName.toList] := by
  induction reachable with
  | @exposed moduleName exposed =>
    have rule : reachableExposed ∈ publishPolicy.layer 0 :=
      mem_layer_zero (by simp [corePackageFiles]) rfl
    have fact : PublishFact dir .exposedModule [moduleName.toList] := .exposedModule exposed
    exact Datalog.Derives.unary (moduleValues [] moduleName.toList) rule rfl rfl (.fact fact)
  | @imported path skeleton importer moduleName source parsed declares _ imports there ih =>
    have rule : reachableImported ∈ publishPolicy.layer 0 :=
      mem_layer_zero (by simp [corePackageFiles]) rfl
    have fact : PublishFact dir .fileImport [path.text, moduleName.toList] :=
      fileImport_iff.mpr ⟨path, skeleton, moduleName, source, parsed, imports, there, rfl⟩
    exact Datalog.Derives.binary (moduleValues path.text moduleName.toList) rule rfl rfl
      (reachableFile_derived source parsed declares ih) (.fact fact)

/-- A core file is published. -/
theorem published_of_core {abs rel : List Char}
    (core : FirstStratum dir .corePackageFile [abs, rel]) :
    FirstStratum dir .publishFile [abs, rel] := by
  have rule : publishCore ∈ publishPolicy.layer 0 := mem_layer_zero (by simp [publishFiles]) rfl
  exact Datalog.Derives.unary (fileValues abs rel []) rule rfl rfl core

theorem published_derived (collected : Collected dir path) (published : Published dir path) :
    FirstStratum dir .publishFile [path.text, dir.relPath path] := by
  have info : FirstStratum dir .packageFileInfo
      [path.text, dir.relPath path, PackageDirectory.fileName path] :=
    .fact (packageFileInfo_iff.mpr ⟨path, collected, rfl⟩)
  let σ := fileValues path.text (dir.relPath path) (PackageDirectory.fileName path)
  cases published with
  | @root name metadata text =>
    have rule : publishRoot name ∈ publishPolicy.layer 0 := by
      refine mem_layer_zero (List.mem_append_right _ ?_) rfl
      simp only [metadataNames, List.mem_cons, List.not_mem_nil, or_false] at metadata
      rcases metadata with rfl | rfl | rfl <;> simp [publishFiles]
    have rel : dir.relPath path = name.toList :=
      (relPath_iff (metadataNames_relative name metadata)).mpr text
    rw [rel] at info ⊢
    exact Datalog.Derives.unary σ rule rfl rfl info
  | allowed allowed =>
    have rule : coreAllowed ∈ publishPolicy.layer 0 :=
      mem_layer_zero (by simp [corePackageFiles]) rfl
    have fact : PublishFact dir .allowedRootFile [path.text] := .allowedRootFile allowed
    exact published_of_core (Datalog.Derives.binary σ rule rfl rfl info (.fact fact))
  | @artifact above name artifact text =>
    have rule : coreNamed name ∈ publishPolicy.layer 0 := by
      refine mem_layer_zero (List.mem_append_left _ ?_) rfl
      simp only [artifactNames, List.mem_cons, List.not_mem_nil, or_false] at artifact
      rcases artifact with rfl | rfl <;> simp [corePackageFiles]
    have named : PackageDirectory.fileName path = name.toList :=
      (fileName_iff (artifactNames_plain name artifact)).mpr ⟨above, text⟩
    rw [named] at info
    exact published_of_core (Datalog.Derives.unary σ rule rfl rfl info)
  | source declares =>
    obtain ⟨source, skeleton, moduleName, parsed, declares, reachable⟩ := declares
    have rule : coreReachable ∈ publishPolicy.layer 0 :=
      mem_layer_zero (by simp [corePackageFiles]) rfl
    have file : FirstStratum dir .reachableFile [path.text] :=
      reachableFile_derived source parsed declares (reachableModule_derived reachable)
    exact published_of_core (Datalog.Derives.binary σ rule rfl rfl info file)

end Derivations

/-! ## The relations -/

section Relations

variable {dir : PackageDirectory} {tuple : List (List Char)}

theorem publishFile_iff : evaluated dir .publishFile tuple ↔
    ∃ path, tuple = [path.text, dir.relPath path] ∧ Collected dir path ∧ Published dir path := by
  refine ⟨fun derived => derived_means derived, ?_⟩
  rintro ⟨path, rfl, collected, published⟩
  exact published_derived collected published

theorem publishFile_path (collected : Collected dir path) :
    evaluated dir .publishFile [path.text, dir.relPath path] ↔ Published dir path := by
  rw [publishFile_iff]
  constructor
  · rintro ⟨other, same, -, published⟩
    rwa [RealPath.ext (List.cons.inj same).1]
  · exact fun published => ⟨path, rfl, collected, published⟩

theorem mem_layer_one {r : PublishRule} : r ∈ publishPolicy.layer 1 ↔ r = extraFile := by
  rw [Datalog.Program.mem_layer]
  constructor
  · rintro ⟨rules, stratum⟩
    simp only [publishPolicy, corePackageFiles, publishFiles, List.mem_append, List.mem_map,
      List.mem_cons, List.not_mem_nil, or_false] at rules
    rcases rules with (⟨name, listed, rfl⟩ | rfl | rfl | rfl | rfl | rfl | rfl | rfl) |
      (rfl | rfl | rfl | rfl | rfl) <;> first | rfl | cases stratum
  · rintro rfl
    exact ⟨List.mem_append_right _ (by simp [publishFiles]), rfl⟩

theorem extraFile_iff : evaluated dir .extraFile tuple ↔
    ∃ path, tuple = [path.text, dir.relPath path] ∧ Collected dir path ∧ ¬ Published dir path := by
  constructor
  · intro derived
    rcases Datalog.Derives.inversion derived with below | ⟨r, member, σ, -, rfl, body, negated⟩
    · exact (derived_means below).elim
    · cases mem_layer_one.mp member
      have none : ∀ r ∈ publishPolicy.layer 1, r.head.pred ≠ .packageFileInfo := by
        intro r member
        rw [mem_layer_one.mp member]
        decide
      have info := (Datalog.Derives.of_no_head none).mp (body _ List.mem_cons_self)
      obtain ⟨path, collected, abs, rel, -⟩ := Meaning.info (derived_means info)
      have same : extraFile.head.tuple σ = [path.text, dir.relPath path] :=
        congrArg₂ (fun abs rel => [abs, rel]) abs rel
      refine ⟨path, same, collected, fun published => ?_⟩
      have derived := published_derived collected published
      rw [← same] at derived
      exact negated _ List.mem_cons_self derived
  · rintro ⟨path, rfl, collected, kept⟩
    let σ := fileValues path.text (dir.relPath path) (PackageDirectory.fileName path)
    refine @Datalog.Derives.rule _ _ _ _ _ extraFile σ (mem_layer_one.mpr rfl) ?_ ?_
    · refine List.forall_mem_singleton.mpr (.fact (.fact ?_))
      exact packageFileInfo_iff.mpr ⟨path, collected, rfl⟩
    · refine List.forall_mem_singleton.mpr fun derived => kept ?_
      exact (publishFile_path collected).mp derived

end Relations

/-- Every file is in one of the two relations, and published just when it is a metadata file of
the root, a file of one of the special names, or a source file that declares a reachable
module. -/
theorem prepublish_files (dir : PackageDirectory) :
    (∀ path, path ∈ (collectAllFilesWithSkippedDirs dontDescendNames dir.entries).files →
      (evaluated dir .publishFile [path.text, dir.relPath path] ↔
        ¬ evaluated dir .extraFile [path.text, dir.relPath path]) ∧
      (evaluated dir .publishFile [path.text, dir.relPath path] ↔ Published dir path)) ∧
    ∀ pred ∈ [PublishPred.publishFile, .extraFile], ∀ tuple, evaluated dir pred tuple →
      ∃ path ∈ (collectAllFilesWithSkippedDirs dontDescendNames dir.entries).files,
        tuple = [path.text, dir.relPath path] := by
  constructor
  · intro path member
    have collected : Collected dir path := mem_collectAllFiles.mp member
    refine ⟨?_, publishFile_path collected⟩
    rw [publishFile_path collected, extraFile_iff]
    constructor
    · rintro published ⟨other, same, -, kept⟩
      exact kept (RealPath.ext (List.cons.inj same).1 ▸ published)
    · intro extra
      by_contra kept
      exact extra ⟨path, rfl, collected, kept⟩
  · intro pred member tuple derived
    rcases List.mem_cons.mp member with rfl | member
    · obtain ⟨path, same, collected, -⟩ := publishFile_iff.mp derived
      exact ⟨path, mem_collectAllFiles.mpr collected, same⟩
    · rw [List.mem_singleton.mp member] at derived
      obtain ⟨path, same, collected, -⟩ := extraFile_iff.mp derived
      exact ⟨path, mem_collectAllFiles.mpr collected, same⟩

/-! ### Modules by their places -/

/-- The path of a module below `src`. -/
def modulePath (dir : PackageDirectory) (moduleName : String) : List Char :=
  dir.root ++ "/src/".toList ++ moduleName.toList.map (fun c => if c = '.' then '/' else c) ++
    ".elm".toList

/-- The modules that are reached when every module is the file at its path. -/
inductive ReachedByPath (dir : PackageDirectory) : String → Prop
  | exposed {moduleName : String} :
    moduleName ∈ dir.exposedModules → ReachedByPath dir moduleName
  | imported {path : RealPath} {skeleton : SkeletonModule} {importer moduleName : String} :
    SourceFile dir path → path.text = modulePath dir importer → ReachedByPath dir importer →
    dir.skeletonParse path = some skeleton → moduleName ∈ skeleton.imports →
    ReachedByPath dir moduleName

/-- What would be published if special names counted in the root only and modules were the files
at their paths. -/
def PublishedByPath (dir : PackageDirectory) (path : RealPath) : Prop :=
  (∃ name ∈ metadataNames ++ artifactNames, path.text = dir.root ++ '/' :: name.toList) ∨
    ∃ moduleName, ReachedByPath dir moduleName ∧ path.text = modulePath dir moduleName

def nestedDocsPath : RealPath := ⟨"/p/sub/docs.json".toList, rfl⟩

/-- A `docs.json` below the root. -/
def nestedDocs : PackageDirectory where
  root := "/p".toList
  entries :=
    .file "elm.json" (some ⟨"/p/elm.json".toList, rfl⟩) <|
    .directory "sub" (some ⟨"/p/sub".toList, rfl⟩)
      (.file "docs.json" (some nestedDocsPath) .done) .done
  elmJson := .object []
  skeletonParse _ := none
  short := by decide

theorem prepublish_files_nestedDocs :
    evaluated nestedDocs .publishFile [nestedDocsPath.text, nestedDocs.relPath nestedDocsPath] ↔
      Published nestedDocs nestedDocsPath :=
  ((prepublish_files nestedDocs).1 nestedDocsPath (by decide)).2

def copyPath : RealPath := ⟨"/p/src/Copy.elm".toList, rfl⟩

/-- A module that is declared in two files. -/
def copiedModule : PackageDirectory where
  root := "/p".toList
  entries :=
    .file "elm.json" (some ⟨"/p/elm.json".toList, rfl⟩) <|
    .directory "src" (some ⟨"/p/src".toList, rfl⟩)
      (.file "Main.elm" (some ⟨"/p/src/Main.elm".toList, rfl⟩) <|
        .file "Copy.elm" (some copyPath) .done) .done
  elmJson := .object [("exposed-modules", .array [.string "Main"])]
  skeletonParse _ := some ⟨some "Main", [], []⟩
  short := by decide

theorem reachedByPath_copiedModule {moduleName : String}
    (reached : ReachedByPath copiedModule moduleName) : moduleName = "Main" := by
  cases reached with
  | exposed exposed => exact List.mem_singleton.mp exposed
  | imported _ _ _ parsed imports =>
    cases parsed
    cases imports

/-- A file of a special name is published below the root too, and so is a second file that
declares an exposed module. -/
theorem publishedByPath_fails :
    (Collected nestedDocs nestedDocsPath ∧
      evaluated nestedDocs .publishFile
        [nestedDocsPath.text, nestedDocs.relPath nestedDocsPath] ∧
      ¬ PublishedByPath nestedDocs nestedDocsPath) ∧
    Collected copiedModule copyPath ∧
      evaluated copiedModule .publishFile [copyPath.text, copiedModule.relPath copyPath] ∧
      ¬ PublishedByPath copiedModule copyPath := by
  have nested : Collected nestedDocs nestedDocsPath := mem_collectAllFiles.mp (by decide)
  have copied : Collected copiedModule copyPath := mem_collectAllFiles.mp (by decide)
  refine ⟨⟨nested, (publishFile_path nested).mpr ?_, ?_⟩, copied,
    (publishFile_path copied).mpr ?_, ?_⟩
  · exact @Published.artifact _ _ "/p/sub".toList "docs.json" (by decide) (by decide)
  · rintro (⟨name, listed, text⟩ | ⟨moduleName, -, text⟩)
    · revert name
      decide
    · have start : "/p/su".toList = "/p/sr".toList := congrArg (List.take 5) text
      exact absurd start (by decide)
  · have source : SourceFile copiedModule copyPath := sourceFile_iff.mpr (by decide)
    exact .source ⟨source, _, "Main", rfl, rfl, .exposed (by decide)⟩
  · rintro (⟨name, listed, text⟩ | ⟨moduleName, reached, text⟩)
    · revert name
      decide
    · rw [reachedByPath_copiedModule reached] at text
      revert text
      decide

end ElmWrap.Publish
