import Mathlib.Data.Set.List
import ElmWrap.LocalDev.TrackingRuns
import ElmWrap.Lib.Datalog

/-!
# Pruning stale connections

`list_local_dev_tracking` shows what is tracked and then removes the connections that
`prune_local_dev_dependencies.dl` derives as stale: those of which no fact says that the
application depends on the package. The facts come from the two maps of direct
dependencies of applications that can be read.
-/

namespace ElmWrap

open Lib

/-! ## The rule -/

inductive PrunePred
  | trackedConnection
  | appDependency
  | staleConnection
deriving DecidableEq

/-- A fact; symbols are interned texts. -/
abbrev PruneFact := PrunePred × List (List Char)

/-- `stale_connection(…) :- tracked_connection(…), not app_dependency(…).` -/
def staleConnection : Datalog.Rule PrunePred (List Char) where
  head := ⟨.staleConnection, [.var "Author", .var "Package", .var "Version", .var "AppPath"]⟩
  body := [⟨.trackedConnection, [.var "Author", .var "Package", .var "Version", .var "AppPath"]⟩]
  negated := [⟨.appDependency, [.var "AppPath", .var "Author", .var "Package"]⟩]

/-- `prune_local_dev_dependencies.dl`. -/
def pruneLocalDevDependencies : Datalog.Program PrunePred (List Char) where
  rules := [staleConnection]
  stratum
    | .staleConnection => 1
    | _ => 0
  positive := by simp [staleConnection]
  negative := by simp [staleConnection]

/-- What the rule derives from facts. -/
def evaluatedPrune (facts : List PruneFact) : Datalog.Interp PrunePred (List Char) :=
  pruneLocalDevDependencies.model fun pred tuple => (pred, tuple) ∈ facts

/-- The view of `stale_connection` after `rulr_evaluate`: its tuples in some order. -/
structure StaleView (facts : List PruneFact) where
  tuples : List (List (List Char))
  lists : ∀ tuple, tuple ∈ tuples ↔ evaluatedPrune facts .staleConnection tuple

/-! ## The facts -/

/-- `LocalDevConnection`. -/
structure LocalDevConnection where
  author : String
  name : String
  version : String
  appPath : Path
deriving DecidableEq

def LocalDevConnection.dir (c : LocalDevConnection) : LocalDevKey := (c.author, c.name, c.version)

/-- The tuple of a connection. -/
def LocalDevConnection.tuple (c : LocalDevConnection) : List (List Char) :=
  [c.author.toList, c.name.toList, c.version.toList, c.appPath]

/-- `insert_app_dependencies_for_path`. -/
def insertAppDependenciesForPath (elmJsonRead : Path → Option ElmJson) (appPath : Path) :
    List PruneFact :=
  match elmJsonRead appPath with
  | none => []
  | some elmJson =>
    if elmJson.type ≠ .application then []
    else
      [ElmJsonMap.dependenciesDirect, .dependenciesTestDirect].flatMap fun field =>
        (elmJson.maps field).packages.map fun pkg =>
          (.appDependency, [appPath, pkg.name.author.toList, pkg.name.project.toList])

/-- `has_processed_app_path`. -/
def hasProcessedAppPath (processed : List LocalDevConnection) (path : Path) : Bool :=
  processed.any fun c => c.appPath = path

/-- The loop that inserts the facts of each application once. -/
def appDependencyFacts (elmJsonRead : Path → Option ElmJson) (processed : List LocalDevConnection) :
    List LocalDevConnection → List PruneFact
  | [] => []
  | c :: rest =>
    (if hasProcessedAppPath processed c.appPath then []
      else insertAppDependenciesForPath elmJsonRead c.appPath) ++
    appDependencyFacts elmJsonRead (processed ++ [c]) rest

/-- The facts of `prune_stale_local_dev_connections`. -/
def pruneFacts (elmJsonRead : Path → Option ElmJson) (connections : List LocalDevConnection) :
    List PruneFact :=
  connections.map (fun c => (.trackedConnection, c.tuple)) ++
    appDependencyFacts elmJsonRead [] connections

/-! ## The pruning -/

/-- The loop over the tuples that are derived. -/
def clearTuples (fs : FileSystem) (tracking : Tracking) (tuples : List (List (List Char))) :
    Tracking :=
  tuples.foldl (fun tracking tuple =>
    match tuple with
    | [author, name, version, appPath] =>
      (clearPathTracking fs tracking (String.ofList (author ++ '/' :: name))
        (String.ofList version) appPath).1
    | _ => tracking) tracking

/-- `prune_stale_local_dev_connections`. -/
def pruneStaleLocalDevConnections (fs : FileSystem) (elmJsonRead : Path → Option ElmJson)
    (connections : List LocalDevConnection) (view : StaleView (pruneFacts elmJsonRead connections))
    (tracking : Tracking) : Tracking :=
  clearTuples fs tracking view.tuples

/-- The version of a directory was shown with the registry. -/
def alreadyShown (localDevRegistry : V2Registry) (dir : LocalDevKey) : Bool :=
  match v2RegistryFind localDevRegistry dir.1 dir.2.1 with
  | none => false
  | some regEntry =>
    match versionParseSafe dir.2.2 with
    | none => false
    | some parsedV => regEntry.versions.any fun v => v.version = parsedV

/-- The versions `list_local_dev_tracking` shows: those of the registry, and the directories that
are in no entry of it. A registry that cannot be loaded is empty. -/
def shownVersions (localDevRegistry : V2Registry) (dirs : List LocalDevKey) : List LocalDevKey :=
  (localDevRegistry.entries.flatMap fun entry =>
    entry.versions.map fun ver =>
      (entry.author, entry.name, versionFormat ver.major ver.minor ver.patch)) ++
    dirs.filter fun dir => !alreadyShown localDevRegistry dir

/-- The connections that `list_local_dev_tracking` collects. -/
def trackedConnections (localDevRegistry : V2Registry) (dirs : List LocalDevKey)
    (tracking : Tracking) : List LocalDevConnection :=
  (shownVersions localDevRegistry dirs).flatMap fun dir =>
    (listTrackingForPackage tracking dir).map (⟨dir.1, dir.2.1, dir.2.2, ·⟩)

/-- The tracking after `list_local_dev_tracking`. -/
def listLocalDevTracking (fs : FileSystem) (elmJsonRead : Path → Option ElmJson)
    (localDevRegistry : V2Registry) (dirs : List LocalDevKey) (tracking : Tracking)
    (view : StaleView (pruneFacts elmJsonRead
      (trackedConnections localDevRegistry dirs tracking))) : Tracking :=
  pruneStaleLocalDevConnections fs elmJsonRead (trackedConnections localDevRegistry dirs tracking)
    view tracking

/-! ## What is derived -/

theorem mem_pruneLayer {r : Datalog.Rule PrunePred (List Char)} :
    r ∈ pruneLocalDevDependencies.layer 1 ↔ r = staleConnection := by
  rw [Datalog.Program.mem_layer]
  simp only [pruneLocalDevDependencies, List.mem_singleton]
  exact ⟨And.left, fun same => ⟨same, same ▸ rfl⟩⟩

/-- No rule derives anything in the first stratum. -/
theorem pruneUpTo_zero {facts : List PruneFact} {pred : PrunePred} {tuple : List (List Char)} :
    pruneLocalDevDependencies.upTo (fun pred tuple => (pred, tuple) ∈ facts) 0 pred tuple ↔
      (pred, tuple) ∈ facts := by
  refine Datalog.Derives.of_no_head fun r member => ?_
  obtain ⟨on, stratum⟩ := Datalog.Program.mem_layer.mp member
  rw [List.mem_singleton.mp on] at stratum
  cases stratum

/-- The values of the variables in the rule. -/
def connectionValues (author name version appPath : List Char) : String → List Char
  | "Author" => author
  | "Package" => name
  | "Version" => version
  | _ => appPath

theorem stale_iff {facts : List PruneFact} (given : ∀ tuple, (.staleConnection, tuple) ∉ facts)
    {tuple : List (List Char)} :
    evaluatedPrune facts .staleConnection tuple ↔
      ∃ author name version appPath, tuple = [author, name, version, appPath] ∧
        (.trackedConnection, tuple) ∈ facts ∧
        (.appDependency, [appPath, author, name]) ∉ facts := by
  constructor
  · intro derived
    rcases Datalog.Derives.inversion derived with fact | ⟨r, member, σ, same, rfl, body, negated⟩
    · exact absurd (pruneUpTo_zero.mp fact) (given tuple)
    · rw [mem_pruneLayer] at member
      subst member
      have tracked := body _ List.mem_cons_self
      have settled := (Datalog.Derives.of_no_head (fun r member => by
        rw [mem_pruneLayer] at member
        subst member
        exact nofun)).mp tracked
      refine ⟨σ "Author", σ "Package", σ "Version", σ "AppPath", rfl, pruneUpTo_zero.mp settled, ?_⟩
      exact fun fact => negated _ List.mem_cons_self (pruneUpTo_zero.mpr fact)
  · rintro ⟨author, name, version, appPath, rfl, tracked, missing⟩
    refine @Datalog.Derives.rule _ _ _ _ _ staleConnection
      (connectionValues author name version appPath) (mem_pruneLayer.mpr rfl) ?_ ?_
    · intro a member
      rw [List.mem_singleton.mp member]
      exact .fact (pruneUpTo_zero.mpr tracked)
    · intro a member derived
      rw [List.mem_singleton.mp member] at derived
      exact missing (pruneUpTo_zero.mp derived)

/-! ## What an application depends on -/

/-- One of the maps has the package. -/
def ElmJson.ListsIn (elmJson : ElmJson) (fields : List ElmJsonMap) (author name : String) : Prop :=
  ∃ field ∈ fields, ∃ p ∈ (elmJson.maps field).packages, p.name.author = author ∧
    p.name.project = name

/-- The application can be read, and has the package in none of its four maps. -/
def Unlisted (elmJsonRead : Path → Option ElmJson) (c : LocalDevConnection) : Prop :=
  ∃ elmJson, elmJsonRead c.appPath = some elmJson ∧
    ¬ elmJson.ListsIn ElmProjectType.application.maps c.author c.name

/-- The application can be read and is one, and depends on the package directly. -/
def DependsDirectly (elmJsonRead : Path → Option ElmJson) (c : LocalDevConnection) : Prop :=
  ∃ elmJson, elmJsonRead c.appPath = some elmJson ∧ elmJson.type = .application ∧
    elmJson.ListsIn [.dependenciesDirect, .dependenciesTestDirect] c.author c.name

section Facts

variable {elmJsonRead : Path → Option ElmJson} {connections : List LocalDevConnection}
  {c : LocalDevConnection}

theorem mem_insertAppDependencies {path : Path} :
    (PrunePred.appDependency, [c.appPath, c.author.toList, c.name.toList]) ∈
        insertAppDependenciesForPath elmJsonRead path ↔
      path = c.appPath ∧ DependsDirectly elmJsonRead c := by
  unfold insertAppDependenciesForPath DependsDirectly
  split
  · rename_i missing
    refine ⟨nofun, fun both => ?_⟩
    obtain ⟨rfl, elmJson, read, -⟩ := both
    rw [missing] at read
    cases read
  · rename_i elmJson read
    split
    · rename_i other
      refine ⟨nofun, fun both => ?_⟩
      obtain ⟨rfl, elmJson', read', application, -⟩ := both
      rw [read] at read'
      cases read'
      exact absurd application other
    · rename_i application
      rw [List.mem_flatMap]
      constructor
      · rintro ⟨field, direct, on⟩
        obtain ⟨pkg, there, same⟩ := List.mem_map.mp on
        simp only [Prod.mk.injEq, true_and, List.cons.injEq, and_true] at same
        obtain ⟨rfl, author, name⟩ := same
        exact ⟨rfl, elmJson, read, not_not.mp application, field, direct, pkg, there,
          String.toList_inj.mp author, String.toList_inj.mp name⟩
      · rintro ⟨rfl, elmJson', read', -, field, direct, pkg, there, author, name⟩
        rw [read] at read'
        cases read'
        refine ⟨field, direct, List.mem_map.mpr ⟨pkg, there, ?_⟩⟩
        rw [author, name]

/-- Leaving out an application that was processed before loses no fact. -/
theorem mem_appDependencyFacts {processed : List LocalDevConnection} {fact : PruneFact} :
    fact ∈ appDependencyFacts elmJsonRead processed connections ↔
      ∃ a ∈ connections, hasProcessedAppPath processed a.appPath = false ∧
        fact ∈ insertAppDependenciesForPath elmJsonRead a.appPath := by
  induction connections generalizing processed with
  | nil => exact ⟨nofun, nofun⟩
  | cons a rest ih =>
    have later : ∀ path, hasProcessedAppPath (processed ++ [a]) path = false ↔
        hasProcessedAppPath processed path = false ∧ a.appPath ≠ path := by
      intro path
      simp [hasProcessedAppPath]
    rw [appDependencyFacts, List.mem_append, ih]
    constructor
    · rintro (here | ⟨b, on, fresh, there⟩)
      · split at here
        · cases here
        · rename_i fresh
          exact ⟨a, List.mem_cons_self, Bool.not_eq_true _ ▸ fresh, here⟩
      · exact ⟨b, List.mem_cons_of_mem _ on, ((later _).mp fresh).1, there⟩
    · rintro ⟨b, on, fresh, there⟩
      by_cases same : a.appPath = b.appPath
      · left
        rw [same, if_neg (by rw [fresh]; exact Bool.false_ne_true)]
        exact there
      · rcases List.mem_cons.mp on with rfl | on
        · exact absurd rfl same
        · exact Or.inr ⟨b, on, (later _).mpr ⟨fresh, same⟩, there⟩

/-- The facts about other predicates than that of an inserted fact. -/
theorem pred_of_mem_insert {path : Path} {fact : PruneFact}
    (on : fact ∈ insertAppDependenciesForPath elmJsonRead path) :
    fact.1 = .appDependency := by
  unfold insertAppDependenciesForPath at on
  split at on
  · cases on
  · split at on
    · cases on
    · obtain ⟨field, -, on⟩ := List.mem_flatMap.mp on
      obtain ⟨pkg, -, rfl⟩ := List.mem_map.mp on
      rfl

theorem mem_pruneFacts_other {pred : PrunePred} (other : pred ≠ .appDependency)
    {tuple : List (List Char)} :
    (pred, tuple) ∈ pruneFacts elmJsonRead connections ↔
      ∃ a ∈ connections, (PrunePred.trackedConnection, a.tuple) = (pred, tuple) := by
  unfold pruneFacts
  rw [List.mem_append, List.mem_map]
  refine or_iff_left fun on => ?_
  obtain ⟨a, -, -, there⟩ := mem_appDependencyFacts.mp on
  exact other (pred_of_mem_insert there)

theorem mem_pruneFacts_app (on : c ∈ connections) :
    (PrunePred.appDependency, [c.appPath, c.author.toList, c.name.toList]) ∈
        pruneFacts elmJsonRead connections ↔ DependsDirectly elmJsonRead c := by
  unfold pruneFacts
  rw [List.mem_append, mem_appDependencyFacts]
  constructor
  · rintro (there | ⟨a, -, -, there⟩)
    · obtain ⟨a, -, same⟩ := List.mem_map.mp there
      cases same
    · exact (mem_insertAppDependencies.mp there).2
  · exact fun depends => Or.inr ⟨c, on, rfl, mem_insertAppDependencies.mpr ⟨rfl, depends⟩⟩

/-- What is derived are the connections without a fact that the application depends on the
package. -/
theorem stale_pruneFacts {tuple : List (List Char)} :
    evaluatedPrune (pruneFacts elmJsonRead connections) .staleConnection tuple ↔
      ∃ a ∈ connections, tuple = a.tuple ∧
        (PrunePred.appDependency, [a.appPath, a.author.toList, a.name.toList]) ∉
          pruneFacts elmJsonRead connections := by
  have given : ∀ tuple, (.staleConnection, tuple) ∉ pruneFacts elmJsonRead connections := by
    intro tuple fact
    obtain ⟨a, -, same⟩ := (mem_pruneFacts_other (by decide)).mp fact
    cases same
  rw [stale_iff given]
  constructor
  · rintro ⟨author, name, version, appPath, same, tracked, missing⟩
    obtain ⟨a, on, fact⟩ := (mem_pruneFacts_other (by decide)).mp tracked
    have tuple_ : a.tuple = tuple := (Prod.ext_iff.mp fact).2
    rw [same] at tuple_
    simp only [LocalDevConnection.tuple, List.cons.injEq, and_true] at tuple_
    obtain ⟨rfl, rfl, rfl, rfl⟩ := tuple_
    exact ⟨a, on, same, missing⟩
  · rintro ⟨a, on, rfl, missing⟩
    exact ⟨_, _, _, _, rfl, (mem_pruneFacts_other (by decide)).mpr ⟨a, on, rfl⟩, missing⟩

/-- The tuples of the view are the connections whose application does not depend on the package
directly. -/
theorem mem_view (view : StaleView (pruneFacts elmJsonRead connections))
    {tuple : List (List Char)} :
    tuple ∈ view.tuples ↔
      ∃ a ∈ connections, tuple = a.tuple ∧ ¬ DependsDirectly elmJsonRead a := by
  rw [view.lists, stale_pruneFacts]
  refine exists_congr fun a => and_congr_right fun on => and_congr_right fun _ => ?_
  exact not_congr (mem_pruneFacts_app on)

end Facts

/-! ## What is cleared -/

/-- The file that `clear_path_tracking` removes for a connection, where the name of the package is
one. -/
def LocalDevConnection.Clears (fs : FileSystem) (c : LocalDevConnection) (f : TrackingFile) :
    Prop :=
  (parsePackageName (c.author ++ "/" ++ c.name)).isSome ∧ f.dir = c.dir ∧
    f.name = trackingName (clearedPath fs c.appPath)

theorem parsePackageName_parts {author project : String} {name : PackageName}
    (read : parsePackageName (author ++ "/" ++ project) = some name) :
    name.author = author ∧ name.project = project := by
  have full := congrArg String.toList (full_of_parsePackageName read)
  rw [PackageName.full_toList, String.toList_append, String.toList_append, List.append_assoc]
    at full
  obtain ⟨author_, -, project_⟩ := (List.append_cons_inj_of_notMem (name.author_plain rfl)
    (name.project_plain rfl)).mp full
  exact ⟨String.toList_inj.mp author_, String.toList_inj.mp project_⟩

section Cleared

variable {fs : FileSystem} {tracking : Tracking} {f : TrackingFile}

theorem mem_clearPathTracking {c : LocalDevConnection} :
    f ∈ (clearPathTracking fs tracking (c.author ++ "/" ++ c.name) c.version c.appPath).1.files ↔
      f ∈ tracking.files ∧ ¬ c.Clears fs f := by
  unfold clearPathTracking LocalDevConnection.Clears
  cases read : parsePackageName (c.author ++ "/" ++ c.name) with
  | none => exact ⟨fun on => ⟨on, fun clears => nomatch clears.1⟩, And.left⟩
  | some name =>
    obtain ⟨author, project⟩ := parsePackageName_parts read
    have key : f.key = ((name.author, name.project, c.version),
        hashFilename (hashPathLocal (clearedPath fs c.appPath))) ↔
        f.dir = c.dir ∧ f.name = trackingName (clearedPath fs c.appPath) := by
      rw [author, project]
      exact Prod.ext_iff
    rw [Tracking.mem_unlink, Ne, key, Option.isSome_some, eq_self, true_and]

/-- A file stays where none of the tuples clears it. -/
theorem mem_clearTuples {stale : List LocalDevConnection} :
    f ∈ (clearTuples fs tracking (stale.map LocalDevConnection.tuple)).files ↔
      f ∈ tracking.files ∧ ∀ c ∈ stale, ¬ c.Clears fs f := by
  induction stale generalizing tracking with
  | nil => exact ⟨fun on => ⟨on, nofun⟩, And.left⟩
  | cons c stale ih =>
    have package : String.ofList (c.author.toList ++ '/' :: c.name.toList) =
        c.author ++ "/" ++ c.name := by
      apply String.toList_inj.mp
      simp
    rw [List.map_cons]
    change f ∈ (clearTuples fs (clearPathTracking fs tracking
      (String.ofList (c.author.toList ++ '/' :: c.name.toList)) (String.ofList c.version.toList)
      c.appPath).1 _).files ↔ _
    rw [package, String.ofList_toList, ih, mem_clearPathTracking, List.forall_mem_cons, and_assoc]

end Cleared

theorem LocalDevConnection.tuple_injective :
    Function.Injective LocalDevConnection.tuple := by
  intro a b same
  simp only [tuple, List.cons.injEq, String.toList_inj, and_true] at same
  cases a
  cases b
  obtain ⟨rfl, rfl, rfl, rfl⟩ := same
  rfl

/-- A file stays just where no connection of an application that does not depend on the package
directly clears it. -/
theorem mem_prune {fs : FileSystem} {elmJsonRead : Path → Option ElmJson}
    {connections : List LocalDevConnection} {tracking : Tracking}
    (view : StaleView (pruneFacts elmJsonRead connections)) {f : TrackingFile} :
    f ∈ (pruneStaleLocalDevConnections fs elmJsonRead connections view tracking).files ↔
      f ∈ tracking.files ∧
        ∀ c ∈ connections, ¬ DependsDirectly elmJsonRead c → ¬ c.Clears fs f := by
  have each : view.tuples ∈ Set.range (List.map LocalDevConnection.tuple) := by
    rw [Set.range_list_map]
    intro tuple on
    obtain ⟨a, -, rfl, -⟩ := (mem_view view).mp on
    exact ⟨a, rfl⟩
  obtain ⟨stale, tuples⟩ := each
  have on : ∀ c, c ∈ stale ↔ c ∈ connections ∧ ¬ DependsDirectly elmJsonRead c := by
    intro c
    rw [← List.mem_map_of_injective LocalDevConnection.tuple_injective, tuples, mem_view view]
    constructor
    · rintro ⟨a, on, same, independent⟩
      cases LocalDevConnection.tuple_injective same
      exact ⟨on, independent⟩
    · exact fun both => ⟨c, both.1, rfl, both.2⟩
  unfold pruneStaleLocalDevConnections
  rw [← tuples, mem_clearTuples]
  refine and_congr_right fun _ => ?_
  constructor
  · exact fun stays c there independent => stays c ((on c).mpr ⟨there, independent⟩)
  · exact fun stays c there => stays c ((on c).mp there).1 ((on c).mp there).2

/-! ## What is kept -/

/-- The connection is what the file says. -/
def LocalDevConnection.ReadFrom (c : LocalDevConnection) (f : TrackingFile) : Prop :=
  f.dir = c.dir ∧ listedApp f = some c.appPath

/-- Listing removes the connections of applications only that can be read and have the package in
no map. -/
def PrunesUnlisted (fs : FileSystem) (elmJsonRead : Path → Option ElmJson)
    (localDevRegistry : V2Registry) (dirs : List LocalDevKey) (tracking : Tracking)
    (view : StaleView (pruneFacts elmJsonRead
      (trackedConnections localDevRegistry dirs tracking))) : Prop :=
  ∀ c ∈ trackedConnections localDevRegistry dirs tracking, ∀ f ∈ tracking.files, c.ReadFrom f →
    f ∉ (listLocalDevTracking fs elmJsonRead localDevRegistry dirs tracking view).files →
    Unlisted elmJsonRead c

/-- This is so just if each file that is cleared for an application that does not depend on the
package directly belongs to one that can be read and has it in no map. -/
theorem prunesUnlisted_iff (fs : FileSystem) (elmJsonRead : Path → Option ElmJson)
    (localDevRegistry : V2Registry) (dirs : List LocalDevKey) (tracking : Tracking)
    (view : StaleView (pruneFacts elmJsonRead
      (trackedConnections localDevRegistry dirs tracking))) :
    PrunesUnlisted fs elmJsonRead localDevRegistry dirs tracking view ↔
      ∀ c ∈ trackedConnections localDevRegistry dirs tracking, ∀ f ∈ tracking.files,
        c.ReadFrom f →
        ∀ other ∈ trackedConnections localDevRegistry dirs tracking, other.Clears fs f →
          ¬ DependsDirectly elmJsonRead other → Unlisted elmJsonRead c := by
  have removed : ∀ f ∈ tracking.files,
      f ∉ (listLocalDevTracking fs elmJsonRead localDevRegistry dirs tracking view).files ↔
        ∃ other ∈ trackedConnections localDevRegistry dirs tracking, other.Clears fs f ∧
          ¬ DependsDirectly elmJsonRead other := by
    intro f present
    unfold listLocalDevTracking
    rw [mem_prune view]
    constructor
    · intro gone
      by_contra none_
      exact gone ⟨present, fun other on independent clears =>
        none_ ⟨other, on, clears, independent⟩⟩
    · rintro ⟨other, on, clears, independent⟩ stays
      exact stays.2 other on independent clears
  constructor
  · intro keeps c on f present read other there clears independent
    exact keeps c on f present read ((removed f present).mpr ⟨other, there, clears, independent⟩)
  · intro each c on f present read gone
    obtain ⟨other, there, clears, independent⟩ := (removed f present).mp gone
    exact each c on f present read other there clears independent

/-- The view, computed. -/
def computedView (elmJsonRead : Path → Option ElmJson) (connections : List LocalDevConnection) :
    StaleView (pruneFacts elmJsonRead connections) where
  tuples := (connections.filter fun c =>
    (PrunePred.appDependency, [c.appPath, c.author.toList, c.name.toList]) ∉
      pruneFacts elmJsonRead connections).map LocalDevConnection.tuple
  lists := by
    intro tuple
    rw [stale_pruneFacts, List.mem_map]
    refine exists_congr fun c => ?_
    rw [List.mem_filter, and_assoc, decide_eq_true_iff]
    exact and_congr_right fun _ => and_comm.trans (and_congr_left fun _ => eq_comm)

/-- An application that has `elm/json` among its indirect dependencies. -/
def indirectApplication : ElmJson where
  type := .application
  maps
    | .dependenciesIndirect => ⟨[⟨trackedPackage, "1.0.0"⟩], List.nodup_singleton _⟩
    | _ => packageMapCreate

/-- The tracking with one application. -/
def oneTracked : Tracking := (trackingRun plainFileSystem [registerIn "/w/a"]).tracking

/-- The only connection is removed, of an application that depends on the package indirectly as of
one that cannot be read. -/
theorem prunesUnlisted_fails :
    ¬ PrunesUnlisted plainFileSystem (fun _ => some indirectApplication) ⟨[]⟩
        [trackingDir trackedPackage "1.0.0"] oneTracked (computedView _ _) ∧
      ¬ PrunesUnlisted plainFileSystem (fun _ => none) ⟨[]⟩
        [trackingDir trackedPackage "1.0.0"] oneTracked (computedView _ _) := by
  have tracked : ⟨"elm", "json", "1.0.0", "/w/a/elm.json".toList⟩ ∈
      trackedConnections ⟨[]⟩ [trackingDir trackedPackage "1.0.0"] oneTracked := by decide
  have file : appFile (trackingDir trackedPackage "1.0.0") "/w/a/elm.json".toList ∈
      oneTracked.files := by decide
  have read : LocalDevConnection.ReadFrom ⟨"elm", "json", "1.0.0", "/w/a/elm.json".toList⟩
      (appFile (trackingDir trackedPackage "1.0.0") "/w/a/elm.json".toList) := ⟨rfl, by decide⟩
  constructor
  · intro prunes
    obtain ⟨elmJson, found, unlisted⟩ := prunes _ tracked _ file read (by decide)
    cases found
    exact unlisted ⟨.dependenciesIndirect, by decide, ⟨trackedPackage, "1.0.0"⟩,
      List.mem_singleton_self _, rfl, rfl⟩
  · intro prunes
    obtain ⟨elmJson, found, -⟩ := prunes _ tracked _ file read (by decide)
    cases found

end ElmWrap
