import Mathlib.Data.List.Induction
import ElmWrap.Lib.Keyed
import ElmWrap.LocalDev.TextAgreement

/-!
# Registrations and unregistrations

The file against what is registered, over any sequence of operations.
-/

namespace ElmWrap

open Lib

/-- What `v2_registry_parse` makes of the file; there are no versions where there is no file. -/
def LocalDevState.parsed (state : LocalDevState) : Option V2Registry :=
  match state.text with
  | none => some v2RegistryCreate
  | some text => v2RegistryParse text

/-- The key of a version of a package. -/
def localDevKey (package : String × String) (v : Version) : LocalDevKey :=
  (package.1, package.2, versionToString v)

/-- A dependency as the reader has it. -/
def Package.toV2 (dep : Package) : V2Dependency := ⟨dep.name.full, dep.version⟩

/-- What is registered is what is read, and what is read is what the writer finds. -/
structure LocalDevState.Agrees (state : LocalDevState) (registry : V2Registry) : Prop where
  parsed : state.parsed = some registry
  /-- A version is listed once, with the dependencies it is registered with, or not at all. -/
  listed : ∀ package v,
    (((registry.stored package).getD []).filter (·.version = v)).map (·.dependencies) =
      ((state.registered (localDevKey package v)).map (·.map Package.toV2)).toList
  /-- Nothing else is registered. -/
  versions : ∀ key, state.registered key ≠ none → ∃ v, key.2.2 = versionToString v
  present : ∀ (name : PackageName) (v : Version),
    textRegistryHasVersion (state.text.getD []) name.author name.project (versionToString v) =
        true ↔
      ∃ pv ∈ (registry.stored name.key).getD [], pv.version = v

/-- The key of an entry. -/
def LocalDevEntry.key (entry : LocalDevEntry) : LocalDevKey :=
  localDevKey entry.name.key entry.version

/-! ## What an operation has to meet -/

/-- A registration of an entry that keeps the file right. -/
def LocalDevState.Registers (state : LocalDevState) (run : TextRegistryRun)
    (entry : LocalDevEntry) : Prop :=
  match state.registered entry.key with
  | some before =>
    -- where the version is found it stays as it is, and else it would be listed twice
    if (readTextRegistry state.text).isSome then entry.deps = before else run.opens = false
  | none =>
    run.opens = true →
      entry.Fits ∧
        (state.text = none → CompilerFits (compilerLine run.compilerName run.compilerVersion))

/-- An operation that keeps the file right. -/
def LocalDevOperation.Fits (state : LocalDevState) : LocalDevOperation → Prop
  | .register run key =>
    run.tracks = true ∧ ∀ deps, run.packageDependencies = some deps →
      ∃ entry : LocalDevEntry, entry.key = key ∧ entry.deps = deps ∧ state.Registers run entry
  | .unregister removes key => removes = true → state.registered key = none

/-! ## What has been written -/

/-- The file has been written entry by entry, and the entries are what is registered. -/
structure LocalDevState.Written (state : LocalDevState) (entries : List LocalDevEntry) : Prop where
  text : (state.text = none ∧ entries = []) ∨
    ∃ compiler, CompilerFits compiler ∧ state.text = some (unlines (fileLines compiler entries))
  fits : ∀ entry ∈ entries, entry.Fits
  distinct : Keyed.Distinct LocalDevEntry.key entries
  registered : ∀ key, state.registered key =
    (Keyed.lookup LocalDevEntry.key key entries).map LocalDevEntry.deps

theorem LocalDevEntry.key_eq_iff (entry : LocalDevEntry) (package : String × String)
    (v : Version) :
    entry.key = localDevKey package v ↔ entry.name.key = package ∧ entry.version = v := by
  unfold LocalDevEntry.key localDevKey
  constructor
  · intro same
    obtain ⟨author, rest⟩ := Prod.mk.inj same
    obtain ⟨project, version⟩ := Prod.mk.inj rest
    exact ⟨Prod.ext author project, versionToString_injective version⟩
  · intro ⟨package, version⟩
    rw [package, version]

theorem fileLines_append (compiler : Line) (entries : List LocalDevEntry) (entry : LocalDevEntry) :
    unlines (fileLines compiler (entries ++ [entry])) =
      unlines (fileLines compiler entries) ++ unlines entry.lines := by
  unfold fileLines unlines
  rw [List.flatMap_append, List.flatMap_append, List.flatMap_append, List.flatMap_append,
    List.flatMap_singleton, List.append_assoc]

theorem textRegistryHasVersion_nil (author name version : String) :
    textRegistryHasVersion [] author name version = false := by
  unfold textRegistryHasVersion
  split
  · rfl
  · rfl

namespace LocalDevState.Written

variable {state : LocalDevState} {entries : List LocalDevEntry}

/-- The writer finds the entries. -/
theorem present (written : state.Written entries) (name : PackageName) (v : Version) :
    textRegistryHasVersion (state.text.getD []) name.author name.project (versionToString v) =
        true ↔
      ∃ entry ∈ entries, entry.name = name ∧ entry.version = v := by
  rcases written.text with ⟨text, empty⟩ | ⟨compiler, compilerFits, text⟩
  · rw [text, empty, Option.getD_none, textRegistryHasVersion_nil]
    simp
  · rw [text, Option.getD_some]
    exact textRegistryHasVersion_iff compilerFits.plain written.fits name v

/-- The reader reads the entries. -/
theorem read (written : state.Written entries) :
    ∃ registry, state.parsed = some registry ∧
      ∀ key, (registry.stored key).getD [] =
        (entries.filter (·.name.key = key)).map LocalDevEntry.read := by
  unfold LocalDevState.parsed
  rcases written.text with ⟨text, empty⟩ | ⟨compiler, compilerFits, text⟩
  · rw [text, empty]
    exact ⟨v2RegistryCreate, rfl, fun key => rfl⟩
  · rw [text]
    exact v2RegistryParse_file compilerFits written.fits

theorem agrees (written : state.Written entries) : ∃ registry, state.Agrees registry := by
  obtain ⟨registry, parsed, stored⟩ := written.read
  refine ⟨registry, parsed, ?_, ?_, ?_⟩
  · intro package v
    have own : (entries.filter (·.name.key = package)).filter (·.version = v) =
        entries.filter (·.key = localDevKey package v) := by
      rw [List.filter_filter]
      apply List.filter_congr
      intro entry _
      rw [← Bool.decide_and, decide_eq_decide, entry.key_eq_iff, and_comm]
    rw [stored, written.registered, List.filter_map, List.map_map, Option.map_map,
      Option.toList_map, Keyed.lookup_toList written.distinct, ← own]
    rfl
  · intro key registered
    rw [written.registered] at registered
    cases found : Keyed.lookup LocalDevEntry.key key entries with
    | none =>
      rw [found] at registered
      exact absurd rfl registered
    | some entry =>
      obtain ⟨-, same⟩ := Keyed.lookup_some found
      exact ⟨entry.version, same ▸ rfl⟩
  · intro name v
    rw [written.present, stored]
    constructor
    · intro ⟨entry, on, same, version⟩
      refine ⟨entry.read, List.mem_map_of_mem (List.mem_filter.mpr ⟨on, ?_⟩), version⟩
      rw [same, decide_eq_true_eq]
    · intro ⟨pv, member, version⟩
      obtain ⟨entry, on, rfl⟩ := List.mem_map.mp member
      obtain ⟨on, same⟩ := List.mem_filter.mp on
      exact ⟨entry, on, PackageName.key_injective (of_decide_eq_true same), version⟩

/-- An operation that changes neither the file nor what is registered. -/
theorem same_registered (written : state.Written entries)
    {registered : LocalDevKey → Option (List Package)}
    (same : registered = state.registered) :
    LocalDevState.Written { state with registered } entries := by
  rw [same]
  exact written

/-- A new entry at the end of the file. -/
theorem append (written : state.Written entries) {run : TextRegistryRun} {entry : LocalDevEntry}
    (new : state.registered entry.key = none) (fits : entry.Fits)
    (compilerFits : state.text = none →
      CompilerFits (compilerLine run.compilerName run.compilerVersion)) :
    let content := state.text.getD []
    let content :=
      if content.isEmpty then headerText run.compilerName run.compilerVersion else content
    LocalDevState.Written
      { text := some (content ++ unlines entry.lines)
        registered := Function.update state.registered entry.key (some entry.deps) }
      (entries ++ [entry]) := by
  intro content content'
  have before : ∃ compiler, CompilerFits compiler ∧
      content' = unlines (fileLines compiler entries) := by
    rcases written.text with ⟨text, empty⟩ | ⟨compiler, compilerFits, text⟩
    · refine ⟨_, compilerFits text, ?_⟩
      have none_ : content = [] := by
        unfold content
        rw [text]
        rfl
      unfold content'
      rw [none_, empty]
      exact headerText_eq run.compilerName run.compilerVersion
    · refine ⟨compiler, compilerFits, ?_⟩
      have same : content = unlines (fileLines compiler entries) := by
        unfold content
        rw [text]
        rfl
      have full : unlines (fileLines compiler entries) ≠ [] := by
        rw [fileLines_text, unlines_cons]
        exact List.append_ne_nil_of_right_ne_nil _ (List.cons_ne_nil _ _)
      unfold content'
      rw [same, if_neg (by simpa using full)]
  obtain ⟨compiler, compilerFits, text⟩ := before
  have missing : Keyed.lookup LocalDevEntry.key entry.key entries = none := by
    rw [written.registered, Option.map_eq_none_iff] at new
    exact new
  refine ⟨.inr ⟨compiler, compilerFits, ?_⟩, ?_, ?_, ?_⟩
  · rw [text, fileLines_append]
  · intro other member
    rcases List.mem_append.mp member with on | last
    · exact written.fits other on
    · rw [List.mem_singleton.mp last]
      exact fits
  · exact written.distinct.append_new missing
  · intro key
    dsimp only
    rw [Function.update_apply, Keyed.lookup_append, Keyed.lookup_cons, Keyed.lookup_nil]
    by_cases same : key = entry.key
    · rw [if_pos same, same, missing, if_pos rfl]
      rfl
    · rw [if_neg same, if_neg (Ne.symm same), Option.or_none]
      exact written.registered key

/-! ## One operation -/

/-- The writer's look at the file, where the file is not too long. -/
theorem found (written : state.Written entries) (entry : LocalDevEntry) :
    ((readTextRegistry state.text).any fun content =>
      textRegistryHasVersion content entry.name.author entry.name.project
        (versionToString entry.version)) =
      ((readTextRegistry state.text).isSome && (state.registered entry.key).isSome) := by
  have listed : (state.registered entry.key).isSome = true ↔
      ∃ other ∈ entries, other.name = entry.name ∧ other.version = entry.version := by
    rw [written.registered, Option.isSome_map, Option.isSome_iff_exists]
    constructor
    · intro ⟨other, found⟩
      obtain ⟨on, same⟩ := Keyed.lookup_some found
      obtain ⟨name, version⟩ := (other.key_eq_iff entry.name.key entry.version).mp same
      exact ⟨other, on, PackageName.key_injective name, version⟩
    · intro ⟨other, on, name, version⟩
      have same : other.key = entry.key :=
        (other.key_eq_iff entry.name.key entry.version).mpr ⟨congrArg PackageName.key name, version⟩
      exact ⟨other, same ▸ Keyed.lookup_mem written.distinct on⟩
  have present := written.present entry.name entry.version
  rw [← listed] at present
  cases read : readTextRegistry state.text with
  | none => rfl
  | some content =>
    obtain ⟨text, -⟩ := Option.filter_eq_some_iff.mp read
    rw [text, Option.getD_some] at present
    rw [Option.any_some, Option.isSome_some, Bool.true_and]
    exact Bool.eq_iff_iff.mpr present

theorem registers (written : state.Written entries) {run : TextRegistryRun} {entry : LocalDevEntry}
    (tracks : run.tracks = true) (deps : run.packageDependencies = some entry.deps) :
    registerLocalDevV2TextRegistry run state.text entry.name.author entry.name.project
        (versionToString entry.version) =
      if (readTextRegistry state.text).isSome && (state.registered entry.key).isSome then
        (state.text, true)
      else if !run.opens then (state.text, false)
      else
        let content := state.text.getD []
        let content :=
          if content.isEmpty then headerText run.compilerName run.compilerVersion else content
        (some (content ++ unlines entry.lines), true) := by
  unfold registerLocalDevV2TextRegistry
  rw [if_neg (by simp [tracks]), deps]
  dsimp only
  rw [blockText_eq]
  simp only [written.found entry]

theorem step_register (state : LocalDevState) (run : TextRegistryRun) (entry : LocalDevEntry) :
    state.step (.register run entry.key) =
      let (text, registers) := registerLocalDevV2TextRegistry run state.text entry.name.author
        entry.name.project (versionToString entry.version)
      { text
        registered :=
          if registers then
            Function.update state.registered entry.key (some (run.packageDependencies.getD []))
          else state.registered } := rfl

theorem register (written : state.Written entries) {run : TextRegistryRun} {entry : LocalDevEntry}
    (tracks : run.tracks = true) (deps : run.packageDependencies = some entry.deps)
    (fits : state.Registers run entry) :
    ∃ entries', (state.step (.register run entry.key)).Written entries' := by
  rw [step_register, written.registers tracks deps, deps]
  unfold LocalDevState.Registers at fits
  cases before : state.registered entry.key with
  | some deps' =>
    rw [before] at fits
    dsimp only at fits
    refine ⟨entries, ?_⟩
    split at fits
    · rename_i readable
      rw [readable]
      apply written.same_registered
      exact Function.update_eq_iff.mpr ⟨by rw [before, ← fits]; rfl, fun _ _ => rfl⟩
    · rename_i tooLong
      rw [Bool.eq_false_iff.mpr tooLong, fits]
      exact written
  | none =>
    rw [before] at fits
    dsimp only at fits
    rw [Option.isSome_none, Bool.and_false]
    cases opens : run.opens with
    | false => exact ⟨entries, written⟩
    | true =>
      obtain ⟨entryFits, compilerFits⟩ := fits opens
      exact ⟨entries ++ [entry], written.append before entryFits compilerFits⟩

theorem step (written : state.Written entries) {operation : LocalDevOperation}
    (fits : operation.Fits state) : ∃ entries', (state.step operation).Written entries' := by
  cases operation with
  | register run key =>
    obtain ⟨tracks, fits⟩ := fits
    cases deps : run.packageDependencies with
    | none =>
      refine ⟨entries, ?_⟩
      unfold LocalDevState.step registerLocalDevV2TextRegistry
      dsimp only
      rw [tracks, deps]
      exact written
    | some deps' =>
      obtain ⟨entry, rfl, rfl, registers⟩ := fits deps' deps
      exact written.register tracks deps registers
  | unregister removes key =>
    refine ⟨entries, ?_⟩
    unfold LocalDevState.step
    dsimp only
    cases removes with
    | false => exact written
    | true =>
      have same : Function.update state.registered key none = state.registered :=
        Function.update_eq_iff.mpr ⟨(fits rfl).symm, fun _ _ => rfl⟩
      exact written.same_registered same

theorem start : LocalDevState.start.Written [] where
  text := .inl ⟨rfl, rfl⟩
  fits := fun _ member => absurd member List.not_mem_nil
  distinct := List.nodup_nil
  registered := fun _ => rfl

end LocalDevState.Written

/-! ## Every run -/

theorem runLocalDev_written {operations : List LocalDevOperation}
    (fits : ∀ done operation rest, operations = done ++ operation :: rest →
      operation.Fits (runLocalDev done)) :
    ∃ entries, (runLocalDev operations).Written entries := by
  induction operations using List.reverseRecOn with
  | nil => exact ⟨[], .start⟩
  | append_singleton done operation ih =>
    obtain ⟨entries, written⟩ := ih fun earlier op rest split =>
      fits earlier op (rest ++ [operation]) (by rw [split, List.append_assoc]; rfl)
    have last := fits done operation [] rfl
    have run : runLocalDev (done ++ [operation]) = (runLocalDev done).step operation := by
      unfold runLocalDev
      rw [List.foldl_append]
      rfl
    rw [run]
    exact written.step last

/-- What is registered is what is read, as long as every registration of a version is its first, or
changes nothing, and nothing registered is unregistered. -/
theorem runLocalDev_agrees (operations : List LocalDevOperation)
    (fits : ∀ done operation rest, operations = done ++ operation :: rest →
      operation.Fits (runLocalDev done)) :
    ∃ registry, (runLocalDev operations).Agrees registry := by
  obtain ⟨entries, written⟩ := runLocalDev_written fits
  exact written.agrees

/-! ## What the other operations do -/

theorem Package.toV2_injective : Function.Injective Package.toV2 := by
  intro dep other same
  obtain ⟨name, version⟩ := V2Dependency.mk.inj same
  have names := PackageName.full_injective name
  cases dep
  cases other
  dsimp only at names version
  rw [names, version]

/-- What the writer finds is registered. -/
theorem LocalDevState.Agrees.registered_of_found {state : LocalDevState} {registry : V2Registry}
    (agrees : state.Agrees registry) {name : PackageName} {v : Version}
    (found : textRegistryHasVersion (state.text.getD []) name.author name.project
      (versionToString v) = true) : state.registered (localDevKey name.key v) ≠ none := by
  intro gone
  obtain ⟨pv, member, version⟩ := (agrees.present name v).mp found
  have listed := agrees.listed name.key v
  rw [gone, Option.map_none, Option.toList_none, List.map_eq_nil_iff,
    List.filter_eq_nil_iff] at listed
  exact listed pv member (decide_eq_true version)

namespace LocalDevState.Written

variable {state : LocalDevState} {entries : List LocalDevEntry}

/-- A version that is unregistered stays in the file. -/
theorem unregister_disagrees (written : state.Written entries) {key : LocalDevKey}
    (registered : state.registered key ≠ none) (registry : V2Registry) :
    ¬ (state.step (.unregister true key)).Agrees registry := by
  intro agrees
  rw [written.registered, ne_eq, Option.map_eq_none_iff] at registered
  obtain ⟨entry, found⟩ := Option.ne_none_iff_exists'.mp registered
  obtain ⟨on, same⟩ := Keyed.lookup_some found
  have present := (written.present entry.name entry.version).mpr ⟨entry, on, rfl, rfl⟩
  have kept : (state.step (.unregister true key)).text = state.text := rfl
  rw [← kept] at present
  apply agrees.registered_of_found present
  have own : localDevKey entry.name.key entry.version = key := same
  rw [own]
  exact Function.update_self key none state.registered

/-- A version that is registered again keeps the dependencies of its first registration. -/
theorem reregister_disagrees (written : state.Written entries) {run : TextRegistryRun}
    {entry : LocalDevEntry} (tracks : run.tracks = true)
    (deps : run.packageDependencies = some entry.deps)
    (readable : (readTextRegistry state.text).isSome = true) {before : List Package}
    (registered : state.registered entry.key = some before) (changed : entry.deps ≠ before)
    (registry : V2Registry) : ¬ (state.step (.register run entry.key)).Agrees registry := by
  intro agrees
  have step : state.step (.register run entry.key) =
      { state with
        registered := Function.update state.registered entry.key (some entry.deps) } := by
    rw [step_register, written.registers tracks deps, readable, registered, deps]
    rfl
  obtain ⟨earlier, agreed⟩ := written.agrees
  have parsed := agrees.parsed
  rw [step] at parsed agrees
  have same : earlier = registry := Option.some_inj.mp (agreed.parsed.symm.trans parsed)
  have was := agreed.listed entry.name.key entry.version
  have is := agrees.listed entry.name.key entry.version
  have own : localDevKey entry.name.key entry.version = entry.key := rfl
  dsimp only at is
  rw [own, same, registered] at was
  rw [own, Function.update_self, was] at is
  have mapped : before.map Package.toV2 = entry.deps.map Package.toV2 := by simpa using is
  exact changed (List.map_injective_iff.mpr Package.toV2_injective mapped).symm

end LocalDevState.Written

/-- A constraint without a colon does not end like a version line. -/
theorem ConstraintFits.of_colon {constraint : String} (plain : Plain constraint.toList)
    (starts : ∀ c ∈ constraint.toList.head?, Lib.Scan.isSpace c = false)
    (colon : ':' ∉ constraint.toList) : ConstraintFits constraint where
  plain := plain
  starts := starts
  ends v ends := by
    rw [verPattern_eq] at ends
    exact colon (ends.subset (by simp))

/-- `elm/parser`, which depends on `elm/core`. -/
def parserEntry : LocalDevEntry where
  name := ⟨"elm", "parser", elm_validAuthor, by decide, by decide⟩
  version := ⟨1, 1, 0⟩
  deps := [⟨elmCorePackage, "1.0.0 <= v < 2.0.0"⟩]

/-- A registration that succeeds. -/
def parserRun : TextRegistryRun where
  tracks := true
  packageDependencies := some parserEntry.deps
  opens := true
  compilerName := "elm"
  compilerVersion := "0.19.1"

/-- `elm/json`, with the same dependency. -/
def jsonEntry : LocalDevEntry := ⟨elmJsonPackage, ⟨1, 2, 0⟩, parserEntry.deps⟩

/-- Two packages are registered, and the first one again. -/
theorem runLocalDev_agrees_again :
    ∃ registry, (runLocalDev [.register parserRun parserEntry.key,
      .register parserRun jsonEntry.key, .register parserRun parserEntry.key]).Agrees registry := by
  have constraint : ConstraintFits "1.0.0 <= v < 2.0.0" := by
    refine .of_colon ?_ ?_ ?_
    · decide
    · intro c first
      cases first
      rfl
    · decide
  have fits : ∀ entry ∈ [parserEntry, jsonEntry], entry.Fits := by
    intro entry member
    have deps : entry.deps = parserEntry.deps := by
      rcases List.mem_pair.mp member with rfl | rfl <;> rfl
    refine ⟨?_, fun dep on => ?_⟩
    · rcases List.mem_pair.mp member with rfl | rfl <;> decide
    · rw [deps] at on
      rw [List.mem_singleton.mp on]
      exact constraint
  have compilerFits : CompilerFits (compilerLine "elm" "0.19.1") := by
    refine ⟨?_, by decide, by decide, by decide⟩
    decide
  have new {state : LocalDevState} {entry : LocalDevEntry}
      (member : entry ∈ [parserEntry, jsonEntry]) (unknown : state.registered entry.key = none) :
      (LocalDevOperation.register parserRun entry.key).Fits state := by
    refine ⟨rfl, ?_⟩
    intro deps read
    cases read
    refine ⟨entry, rfl, ?_, ?_⟩
    · rcases List.mem_pair.mp member with rfl | rfl <;> rfl
    · unfold LocalDevState.Registers
      rw [unknown]
      exact fun _ => ⟨fits entry member, fun _ => compilerFits⟩
  have again {state : LocalDevState}
      (known : state.registered parserEntry.key = some parserEntry.deps)
      (read : (readTextRegistry state.text).isSome = true) :
      (LocalDevOperation.register parserRun parserEntry.key).Fits state := by
    refine ⟨rfl, ?_⟩
    intro deps same
    cases same
    refine ⟨parserEntry, rfl, rfl, ?_⟩
    unfold LocalDevState.Registers
    rw [known]
    dsimp only
    rw [if_pos read]
  apply runLocalDev_agrees
  intro done operation rest split
  match done with
  | [] =>
    cases split
    exact new (List.mem_cons_self ..) rfl
  | [_] =>
    cases split
    exact new (List.mem_cons_of_mem _ List.mem_cons_self) (by decide)
  | [_, _] =>
    cases split
    exact again (by decide +kernel) (by decide +kernel)
  | _ :: _ :: _ :: done =>
    have lengths := congrArg List.length split
    simp at lengths

/-- An unregistered version is still listed. -/
theorem runLocalDev_agrees_fails :
    ¬ ∀ operations : List LocalDevOperation,
      ∃ registry, (runLocalDev operations).Agrees registry := by
  intro all
  obtain ⟨registry, agrees⟩ :=
    all [.register parserRun parserEntry.key, .unregister true parserEntry.key]
  have found : textRegistryHasVersion ((runLocalDev [.register parserRun parserEntry.key,
      .unregister true parserEntry.key]).text.getD []) parserEntry.name.author
      parserEntry.name.project (versionToString parserEntry.version) = true := by
    decide
  apply agrees.registered_of_found found
  decide

end ElmWrap
