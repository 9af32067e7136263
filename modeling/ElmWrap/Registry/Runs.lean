import ElmWrap.Registry.Dat
import Mathlib.Data.List.Induction

/-!
# Runs of registry operations

Everything the program does to a registry, one call after the other, from the
empty registry on: the calls of `registry.c`, the merge of another file, and the
two readers of `install_env.c`. One step keeps the representation invariant; an
entry without versions can only come from a call that opens one.
-/

namespace ElmWrap

open Lib Lib.Binary

/-! ## `registry_merge_dat` -/

/-- The loop beyond the versions of an entry of the other registry. -/
def mergeVersions (author name : String) : List Version → Registry → Registry × Bool
  | [], registry => (registry, true)
  | version :: rest, registry =>
    match registryAddVersionEx registry author name version false with
    | ⟨registry, true, _⟩ => mergeVersions author name rest registry
    | ⟨registry, false, _⟩ => (registry, false)

/-- The loop beyond its entries. -/
def mergeEntries : List RegistryEntry → Registry → Registry × Bool
  | [], registry => (registry, true)
  | entry :: rest, registry =>
    match mergeVersions entry.author entry.name entry.versions registry with
    | (registry, true) => mergeEntries rest registry
    | (registry, false) => (registry, false)

/-- `registry_merge_dat`, also `registry_merge_local_dev`; `none` stands for a file
that cannot be opened. -/
def registryMergeDat (registry : Registry) (file : Option Bytes) : Registry × Bool :=
  match file.bind registryLoadFromDat with
  | none => (registry, true)
  | some other =>
    match mergeEntries other.entries registry with
    | (registry, true) => (registrySortEntries registry, true)
    | (registry, false) => (registry, false)

/-! ## Operations and runs -/

/-- A call that changes a registry. -/
inductive RegistryOperation
  | addEntry (author name : String)
  | addVersion (author name : String) (version : Version) (countForSince : Bool)
  | removeVersion (author name : String) (version : Version) (decrementSinceCount : Bool)
  | merge (file : Option Bytes)
  | parseAllPackages (json : Option Json)
  | parseSince (json : Option Json)

/-- The registry a call leaves behind, and what it returns. -/
def RegistryOperation.run (registry : Registry) : RegistryOperation → Registry × Bool
  | .addEntry author name => (registryAddEntry registry author name, true)
  | .addVersion author name version countForSince =>
    let result := registryAddVersionEx registry author name version countForSince
    (result.registry, result.ok)
  | .removeVersion author name version decrementSinceCount =>
    let result := registryRemoveVersionEx registry author name version decrementSinceCount
    (result.registry, result.ok)
  | .merge file => registryMergeDat registry file
  | .parseAllPackages json => parseAllPackagesJson json registry
  | .parseSince json => parseSinceResponse json registry

/-- The registry after a list of calls. -/
def runRegistry (operations : List RegistryOperation) : Registry :=
  operations.foldl (fun registry operation => (operation.run registry).1) registryCreate

/-- A call that makes an entry for a package and gives it no version:
`registry_add_entry`, and an all-packages document with an array without strings. -/
def RegistryOperation.Opens (author name : String) : RegistryOperation → Prop
  | .addEntry author' name' => author' = author ∧ name' = name
  | .parseAllPackages (some json) => ∃ package ∈ json.children, ElmWrap.Opens package author name
  | _ => False

theorem runRegistry_append (operations : List RegistryOperation) (operation : RegistryOperation) :
    runRegistry (operations ++ [operation]) = (operation.run (runRegistry operations)).1 := by
  unfold runRegistry
  rw [List.foldl_append]
  rfl

/-! ## One step -/

namespace Registry

variable {registry : Registry}

/-- What a merge does: each version of the other registry is added. -/
theorem mergeEntries_induction {P : Registry → Prop}
    (step : ∀ registry author name version, P registry →
      P (registryAddVersionEx registry author name version false).registry)
    (entries : List RegistryEntry) (holds : P registry) :
    P (mergeEntries entries registry).1 ∧ (mergeEntries entries registry).2 = true := by
  have versions : ∀ author name (versions : List Version) registry, P registry →
      ∃ registry', P registry' ∧ mergeVersions author name versions registry =
        (registry', true) := by
    intro author name versions
    induction versions with
    | nil => exact fun registry holds => ⟨registry, holds, rfl⟩
    | cons version rest ih =>
      intro registry holds
      obtain ⟨changed, added⟩ := registryAddVersionEx_uncounted_eq registry author name version
      unfold mergeVersions
      rw [added]
      exact ih _ (step _ _ _ _ holds)
  induction entries generalizing registry with
  | nil => exact ⟨holds, rfl⟩
  | cons entry rest ih =>
    obtain ⟨registry', kept, merged⟩ := versions entry.author entry.name entry.versions registry
      holds
    unfold mergeEntries
    rw [merged]
    exact ih kept

theorem WellFormed.mergeDat (wellFormed : registry.WellFormed) (file : Option Bytes) :
    (registryMergeDat registry file).1.WellFormed := by
  unfold registryMergeDat
  split
  · exact wellFormed
  · rename_i other _
    obtain ⟨kept, ok⟩ := mergeEntries_induction (P := WellFormed)
      (fun _ _ _ _ good => good.addVersionEx _ _ _ _) other.entries wellFormed
    split
    · rename_i merged result
      rw [result] at kept
      exact kept.sorted
    · rename_i merged result
      rw [result] at kept
      exact kept

theorem WellFormed.parseAllPackages (wellFormed : registry.WellFormed) (json : Option Json) :
    (parseAllPackagesJson json registry).1.WellFormed := by
  cases json with
  | none => exact wellFormed
  | some json =>
    rcases parseAllPackagesJson_eq json registry with ⟨loaded, fits⟩ | ⟨read, _, failed, _⟩
    · rw [loaded]
      exact ((wellFormed.readPackages _).setCount fits).sorted
    · rw [failed]
      exact wellFormed.readPackages read

theorem WellFormed.parseSince (wellFormed : registry.WellFormed) (json : Option Json) :
    (parseSinceResponse json registry).1.WellFormed := by
  cases json with
  | none => exact wellFormed
  | some json =>
    cases json with
    | array items =>
      rw [parseSinceResponse_eq]
      split
      · exact wellFormed.addAll _
      · rename_i room
        apply (wellFormed.addAll _).setCount
        by_contra beyond
        apply room
        refine ⟨by omega, ?_⟩
        intro none
        have counted := wellFormed.counted
        rw [none, List.length_nil] at beyond
        omega
    | null => exact wellFormed
    | bool value => exact wellFormed
    | number literal => exact wellFormed
    | string value => exact wellFormed
    | object members => exact wellFormed

/-- Every call keeps the invariant. -/
theorem WellFormed.run (wellFormed : registry.WellFormed) (operation : RegistryOperation) :
    (operation.run registry).1.WellFormed := by
  cases operation with
  | addEntry author name => exact wellFormed.addEntry author name
  | addVersion author name version countForSince => exact wellFormed.addVersionEx _ _ _ _
  | removeVersion author name version decrement => exact wellFormed.removeVersionEx _ _ _ _
  | merge file => exact wellFormed.mergeDat file
  | parseAllPackages json => exact wellFormed.parseAllPackages json
  | parseSince json => exact wellFormed.parseSince json

/-! ### Entries without versions -/

/-- An entry that has come to be without versions was not there before, when no
version has gone. -/
theorem Bare.new {other : Registry} {author name : String} (bare : other.Bare author name)
    (kept : ∀ version, registry.Has author name version → other.Has author name version)
    (other_bare : ¬ registry.Bare author name) : registry.versions author name = none := by
  cases listed : registry.versions author name with
  | none => rfl
  | some versions =>
    cases versions with
    | nil => exact absurd listed other_bare
    | cons version rest =>
      have there : registry.Has author name version := by
        unfold Has
        rw [listed]
        exact List.mem_cons_self
      have still := kept version there
      unfold Has at still
      rw [bare] at still
      cases still

theorem Bare.of_removeVersionEx {author name author' name' : String} {version : Version}
    {decrement : Bool} (wellFormed : registry.WellFormed)
    (bare : (registryRemoveVersionEx registry author name version
      decrement).registry.Bare author' name') : registry.Bare author' name' := by
  unfold Bare at bare ⊢
  rw [registryRemoveVersionEx_versions wellFormed] at bare
  split at bare
  · rename_i same
    rw [same.1, same.2]
    obtain ⟨versions, listed, left⟩ := Option.bind_eq_some_iff.mp bare
    split at left
    · cases left
    · rename_i several
      have erased := Option.some.inj left
      by_cases there : version ∈ versions
      · -- taking one version out of several leaves some
        have count := List.length_erase_of_mem there
        rw [erased, List.length_nil] at count
        have one : versions.length ≤ 1 := by omega
        cases versions with
        | nil => cases there
        | cons first rest =>
          have nothing : rest = [] := by
            simpa using one
          rw [nothing] at there several
          exact absurd (by rw [List.mem_singleton.mp there]) several
      · rw [List.erase_of_not_mem there] at erased
        rw [listed, erased]
  · exact bare

/-- After a call an entry without versions was there before, or the call has opened it. -/
theorem Bare.of_run (wellFormed : registry.WellFormed) {operation : RegistryOperation}
    {author name : String} (bare : (operation.run registry).1.Bare author name) :
    registry.Bare author name ∨
      registry.versions author name = none ∧ operation.Opens author name := by
  by_cases old : registry.Bare author name
  · exact Or.inl old
  cases operation with
  | addEntry author' name' =>
    rcases bare_addEntry.mp bare with before | ⟨rfl, rfl, missing⟩
    · exact absurd before old
    · exact Or.inr ⟨missing, rfl, rfl⟩
  | addVersion author' name' version countForSince =>
    exact absurd (bare_addVersionEx.mp bare).1 old
  | removeVersion author' name' version decrement =>
    exact absurd (Bare.of_removeVersionEx wellFormed bare) old
  | merge file =>
    left
    unfold RegistryOperation.run registryMergeDat at bare
    dsimp only at bare
    split at bare
    · exact bare
    · rename_i other _
      obtain ⟨⟨kept, still⟩, _⟩ := mergeEntries_induction
        (P := fun r => r.WellFormed ∧ ¬ r.Bare author name)
        (fun r _ _ _ good => ⟨good.1.addVersionEx _ _ _ _,
          fun added => good.2 (bare_addVersionEx.mp added).1⟩)
        other.entries ⟨wellFormed, old⟩
      split at bare
      · rename_i merged result
        rw [result] at kept still
        unfold Bare at bare still
        rw [versions_sort kept] at bare
        exact absurd bare still
      · rename_i merged result
        rw [result] at still
        exact absurd bare still
  | parseAllPackages json =>
    cases json with
    | none => exact absurd bare old
    | some json =>
      right
      -- whether the count overflows or not, some of the packages are read
      have read : ∃ packages, packages <+: json.children ∧
          (packages.foldl readPackage registry).Bare author name := by
        rcases parseAllPackagesJson_eq json registry with
          ⟨loaded, fits⟩ | ⟨packages, front, failed, _⟩
        · refine ⟨json.children, List.prefix_refl _, ?_⟩
          unfold RegistryOperation.run at bare
          dsimp only at bare
          rw [loaded] at bare
          unfold Bare at bare ⊢
          rw [versions_sort ((wellFormed.readPackages _).setCount fits)] at bare
          exact bare
        · refine ⟨packages, front, ?_⟩
          unfold RegistryOperation.run at bare
          dsimp only at bare
          rw [failed] at bare
          exact bare
      obtain ⟨packages, front, opened⟩ := read
      refine ⟨opened.new (fun version has => has_readPackages.mpr (Or.inl has)) old, ?_⟩
      rcases bare_readPackages opened with before | ⟨package, on, opens⟩
      · exact absurd before old
      · exact ⟨package, front.subset on, opens⟩
  | parseSince json =>
    left
    cases json with
    | none => exact bare
    | some json =>
      cases json with
      | array items =>
        unfold RegistryOperation.run Bare Registry.versions registryFind at bare
        dsimp only at bare
        rw [parseSinceResponse_entries] at bare
        exact (bare_addAll.mp bare).1
      | null => exact bare
      | bool value => exact bare
      | number literal => exact bare
      | string value => exact bare
      | object members => exact bare

/-- A call that fails leaves the counter alone. -/
theorem sinceCount_of_failed {operation : RegistryOperation}
    (failed : (operation.run registry).2 = false) :
    (operation.run registry).1.sinceCount = registry.sinceCount := by
  cases operation with
  | addEntry author name => cases failed
  | addVersion author name version countForSince =>
    unfold RegistryOperation.run at failed ⊢
    dsimp only at failed ⊢
    rw [registryAddVersionEx_eq] at failed ⊢
    split at failed
    · cases failed
    · rename_i new
      rw [if_neg new]
      simp only [Bool.not_eq_false', Bool.and_eq_true, decide_eq_true_eq] at failed
      simp [failed.2]
  | removeVersion author name version decrement =>
    unfold RegistryOperation.run registryRemoveVersionEx at failed
    dsimp only at failed
    split at failed
    · cases failed
    · split at failed
      · cases failed
      · cases failed
  | merge file =>
    unfold RegistryOperation.run registryMergeDat at failed
    dsimp only at failed
    split at failed
    · cases failed
    · rename_i other _
      have ok : (mergeEntries other.entries registry).2 = true :=
        (mergeEntries_induction (P := fun _ => True) (fun _ _ _ _ _ => trivial) other.entries
          trivial).2
      split at failed
      · cases failed
      · rename_i merged result
        rw [result] at ok
        cases ok
  | parseAllPackages json =>
    cases json with
    | none => rfl
    | some json =>
      unfold RegistryOperation.run at failed ⊢
      dsimp only at failed ⊢
      rcases parseAllPackagesJson_eq json registry with
        ⟨loaded, fits⟩ | ⟨packages, _, stopped, _⟩
      · rw [loaded] at failed
        cases failed
      · rw [stopped]
        exact readPackages_sinceCount packages
  | parseSince json =>
    cases json with
    | none => rfl
    | some json =>
      cases json with
      | array items =>
        unfold RegistryOperation.run at failed ⊢
        dsimp only at failed ⊢
        rw [parseSinceResponse_eq] at failed ⊢
        split at failed
        · rename_i beyond
          rw [if_pos beyond]
          exact addAll_sinceCount registry _
        · cases failed
      | null => rfl
      | bool value => rfl
      | number literal => rfl
      | string value => rfl
      | object members => rfl

end Registry

/-! ## Runs -/

theorem runRegistry_wellFormed (operations : List RegistryOperation) :
    (runRegistry operations).WellFormed := by
  induction operations using List.reverseRecOn with
  | nil => exact Registry.WellFormed.create
  | append_singleton operations operation ih =>
    rw [runRegistry_append]
    exact ih.run operation

/-- An entry without versions has been opened by a call of the run, at a time when the
package had no entry. -/
theorem runRegistry_bare (operations : List RegistryOperation) {author name : String}
    (bare : (runRegistry operations).Bare author name) :
    ∃ before operation after, operations = before ++ operation :: after ∧
      (runRegistry before).versions author name = none ∧ operation.Opens author name := by
  induction operations using List.reverseRecOn with
  | nil => cases bare
  | append_singleton operations operation ih =>
    rw [runRegistry_append] at bare
    rcases Registry.Bare.of_run (runRegistry_wellFormed operations) bare with
      old | ⟨missing, opens⟩
    · obtain ⟨before, opener, after, split, rest⟩ := ih old
      refine ⟨before, opener, after ++ [operation], ?_, rest⟩
      rw [split, List.append_assoc]
      rfl
    · exact ⟨operations, operation, [], rfl, missing, opens⟩

/-- Whatever is done to a registry, it has one entry for each package, the versions of
an entry are strictly descending, a call that fails leaves the counter alone, and an
entry without versions has been opened without one. -/
theorem runRegistry_invariant (operations : List RegistryOperation) :
    (runRegistry operations).WellFormed ∧
    (∀ operation : RegistryOperation, (operation.run (runRegistry operations)).2 = false →
      (operation.run (runRegistry operations)).1.sinceCount =
        (runRegistry operations).sinceCount) ∧
    ∀ entry ∈ (runRegistry operations).entries, entry.versions = [] →
      ∃ before operation after, operations = before ++ operation :: after ∧
        (runRegistry before).versions entry.author entry.name = none ∧
        operation.Opens entry.author entry.name := by
  have wellFormed := runRegistry_wellFormed operations
  refine ⟨wellFormed, fun operation failed => Registry.sinceCount_of_failed failed, ?_⟩
  intro entry member empty
  apply runRegistry_bare operations
  unfold Registry.Bare
  rw [wellFormed.versions_mem member, empty]

/-- `registry_add_entry` alone leaves an entry without versions. -/
theorem runRegistry_addEntry_bare :
    (runRegistry [.addEntry "elm" "core"]).entries = [⟨"elm", "core", []⟩] := by
  decide

end ElmWrap
