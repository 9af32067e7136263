import ElmWrap.Remove.CmdRemove

/-!
# Packages moved to the indirect ones and back

While the orphaned packages are computed, the requested packages stand in the
indirect counterparts of their maps. Which of them do is all there is to say
about the maps at any time, so that moving and moving back are steps between
such states, and moving all back restores the entries.
-/

namespace ElmWrap

open Lib

/-! ## Counterparts -/

theorem ElmJsonMap.indirect_indirect {source target : ElmJsonMap}
    (pair : source.indirect = some target) : target.indirect = none := by
  cases source with
  | dependenciesDirect => cases pair; rfl
  | dependenciesTestDirect => cases pair; rfl
  | _ => cases pair

theorem ElmJsonMap.indirect_injective {source other target : ElmJsonMap}
    (pair : source.indirect = some target) (also : other.indirect = some target) :
    other = source := by
  cases source with
  | dependenciesDirect =>
    cases pair
    cases other with
    | dependenciesDirect => rfl
    | _ => cases also
  | dependenciesTestDirect =>
    cases pair
    cases other with
    | dependenciesTestDirect => rfl
    | _ => cases also
  | _ => cases pair

theorem ElmJsonMap.indirect_ne {source target : ElmJsonMap}
    (pair : source.indirect = some target) : source ≠ target := by
  intro same
  have none := indirect_indirect pair
  rw [← same, pair] at none
  cases none

theorem ElmJsonMap.indirect_app {source target : ElmJsonMap}
    (pair : source.indirect = some target) :
    source ∈ ElmProjectType.application.maps ∧ target ∈ ElmProjectType.application.maps := by
  cases source with
  | dependenciesDirect => cases pair; decide
  | dependenciesTestDirect => cases pair; decide
  | _ => cases pair

/-! ## States -/

/-- The packages `S` stand in the indirect counterparts of their maps. -/
structure Moved (elmJson : ElmJson) (S : PackageName → Prop) (moved : ElmJson) : Prop where
  type : moved.type = elmJson.type
  entries : ∀ field p, p ∈ (moved.maps field).packages ↔
    (p ∈ (elmJson.maps field).packages ∧ (field.indirect = none ∨ ¬ S p.name)) ∨
      ∃ source, source.indirect = some field ∧ p ∈ (elmJson.maps source).packages ∧ S p.name

theorem Moved.refl (elmJson : ElmJson) : Moved elmJson (fun _ => False) elmJson where
  type := rfl
  entries field p := by simp

theorem Moved.congr {elmJson moved : ElmJson} {S T : PackageName → Prop}
    (state : Moved elmJson S moved) (same : ∀ name, S name ↔ T name) : Moved elmJson T moved := by
  have eq : S = T := funext fun name => propext (same name)
  exact eq ▸ state

/-- With none moved, the entries are as before. -/
theorem Moved.restored {elmJson moved : ElmJson} (state : Moved elmJson (fun _ => False) moved) :
    moved.SameMaps elmJson where
  type := state.type
  entries field p := by
    rw [state.entries]
    simp

section Step

variable {elmJson moved : ElmJson} {S : PackageName → Prop} {name : PackageName}
  {version : String} {source target : ElmJsonMap}

/-- Where a package of a direct map is in a state. -/
theorem Moved.source_entries (state : Moved elmJson S moved)
    (pair : source.indirect = some target) (p : Package) :
    p ∈ (moved.maps source).packages ↔
      p ∈ (elmJson.maps source).packages ∧ ¬ S p.name := by
  rw [state.entries]
  constructor
  · intro which
    rcases which with ⟨member, none | stays⟩ | ⟨other, other_, _⟩
    · rw [pair] at none
      cases none
    · exact ⟨member, stays⟩
    · rw [ElmJsonMap.indirect_indirect other_] at pair
      cases pair
  · intro both
    exact Or.inl ⟨both.1, Or.inr both.2⟩

theorem Moved.target_entries (state : Moved elmJson S moved)
    (pair : source.indirect = some target) (p : Package) :
    p ∈ (moved.maps target).packages ↔
      p ∈ (elmJson.maps target).packages ∨ (p ∈ (elmJson.maps source).packages ∧ S p.name) := by
  rw [state.entries]
  constructor
  · intro which
    rcases which with ⟨member, _⟩ | ⟨other, other_, member, inside⟩
    · exact Or.inl member
    · rw [ElmJsonMap.indirect_injective pair other_] at member
      exact Or.inr ⟨member, inside⟩
  · intro which
    rcases which with member | ⟨member, inside⟩
    · exact Or.inl ⟨member, Or.inl (ElmJsonMap.indirect_indirect pair)⟩
    · exact Or.inr ⟨source, pair, member, inside⟩

/-- A map that is not concerned by a package does not see that it is moved. -/
theorem Moved.other_entries (application : elmJson.type = .application)
    (once : elmJson.ListsOnce name) (pair : source.indirect = some target)
    (entry : ⟨name, version⟩ ∈ (elmJson.maps source).packages) {T : PackageName → Prop}
    (same : ∀ other, other ≠ name → (S other ↔ T other)) {field : ElmJsonMap}
    (apart : field ≠ source) (away : field ≠ target) (p : Package) :
    ((p ∈ (elmJson.maps field).packages ∧ (field.indirect = none ∨ ¬ S p.name)) ∨
        ∃ origin, origin.indirect = some field ∧ p ∈ (elmJson.maps origin).packages ∧ S p.name) ↔
      (p ∈ (elmJson.maps field).packages ∧ (field.indirect = none ∨ ¬ T p.name)) ∨
        ∃ origin, origin.indirect = some field ∧ p ∈ (elmJson.maps origin).packages ∧ T p.name := by
  have only : ∀ origin, origin ∈ ElmProjectType.application.maps →
      p ∈ (elmJson.maps origin).packages → p.name = name → origin = source := by
    intro origin app member here
    apply once origin _ source _
    · rw [← here]
      exact ElmJson.ListsName.of_mem member
    · exact ElmJson.ListsName.of_mem entry
    · rw [application]
      exact app
    · rw [application]
      exact (ElmJsonMap.indirect_app pair).1
  apply or_congr
  · apply and_congr_right
    intro member
    cases counterpart : field.indirect with
    | none => simp
    | some beyond =>
      have other : p.name ≠ name := fun here =>
        apart (only field (ElmJsonMap.indirect_app counterpart).1 member here)
      rw [same _ other]
  · apply exists_congr
    intro origin
    apply and_congr_right
    intro toField
    apply and_congr_right
    intro member
    apply same
    intro here
    rw [only origin (ElmJsonMap.indirect_app toField).1 member here, pair] at toField
    cases toField
    exact away rfl

/-- A package is moved to the indirect ones. -/
theorem Moved.move (state : Moved elmJson S moved) (application : elmJson.type = .application)
    (once : elmJson.ListsOnce name) (pair : source.indirect = some target)
    (entry : ⟨name, version⟩ ∈ (elmJson.maps source).packages) :
    Moved elmJson (fun other => S other ∨ other = name)
      (moved.move name version source target) where
  type := state.type
  entries field p := by
    rw [ElmJson.mem_move (ElmJsonMap.indirect_ne pair)]
    have own : p ∈ (elmJson.maps source).packages → p.name = name → p = ⟨name, version⟩ :=
      fun member here => PackageMap.same_entry member entry here
    by_cases here : field = source
    · subst here
      rw [if_pos rfl, state.source_entries pair, pair]
      constructor
      · intro both
        exact Or.inl ⟨both.1.1, Or.inr fun which => which.elim both.1.2 both.2⟩
      · intro which
        rcases which with ⟨member, none | stays⟩ | ⟨origin, origin_, _⟩
        · cases none
        · exact ⟨⟨member, fun inside => stays (Or.inl inside)⟩, fun same => stays (Or.inr same)⟩
        · rw [ElmJsonMap.indirect_indirect origin_] at pair
          cases pair
    rw [if_neg here]
    by_cases there : field = target
    · subst there
      rw [if_pos rfl, state.target_entries pair]
      constructor
      · intro which
        rcases which with (member | ⟨member, inside⟩) | ⟨_, same⟩
        · exact Or.inl ⟨member, Or.inl (ElmJsonMap.indirect_indirect pair)⟩
        · exact Or.inr ⟨source, pair, member, Or.inl inside⟩
        · rw [same]
          exact Or.inr ⟨source, pair, entry, Or.inr rfl⟩
      · intro which
        rcases which with ⟨member, _⟩ | ⟨origin, origin_, member, inside | same⟩
        · exact Or.inl (Or.inl member)
        · rw [ElmJsonMap.indirect_injective pair origin_] at member
          exact Or.inl (Or.inr ⟨member, inside⟩)
        · rw [ElmJsonMap.indirect_injective pair origin_] at member
          by_cases already : S p.name
          · exact Or.inl (Or.inr ⟨member, already⟩)
          · refine Or.inr ⟨?_, own member same⟩
            -- it would be listed twice
            intro listed
            obtain ⟨q, on, named⟩ := PackageMap.mem_names.mp listed
            rcases (state.target_entries pair q).mp on with old | ⟨_, inside⟩
            · have fields := once field
                (by rw [application]; exact (ElmJsonMap.indirect_app pair).2) source
                (by rw [application]; exact (ElmJsonMap.indirect_app pair).1)
                (named ▸ ElmJson.ListsName.of_mem old) (ElmJson.ListsName.of_mem entry)
              exact here fields
            · rw [named, ← same] at inside
              exact already inside
    · rw [if_neg there, state.entries]
      have same : ∀ other, other ≠ name → (S other ↔ S other ∨ other = name) := by
        intro other different
        simp [different]
      exact Moved.other_entries application once pair entry same here there p

/-- A package is moved back. -/
theorem Moved.moveBack (state : Moved elmJson S moved) (application : elmJson.type = .application)
    (once : elmJson.ListsOnce name) (pair : source.indirect = some target)
    (entry : ⟨name, version⟩ ∈ (elmJson.maps source).packages) :
    Moved elmJson (fun other => S other ∧ other ≠ name)
      (moved.move name version target source) where
  type := state.type
  entries field p := by
    rw [ElmJson.mem_move (ElmJsonMap.indirect_ne pair).symm]
    have own : p ∈ (elmJson.maps source).packages → p.name = name → p = ⟨name, version⟩ :=
      fun member here => PackageMap.same_entry member entry here
    by_cases there : field = target
    · subst there
      rw [if_pos rfl, state.target_entries pair]
      constructor
      · intro both
        obtain ⟨member | ⟨member, inside⟩, other⟩ := both
        · exact Or.inl ⟨member, Or.inl (ElmJsonMap.indirect_indirect pair)⟩
        · exact Or.inr ⟨source, pair, member, inside, other⟩
      · intro which
        rcases which with ⟨member, _⟩ | ⟨origin, origin_, member, inside, other⟩
        · refine ⟨Or.inl member, ?_⟩
          intro same
          have fields := once field (by rw [application]; exact (ElmJsonMap.indirect_app pair).2)
            source (by rw [application]; exact (ElmJsonMap.indirect_app pair).1)
            (same ▸ ElmJson.ListsName.of_mem member) (ElmJson.ListsName.of_mem entry)
          exact ElmJsonMap.indirect_ne pair fields.symm
        · rw [ElmJsonMap.indirect_injective pair origin_] at member
          exact ⟨Or.inr ⟨member, inside⟩, other⟩
    rw [if_neg there]
    by_cases here : field = source
    · subst here
      rw [if_pos rfl, state.source_entries pair, pair]
      constructor
      · intro which
        rcases which with ⟨member, stays⟩ | ⟨_, same⟩
        · exact Or.inl ⟨member, Or.inr fun both => stays both.1⟩
        · rw [same]
          exact Or.inl ⟨entry, Or.inr fun both => both.2 rfl⟩
      · intro which
        rcases which with ⟨member, none | stays⟩ | ⟨origin, origin_, _⟩
        · cases none
        · by_cases same : p.name = name
          · by_cases away : S p.name
            · refine Or.inr ⟨?_, own member same⟩
              intro listed
              obtain ⟨q, on, named⟩ := PackageMap.mem_names.mp listed
              obtain ⟨_, inside⟩ := (state.source_entries pair q).mp on
              rw [named, ← same] at inside
              exact inside away
            · exact Or.inl ⟨member, away⟩
          · exact Or.inl ⟨member, fun inside => stays ⟨inside, same⟩⟩
        · rw [ElmJsonMap.indirect_indirect origin_] at pair
          cases pair
    · rw [if_neg here, state.entries]
      have same : ∀ other, other ≠ name → (S other ↔ S other ∧ other ≠ name) := by
        intro other different
        simp [different]
      exact Moved.other_entries application once pair entry same here there p

end Step

/-! ## Targets -/

/-- The package is in a direct map. -/
def ElmJson.ListsDirect (elmJson : ElmJson) (name : PackageName) : Prop :=
  ∃ source target, source.indirect = some target ∧ elmJson.ListsName source name

/-- The map of a listed package, and its entry there. -/
theorem findPackageMap_entry {elmJson : ElmJson} {name : PackageName} {field : ElmJsonMap}
    (found : findPackageMap elmJson name = some field) :
    ∃ version, (findExistingPackage elmJson name).map Package.version = some version ∧
      ⟨name, version⟩ ∈ (elmJson.maps field).packages := by
  obtain ⟨_, listed⟩ := findPackageMap_some found
  obtain ⟨p, here⟩ := Option.isSome_iff_exists.mp (PackageMap.find_isSome.mpr listed)
  obtain ⟨member, same⟩ := packageMapFind_some here
  refine ⟨p.version, ?_, ?_⟩
  · rw [findExistingPackage_eq, found]
    exact congrArg (Option.map Package.version) here
  · rw [← same]
    exact member

/-- A target is in a direct map, or has no indirect counterpart. -/
theorem removalTarget_cases {elmJson : ElmJson} (application : elmJson.type = .application)
    {name : PackageName} (once : elmJson.ListsOnce name) :
    (∃ source target version, source.indirect = some target ∧
        ⟨name, version⟩ ∈ (elmJson.maps source).packages ∧
        removalTarget elmJson name = ⟨name, some version, some source, some target⟩) ∨
      (¬ elmJson.ListsDirect name ∧ (removalTarget elmJson name).demoteMap = none) := by
  unfold removalTarget
  cases found : findPackageMap elmJson name with
  | none =>
    refine Or.inr ⟨?_, rfl⟩
    intro direct
    obtain ⟨source, target, pair, listed⟩ := direct
    apply findPackageMap_none found _ listed
    rw [application]
    exact (ElmJsonMap.indirect_app pair).1
  | some field =>
    cases counterpart : field.indirect with
    | some target =>
      obtain ⟨version, text, entry⟩ := findPackageMap_entry found
      refine Or.inl ⟨field, target, version, counterpart, entry, ?_⟩
      rw [text, Option.bind_some, counterpart]
    | none =>
      refine Or.inr ⟨?_, counterpart⟩
      intro direct
      obtain ⟨source, target, pair, listed⟩ := direct
      obtain ⟨used, here⟩ := findPackageMap_some found
      have app : source ∈ elmJson.type.maps := by
        rw [application]
        exact (ElmJsonMap.indirect_app pair).1
      rw [once field used source app here listed, pair] at counterpart
      cases counterpart

/-- Only what the direct maps list matters. -/
theorem Moved.congr_direct {elmJson moved : ElmJson} {S T : PackageName → Prop}
    (state : Moved elmJson S moved) (same : ∀ name, elmJson.ListsDirect name → (S name ↔ T name)) :
    Moved elmJson T moved where
  type := state.type
  entries field p := by
    have direct : ∀ source target, source.indirect = some target →
        p ∈ (elmJson.maps source).packages → (S p.name ↔ T p.name) :=
      fun source target pair member =>
        same p.name ⟨source, target, pair, ElmJson.ListsName.of_mem member⟩
    rw [state.entries]
    apply or_congr
    · apply and_congr_right
      intro member
      cases counterpart : field.indirect with
      | none => simp
      | some target => rw [direct field target counterpart member]
    · apply exists_congr
      intro source
      apply and_congr_right
      intro pair
      apply and_congr_right
      intro member
      exact direct source field pair member

section Targets

variable {elmJson moved : ElmJson} {S : PackageName → Prop}
  (application : elmJson.type = .application)

include application

theorem Moved.moveToDemote (state : Moved elmJson S moved) {name : PackageName}
    (once : elmJson.ListsOnce name) :
    Moved elmJson (fun other => S other ∨ other = name)
      (moveToDemote moved (removalTarget elmJson name)) := by
  unfold ElmWrap.moveToDemote
  rcases removalTarget_cases application once with
    ⟨source, target, version, pair, entry, here⟩ | ⟨absent, none⟩
  · rw [here]
    exact state.move application once pair entry
  · rw [none]
    apply state.congr_direct
    intro other direct
    have different : other ≠ name := fun same => absent (same ▸ direct)
    simp [different]

theorem Moved.moveBackTarget (state : Moved elmJson S moved) {name : PackageName}
    (once : elmJson.ListsOnce name) :
    Moved elmJson (fun other => S other ∧ other ≠ name)
      (ElmWrap.moveBack moved (removalTarget elmJson name)) := by
  unfold ElmWrap.moveBack
  rcases removalTarget_cases application once with
    ⟨source, target, version, pair, entry, here⟩ | ⟨absent, none⟩
  · rw [here]
    exact state.moveBack application once pair entry
  · rw [none]
    apply state.congr_direct
    intro other direct
    have different : other ≠ name := fun same => absent (same ▸ direct)
    simp [different]

variable (once : elmJson.ListedOnce)

include once

/-- The targets that are picked are moved. -/
theorem Moved.moveTargets (pick : RemovalTarget → Bool) (names : List PackageName)
    (state : Moved elmJson S moved) :
    Moved elmJson
      (fun other => S other ∨ (other ∈ names ∧ pick (removalTarget elmJson other) = true))
      ((names.map (removalTarget elmJson)).foldl (fun moved target =>
        if pick target then ElmWrap.moveToDemote moved target else moved) moved) := by
  induction names generalizing moved S with
  | nil => exact state.congr (by simp)
  | cons name names ih =>
    rw [List.map_cons, List.foldl_cons]
    cases picked : pick (removalTarget elmJson name) with
    | true =>
      apply (ih (state.moveToDemote application (once name))).congr
      intro other
      rw [List.mem_cons]
      constructor
      · intro which
        rcases which with (old | here) | ⟨rest, also⟩
        · exact Or.inl old
        · exact Or.inr ⟨Or.inl here, here ▸ picked⟩
        · exact Or.inr ⟨Or.inr rest, also⟩
      · intro which
        rcases which with old | ⟨here | rest, also⟩
        · exact Or.inl (Or.inl old)
        · exact Or.inl (Or.inr here)
        · exact Or.inr ⟨rest, also⟩
    | false =>
      apply (ih state).congr
      intro other
      rw [List.mem_cons]
      apply or_congr_right
      apply and_congr_left
      intro also
      constructor
      · exact Or.inr
      · intro which
        rcases which with here | rest
        · rw [here, picked] at also
          cases also
        · exact rest

theorem Moved.moveAll (names : List PackageName) (state : Moved elmJson S moved) :
    Moved elmJson (fun other => S other ∨ other ∈ names)
      ((names.map (removalTarget elmJson)).foldl ElmWrap.moveToDemote moved) := by
  have all := Moved.moveTargets application once (fun _ => true) names state
  exact all.congr (by simp)

theorem Moved.moveAllBack (names : List PackageName) (state : Moved elmJson S moved) :
    Moved elmJson (fun other => S other ∧ other ∉ names)
      ((names.map (removalTarget elmJson)).foldl ElmWrap.moveBack moved) := by
  induction names generalizing moved S with
  | nil => exact state.congr (by simp)
  | cons name names ih =>
    rw [List.map_cons, List.foldl_cons]
    apply (ih (state.moveBackTarget application (once name))).congr
    intro other
    rw [List.mem_cons, not_or]
    exact and_assoc

/-- Moving all there and back. -/
theorem Moved.thereAndBack (names : List PackageName) :
    Moved elmJson (fun _ => False) ((names.map (removalTarget elmJson)).foldl ElmWrap.moveBack
      ((names.map (removalTarget elmJson)).foldl ElmWrap.moveToDemote elmJson)) := by
  have there := Moved.moveAll application once names (Moved.refl elmJson)
  apply (Moved.moveAllBack application once names there).congr
  intro other
  simp

end Targets

end ElmWrap
