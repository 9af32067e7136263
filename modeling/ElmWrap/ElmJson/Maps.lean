import ElmWrap.ElmJson
import ElmWrap.Lib.Keyed
import Mathlib.Data.String.Basic
import Mathlib.Data.Prod.Lex

/-!
# Entries of the package maps

What `package_map_add` and `package_map_remove` do to the entries of a map, and
what moving a package from one map of an `elm.json` to another does to the
entries of all of them.
-/

namespace ElmWrap

open Lib

/-! ## One map -/

/-- `package_map_add` where its result is not looked at. -/
def PackageMap.add (map : PackageMap) (name : PackageName) (version : String) : PackageMap :=
  (packageMapAdd map name version).getD map

/-- `package_map_remove`: the last entry takes the place of the one taken out. -/
def packageMapRemove (map : PackageMap) (name : PackageName) : PackageMap where
  packages := Keyed.swapRemove Package.name name map.packages
  nodup := Keyed.Distinct.swapRemove map.nodup

/-- The order of `package_compare`. -/
def Package.key (p : Package) : String ×ₗ String := toLex (p.name.author, p.name.project)

/-- `package_map_sort`. -/
def packageMapSort (map : PackageMap) : PackageMap where
  packages := Keyed.sortBy Package.key map.packages
  nodup := (((Keyed.perm_sortBy map.packages).map Package.name).nodup_iff).mpr map.nodup

/-- The names a map lists. -/
def PackageMap.names (map : PackageMap) : List PackageName := map.packages.map Package.name

variable {name : PackageName} {map : PackageMap} {p : Package} {elmJson : ElmJson}
  {field : ElmJsonMap}

theorem PackageMap.mem_names :
    name ∈ map.names ↔ ∃ p ∈ map.packages, p.name = name := List.mem_map

theorem PackageMap.names_of_mem (member : p ∈ map.packages) :
    p.name ∈ map.names := List.mem_map_of_mem member

/-- A name has one entry. -/
theorem PackageMap.same_entry {p q : Package} (first : p ∈ map.packages) (second : q ∈ map.packages)
    (same : p.name = q.name) : p = q :=
  List.inj_on_of_nodup_map map.nodup first second same

theorem PackageMap.find_isSome :
    (packageMapFind map name).isSome = true ↔ name ∈ map.names := by
  constructor
  · intro found
    obtain ⟨p, some⟩ := Option.isSome_iff_exists.mp found
    obtain ⟨member, same⟩ := packageMapFind_some some
    exact same ▸ names_of_mem member
  · intro listed
    obtain ⟨p, member, same⟩ := mem_names.mp listed
    rw [← same, packageMapFind_mem member]
    rfl

theorem PackageMap.packages_add_new (new : packageMapFind map name = none) (version : String) :
    (map.add name version).packages = map.packages ++ [⟨name, version⟩] := by
  unfold add packageMapAdd
  rw [dif_pos new]
  rfl

theorem PackageMap.add_known (known : name ∈ map.names) (version : String) :
    map.add name version = map := by
  unfold add packageMapAdd
  rw [dif_neg]
  · rfl
  · intro missing
    exact packageMapFind_none missing known

theorem PackageMap.mem_add {version : String} :
    p ∈ (map.add name version).packages ↔
      p ∈ map.packages ∨ (name ∉ map.names ∧ p = ⟨name, version⟩) := by
  by_cases known : name ∈ map.names
  · rw [add_known known]
    simp [known]
  · have new : packageMapFind map name = none := by
      cases found : packageMapFind map name with
      | none => rfl
      | some q =>
        exact absurd (find_isSome.mp (by rw [found]; rfl)) known
    rw [packages_add_new new]
    simp [known]

theorem PackageMap.mem_names_add {name other : PackageName} {version : String} :
    other ∈ (map.add name version).names ↔ other ∈ map.names ∨ other = name := by
  by_cases known : name ∈ map.names
  · rw [add_known known]
    constructor
    · exact Or.inl
    · intro which
      rcases which with old | same
      · exact old
      · exact same ▸ known
  · constructor
    · intro listed
      obtain ⟨p, member, same⟩ := mem_names.mp listed
      rcases mem_add.mp member with old | ⟨_, new⟩
      · exact Or.inl (same ▸ names_of_mem old)
      · rw [new] at same
        exact Or.inr same.symm
    · intro which
      rcases which with old | same
      · obtain ⟨p, member, named⟩ := mem_names.mp old
        exact mem_names.mpr ⟨p, mem_add.mpr (Or.inl member), named⟩
      · exact mem_names.mpr ⟨⟨name, version⟩, mem_add.mpr (Or.inr ⟨known, rfl⟩), same.symm⟩

theorem packageMapUpdate_mem {version : String} :
    p ∈ (packageMapUpdate map name version).packages ↔
      (p.name ≠ name ∧ p ∈ map.packages) ∨
        (p = ⟨name, version⟩ ∧ name ∈ map.packages.map Package.name) := by
  unfold packageMapUpdate
  dsimp only
  rw [List.mem_map, List.mem_map]
  constructor
  · intro ⟨q, member, same⟩
    split at same
    · rename_i here
      rw [← same, ← here]
      exact Or.inr ⟨rfl, q, member, rfl⟩
    · rename_i other
      rw [← same]
      exact Or.inl ⟨other, member⟩
  · intro cases_
    rcases cases_ with ⟨other, member⟩ | ⟨rfl, q, member, same⟩
    · exact ⟨p, member, if_neg other⟩
    · exact ⟨q, member, by rw [if_pos same, ← same]⟩

theorem packageMapAdd_mem {map map' : PackageMap} {version : String}
    (added : packageMapAdd map name version = some map') :
    p ∈ map'.packages ↔ p ∈ map.packages ∨ p = ⟨name, version⟩ := by
  unfold packageMapAdd at added
  split at added
  · cases added
    simp
  · cases added

theorem packageMapAdd_some (version : String) (missing : name ∉ map.packages.map Package.name) :
    ∃ map', packageMapAdd map name version = some map' := by
  unfold packageMapAdd
  split
  · exact ⟨_, rfl⟩
  · rename_i found
    obtain ⟨p, here⟩ := Option.ne_none_iff_exists'.mp found
    obtain ⟨member, same⟩ := packageMapFind_some here
    exact absurd (List.mem_map.mpr ⟨p, member, same⟩) missing

/-- The names in a map that is filled from a list. -/
theorem PackageMap.mem_names_foldl_add (version : PackageName → String)
    (names : List PackageName) (map : PackageMap) (other : PackageName) :
    other ∈ (names.foldl (fun map name => map.add name (version name)) map).names ↔
      other ∈ map.names ∨ other ∈ names := by
  induction names generalizing map with
  | nil => simp
  | cons name names ih =>
    rw [List.foldl_cons, ih, mem_names_add, List.mem_cons]
    exact or_assoc

theorem mem_packageMapRemove :
    p ∈ (packageMapRemove map name).packages ↔ p ∈ map.packages ∧ p.name ≠ name :=
  Keyed.mem_swapRemove map.nodup

theorem mem_packageMapSort :
    p ∈ (packageMapSort map).packages ↔ p ∈ map.packages := Keyed.mem_sortBy

/-! ## The maps of an `elm.json` -/

/-- A package moved from one map to another: it is added before it is removed. -/
def ElmJson.move (elmJson : ElmJson) (name : PackageName) (version : String)
    (source target : ElmJsonMap) : ElmJson :=
  let elmJson := elmJson.setMap target ((elmJson.maps target).add name version)
  elmJson.setMap source (packageMapRemove (elmJson.maps source) name)

/-- `remove_from_all_app_maps`. -/
def removeFromAllAppMaps (elmJson : ElmJson) (name : PackageName) : ElmJson :=
  if elmJson.type ≠ .application then elmJson
  else
    { elmJson with maps := fun field =>
        if field ∈ ElmProjectType.application.maps then packageMapRemove (elmJson.maps field) name
        else elmJson.maps field }

/-- The sorting at the start of `elm_json_write`. -/
def ElmJson.sortMaps (elmJson : ElmJson) : ElmJson :=
  { elmJson with maps := fun field =>
      if field ∈ elmJson.type.maps then packageMapSort (elmJson.maps field)
      else elmJson.maps field }

@[simp] theorem ElmJson.move_type (elmJson : ElmJson) (name : PackageName) (version : String)
    (source target : ElmJsonMap) : (elmJson.move name version source target).type = elmJson.type :=
  rfl

theorem ElmJson.setMap_maps (elmJson : ElmJson) (field : ElmJsonMap) (map : PackageMap)
    (other : ElmJsonMap) :
    (elmJson.setMap field map).maps other = if other = field then map else elmJson.maps other := by
  unfold setMap
  exact Function.update_apply elmJson.maps field map other

theorem ElmJson.mem_move {version : String} {source target : ElmJsonMap} (apart : source ≠ target) :
    p ∈ ((elmJson.move name version source target).maps field).packages ↔
      if field = source then p ∈ (elmJson.maps field).packages ∧ p.name ≠ name
      else if field = target then
        p ∈ (elmJson.maps field).packages ∨
          (name ∉ (elmJson.maps field).names ∧ p = ⟨name, version⟩)
      else p ∈ (elmJson.maps field).packages := by
  unfold move
  dsimp only
  rw [setMap_maps]
  by_cases here : field = source
  · rw [if_pos here, if_pos here, mem_packageMapRemove, setMap_maps, if_neg apart, here]
  · rw [if_neg here, if_neg here, setMap_maps]
    by_cases there : field = target
    · rw [if_pos there, if_pos there, PackageMap.mem_add, there]
    · rw [if_neg there, if_neg there]

@[simp] theorem removeFromAllAppMaps_type (elmJson : ElmJson) (name : PackageName) :
    (removeFromAllAppMaps elmJson name).type = elmJson.type := by
  unfold removeFromAllAppMaps
  split <;> rfl

theorem mem_removeFromAllAppMaps (application : elmJson.type = .application)
    (app : field ∈ ElmProjectType.application.maps) :
    p ∈ ((removeFromAllAppMaps elmJson name).maps field).packages ↔
      p ∈ (elmJson.maps field).packages ∧ p.name ≠ name := by
  unfold removeFromAllAppMaps
  rw [if_neg (by simp [application])]
  dsimp only
  rw [if_pos app]
  exact mem_packageMapRemove

@[simp] theorem ElmJson.sortMaps_type (elmJson : ElmJson) : elmJson.sortMaps.type = elmJson.type :=
  rfl

@[simp] theorem ElmJson.mem_sortMaps :
    p ∈ (elmJson.sortMaps.maps field).packages ↔ p ∈ (elmJson.maps field).packages := by
  unfold sortMaps
  dsimp only
  split
  · exact mem_packageMapSort
  · exact Iff.rfl

/-- A field lists the package. -/
def ElmJson.ListsName (elmJson : ElmJson) (field : ElmJsonMap) (name : PackageName) : Prop :=
  name ∈ (elmJson.maps field).packages.map Package.name

/-- No two fields list the package. -/
def ElmJson.ListsOnce (elmJson : ElmJson) (name : PackageName) : Prop :=
  ∀ left ∈ elmJson.type.maps, ∀ right ∈ elmJson.type.maps,
    elmJson.ListsName left name → elmJson.ListsName right name → left = right

instance (elmJson : ElmJson) (name : PackageName) : Decidable (elmJson.ListsOnce name) :=
  inferInstanceAs (Decidable (∀ left ∈ elmJson.type.maps, ∀ right ∈ elmJson.type.maps,
    name ∈ _ → name ∈ _ → left = right))

theorem ElmJson.ListsName.of_mem (member : p ∈ (elmJson.maps field).packages) :
    elmJson.ListsName field p.name :=
  List.mem_map_of_mem member

theorem findPackageMap_some (found : findPackageMap elmJson name = some field) :
    field ∈ elmJson.type.maps ∧ elmJson.ListsName field name := by
  unfold findPackageMap at found
  refine ⟨List.mem_of_find?_eq_some found, ?_⟩
  have some_ := List.find?_some found
  obtain ⟨p, here⟩ := Option.isSome_iff_exists.mp some_
  obtain ⟨member, same⟩ := packageMapFind_some here
  exact List.mem_map.mpr ⟨p, member, same⟩

theorem findPackageMap_none (missing : findPackageMap elmJson name = none)
    (used : field ∈ elmJson.type.maps) : ¬ elmJson.ListsName field name := by
  have absent := List.find?_eq_none.mp missing field used
  rw [Option.isSome_iff_ne_none, not_not] at absent
  exact packageMapFind_none absent

theorem findExistingPackage_eq (elmJson : ElmJson) (name : PackageName) :
    findExistingPackage elmJson name =
      (findPackageMap elmJson name).bind fun field => packageMapFind (elmJson.maps field) name := by
  unfold findExistingPackage findPackageMap
  induction elmJson.type.maps with
  | nil => rfl
  | cons field fields ih =>
    rw [List.findSome?_cons, List.find?_cons]
    cases found : packageMapFind (elmJson.maps field) name with
    | none => exact ih
    | some p => exact found.symm

theorem targetMap_mem (type : ElmProjectType) (isTest isDirect : Bool) :
    targetMap type isTest isDirect ∈ type.maps := by
  cases type <;> cases isTest <;> cases isDirect <;> decide

/-- No package is listed in two maps. -/
def ElmJson.ListedOnce (elmJson : ElmJson) : Prop := ∀ name, elmJson.ListsOnce name

/-- Two `elm.json` list the same packages at the same versions in the same maps. -/
structure ElmJson.SameMaps (elmJson other : ElmJson) : Prop where
  type : elmJson.type = other.type
  entries : ∀ field p, p ∈ (elmJson.maps field).packages ↔ p ∈ (other.maps field).packages

theorem ElmJson.SameMaps.refl (elmJson : ElmJson) : elmJson.SameMaps elmJson :=
  ⟨rfl, fun _ _ => Iff.rfl⟩

theorem ElmJson.SameMaps.symm {elmJson other : ElmJson} (same : elmJson.SameMaps other) :
    other.SameMaps elmJson :=
  ⟨same.type.symm, fun field p => (same.entries field p).symm⟩

theorem ElmJson.SameMaps.trans {first second third : ElmJson} (left : first.SameMaps second)
    (right : second.SameMaps third) : first.SameMaps third :=
  ⟨left.type.trans right.type, fun field p => (left.entries field p).trans (right.entries field p)⟩

theorem ElmJson.sameMaps_sortMaps (elmJson : ElmJson) : elmJson.sortMaps.SameMaps elmJson :=
  ⟨rfl, fun _ _ => ElmJson.mem_sortMaps⟩

end ElmWrap
