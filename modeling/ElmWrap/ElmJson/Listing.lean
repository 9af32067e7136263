import ElmWrap.ElmJson.Maps

/-!
# Where a package is listed

The versions at which the maps of an `elm.json` list a package, as a function of
the map. Two files list the same if these functions are the same, and a writer is
described by what it does to the function of its package.
-/

namespace ElmWrap

open Lib

/-- The version at which each map lists the package. -/
def ElmJson.listing (elmJson : ElmJson) (name : PackageName) (field : ElmJsonMap) :
    Option String :=
  (packageMapFind (elmJson.maps field) name).map Package.version

theorem ElmJson.listing_some {elmJson : ElmJson} {name : PackageName} {field : ElmJsonMap}
    {version : String} :
    elmJson.listing name field = some version ↔
      ⟨name, version⟩ ∈ (elmJson.maps field).packages := by
  unfold listing
  constructor
  · intro found
    obtain ⟨p, here, rfl⟩ := Option.map_eq_some_iff.mp found
    obtain ⟨member, rfl⟩ := packageMapFind_some here
    exact member
  · intro member
    have here := packageMapFind_mem member
    dsimp only at here
    rw [here]
    rfl

theorem ElmJson.listing_isSome {elmJson : ElmJson} {name : PackageName} {field : ElmJsonMap} :
    (elmJson.listing name field).isSome = true ↔ elmJson.ListsName field name := by
  unfold listing
  rw [Option.isSome_map]
  exact PackageMap.find_isSome

theorem ElmJson.listing_none {elmJson : ElmJson} {name : PackageName} {field : ElmJsonMap} :
    elmJson.listing name field = none ↔ ¬ elmJson.ListsName field name := by
  rw [← listing_isSome, Option.not_isSome_iff_eq_none]

/-- Files that list the same have the same entries. -/
theorem ElmJson.sameMaps_iff {elmJson other : ElmJson} :
    elmJson.SameMaps other ↔
      elmJson.type = other.type ∧ ∀ name, elmJson.listing name = other.listing name := by
  constructor
  · intro same
    refine ⟨same.type, ?_⟩
    intro name
    funext field
    apply Option.ext
    intro version
    rw [listing_some, listing_some]
    exact same.entries field _
  · intro same
    refine ⟨same.1, ?_⟩
    intro field p
    have here := congrFun (same.2 p.name) field
    have left := @ElmJson.listing_some elmJson p.name field p.version
    have right := @ElmJson.listing_some other p.name field p.version
    rw [here] at left
    exact left.symm.trans right

/-! ## The first map -/

/-- The first map of the project that lists the package. -/
def firstMap (type : ElmProjectType) (listing : ElmJsonMap → Option String) : Option ElmJsonMap :=
  type.maps.find? fun field => (listing field).isSome

theorem findPackageMap_eq (elmJson : ElmJson) (name : PackageName) :
    findPackageMap elmJson name = firstMap elmJson.type (elmJson.listing name) := by
  unfold findPackageMap firstMap ElmJson.listing
  simp only [Option.isSome_map]

theorem firstMap_some {type : ElmProjectType} {listing : ElmJsonMap → Option String}
    {field : ElmJsonMap} (first : firstMap type listing = some field) :
    field ∈ type.maps ∧ (listing field).isSome = true := by
  unfold firstMap at first
  have holds := List.find?_some first
  exact ⟨List.mem_of_find?_eq_some first, holds⟩

theorem firstMap_none {type : ElmProjectType} {listing : ElmJsonMap → Option String}
    (none_ : firstMap type listing = none) {field : ElmJsonMap} (used : field ∈ type.maps) :
    listing field = none := by
  have absent := List.find?_eq_none.mp none_ field used
  rw [Option.not_isSome_iff_eq_none] at absent
  exact absent

/-- `collect_current_packages` keeps the first entry of a package. -/
theorem find_collectCurrentPackages (elmJson : ElmJson) (name : PackageName) :
    packageMapFind (collectCurrentPackages elmJson) name = findExistingPackage elmJson name := by
  have first : ∀ (entries : List Package) (map : PackageMap),
      packageMapFind (entries.foldl (fun current p =>
        (packageMapAdd current p.name p.version).getD current) map) name =
        (packageMapFind map name).or (entries.find? fun p => p.name = name) := by
    intro entries
    induction entries with
    | nil =>
      intro map
      rw [List.find?_nil, Option.or_none]
      rfl
    | cons p entries ih =>
      intro map
      have step : packageMapFind ((packageMapAdd map p.name p.version).getD map) name =
          (packageMapFind map name).or (if p.name = name then some p else none) := by
        change packageMapFind (map.add p.name p.version) name = _
        by_cases known : p.name ∈ map.names
        · rw [PackageMap.add_known known]
          split
          · rename_i same
            rw [same] at known
            obtain ⟨q, found⟩ := Option.isSome_iff_exists.mp (PackageMap.find_isSome.mpr known)
            rw [found, Option.some_or]
          · rw [Option.or_none]
        · have new : packageMapFind map p.name = none := by
            rw [← Option.not_isSome_iff_eq_none, PackageMap.find_isSome]
            exact known
          unfold packageMapFind at new ⊢
          rw [PackageMap.packages_add_new new, List.find?_append, List.find?_cons]
          by_cases same : p.name = name
          · subst same
            rw [new]
            simp
          · simp [same]
      rw [List.foldl_cons, ih, step, List.find?_cons, Option.or_assoc]
      by_cases same : p.name = name
      · simp [same]
      · simp [same]
  unfold collectCurrentPackages findExistingPackage
  rw [first, List.find?_flatMap]
  rfl

/-! ## Writers -/

theorem ElmJson.listing_setMap (elmJson : ElmJson) (field other : ElmJsonMap) (map : PackageMap)
    (name : PackageName) :
    (elmJson.setMap field map).listing name other =
      if other = field then (packageMapFind map name).map Package.version
      else elmJson.listing name other := by
  unfold listing
  rw [setMap_maps]
  split
  · rfl
  · rfl

theorem find_packageMapUpdate (map : PackageMap) (name other : PackageName) (version : String) :
    (packageMapFind (packageMapUpdate map name version) other).map Package.version =
      if other = name then (packageMapFind map name).map fun _ => version
      else (packageMapFind map other).map Package.version := by
  have names : ((fun p : Package => decide (p.name = other)) ∘ fun p : Package =>
      if p.name = name then { p with version := version } else p) =
      fun p : Package => decide (p.name = other) := by
    funext p
    dsimp only [Function.comp]
    split
    · rfl
    · rfl
  unfold packageMapFind packageMapUpdate
  dsimp only
  rw [List.find?_map, names]
  split
  · rename_i same
    rw [same]
    cases found : map.packages.find? fun p => p.name = name with
    | none => rfl
    | some p =>
      have named : p.name = name := by simpa using List.find?_some found
      simp [named]
  · rename_i apart
    cases found : map.packages.find? fun p => p.name = other with
    | none => rfl
    | some p =>
      have named : p.name = other := by simpa using List.find?_some found
      simp [named, apart]

theorem find_packageMapAdd (map : PackageMap) (name other : PackageName) (version : String) :
    (packageMapFind (map.add name version) other).map Package.version =
      if other = name then some (((packageMapFind map name).map Package.version).getD version)
      else (packageMapFind map other).map Package.version := by
  by_cases known : name ∈ map.names
  · rw [PackageMap.add_known known]
    split
    · rename_i same
      obtain ⟨p, found⟩ := Option.isSome_iff_exists.mp (PackageMap.find_isSome.mpr known)
      rw [same, found]
      rfl
    · rfl
  · have new : packageMapFind map name = none := by
      rw [← Option.not_isSome_iff_eq_none, PackageMap.find_isSome]
      exact known
    rw [new]
    unfold packageMapFind at new ⊢
    rw [PackageMap.packages_add_new new, List.find?_append]
    split
    · rename_i same
      rw [same, new]
      simp
    · rename_i apart
      simp [Ne.symm apart]

/-- The later file has this listing of the package, and the listings of the others are as
before. -/
structure ElmJson.Relists (elmJson changed : ElmJson) (name : PackageName)
    (listing : ElmJsonMap → Option String) : Prop where
  type : changed.type = elmJson.type
  own : changed.listing name = listing
  others : ∀ other, other ≠ name → changed.listing other = elmJson.listing other

theorem ElmJson.relists_refl (elmJson : ElmJson) (name : PackageName) :
    elmJson.Relists elmJson name (elmJson.listing name) :=
  ⟨rfl, rfl, fun _ _ => rfl⟩

theorem ElmJson.relists_update (elmJson : ElmJson) (field : ElmJsonMap) (name : PackageName)
    (version : String) :
    elmJson.Relists
      (elmJson.setMap field (packageMapUpdate (elmJson.maps field) name version)) name
      (Function.update (elmJson.listing name) field
        ((elmJson.listing name field).map fun _ => version)) where
  type := rfl
  own := by
    funext other
    rw [listing_setMap, find_packageMapUpdate, if_pos rfl, Function.update_apply]
    unfold listing
    rw [Option.map_map]
    rfl
  others other apart := by
    funext there
    rw [listing_setMap, find_packageMapUpdate, if_neg apart]
    split
    · rename_i same
      rw [same]
      rfl
    · rfl

theorem ElmJson.relists_add (elmJson : ElmJson) (field : ElmJsonMap) (name : PackageName)
    (version : String) :
    elmJson.Relists (elmJson.setMap field ((elmJson.maps field).add name version)) name
      (Function.update (elmJson.listing name) field
        (some ((elmJson.listing name field).getD version))) where
  type := rfl
  own := by
    funext other
    rw [listing_setMap, find_packageMapAdd, if_pos rfl, Function.update_apply]
    rfl
  others other apart := by
    funext there
    rw [listing_setMap, find_packageMapAdd, if_neg apart]
    split
    · rename_i same
      rw [same]
      rfl
    · rfl

/-- A package moves from one map to another; where the target lists it, the target's version
stays. -/
theorem ElmJson.relists_move (elmJson : ElmJson) (name : PackageName) (version : String)
    {source target : ElmJsonMap} (apart : source ≠ target) :
    elmJson.Relists (elmJson.move name version source target) name
      (Function.update (Function.update (elmJson.listing name) target
        (some ((elmJson.listing name target).getD version))) source none) where
  type := rfl
  own := by
    have added := (elmJson.relists_add target name version).own
    funext field
    by_cases here : field = source
    · rw [here, Function.update_self, listing_none]
      intro listed
      obtain ⟨p, member, same⟩ := List.mem_map.mp listed
      rw [mem_move apart, if_pos rfl] at member
      exact member.2 same
    · rw [Function.update_of_ne here, ← added]
      unfold listing move
      dsimp only
      rw [setMap_maps _ source, if_neg here]
  others other different := by
    have added := (elmJson.relists_add target name version).others other different
    funext field
    rw [← added]
    apply Option.ext
    intro text
    rw [listing_some, listing_some]
    unfold move
    dsimp only
    rw [setMap_maps _ source]
    split
    · rename_i here
      rw [mem_packageMapRemove, here]
      simp [different]
    · rfl

/-- The text of a version in a project of this type. -/
def projectText (type : ElmProjectType) (version : String) : String :=
  match type with
  | .application => version
  | .package => (versionToConstraint version).getD version

theorem addOrUpdatePackageInElmJson_eq (elmJson : ElmJson) (name : PackageName)
    (version : String) (isTest isDirect : Bool) :
    addOrUpdatePackageInElmJson elmJson name version isTest isDirect =
      match firstMap elmJson.type (elmJson.listing name) with
      | some field => some (elmJson.setMap field
          (packageMapUpdate (elmJson.maps field) name (projectText elmJson.type version)))
      | none => (packageMapAdd (elmJson.maps (targetMap elmJson.type isTest isDirect)) name
          (projectText elmJson.type version)).map
            (elmJson.setMap (targetMap elmJson.type isTest isDirect)) := by
  rw [← findPackageMap_eq]
  rfl

theorem addOrUpdatePackageInElmJson_relists (elmJson : ElmJson) (name : PackageName)
    (version : String) (isTest isDirect : Bool) :
    ∃ next, addOrUpdatePackageInElmJson elmJson name version isTest isDirect = some next ∧
      elmJson.Relists next name (match firstMap elmJson.type (elmJson.listing name) with
        | none => Function.update (elmJson.listing name)
            (targetMap elmJson.type isTest isDirect) (some (projectText elmJson.type version))
        | some field => Function.update (elmJson.listing name) field
            (some (projectText elmJson.type version))) := by
  rw [addOrUpdatePackageInElmJson_eq]
  cases found : firstMap elmJson.type (elmJson.listing name) with
  | some field =>
    obtain ⟨version_, here⟩ := Option.isSome_iff_exists.mp (firstMap_some found).2
    have relists := elmJson.relists_update field name (projectText elmJson.type version)
    rw [here, Option.map_some] at relists
    exact ⟨_, rfl, relists⟩
  | none =>
    have absent := firstMap_none found (targetMap_mem elmJson.type isTest isDirect)
    obtain ⟨map, added⟩ := packageMapAdd_some (projectText elmJson.type version)
      (ElmJson.listing_none.mp absent)
    have relists := elmJson.relists_add (targetMap elmJson.type isTest isDirect) name
      (projectText elmJson.type version)
    rw [absent, Option.getD_none] at relists
    refine ⟨_, by rw [added]; rfl, ?_⟩
    unfold PackageMap.add at relists
    rw [added] at relists
    exact relists

/-! ## A plan, package by package -/

/-- The loop over a plan: each change decides what its package is listed as. -/
theorem foldlM_relists {f : ElmJson → PackageChange → Option ElmJson}
    {F : PackageChange → (ElmJsonMap → Option String) → ElmJsonMap → Option String}
    {plan : InstallPlan} (nodup : (plan.map PackageChange.name).Nodup) {elmJson : ElmJson}
    (step : ∀ change ∈ plan, ∀ current, current.type = elmJson.type →
      current.listing change.name = elmJson.listing change.name →
      ∃ next, f current change = some next ∧
        current.Relists next change.name (F change (current.listing change.name))) :
    ∃ final, plan.foldlM f elmJson = some final ∧ final.type = elmJson.type ∧
      (∀ change ∈ plan, final.listing change.name =
        F change (elmJson.listing change.name)) ∧
      ∀ name, name ∉ plan.map PackageChange.name →
        final.listing name = elmJson.listing name := by
  induction plan generalizing elmJson with
  | nil =>
    refine ⟨elmJson, rfl, rfl, ?_, fun _ _ => rfl⟩
    intro change member
    cases member
  | cons change plan ih =>
    rw [List.map_cons, List.nodup_cons] at nodup
    obtain ⟨fresh, nodup⟩ := nodup
    have later : ∀ other ∈ plan, other.name ≠ change.name := by
      intro other member same
      exact fresh (same ▸ List.mem_map_of_mem member)
    obtain ⟨next, first, relists⟩ := step change List.mem_cons_self elmJson rfl rfl
    obtain ⟨final, run, type, own, others⟩ := @ih nodup next (by
      intro other member current same listed
      rw [relists.type] at same
      rw [relists.others other.name (later other member)] at listed
      exact step other (List.mem_cons_of_mem _ member) current same listed)
    rw [List.foldlM_cons, first]
    refine ⟨final, run, type.trans relists.type, ?_, ?_⟩
    · intro other member
      rcases List.mem_cons.mp member with rfl | rest
      · rw [others other.name fresh, relists.own]
      · rw [own other rest, relists.others other.name (later other rest)]
    · intro name outside
      rw [List.map_cons, List.mem_cons, not_or] at outside
      rw [others name outside.2, relists.others name outside.1]

end ElmWrap
