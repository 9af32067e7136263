import ElmWrap.ElmJson.Maps

/-!
# Promotion

`elm_json_find_package` and `elm_json_promote_package`: a package that is listed
as an indirect or a test dependency becomes a direct one.
-/

namespace ElmWrap

open Lib

/-- `PromotionType`. -/
inductive PromotionType
  | none
  | indirectToDirect
  | testToDirect
  | testIndirectToTestDirect
deriving DecidableEq, Repr

/-- A map lists the package. -/
def PackageMap.has (map : PackageMap) (name : PackageName) : Bool :=
  (packageMapFind map name).isSome

theorem PackageMap.has_iff {map : PackageMap} {name : PackageName} :
    map.has name = true ↔ name ∈ map.names := find_isSome

/-- `elm_json_find_package`. -/
def elmJsonFindPackage (elmJson : ElmJson) (name : PackageName) : PromotionType :=
  match elmJson.type with
  | .application =>
    if (elmJson.maps .dependenciesDirect).has name then .none
    else if (elmJson.maps .dependenciesIndirect).has name then .indirectToDirect
    else if (elmJson.maps .dependenciesTestDirect).has name then .testToDirect
    else if (elmJson.maps .dependenciesTestIndirect).has name then .testIndirectToTestDirect
    else .none
  | .package =>
    if (elmJson.maps .packageDependencies).has name then .none
    else if (elmJson.maps .packageTestDependencies).has name then .testToDirect
    else .none

/-- The maps from which and to which a promotion moves a package. -/
def PromotionType.maps : PromotionType → ElmProjectType → Option (ElmJsonMap × ElmJsonMap)
  | .none, _ => Option.none
  | .indirectToDirect, .application => some (.dependenciesIndirect, .dependenciesDirect)
  | .testToDirect, .application => some (.dependenciesTestDirect, .dependenciesDirect)
  | .testIndirectToTestDirect, .application =>
    some (.dependenciesTestIndirect, .dependenciesTestDirect)
  | .testToDirect, .package => some (.packageTestDependencies, .packageDependencies)
  | _, .package => Option.none

/-- `elm_json_promote_package`; `none` when it returns `false`. -/
def elmJsonPromotePackage (elmJson : ElmJson) (name : PackageName) : Option ElmJson :=
  match (elmJsonFindPackage elmJson name).maps elmJson.type with
  | none => none
  | some (source, target) =>
    match packageMapFind (elmJson.maps source) name with
    | none => none
    | some p => some (elmJson.move name p.version source target)

/-- A promotion moves a package between two maps of the project. -/
theorem PromotionType.maps_used {promotion : PromotionType} {type : ElmProjectType}
    {source target : ElmJsonMap} (moves : promotion.maps type = some (source, target)) :
    source ∈ type.maps ∧ target ∈ type.maps ∧ source ≠ target := by
  cases type with
  | application =>
    cases promotion with
    | none => cases moves
    | _ => cases moves; decide
  | package =>
    cases promotion with
    | testToDirect => cases moves; decide
    | _ => cases moves

theorem elmJsonPromotePackage_some {elmJson promoted : ElmJson} {name : PackageName}
    (result : elmJsonPromotePackage elmJson name = some promoted) :
    ∃ source target version, source ∈ elmJson.type.maps ∧ target ∈ elmJson.type.maps ∧
      source ≠ target ∧ ⟨name, version⟩ ∈ (elmJson.maps source).packages ∧
      promoted = elmJson.move name version source target := by
  unfold elmJsonPromotePackage at result
  split at result
  · cases result
  · rename_i source target moves
    obtain ⟨from_, to_, apart⟩ := PromotionType.maps_used moves
    split at result
    · cases result
    · rename_i p found
      obtain ⟨member, same⟩ := packageMapFind_some found
      cases result
      refine ⟨source, target, p.version, from_, to_, apart, ?_, rfl⟩
      rw [← same]
      exact member

end ElmWrap
