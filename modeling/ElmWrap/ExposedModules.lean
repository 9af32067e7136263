import ElmWrap.CJson

/-!
# The exposed modules of a package

The `exposed-modules` of an `elm.json` are a list, or an object with a list for
every category. The source has the reader several times.
-/

namespace ElmWrap

open Lib (Json)

/-- The strings of a list, or of the lists of an object. -/
def exposedNames : Json → List String
  | .array items => items.filterMap Json.text?
  | .object categories => categories.flatMap fun category =>
    match category.2 with
    | .array items => items.filterMap Json.text?
    | _ => []
  | _ => []

/-- The reader of a parsed `elm.json`. -/
def exposedModulesOf (root : Json) : List String :=
  ((getObjectItem root "exposed-modules").map exposedNames).getD []

/-- `elm_parse_exposed_modules` of `elm_project.c`, given what `cJSON_Parse` returns. -/
def elmParseExposedModules (root : Option Json) : Option (List String) := root.map exposedModulesOf

end ElmWrap
