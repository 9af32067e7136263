import ElmWrap.CJson
import ElmWrap.CJsonParse
import ElmWrap.ElmJson.Maps
import ElmWrap.Lib.StrictJson

/-!
# Reading and writing `elm.json`

`elm_json_read` and `elm_json_write` of `elm_json.c`, for the contents of the file. The
formatter writes names and strings as they are, and nothing for the values it does not
expect. The characters of a text stand for its bytes.
-/

namespace ElmWrap

open Lib (Json)

/-! ## The formatter -/

/-- `INDENT`. -/
def indent (level : Nat) : List Char := (List.replicate level [' ', ' ', ' ', ' ']).flatten

/-- `"%s"` between quotes. -/
def quoted (text : String) : List Char := '"' :: text.toList ++ ['"']

/-- The items of an array or an object, one in a line. -/
def formatLines (level : Nat) : List (List Char) → List Char
  | [] => []
  | [text] => indent level ++ text ++ ['\n']
  | text :: next :: rest =>
    indent level ++ text ++ ',' :: '\n' :: formatLines level (next :: rest)

/-- An array or an object in lines. -/
def formatBlock (level : Nat) (first last : Char) (items : List (List Char)) : List Char :=
  first :: '\n' :: formatLines (level + 1) items ++ indent level ++ [last]

/-- `"%s": ` and a value. -/
def formatMember (name : String) (value : List Char) : List Char :=
  quoted name ++ ':' :: ' ' :: value

/-- `valuestring` in a `%s`. -/
def valuestring : Json → String
  | .string value => value
  | _ => "(null)"

/-- A value inside of an object inside of the root. -/
def formatInner : Json → List Char
  | .string value => quoted value
  | .object [] => ['{', '}']
  | .object members => formatBlock 2 '{' '}' (members.map fun member =>
    formatMember member.1 (quoted (valuestring member.2)))
  | _ => []

/-- An item of an array. -/
def formatItem : Json → List Char
  | .string value => quoted value
  | _ => []

/-- A value inside of the root. -/
def formatValue : Json → List Char
  | .string value => quoted value
  | .array items => formatBlock 1 '[' ']' (items.map formatItem)
  | .object members => formatBlock 1 '{' '}' (members.map fun member =>
    formatMember member.1 (formatInner member.2))
  | _ => []

/-- The values that a value holds, with their names. -/
abbrev Children := List (Option String × Json)

/-- `write_elm_json_formatted_to_file`, of a value that holds these. -/
def writeElmJsonFormatted (children : Children) : List Char :=
  formatBlock 0 '{' '}' (children.map fun child =>
    formatMember (child.1.getD "(null)") (formatValue child.2)) ++ ['\n']

/-! ## The tree -/

/-- `cJSON_GetObjectItem` takes the value for the one with this name. -/
def isCalled (name : String) (child : Option String × Json) : Bool :=
  child.1.map lowered = some (lowered name)

/-- `cJSON_DeleteItemFromObject` and `cJSON_AddItemToObject`. -/
def setObjectItem (children : Children) (name : String) (value : Json) : Children :=
  children.eraseP (isCalled name) ++ [(some name, value)]

/-- The object of the entries of a map. A name fits into `key`, as it is shorter than
`MAX_KEY_LENGTH`. -/
def packagesJson (map : PackageMap) : Json :=
  .object (map.packages.map fun p => (p.name.full, .string p.version))

/-- What `elm_json_write` puts into the place of `dependencies`. -/
def dependenciesJson (elmJson : ElmJson) : Json :=
  match elmJson.type with
  | .application => .object [("direct", packagesJson (elmJson.maps .dependenciesDirect)),
      ("indirect", packagesJson (elmJson.maps .dependenciesIndirect))]
  | .package => packagesJson (elmJson.maps .packageDependencies)

/-- What it puts into the place of `test-dependencies`. -/
def testDependenciesJson (elmJson : ElmJson) : Json :=
  match elmJson.type with
  | .application => .object [("direct", packagesJson (elmJson.maps .dependenciesTestDirect)),
      ("indirect", packagesJson (elmJson.maps .dependenciesTestIndirect))]
  | .package => packagesJson (elmJson.maps .packageTestDependencies)

/-- `MAX_ELM_JSON_FILE_BYTES`. -/
def maxElmJsonFileBytes : Nat := 1048576

/-- `elm_json_write`: the new contents of the file. -/
def elmJsonWrite (elmJson : ElmJson) (file : List Char) : Option (List Char) :=
  if maxElmJsonFileBytes < file.length then none
  else
    (cjsonParse file).map fun json =>
      let sorted := elmJson.sortMaps
      let children := setObjectItem json.children "dependencies" (dependenciesJson sorted)
      writeElmJsonFormatted
        (setObjectItem children "test-dependencies" (testDependenciesJson sorted))

/-! ## Reading -/

/-- `MAX_ELM_JSON_DEPENDENCY_ENTRIES`. -/
def maxElmJsonDependencyEntries : Nat := 4096

/-- `MAX_ELM_JSON_VERSION_VALUE_LENGTH`. -/
def maxElmJsonVersionValueLength : Nat := 128

/-- The loop of `elm_json_read` over the entries of a map, after some of them. -/
def readMembers (entries : Nat) (map : PackageMap) : List (String × Json) → Option PackageMap
  | [] => some map
  | (full_name, package) :: rest =>
    if maxElmJsonDependencyEntries < entries + 1 then none
    else
      match package with
      | .string version =>
        if maxElmJsonVersionValueLength ≤ version.toList.length then none
        else
          match parsePackageName full_name with
          | none => readMembers (entries + 1) map rest
          | some name =>
            match packageMapAdd map name version with
            | none => none
            | some map => readMembers (entries + 1) map rest
      | _ => readMembers (entries + 1) map rest

/-- A map of `elm_json_read`; one that is no object is passed over. -/
def readMap : Option Json → Option PackageMap
  | some (.object members) => readMembers 0 packageMapCreate members
  | _ => some packageMapCreate

/-- The `ElmJson` that `elm_json_read` returns. -/
structure ElmJsonFile where
  elmJson : ElmJson
  elmVersion : String
  packageName : Option String
  packageVersion : Option String

/-- The value of a member that is a string. -/
def stringItem (json : Json) (name : String) : Option String :=
  (getObjectItem json name).bind Json.text?

/-- The maps of an application. -/
def readApplicationMaps (json : Json) : Option (ElmJsonMap → PackageMap) := do
  let deps := getObjectItem json "dependencies"
  let direct ← readMap (deps.bind (getObjectItem · "direct"))
  let indirect ← readMap (deps.bind (getObjectItem · "indirect"))
  let testDeps := getObjectItem json "test-dependencies"
  let testDirect ← readMap (testDeps.bind (getObjectItem · "direct"))
  let testIndirect ← readMap (testDeps.bind (getObjectItem · "indirect"))
  some fun
    | .dependenciesDirect => direct
    | .dependenciesIndirect => indirect
    | .dependenciesTestDirect => testDirect
    | .dependenciesTestIndirect => testIndirect
    | _ => packageMapCreate

/-- The maps of a package. -/
def readPackageMaps (json : Json) : Option (ElmJsonMap → PackageMap) := do
  let deps ← readMap (getObjectItem json "dependencies")
  let testDeps ← readMap (getObjectItem json "test-dependencies")
  some fun
    | .packageDependencies => deps
    | .packageTestDependencies => testDeps
    | _ => packageMapCreate

/-- The type of the project. -/
def readType (json : Json) : Option ElmProjectType :=
  match stringItem json "type" with
  | some "application" => some .application
  | some "package" => some .package
  | _ => none

/-- `elm_json_read`. -/
def elmJsonRead (file : List Char) : Option ElmJsonFile :=
  if maxElmJsonFileBytes < file.length then none
  else do
    let json ← cjsonParse file
    let type ← readType json
    let elmVersion := (stringItem json "elm-version").getD "0.19.1"
    match type with
    | .application =>
      let maps ← readApplicationMaps json
      some ⟨⟨.application, maps⟩, elmVersion, none, none⟩
    | .package =>
      let maps ← readPackageMaps json
      some ⟨⟨.package, maps⟩, elmVersion, stringItem json "name", stringItem json "version"⟩

end ElmWrap
