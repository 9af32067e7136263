import ElmWrap.Lib.Json

/-!
# Members of objects

What the readers of the code take from a value that `cJSON_Parse` has returned.
-/

namespace ElmWrap

open Lib (Json)

/-- The letters of a name as `tolower` gives them. -/
def lowered (name : String) : List Char := name.toList.map Char.toLower

/-- `cJSON_GetObjectItem`, which does not look at the case of letters. -/
def getObjectItem (json : Json) (name : String) : Option Json :=
  (json.children.find? fun child => child.1.map lowered = some (lowered name)).map Prod.snd

end ElmWrap
