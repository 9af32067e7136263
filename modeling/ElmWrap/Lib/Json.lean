/-!
# JSON values

JSON as a tree. The members of an object keep their order and may repeat a name,
and a number is kept as its literal.
-/

namespace ElmWrap.Lib

inductive Json
  | null
  | bool (value : Bool)
  | number (literal : String)
  | string (value : String)
  | array (items : List Json)
  | object (members : List (String × Json))
deriving Repr

namespace Json

/-- The values an array or an object holds, with their names in an object. -/
def children : Json → List (Option String × Json)
  | .array items => items.map fun item => (none, item)
  | .object members => members.map fun member => (some member.1, member.2)
  | _ => []

/-- The text of a string. -/
def text? : Json → Option String
  | .string value => some value
  | _ => none

end Json

end ElmWrap.Lib
