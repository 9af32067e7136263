import ElmWrap.CJsonParse
import ElmWrap.ExposedModules

/-!
# The text of a package's elm.json

A text with a member `exposed-modules`, which is a list of modules or has a list for every
category, between any other members, with any white space and with any escapes. The reader
of `elm_project.c` gets the modules from it in their order.
-/

namespace ElmWrap

open Lib (Json)
open Lib.JsonText

/-! ## The texts -/

/-- The characters of module names; letters outside of ASCII have higher bytes only. -/
def isModuleChar (c : Char) : Bool := c.isAlphanum || c = '_' || c = '.' || '\x80' ≤ c

/-- A module, and the text of its name between the quotes. -/
structure ModuleName where
  raw : List Char
  bytes : List Char
  body : Body raw bytes
  chars : ∀ c ∈ bytes, isModuleChar c = true

/-- The name as a reader has it. -/
def ModuleName.value (m : ModuleName) : String := cString m.bytes

/-- The name is written without escapes. -/
def ModuleName.Plain (m : ModuleName) : Prop := '\\' ∉ m.raw

/-- A category; its name is any string. -/
structure Category where
  raw : List Char
  bytes : List Char
  body : Body raw bytes
  modules : List ModuleName

/-- The value of `exposed-modules`. -/
inductive ExposedMember
  | flat (modules : List ModuleName)
  | categorised (categories : List Category)

namespace ExposedMember

def modules : ExposedMember → List ModuleName
  | flat modules => modules
  | categorised categories => categories.flatMap Category.modules

end ExposedMember

/-- A module in quotes. -/
def ModuleText (m : ModuleName) (text : List Char) : Prop := text = '"' :: m.raw ++ ['"']

/-- A list of modules. -/
def ModulesText (modules : List ModuleName) (text : List Char) : Prop :=
  ∃ inner, Listed ModuleText modules inner ∧ text = '[' :: inner ++ [']']

/-- A category and its list. -/
def CategoryText (category : Category) (text : List Char) : Prop :=
  ∃ trail lead list, Blank trail ∧ Blank lead ∧ ModulesText category.modules list ∧
    text = '"' :: category.raw ++ '"' :: trail ++ ':' :: (lead ++ list)

/-- The value of `exposed-modules` as a text. -/
def ExposedText : ExposedMember → List Char → Prop
  | .flat modules, text => ModulesText modules text
  | .categorised categories, text =>
    ∃ inner, Listed CategoryText categories inner ∧ text = '{' :: inner ++ ['}']

/-- Members of the document. -/
abbrev Members : List (String × Json) → List Char → Prop :=
  Separated (MemberText (Written (cjsonNestingLimit - 1)))

/-- Members with a comma behind them, or none. -/
def Ahead (members : List (String × Json)) (text : List Char) : Prop :=
  members = [] ∧ Blank text ∨
    ∃ texts blank, Members members texts ∧ Blank blank ∧ text = texts ++ ',' :: blank

/-- Members with a comma before them, or none. -/
def Behind (members : List (String × Json)) (text : List Char) : Prop :=
  members = [] ∧ Blank text ∨
    ∃ blank texts, Blank blank ∧ Members members texts ∧ text = blank ++ ',' :: texts

/-- The text of an `elm.json`; `exposed-modules` is the first member of this name. -/
structure PackageElmJson where
  start : List Char
  before : List (String × Json)
  opening : List Char
  keyRaw : List Char
  gap : List Char
  gap' : List Char
  exposed : ExposedMember
  value : List Char
  after : List (String × Json)
  closing : List Char
  finish : List Char
  startBlank : Blank start
  ahead : Ahead before opening
  first : ∀ member ∈ before, lowered member.1 ≠ lowered "exposed-modules"
  key : Body keyRaw "exposed-modules".toList
  gapBlank : Blank gap
  gapBlank' : Blank gap'
  written : ExposedText exposed value
  behind : Behind after closing
  finishBlank : Blank finish

namespace PackageElmJson

/-- What follows the value of `exposed-modules`. -/
def tail (json : PackageElmJson) : List Char := json.closing ++ '}' :: json.finish

/-- The text from the key on. -/
def fromKey (json : PackageElmJson) : List Char :=
  '"' :: json.keyRaw ++ '"' :: json.gap ++ ':' :: (json.gap' ++ json.value) ++ json.tail

def text (json : PackageElmJson) : List Char :=
  json.start ++ '{' :: json.opening ++ json.fromKey

end PackageElmJson

/-! ## The reader -/

theorem ModuleName.string (m : ModuleName) {text : List Char} (here : ModuleText m text) :
    AtomText (.string m.value) text :=
  .string ⟨m.raw, m.bytes, m.body, here, rfl⟩

/-- The list as a value. -/
def modulesJson (modules : List ModuleName) : Json :=
  .array (modules.map fun m => .string m.value)

theorem modulesText_written {modules : List ModuleName} {text : List Char}
    (here : ModulesText modules text) (depth : Nat) :
    Written (depth + 1) (modulesJson modules) text := by
  obtain ⟨inner, listed, rfl⟩ := here
  exact Or.inr (.array (listed.map _ fun m _ here => Written.deeper (m.string here)))

/-- A category as a member. -/
def Category.member (category : Category) : String × Json :=
  (cString category.bytes, modulesJson category.modules)

theorem categoryText_member {category : Category} {text : List Char}
    (here : CategoryText category text) (depth : Nat) :
    MemberText (Written (depth + 1)) category.member text := by
  obtain ⟨trail, lead, list, after, before, modules, rfl⟩ := here
  refine ⟨'"' :: category.raw ++ ['"'], trail, lead, list,
    ⟨category.raw, category.bytes, category.body, rfl, rfl⟩, after, before,
    modulesText_written modules depth, by simp⟩

/-- The value of `exposed-modules`. -/
def ExposedMember.json : ExposedMember → Json
  | flat modules => modulesJson modules
  | categorised categories => .object (categories.map Category.member)

theorem exposedText_written {exposed : ExposedMember} {text : List Char}
    (here : ExposedText exposed text) (depth : Nat) :
    Written (depth + 2) exposed.json text := by
  cases exposed with
  | flat modules => exact modulesText_written here (depth + 1)
  | categorised categories =>
    obtain ⟨inner, listed, rfl⟩ := here
    exact Or.inr (.object
      (listed.map Category.member fun _ _ here => categoryText_member here depth))

theorem exposedNames_modules (modules : List ModuleName) :
    exposedNames (modulesJson modules) = modules.map ModuleName.value := by
  simp [exposedNames, modulesJson, List.filterMap_map, Function.comp_def, Json.text?]

theorem exposedNames_json (exposed : ExposedMember) :
    exposedNames exposed.json = exposed.modules.map ModuleName.value := by
  cases exposed with
  | flat modules => exact exposedNames_modules modules
  | categorised categories =>
    change (categories.map Category.member).flatMap _ = _
    rw [List.flatMap_map, ExposedMember.modules, List.map_flatMap]
    congr 1
    funext category
    exact exposedNames_modules category.modules

namespace PackageElmJson

/-- The document. -/
def root (json : PackageElmJson) : Json :=
  .object (json.before ++ ("exposed-modules", json.exposed.json) :: json.after)

/-- The member as it stands in the document. -/
theorem member (json : PackageElmJson) :
    MemberText (Written (cjsonNestingLimit - 1)) ("exposed-modules", json.exposed.json)
      ('"' :: json.keyRaw ++ '"' :: json.gap ++ ':' :: (json.gap' ++ json.value)) :=
  ⟨'"' :: json.keyRaw ++ ['"'], json.gap, json.gap', json.value,
    ⟨json.keyRaw, _, json.key, rfl, rfl⟩, json.gapBlank, json.gapBlank',
    exposedText_written json.written 997, by simp⟩

/-- The members from the key on. -/
theorem fromKey_members (json : PackageElmJson) {blank : List Char} (white : Blank blank) :
    Members (("exposed-modules", json.exposed.json) :: json.after)
      (blank ++ ('"' :: json.keyRaw ++ '"' :: json.gap ++ ':' :: (json.gap' ++ json.value) ++
        json.closing)) := by
  rcases json.behind with ⟨none_, after⟩ | ⟨blank', texts, after, others, same⟩
  · rw [none_, ← List.append_assoc]
    exact .one white json.member after
  · have joined := Separated.more white json.member after others
    rw [same, ← List.append_assoc blank, ← List.append_assoc (blank ++ _)]
    exact joined

theorem document (json : PackageElmJson) :
    Document cjsonNestingLimit json.root json.text := by
  have members : Members (json.before ++ ("exposed-modules", json.exposed.json) :: json.after)
      (json.opening ++
        ('"' :: json.keyRaw ++ '"' :: json.gap ++ ':' :: (json.gap' ++ json.value) ++
          json.closing)) := by
    rcases json.ahead with ⟨none_, blank⟩ | ⟨texts, blank, ahead, white, same⟩
    · rw [none_]
      exact json.fromKey_members blank
    · have joined := ahead.append (json.fromKey_members white)
      rw [same, List.append_assoc, List.cons_append]
      exact joined
  refine ⟨json.start, _, json.finish, json.startBlank,
    Or.inr (.object (Or.inr members)), json.finishBlank, ?_⟩
  simp [text, fromKey, tail]

theorem exposedModulesOf_root (json : PackageElmJson) :
    exposedModulesOf json.root = json.exposed.modules.map ModuleName.value := by
  have found : getObjectItem json.root "exposed-modules" = some json.exposed.json := by
    have others : ∀ child ∈ json.before.map fun member => (some member.1, member.2),
        ¬ (child.1.map lowered = some (lowered "exposed-modules")) := by
      intro child inside
      obtain ⟨member, listed, rfl⟩ := List.mem_map.mp inside
      simpa using json.first member listed
    unfold getObjectItem
    simp only [root, Json.children, List.map_append, List.map_cons]
    rw [List.find?_append, List.find?_eq_none.mpr fun child inside => by
      simpa using others child inside]
    simp
  rw [exposedModulesOf, found, Option.map_some, Option.getD_some, exposedNames_json]

/-- The reader gets the modules. -/
theorem elmParseExposedModules_text (json : PackageElmJson) :
    elmParseExposedModules (cjsonParse json.text) =
      some (json.exposed.modules.map ModuleName.value) := by
  rw [cjsonParse_document json.document, elmParseExposedModules, Option.map_some,
    exposedModulesOf_root]

end PackageElmJson

end ElmWrap
