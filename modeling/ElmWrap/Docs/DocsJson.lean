import ElmWrap.CJsonPrint
import ElmWrap.Lib.Scan
import ElmWrap.Lib.StrictJson

/-!
# `print_docs_json`

The writer of `docs.json` decides every comma, bracket and escape itself. Its text is a
document of the standard, in UTF-8, and what a parser returns for it says the same
modules. The characters of a string stand for its bytes; a null pointer is printed as the
empty string, and is the empty string here.
-/

namespace ElmWrap.Docs

open Lib (Json)
open Lib.JsonText (Blank Separated Listed Body)
open Lib.StrictJson

/-! ## The docs -/

structure ElmValue where
  name : String
  comment : String
  type : String
deriving DecidableEq

structure ElmAlias where
  name : String
  comment : String
  args : List String
  type : String
deriving DecidableEq

structure ElmUnionCase where
  name : String
  argTypes : List String
deriving DecidableEq

structure ElmUnion where
  name : String
  comment : String
  args : List String
  cases : List ElmUnionCase
deriving DecidableEq

structure ElmBinop where
  name : String
  comment : String
  type : String
  precedence : Int
  associativity : String
deriving DecidableEq

structure ElmModuleDocs where
  name : String
  comment : String
  values : List ElmValue
  aliases : List ElmAlias
  unions : List ElmUnion
  binops : List ElmBinop
deriving DecidableEq

/-! ## Printing -/

/-- A character as `print_json_string` writes it. -/
def printJsonChar (c : Char) : List Char :=
  if c = '"' then ['\\', '"']
  else if c = '\\' then ['\\', '\\']
  else if c = '\x08' then ['\\', 'b']
  else if c = '\x0c' then ['\\', 'f']
  else if c = '\n' then ['\\', 'n']
  else if c = '\r' then ['\\', 'r']
  else if c = '\t' then ['\\', 't']
  else if c.toNat < 32 then
    ['\\', 'u', '0', '0', Nat.digitChar (c.toNat / 16), Nat.digitChar (c.toNat % 16)]
  else [c]

/-- `print_json_string`. -/
def printJsonString (str : String) : List Char :=
  '"' :: str.toList.flatMap printJsonChar ++ ['"']

/-- The loops that print a separator in front of each item but the first. -/
def printSeparated {α : Type} (separator : List Char) (print : α → List Char) : List α → List Char
  | [] => []
  | item :: rest => print item ++ rest.flatMap fun item => separator ++ print item

/-- A list of strings. -/
def printStrings (items : List String) : List Char :=
  '[' :: printSeparated [',', ' '] printJsonString items ++ [']']

/-- The name of a member, on a line of its own. -/
def printKey (indent : Nat) (name : String) : List Char :=
  '\n' :: List.replicate indent ' ' ++ '"' :: name.toList ++ ['"', ':', ' ']

/-- A list of objects, one below the other. -/
def printObjects {α : Type} (print : α → List Char) (items : List α) : List Char :=
  '[' :: printSeparated [','] (fun item => "\n      ".toList ++ print item) items ++
    (if items = [] then [] else "\n    ".toList) ++ [']']

/-- A case of a union. -/
def printCase (c : ElmUnionCase) : List Char :=
  '[' :: printJsonString c.name ++ [',', ' '] ++ printStrings c.argTypes ++ [']']

/-- The end of an object below a module. -/
def objectEnd : List Char := "\n      \x7d".toList

def printUnion (u : ElmUnion) : List Char :=
  '{' :: (printKey 8 "name" ++ printJsonString u.name ++
    ',' :: (printKey 8 "comment" ++ printJsonString u.comment ++
    ',' :: (printKey 8 "args" ++ printStrings u.args ++
    ',' :: (printKey 8 "cases" ++ ('[' :: printSeparated [',', ' '] printCase u.cases ++ [']']) ++
      objectEnd))))

def printAlias (a : ElmAlias) : List Char :=
  '{' :: (printKey 8 "name" ++ printJsonString a.name ++
    ',' :: (printKey 8 "comment" ++ printJsonString a.comment ++
    ',' :: (printKey 8 "args" ++ printStrings a.args ++
    ',' :: (printKey 8 "type" ++ printJsonString a.type ++ objectEnd))))

def printElmValue (v : ElmValue) : List Char :=
  '{' :: (printKey 8 "name" ++ printJsonString v.name ++
    ',' :: (printKey 8 "comment" ++ printJsonString v.comment ++
    ',' :: (printKey 8 "type" ++ printJsonString v.type ++ objectEnd)))

def printBinop (b : ElmBinop) : List Char :=
  '{' :: (printKey 8 "name" ++ printJsonString b.name ++
    ',' :: (printKey 8 "comment" ++ printJsonString b.comment ++
    ',' :: (printKey 8 "type" ++ printJsonString b.type ++
    ',' :: (printKey 8 "associativity" ++ printJsonString b.associativity ++
    ',' :: (printKey 8 "precedence" ++ (toString b.precedence).toList ++ objectEnd)))))

/-- The body of the loop over the modules, up to the end of the object. -/
def printModuleDocs (docs : ElmModuleDocs) : List Char :=
  '{' :: (printKey 4 "name" ++ printJsonString docs.name ++
    ',' :: (printKey 4 "comment" ++ printJsonString docs.comment ++
    ',' :: (printKey 4 "unions" ++ printObjects printUnion docs.unions ++
    ',' :: (printKey 4 "aliases" ++ printObjects printAlias docs.aliases ++
    ',' :: (printKey 4 "values" ++ printObjects printElmValue docs.values ++
    ',' :: (printKey 4 "binops" ++ printObjects printBinop docs.binops ++ "\n  \x7d".toList))))))

/-- The loop over the modules. -/
def printModules : List ElmModuleDocs → List Char
  | [] => []
  | docs :: rest =>
    "  ".toList ++ printModuleDocs docs ++ (if rest = [] then [] else [',']) ++
      '\n' :: printModules rest

/-- `print_docs_json`. -/
def printDocsJson (docs : List ElmModuleDocs) : List Char :=
  "[\n".toList ++ printModules docs ++ "]\n".toList

/-! ## The values that are printed -/

def ElmValue.json (v : ElmValue) : Json :=
  .object [("name", .string v.name), ("comment", .string v.comment), ("type", .string v.type)]

/-- A list of strings. -/
def stringsJson (items : List String) : Json := .array (items.map .string)

def ElmAlias.json (a : ElmAlias) : Json :=
  .object [("name", .string a.name), ("comment", .string a.comment),
    ("args", stringsJson a.args), ("type", .string a.type)]

def ElmUnionCase.json (c : ElmUnionCase) : Json :=
  .array [.string c.name, stringsJson c.argTypes]

def ElmUnion.json (u : ElmUnion) : Json :=
  .object [("name", .string u.name), ("comment", .string u.comment),
    ("args", stringsJson u.args), ("cases", .array (u.cases.map ElmUnionCase.json))]

def ElmBinop.json (b : ElmBinop) : Json :=
  .object [("name", .string b.name), ("comment", .string b.comment), ("type", .string b.type),
    ("associativity", .string b.associativity), ("precedence", .number (toString b.precedence))]

def ElmModuleDocs.json (docs : ElmModuleDocs) : Json :=
  .object [("name", .string docs.name), ("comment", .string docs.comment),
    ("unions", .array (docs.unions.map ElmUnion.json)),
    ("aliases", .array (docs.aliases.map ElmAlias.json)),
    ("values", .array (docs.values.map ElmValue.json)),
    ("binops", .array (docs.binops.map ElmBinop.json))]

/-- The value of a whole `docs.json`. -/
def docsJson (docs : List ElmModuleDocs) : Json := .array (docs.map ElmModuleDocs.json)

/-! ## The strings of the docs -/

def ElmValue.strings (v : ElmValue) : List String := [v.name, v.comment, v.type]

def ElmAlias.strings (a : ElmAlias) : List String := [a.name, a.comment, a.type] ++ a.args

def ElmUnionCase.strings (c : ElmUnionCase) : List String := c.name :: c.argTypes

def ElmUnion.strings (u : ElmUnion) : List String :=
  [u.name, u.comment] ++ u.args ++ u.cases.flatMap ElmUnionCase.strings

def ElmBinop.strings (b : ElmBinop) : List String := [b.name, b.comment, b.type, b.associativity]

def ElmModuleDocs.strings (docs : ElmModuleDocs) : List String :=
  [docs.name, docs.comment] ++ docs.values.flatMap ElmValue.strings ++
    docs.aliases.flatMap ElmAlias.strings ++ docs.unions.flatMap ElmUnion.strings ++
    docs.binops.flatMap ElmBinop.strings

/-- A C string in UTF-8. -/
structure Utf8String (text : String) : Prop where
  noNull : NulFree text
  encoded : ValidUtf8 text.toList

/-! ## Reading -/

/-- The member of a name. -/
def member (name : String) : Json → Option Json
  | .object members => (members.find? fun m => m.1 = name).map Prod.snd
  | _ => none

/-- The string of a name. -/
def textMember (name : String) (json : Json) : Option String := (member name json).bind Json.text?

/-- The items of an array, each of them read. -/
def readArray {α : Type} (read : Json → Option α) : Json → Option (List α)
  | .array items => items.mapM read
  | _ => none

/-- The array of a name. -/
def arrayMember {α : Type} (read : Json → Option α) (name : String) (json : Json) :
    Option (List α) :=
  (member name json).bind (readArray read)

/-- The integer of a number without fraction and exponent. -/
def integer : Json → Option Int
  | .number literal =>
    match literal.toList with
    | '-' :: digits => some (-(Nat.ofDigitChars 10 digits 0 : Int))
    | digits => some (Nat.ofDigitChars 10 digits 0)
  | _ => none

def ElmValue.read (json : Json) : Option ElmValue := do
  return { name := ← textMember "name" json, comment := ← textMember "comment" json
           type := ← textMember "type" json }

def ElmAlias.read (json : Json) : Option ElmAlias := do
  return { name := ← textMember "name" json, comment := ← textMember "comment" json
           args := ← arrayMember Json.text? "args" json, type := ← textMember "type" json }

def ElmUnionCase.read : Json → Option ElmUnionCase
  | .array [.string name, argTypes] => (readArray Json.text? argTypes).map (⟨name, ·⟩)
  | _ => none

def ElmUnion.read (json : Json) : Option ElmUnion := do
  return { name := ← textMember "name" json, comment := ← textMember "comment" json
           args := ← arrayMember Json.text? "args" json
           cases := ← arrayMember ElmUnionCase.read "cases" json }

def ElmBinop.read (json : Json) : Option ElmBinop := do
  return { name := ← textMember "name" json, comment := ← textMember "comment" json
           type := ← textMember "type" json
           precedence := ← (member "precedence" json).bind integer
           associativity := ← textMember "associativity" json }

def ElmModuleDocs.read (json : Json) : Option ElmModuleDocs := do
  return { name := ← textMember "name" json, comment := ← textMember "comment" json
           values := ← arrayMember ElmValue.read "values" json
           aliases := ← arrayMember ElmAlias.read "aliases" json
           unions := ← arrayMember ElmUnion.read "unions" json
           binops := ← arrayMember ElmBinop.read "binops" json }

/-- The modules of a `docs.json`. -/
def readDocs : Json → Option (List ElmModuleDocs) := readArray ElmModuleDocs.read

/-! ## What is read of the values -/

theorem mapM_read {α : Type} {read : Json → Option α} {json : α → Json}
    (each : ∀ a, read (json a) = some a) (items : List α) :
    (items.map json).mapM read = some items := by
  induction items with
  | nil => rfl
  | cons a items ih =>
    rw [List.map_cons, List.mapM_cons, each, ih]
    rfl

theorem read_strings (items : List String) :
    readArray Json.text? (stringsJson items) = some items :=
  @mapM_read String Json.text? Json.string (fun _ => rfl) items

theorem ElmValue.read_json (v : ElmValue) : ElmValue.read v.json = some v := rfl

theorem ElmAlias.read_json (a : ElmAlias) : ElmAlias.read a.json = some a := by
  have args : arrayMember Json.text? "args" a.json = some a.args := read_strings a.args
  unfold ElmAlias.read
  rw [args]
  rfl

theorem ElmUnionCase.read_json (c : ElmUnionCase) : ElmUnionCase.read c.json = some c := by
  change (readArray Json.text? (stringsJson c.argTypes)).map (⟨c.name, ·⟩) = some c
  rw [read_strings]
  rfl

theorem ElmUnion.read_json (u : ElmUnion) : ElmUnion.read u.json = some u := by
  have args : arrayMember Json.text? "args" u.json = some u.args := read_strings u.args
  have cases_ : arrayMember ElmUnionCase.read "cases" u.json = some u.cases :=
    mapM_read ElmUnionCase.read_json u.cases
  unfold ElmUnion.read
  rw [args, cases_]
  rfl

/-- The digits of an integer. -/
theorem toString_int (n : Int) :
    (toString n).toList = (if n < 0 then ['-'] else []) ++ Nat.toDigits 10 n.natAbs := by
  cases n with
  | ofNat n =>
    rw [if_neg (show ¬ Int.ofNat n < 0 from Int.not_lt.mpr (Int.natCast_nonneg n))]
    exact Nat.toList_repr
  | negSucc n =>
    rw [if_pos (Int.negSucc_lt_zero n)]
    change ("-" ++ Nat.repr (n + 1)).toList = _
    rw [String.toList_append, Nat.toList_repr]
    rfl

theorem integer_toString (n : Int) : integer (.number (toString n)) = some n := by
  unfold integer
  dsimp only
  rw [toString_int]
  by_cases negative : n < 0
  · rw [if_pos negative]
    change some (-(Nat.ofDigitChars 10 (Nat.toDigits 10 n.natAbs) 0 : Int)) = some n
    rw [Nat.ofDigitChars_ten_toDigits]
    exact congrArg some (by omega)
  · rw [if_neg negative, List.nil_append]
    obtain ⟨d, tail, split, digit⟩ := (Lib.Scan.Digits.toDigits n.natAbs).head
    rw [split]
    split
    · rename_i same
      cases same
      exact absurd digit (by decide)
    · rw [← split, Nat.ofDigitChars_ten_toDigits]
      exact congrArg some (by omega)

theorem ElmBinop.read_json (b : ElmBinop) : ElmBinop.read b.json = some b := by
  have precedence : (member "precedence" b.json).bind integer = some b.precedence :=
    integer_toString b.precedence
  unfold ElmBinop.read
  rw [precedence]
  rfl

theorem ElmModuleDocs.read_json (docs : ElmModuleDocs) :
    ElmModuleDocs.read docs.json = some docs := by
  have values : arrayMember ElmValue.read "values" docs.json = some docs.values :=
    mapM_read ElmValue.read_json docs.values
  have aliases : arrayMember ElmAlias.read "aliases" docs.json = some docs.aliases :=
    mapM_read ElmAlias.read_json docs.aliases
  have unions : arrayMember ElmUnion.read "unions" docs.json = some docs.unions :=
    mapM_read ElmUnion.read_json docs.unions
  have binops : arrayMember ElmBinop.read "binops" docs.json = some docs.binops :=
    mapM_read ElmBinop.read_json docs.binops
  unfold ElmModuleDocs.read
  rw [values, aliases, unions, binops]
  rfl

theorem readDocs_docsJson (docs : List ElmModuleDocs) : readDocs (docsJson docs) = some docs :=
  mapM_read ElmModuleDocs.read_json docs

/-! ## What is printed is a text of the values -/

/-- The two writers of the program escape alike. -/
theorem printJsonChar_eq (c : Char) : printJsonChar c = printChar c := by
  by_cases special : c = '"' ∨ c = '\\' ∨ c = '\x08' ∨ c = '\x0c' ∨ c = '\n' ∨ c = '\r' ∨ c = '\t'
  · rcases special with rfl | rfl | rfl | rfl | rfl | rfl | rfl <;> rfl
  · simp only [not_or] at special
    obtain ⟨quote, slash, back, feed, line, return_, tab⟩ := special
    unfold printJsonChar printChar
    rw [if_neg quote, if_neg slash, if_neg back, if_neg feed, if_neg line, if_neg return_,
      if_neg tab, if_neg slash, if_neg quote, if_neg back, if_neg feed, if_neg line,
      if_neg return_, if_neg tab]
    by_cases control : c.toNat < 32
    · rw [if_pos control, if_neg (fun plain => absurd plain.1 (by omega))]
    · rw [if_neg control, if_pos ⟨by omega, quote, slash⟩]

/-- No control character is printed in a string, and no byte beyond ASCII but what was there. -/
theorem printJsonChar_chars (c : Char) :
    ∀ d ∈ printJsonChar c, ' ' ≤ d ∧ (d.toNat < 0x80 ∨ d = c) := by
  suffices all : ((printJsonChar c).all fun d => ' ' ≤ d ∧ (d.toNat < 0x80 ∨ d = c)) = true from
    fun d on => of_decide_eq_true (List.all_eq_true.mp all d on)
  have ascii : ∀ chars : List Char, (chars.all fun d => ' ' ≤ d ∧ d.toNat < 0x80) = true →
      (chars.all fun d => ' ' ≤ d ∧ (d.toNat < 0x80 ∨ d = c)) = true := by
    intro chars all
    refine List.all_eq_true.mpr fun d on => decide_eq_true ?_
    obtain ⟨visible, small⟩ := of_decide_eq_true (List.all_eq_true.mp all d on)
    exact ⟨visible, Or.inl small⟩
  unfold printJsonChar
  split_ifs with _ _ _ _ _ _ _ control
  iterate 7 exact ascii _ (by decide)
  · refine ascii _ ?_
    generalize c.toNat = n at control
    interval_cases n <;> decide
  · have visible : ' ' ≤ c := UInt32.le_iff_toNat_le.mpr (Nat.not_lt.mp control)
    simpa using visible

theorem printJsonChar_large {c : Char} (large : 0x80 ≤ c.toNat) : printJsonChar c = [c] := by
  have other : ∀ d : Char, d.toNat < 0x80 → c ≠ d := by
    rintro d small rfl
    omega
  unfold printJsonChar
  rw [if_neg (other _ (by decide)), if_neg (other _ (by decide)), if_neg (other _ (by decide)),
    if_neg (other _ (by decide)), if_neg (other _ (by decide)), if_neg (other _ (by decide)),
    if_neg (other _ (by decide)), if_neg (by omega)]

/-- A string is printed as a text of it. -/
theorem stringText_printJsonString {text : String} (noNull : NulFree text) :
    StringText text (printJsonString text) := by
  refine ⟨text.toList.flatMap printJsonChar, ?_, ?_, noNull, rfl⟩
  · have same : printJsonChar = printChar := funext printJsonChar_eq
    rw [same]
    exact body_printChars text.toList
  · intro d on
    obtain ⟨c, -, on⟩ := List.mem_flatMap.mp on
    exact (printJsonChar_chars c d on).1

/-- A value is printed, in UTF-8. -/
structure Prints (depth : Nat) (value : Json) (text : List Char) : Prop where
  written : Written depth value text
  encoded : ValidUtf8 text

/-- Escapes are ASCII, and what is none is left as it is. -/
theorem validUtf8_printJsonChars {text : List Char} (encoded : ValidUtf8 text) :
    ValidUtf8 (text.flatMap printJsonChar) := by
  obtain ⟨codes, scalars, rfl⟩ := encoded
  rw [List.flatMap_assoc]
  refine ValidUtf8.flatMap fun code on => ?_
  rcases utf8_ascii (scalars code on) with ⟨small, same⟩ | large
  · rw [same, List.flatMap_singleton]
    refine ValidUtf8.ascii fun d on => ?_
    rcases (printJsonChar_chars _ d on).2 with ascii | rfl
    · exact ascii
    · rwa [toNat_ofNat (by omega)]
  · have plain : (Lib.JsonText.utf8 code).flatMap printJsonChar = Lib.JsonText.utf8 code := by
      rw [List.flatMap_congr fun c on => printJsonChar_large (large c on)]
      exact List.flatMap_singleton' _
    rw [plain]
    exact ⟨[code], fun other on => List.mem_singleton.mp on ▸ scalars code ‹_›,
      (List.flatMap_singleton ..).symm⟩

theorem prints_string (depth : Nat) {text : String} (string : Utf8String text) :
    Prints depth (.string text) (printJsonString text) where
  written := Written.atom (.string (stringText_printJsonString string.noNull))
  encoded := .cons (by decide)
    ((validUtf8_printJsonChars string.encoded).append (.cons (by decide) .nil))

theorem printSeparated_one {α : Type} (separator : List Char) (print : α → List Char) (a : α) :
    printSeparated separator print [a] = print a :=
  List.append_nil _

theorem printSeparated_more {α : Type} (separator : List Char) (print : α → List Char) (a b : α)
    (rest : List α) :
    printSeparated separator print (a :: b :: rest) =
      print a ++ (separator ++ printSeparated separator print (b :: rest)) :=
  congrArg (print a ++ ·) (List.flatMap_cons.trans (List.append_assoc _ _ _))

/-- The items of a loop are separated by commas. -/
theorem separated_printSeparated {α : Type} {P : Json → List Char → Prop} {json : α → Json}
    {print : α → List Char} {space : List Char} (blank : Blank space) (items : List α)
    (each : ∀ a ∈ items, ∃ lead text, Blank lead ∧ P (json a) text ∧ print a = lead ++ text)
    (some_ : items ≠ []) {before trail : List Char} (before_ : Blank before)
    (trail_ : Blank trail) :
    Separated P (items.map json)
      (before ++ printSeparated (',' :: space) print items ++ trail) := by
  induction items generalizing before with
  | nil => exact absurd rfl some_
  | cons a rest ih =>
    obtain ⟨lead, text, lead_, here, same⟩ := each a (List.mem_cons_self ..)
    cases rest with
    | nil =>
      have one := Separated.one (before_.append lead_) here trail_
      rw [printSeparated_one, same, ← List.append_assoc]
      exact one
    | cons b rest =>
      have others := ih (fun c on => each c (List.mem_cons_of_mem _ on)) (List.cons_ne_nil _ _)
        blank
      have more := Separated.more (before_.append lead_) here Lib.JsonText.Blank.nil others
      rw [printSeparated_more, same]
      simpa using more

theorem validUtf8_printSeparated {α : Type} {print : α → List Char} {separator : List Char}
    (ascii : ValidUtf8 separator) {items : List α}
    (each : ∀ a ∈ items, ValidUtf8 (print a)) :
    ValidUtf8 (printSeparated separator print items) := by
  cases items with
  | nil => exact .nil
  | cons a rest =>
    obtain ⟨here, later⟩ := List.forall_mem_cons.mp each
    exact here.append (.flatMap fun b on => ascii.append (later b on))

/-- A list of things that are printed is printed. -/
theorem prints_array {α : Type} {depth : Nat} {json : α → Json} {print : α → List Char}
    {space : List Char} (blank : Blank space) {items : List α}
    (each : ∀ a ∈ items, ∃ lead text, Blank lead ∧ Prints depth (json a) text ∧
      print a = lead ++ text) {trail : List Char} (trail_ : Blank trail) :
    Prints (depth + 1) (.array (items.map json))
      ('[' :: (printSeparated (',' :: space) print items ++ trail) ++ [']']) where
  written := by
    refine Or.inr (.array ?_)
    by_cases none_ : items = []
    · rw [none_]
      exact Or.inl ⟨rfl, trail_⟩
    · refine Or.inr (separated_printSeparated blank items (fun a on => ?_) none_
        Lib.JsonText.Blank.nil trail_)
      obtain ⟨lead, text, lead_, here, same⟩ := each a on
      exact ⟨lead, text, lead_, here.written, same⟩
  encoded := by
    have separator : ValidUtf8 (',' :: space) := .cons (by decide) (.blank blank)
    refine ValidUtf8.append (.cons (by decide) ?_) (.cons (by decide) .nil)
    refine ValidUtf8.append (validUtf8_printSeparated separator fun a on => ?_) (.blank trail_)
    obtain ⟨lead, text, lead_, here, same⟩ := each a on
    rw [same]
    exact (ValidUtf8.blank lead_).append here.encoded

/-- A name that needs no escapes. -/
def PlainName (name : String) : Prop :=
  (name.toList.all fun c => ' ' ≤ c ∧ c ≠ '"' ∧ c ≠ '\\' ∧ c.toNat < 0x80) = true

instance (name : String) : Decidable (PlainName name) := inferInstanceAs (Decidable (_ = true))

theorem PlainName.each {name : String} (plain : PlainName name) {c : Char}
    (on : c ∈ name.toList) : ' ' ≤ c ∧ c ≠ '"' ∧ c ≠ '\\' ∧ c.toNat < 0x80 :=
  of_decide_eq_true (List.all_eq_true.mp plain c on)

theorem stringText_plain {name : String} (plain : PlainName name) :
    StringText name ('"' :: name.toList ++ ['"']) := by
  refine ⟨name.toList, Lib.JsonText.Body.plain fun c on => ?_, fun c on => (plain.each on).1,
    fun on => ?_, rfl⟩
  · exact ⟨(plain.each on).2.1, (plain.each on).2.2.1⟩
  · exact absurd (plain.each on).1 (by decide)

theorem blank_indent (n : Nat) : Blank ('\n' :: List.replicate n ' ') := by
  intro c on
  rcases List.mem_cons.mp on with rfl | on
  · rfl
  · rw [List.eq_of_mem_replicate on]
    rfl

theorem validUtf8_printKey (indent : Nat) {name : String} (plain : PlainName name) :
    ValidUtf8 (printKey indent name) := by
  have key : ValidUtf8 ('"' :: name.toList) :=
    .cons (by decide) (.ascii fun c on => (plain.each on).2.2.2)
  exact ((ValidUtf8.blank (blank_indent indent)).append key).append
    (.cons (by decide) (.cons (by decide) (.cons (by decide) .nil)))

/-- A member on a line of its own. -/
theorem memberText_printKey {depth : Nat} (indent : Nat) {name : String} (plain : PlainName name)
    {value : Json} {text : List Char} (written : Written depth value text) :
    ∃ member, MemberText (Written depth) (name, value) member ∧
      printKey indent name ++ text = '\n' :: List.replicate indent ' ' ++ member := by
  refine ⟨_, ⟨_, [], [' '], text, stringText_plain plain, Lib.JsonText.Blank.nil, ?_, written,
    rfl⟩, ?_⟩
  · intro c on
    rw [List.mem_singleton.mp on]
    rfl
  · unfold printKey
    simp

/-- The rest of an object: its members and the brace. -/
structure Closes (depth : Nat) (members : List (String × Json)) (text : List Char) : Prop where
  separated : ∃ body, Separated (MemberText (Written depth)) members body ∧ text = body ++ ['}']
  encoded : ValidUtf8 text

theorem Closes.last {depth : Nat} (indent : Nat) {name : String} (plain : PlainName name)
    {value : Json} {text trail : List Char} (printed : Prints depth value text)
    (blank : Blank trail) :
    Closes depth [(name, value)] (printKey indent name ++ text ++ (trail ++ ['}'])) where
  separated := by
    obtain ⟨member, here, same⟩ := memberText_printKey indent plain printed.written
    refine ⟨_, .one (blank_indent indent) here blank, ?_⟩
    rw [same, ← List.append_assoc]
  encoded := ((validUtf8_printKey indent plain).append printed.encoded).append
    ((ValidUtf8.blank blank).append (.cons (by decide) .nil))

theorem Closes.more {depth : Nat} (indent : Nat) {name : String} (plain : PlainName name)
    {value : Json} {text rest : List Char} (printed : Prints depth value text)
    {members : List (String × Json)} (later : Closes depth members rest) :
    Closes depth ((name, value) :: members) (printKey indent name ++ text ++ ',' :: rest) where
  separated := by
    obtain ⟨member, here, same⟩ := memberText_printKey indent plain printed.written
    obtain ⟨body, others, rfl⟩ := later.separated
    refine ⟨_, .more (blank_indent indent) here Lib.JsonText.Blank.nil others, ?_⟩
    rw [same]
    simp
  encoded := ((validUtf8_printKey indent plain).append printed.encoded).append
    (.cons (by decide) later.encoded)

theorem Closes.object {depth : Nat} {members : List (String × Json)} {text : List Char}
    (closes : Closes depth members text) : Prints (depth + 1) (.object members) ('{' :: text) where
  written := by
    obtain ⟨body, separated, rfl⟩ := closes.separated
    exact Or.inr (.object (Or.inr separated))
  encoded := .cons (by decide) closes.encoded

/-! ## The parts of the docs -/

theorem prints_strings (depth : Nat) {items : List String}
    (strings : ∀ text ∈ items, Utf8String text) :
    Prints (depth + 1) (stringsJson items) (printStrings items) := by
  have printed := @prints_array String depth Json.string printJsonString [' '] Blank.space items
    (fun text on => ⟨[], _, Lib.JsonText.Blank.nil, prints_string depth (strings text on), rfl⟩)
    [] Lib.JsonText.Blank.nil
  rw [List.append_nil] at printed
  exact printed

theorem objectEnd_eq : objectEnd = "\n      ".toList ++ ['}'] := by decide

theorem blank_objects : Blank "\n      ".toList ∧ Blank "\n    ".toList :=
  ⟨List.all_eq_true.mp (by decide), List.all_eq_true.mp (by decide)⟩

/-- A list of objects, given that each is printed. -/
theorem prints_objects {α : Type} {depth : Nat} {json : α → Json} {print : α → List Char}
    {items : List α} (each : ∀ a ∈ items, Prints depth (json a) (print a)) :
    Prints (depth + 1) (.array (items.map json)) (printObjects print items) := by
  have trail : Blank (if items = [] then [] else "\n    ".toList) := by
    split
    · exact Lib.JsonText.Blank.nil
    · exact blank_objects.2
  exact @prints_array α depth json (fun item => "\n      ".toList ++ print item) []
    Lib.JsonText.Blank.nil items (fun a on => ⟨_, _, blank_objects.1, each a on, rfl⟩) _ trail

theorem prints_value (depth : Nat) {v : ElmValue} (strings : ∀ text ∈ v.strings, Utf8String text) :
    Prints (depth + 1) v.json (printElmValue v) := by
  simp only [ElmValue.strings, List.forall_mem_cons] at strings
  obtain ⟨name, comment, type, -⟩ := strings
  unfold printElmValue
  rw [objectEnd_eq]
  exact (Closes.more 8 (by decide) (prints_string depth name)
    (.more 8 (by decide) (prints_string depth comment)
    (.last 8 (by decide) (prints_string depth type) blank_objects.1))).object

theorem prints_alias (depth : Nat) {a : ElmAlias} (strings : ∀ text ∈ a.strings, Utf8String text) :
    Prints (depth + 2) a.json (printAlias a) := by
  simp only [ElmAlias.strings, List.forall_mem_append, List.forall_mem_cons] at strings
  obtain ⟨⟨name, comment, type, -⟩, args⟩ := strings
  unfold printAlias
  rw [objectEnd_eq]
  exact (Closes.more 8 (by decide) (prints_string (depth + 1) name)
    (.more 8 (by decide) (prints_string (depth + 1) comment)
    (.more 8 (by decide) (prints_strings depth args)
    (.last 8 (by decide) (prints_string (depth + 1) type) blank_objects.1)))).object

theorem prints_case (depth : Nat) {c : ElmUnionCase}
    (strings : ∀ text ∈ c.strings, Utf8String text) :
    Prints (depth + 2) c.json (printCase c) := by
  obtain ⟨name, argTypes⟩ := List.forall_mem_cons.mp strings
  -- the two items of the array
  have items : ∀ item ∈ [(Json.string c.name, printJsonString c.name),
      (stringsJson c.argTypes, printStrings c.argTypes)], ∃ lead text, Blank lead ∧
        Prints (depth + 1) item.1 text ∧ item.2 = lead ++ text := by
    simp only [List.forall_mem_cons]
    exact ⟨⟨[], _, Lib.JsonText.Blank.nil, prints_string (depth + 1) name, rfl⟩,
      ⟨[], _, Lib.JsonText.Blank.nil, prints_strings depth argTypes, rfl⟩, nofun⟩
  have printed := @prints_array _ (depth + 1) Prod.fst Prod.snd [' '] Blank.space _ items []
    Lib.JsonText.Blank.nil
  unfold printCase
  simpa [printSeparated, ElmUnionCase.json] using printed

theorem prints_union (depth : Nat) {u : ElmUnion} (strings : ∀ text ∈ u.strings, Utf8String text) :
    Prints (depth + 4) u.json (printUnion u) := by
  simp only [ElmUnion.strings, List.forall_mem_append, List.forall_mem_cons] at strings
  obtain ⟨⟨⟨name, comment, -⟩, args⟩, cases_⟩ := strings
  have printed : Prints (depth + 3) (.array (u.cases.map ElmUnionCase.json))
      ('[' :: printSeparated [',', ' '] printCase u.cases ++ [']']) := by
    have all := @prints_array _ (depth + 2) ElmUnionCase.json printCase [' '] Blank.space u.cases
      (fun c on => ⟨[], _, Lib.JsonText.Blank.nil, prints_case depth fun text there =>
        cases_ text (List.mem_flatMap.mpr ⟨c, on, there⟩), rfl⟩) [] Lib.JsonText.Blank.nil
    rwa [List.append_nil] at all
  unfold printUnion
  rw [objectEnd_eq]
  exact (Closes.more 8 (by decide) (prints_string (depth + 3) name)
    (.more 8 (by decide) (prints_string (depth + 3) comment)
    (.more 8 (by decide) (prints_strings (depth + 2) args)
    (.last 8 (by decide) printed blank_objects.1)))).object

theorem toDigits_head {n : Nat} (some_ : 0 < n) : (Nat.toDigits 10 n).head? ≠ some '0' := by
  induction n using Nat.strongRecOn with
  | ind n ih =>
    rw [Nat.toDigits_eq_if (by decide)]
    split
    · rename_i small
      interval_cases n <;> decide
    · rename_i large
      have head := ih (n / 10) (by omega) (by omega)
      cases digits : Nat.toDigits 10 (n / 10) with
      | nil => exact absurd digits Nat.toDigits_ne_nil
      | cons d rest => rwa [digits] at head

theorem prints_integer (depth : Nat) (n : Int) :
    Prints depth (.number (toString n)) (toString n).toList where
  written := by
    have number : NumberText (toString n).toList := by
      refine ⟨if n < 0 then ['-'] else [], Nat.toDigits 10 n.natAbs, [], [], ?_, ?_, ?_, .none,
        .none, ?_⟩
      · split
        · exact Or.inr rfl
        · exact Or.inl rfl
      · exact ⟨Nat.toDigits_ne_nil, fun c on =>
          Nat.isDigit_of_mem_toDigits (by decide) (by decide) on⟩
      · by_cases zero : n.natAbs = 0
        · exact Or.inl (zero ▸ Nat.toDigits_zero 10)
        · exact Or.inr (toDigits_head (Nat.pos_of_ne_zero zero))
      · rw [List.append_nil, List.append_nil, toString_int]
    have atom := AtomText.number number
    rw [String.ofList_toList] at atom
    exact Written.atom atom
  encoded := by
    refine ValidUtf8.ascii fun c on => ?_
    rw [toString_int, List.mem_append] at on
    rcases on with on | on
    · split at on
      · rw [List.mem_singleton.mp on]
        decide
      · cases on
    · have digit := Nat.isDigit_of_mem_toDigits (by decide) (by decide) on
      have bound : c.toNat ≤ '9'.toNat := UInt32.le_iff_toNat_le.mp (isDigit_range digit).2
      exact Nat.lt_of_le_of_lt bound (by decide)

theorem prints_binop (depth : Nat) {b : ElmBinop} (strings : ∀ text ∈ b.strings, Utf8String text) :
    Prints (depth + 1) b.json (printBinop b) := by
  simp only [ElmBinop.strings, List.forall_mem_cons] at strings
  obtain ⟨name, comment, type, associativity, -⟩ := strings
  unfold printBinop
  rw [objectEnd_eq]
  exact (Closes.more 8 (by decide) (prints_string depth name)
    (.more 8 (by decide) (prints_string depth comment)
    (.more 8 (by decide) (prints_string depth type)
    (.more 8 (by decide) (prints_string depth associativity)
    (.last 8 (by decide) (prints_integer depth b.precedence) blank_objects.1))))).object

theorem prints_module (depth : Nat) {docs : ElmModuleDocs}
    (strings : ∀ text ∈ docs.strings, Utf8String text) :
    Prints (depth + 6) docs.json (printModuleDocs docs) := by
  simp only [ElmModuleDocs.strings, List.forall_mem_append, List.forall_mem_cons] at strings
  obtain ⟨⟨⟨⟨⟨name, comment, -⟩, values⟩, aliases⟩, unions⟩, binops⟩ := strings
  have braceEnd : "\n  \x7d".toList = "\n  ".toList ++ ['}'] := by decide
  have blank : Blank "\n  ".toList := List.all_eq_true.mp (by decide)
  unfold printModuleDocs
  rw [braceEnd]
  exact (Closes.more 4 (by decide) (prints_string (depth + 5) name)
    (.more 4 (by decide) (prints_string (depth + 5) comment)
    (.more 4 (by decide) (prints_objects fun u on => prints_union depth fun text there =>
      unions text (List.mem_flatMap.mpr ⟨u, on, there⟩))
    (.more 4 (by decide) (prints_objects fun a on => prints_alias (depth + 2) fun text there =>
      aliases text (List.mem_flatMap.mpr ⟨a, on, there⟩))
    (.more 4 (by decide) (prints_objects fun v on => prints_value (depth + 3) fun text there =>
      values text (List.mem_flatMap.mpr ⟨v, on, there⟩))
    (.last 4 (by decide) (prints_objects fun b on => prints_binop (depth + 3) fun text there =>
      binops text (List.mem_flatMap.mpr ⟨b, on, there⟩)) blank)))))).object

/-- The modules are separated by commas, each on lines of its own. -/
theorem prints_modules {depth : Nat} {docs : List ElmModuleDocs}
    (each : ∀ d ∈ docs, Prints depth d.json (printModuleDocs d)) :
    ValidUtf8 (printModules docs) ∧
      (docs ≠ [] → ∀ before, Blank before →
        Separated (Written depth) (docs.map ElmModuleDocs.json) (before ++ printModules docs)) := by
  have indent : Blank "  ".toList := List.all_eq_true.mp (by decide)
  have newline : Blank ['\n'] := fun _ on => List.mem_singleton.mp on ▸ rfl
  induction docs with
  | nil => exact ⟨.nil, fun some_ => absurd rfl some_⟩
  | cons d rest ih =>
    obtain ⟨here, later⟩ := List.forall_mem_cons.mp each
    obtain ⟨encoded, separated⟩ := ih later
    have start := (ValidUtf8.blank indent).append here.encoded
    unfold printModules
    by_cases last : rest = []
    · rw [if_pos last, List.append_nil]
      refine ⟨start.append (.cons (by decide) encoded), fun _ before blank => ?_⟩
      have one := Separated.one (blank.append indent) here.written newline
      rw [last, List.map_singleton]
      simpa [printModules] using one
    · rw [if_neg last]
      refine ⟨(start.append (.cons (by decide) .nil)).append (.cons (by decide) encoded),
        fun _ before blank => ?_⟩
      have more := Separated.more (blank.append indent) here.written Lib.JsonText.Blank.nil
        (separated last ['\n'] newline)
      simpa using more

/-- The text of `print_docs_json` is a document of the standard, nested seven values deep. -/
theorem document_printDocsJson (depth : Nat) {docs : List ElmModuleDocs}
    (strings : ∀ d ∈ docs, ∀ text ∈ d.strings, Utf8String text) :
    Document (depth + 7) (docsJson docs) (printDocsJson docs) := by
  obtain ⟨encoded, separated⟩ := prints_modules fun d on => prints_module depth (strings d on)
  have newline : Blank ['\n'] := fun _ on => List.mem_singleton.mp on ▸ rfl
  refine ⟨?_, [], '[' :: (['\n'] ++ printModules docs) ++ [']'], ['\n'], Lib.JsonText.Blank.nil,
    Or.inr (.array ?_), newline, ?_⟩
  · have start : ValidUtf8 ['[', '\n'] := .cons (by decide) (.cons (by decide) .nil)
    exact (start.append encoded).append (.cons (by decide) (.cons (by decide) .nil))
  · by_cases none_ : docs = []
    · rw [none_]
      exact Or.inl ⟨rfl, newline⟩
    · exact Or.inr (separated none_ ['\n'] newline)
  · unfold printDocsJson
    simp

/-- cJSON is a parser of the standard's documents, up to its own limit. -/
theorem cjsonParse_reads : StandardParser cjsonNestingLimit cjsonParse :=
  fun _ _ document => cjsonParse_document document.text

/-- The text of `print_docs_json` is a document of the standard, in UTF-8, and what any parser of
such documents returns for it says the modules that were printed, each string byte for byte. -/
theorem printDocsJson_reads (docs : List ElmModuleDocs)
    (strings : ∀ d ∈ docs, ∀ text ∈ d.strings, Utf8String text) :
    Document 7 (docsJson docs) (printDocsJson docs) ∧
      ∀ (depth : Nat) (parse : List Char → Option Json), 7 ≤ depth → StandardParser depth parse →
        (parse (printDocsJson docs)).bind readDocs = some docs := by
  refine ⟨document_printDocsJson 0 strings, fun depth parse deep reads => ?_⟩
  have document := document_printDocsJson (depth - 7) strings
  rw [Nat.sub_add_cancel deep] at document
  rw [reads _ _ document, Option.bind_some, readDocs_docsJson]

/-- A comment with a quote and a control character, one with a letter that is not ASCII, and a
list that is empty at each level. -/
def escapedDocs : List ElmModuleDocs :=
  [⟨"Main", "a \"b\"\x07", [⟨"x", "\u00C3\u00A9", "Int"⟩], [], [⟨"U", "", [], [⟨"A", []⟩]⟩], []⟩]

theorem printDocsJson_reads_escaped :
    (cjsonParse (printDocsJson escapedDocs)).bind readDocs = some escapedDocs := by
  have ascii : ∀ text : String, (text.toList.all fun c => c ≠ '\x00' ∧ c.toNat < 0x80) = true →
      Utf8String text := fun text all =>
    ⟨fun null => absurd rfl (of_decide_eq_true (List.all_eq_true.mp all _ null)).1,
      .ascii fun c on => (of_decide_eq_true (List.all_eq_true.mp all c on)).2⟩
  have letter : Utf8String "\u00C3\u00A9" :=
    ⟨by decide, [0xE9], fun _ on => List.mem_singleton.mp on ▸ ⟨by decide, by decide⟩, by decide⟩
  refine (printDocsJson_reads escapedDocs ?_).2 cjsonNestingLimit cjsonParse (by decide)
    cjsonParse_reads
  intro d on text there
  rw [List.mem_singleton.mp on] at there
  have known : text ∈ ["Main", "a \"b\"\x07", "x", "\u00C3\u00A9", "Int", "U", "", "A"] := there
  simp only [List.mem_cons, List.not_mem_nil, or_false] at known
  rcases known with rfl | rfl | rfl | rfl | rfl | rfl | rfl | rfl
  iterate 3 exact ascii _ (by decide)
  · exact letter
  iterate 4 exact ascii _ (by decide)

end ElmWrap.Docs
