import ElmWrap.Lib.Json

/-!
# JSON texts

The grammar of JSON as a relation between values and texts. A character of a text is a
byte; `\u` escapes stand for the bytes of UTF-8, and the value of a string ends at its
first null byte, as a C string does. Numbers may have leading zeros.
-/

namespace ElmWrap.Lib.JsonText

/-! ## Strings -/

/-- White space between the tokens. -/
def isBlank (c : Char) : Bool := c = ' ' || c = '\t' || c = '\n' || c = '\r'

/-- A run of white space. -/
def Blank (text : List Char) : Prop := ∀ c ∈ text, isBlank c = true

/-- What a backslash and a letter stand for. -/
def shortEscape (c : Char) : Option Char :=
  if c = 'b' then some '\x08'
  else if c = 'f' then some '\x0c'
  else if c = 'n' then some '\n'
  else if c = 'r' then some '\r'
  else if c = 't' then some '\t'
  else if c = '"' ∨ c = '\\' ∨ c = '/' then some c
  else none

/-- The value of a hexadecimal digit. -/
def hexDigit (c : Char) : Option Nat :=
  if '0' ≤ c ∧ c ≤ '9' then some (c.toNat - '0'.toNat)
  else if 'A' ≤ c ∧ c ≤ 'F' then some (10 + c.toNat - 'A'.toNat)
  else if 'a' ≤ c ∧ c ≤ 'f' then some (10 + c.toNat - 'a'.toNat)
  else none

/-- The value of four hexadecimal digits. -/
def hex4 (a b c d : Char) : Option Nat :=
  match hexDigit a, hexDigit b, hexDigit c, hexDigit d with
  | some a, some b, some c, some d => some (((a * 16 + b) * 16 + c) * 16 + d)
  | _, _, _, _ => none

/-- The bytes of a code point in UTF-8. -/
def utf8 (code : Nat) : List Char :=
  if code < 0x80 then [Char.ofNat code]
  else if code < 0x800 then [Char.ofNat (0xC0 + code / 64), Char.ofNat (0x80 + code % 64)]
  else if code < 0x10000 then
    [Char.ofNat (0xE0 + code / 4096), Char.ofNat (0x80 + code / 64 % 64),
      Char.ofNat (0x80 + code % 64)]
  else
    [Char.ofNat (0xF0 + code / 262144), Char.ofNat (0x80 + code / 4096 % 64),
      Char.ofNat (0x80 + code / 64 % 64), Char.ofNat (0x80 + code % 64)]

/-- The code point of a surrogate pair. -/
def pairCode (high low : Nat) : Nat := 0x10000 + (high % 1024 * 1024 + low % 1024)

/-- A piece of the text between the quotes, and the bytes it stands for. -/
inductive Piece : List Char → List Char → Prop
  | plain {c : Char} (text : c ≠ '"' ∧ c ≠ '\\') : Piece [c] [c]
  | short {c byte : Char} (escape : shortEscape c = some byte) : Piece ['\\', c] [byte]
  | unicode {a b c d : Char} {code : Nat} (digits : hex4 a b c d = some code)
      (scalar : code < 0xD800 ∨ 0xDFFF < code) : Piece ['\\', 'u', a, b, c, d] (utf8 code)
  | pair {a b c d a' b' c' d' : Char} {high low : Nat} (digits : hex4 a b c d = some high)
      (digits' : hex4 a' b' c' d' = some low) (isHigh : 0xD800 ≤ high ∧ high ≤ 0xDBFF)
      (isLow : 0xDC00 ≤ low ∧ low ≤ 0xDFFF) :
      Piece ['\\', 'u', a, b, c, d, '\\', 'u', a', b', c', d'] (utf8 (pairCode high low))

/-- The text between the quotes, and the bytes it stands for. -/
inductive Body : List Char → List Char → Prop
  | nil : Body [] []
  | cons {piece bytes raw rest : List Char} (first : Piece piece bytes) (others : Body raw rest) :
      Body (piece ++ raw) (bytes ++ rest)

/-- The bytes up to the first null byte. -/
def cString (bytes : List Char) : String := String.ofList (bytes.takeWhile (· ≠ '\x00'))

/-- A string in quotes. -/
def StringText (value : String) (text : List Char) : Prop :=
  ∃ raw bytes, Body raw bytes ∧ text = '"' :: raw ++ ['"'] ∧ value = cString bytes

/-! ## Numbers -/

/-- At least one digit. -/
def Digits (text : List Char) : Prop := text ≠ [] ∧ ∀ c ∈ text, c.isDigit = true

/-- The fraction of a number. -/
inductive Fraction : List Char → Prop
  | none : Fraction []
  | some {digits : List Char} (number : Digits digits) : Fraction ('.' :: digits)

/-- The exponent of a number. -/
inductive Exponent : List Char → Prop
  | none : Exponent []
  | some {e : Char} {sign digits : List Char} (letter : e = 'e' ∨ e = 'E')
      (signed : sign = [] ∨ sign = ['+'] ∨ sign = ['-']) (number : Digits digits) :
      Exponent (e :: sign ++ digits)

/-- A number. -/
def NumberText (text : List Char) : Prop :=
  ∃ sign whole fraction exponent, (sign = [] ∨ sign = ['-']) ∧ Digits whole ∧
    Fraction fraction ∧ Exponent exponent ∧ text = sign ++ whole ++ fraction ++ exponent

/-! ## Values -/

/-- Texts with commas between them, and white space around each. -/
inductive Separated {α : Type} (P : α → List Char → Prop) : List α → List Char → Prop
  | one {a : α} {lead text trail : List Char} (before : Blank lead) (here : P a text)
      (after : Blank trail) : Separated P [a] (lead ++ text ++ trail)
  | more {a : α} {as : List α} {lead text trail texts : List Char} (before : Blank lead)
      (here : P a text) (after : Blank trail) (others : Separated P as texts) :
      Separated P (a :: as) (lead ++ text ++ trail ++ ',' :: texts)

/-- The same, or nothing but white space. -/
def Listed {α : Type} (P : α → List Char → Prop) (as : List α) (text : List Char) : Prop :=
  as = [] ∧ Blank text ∨ Separated P as text

/-- A member of an object. -/
def MemberText (P : Json → List Char → Prop) (member : String × Json) (text : List Char) : Prop :=
  ∃ name trail lead value, StringText member.1 name ∧ Blank trail ∧ Blank lead ∧
    P member.2 value ∧ text = name ++ trail ++ ':' :: (lead ++ value)

/-- A value that holds no other. -/
inductive AtomText : Json → List Char → Prop
  | null : AtomText .null "null".toList
  | false : AtomText (.bool false) "false".toList
  | true : AtomText (.bool true) "true".toList
  | number {text : List Char} (number : NumberText text) :
      AtomText (.number (String.ofList text)) text
  | string {value : String} {text : List Char} (string : StringText value text) :
      AtomText (.string value) text

/-- An array or an object, given its values. -/
inductive Nested (P : Json → List Char → Prop) : Json → List Char → Prop
  | array {items : List Json} {text : List Char} (listed : Listed P items text) :
      Nested P (.array items) ('[' :: text ++ [']'])
  | object {members : List (String × Json)} {text : List Char}
      (listed : Listed (MemberText P) members text) :
      Nested P (.object members) ('{' :: text ++ ['}'])

/-- A value, nested at most so deep. -/
def Written : Nat → Json → List Char → Prop
  | 0 => AtomText
  | depth + 1 => fun value text => AtomText value text ∨ Nested (Written depth) value text

/-- A document. -/
def Document (depth : Nat) (value : Json) (text : List Char) : Prop :=
  ∃ lead body trail, Blank lead ∧ Written depth value body ∧ Blank trail ∧
    text = lead ++ body ++ trail

/-! ## Joining and splitting -/

theorem Separated.append {α : Type} {P : α → List Char → Prop} {as bs : List α}
    {ts us : List Char} (first : Separated P as ts) (second : Separated P bs us) :
    Separated P (as ++ bs) (ts ++ ',' :: us) := by
  induction first with
  | one before here after => exact .more before here after second
  | @more a as lead text trail texts before here after others ih =>
    have joined := Separated.more before here after ih
    rw [List.append_assoc (lead ++ text ++ trail), List.cons_append]
    exact joined

theorem Separated.map {α β : Type} {P : α → List Char → Prop} {Q : β → List Char → Prop}
    (f : α → β) (each : ∀ a text, P a text → Q (f a) text) {as : List α} {text : List Char}
    (separated : Separated P as text) : Separated Q (as.map f) text := by
  induction separated with
  | one before here after => exact .one before (each _ _ here) after
  | more before here after _ ih => exact .more before (each _ _ here) after ih

theorem Listed.map {α β : Type} {P : α → List Char → Prop} {Q : β → List Char → Prop}
    (f : α → β) (each : ∀ a text, P a text → Q (f a) text) {as : List α} {text : List Char}
    (listed : Listed P as text) : Listed Q (as.map f) text := by
  rcases listed with ⟨rfl, blank⟩ | separated
  · exact Or.inl ⟨rfl, blank⟩
  · exact Or.inr (separated.map f each)

/-- Characters that need no escape stand for themselves. -/
theorem Body.plain {word : List Char} (plain : ∀ c ∈ word, c ≠ '"' ∧ c ≠ '\\') :
    Body word word := by
  induction word with
  | nil => exact .nil
  | cons c word ih =>
    exact .cons (.plain (plain c List.mem_cons_self))
      (ih fun d member => plain d (List.mem_cons_of_mem _ member))

theorem Blank.append {a b : List Char} (first : Blank a) (second : Blank b) : Blank (a ++ b) :=
  fun c member => (List.mem_append.mp member).elim (first c) (second c)

theorem Blank.nil : Blank [] := List.forall_mem_nil _

theorem Blank.space : Blank [' '] := List.forall_mem_singleton.mpr rfl

theorem Written.deeper {depth : Nat} {value : Json} {text : List Char}
    (atom : AtomText value text) : Written depth value text := by
  cases depth with
  | zero => exact atom
  | succ depth => exact Or.inl atom

end ElmWrap.Lib.JsonText
