import Mathlib.Data.Char
import Mathlib.Data.List.Basic
import ElmWrap.Lib.JsonText

/-!
# `cJSON_Parse`

The parser of the vendored `cJSON.c`, on the bytes of a text. The null byte behind them is
the end of the list. Every text of the grammar is read back as its value.
-/

namespace ElmWrap

open Lib (Json)
open Lib.JsonText

/-! ## The parser -/

/-- `CJSON_NESTING_LIMIT`. -/
def cjsonNestingLimit : Nat := 1000

/-- `buffer_skip_whitespace`. -/
def bufferSkipWhitespace (text : List Char) : List Char := text.dropWhile (· ≤ ' ')

/-- `skip_utf8_bom`. -/
def skipUtf8Bom (text : List Char) : List Char :=
  if ['\u00ef', '\u00bb', '\u00bf'].isPrefixOf text ∧ 4 ≤ text.length then text.drop 3 else text

/-- The first loop of `parse_string`, behind the opening quote: the text up to the closing
quote, and what follows. -/
def stringEnd : List Char → Option (List Char × List Char)
  | [] => none
  | '"' :: rest => some ([], rest)
  | ['\\'] => none
  | '\\' :: c :: rest => (stringEnd rest).map fun split => ('\\' :: c :: split.1, split.2)
  | c :: rest => (stringEnd rest).map fun split => (c :: split.1, split.2)

/-- `parse_hex4`. -/
def parseHex4 (a b c d : Char) : Nat := (hex4 a b c d).getD 0

/-- The second loop of `parse_string`, with `utf16_literal_to_utf8`. -/
def unescape : List Char → Option (List Char)
  | [] => some []
  | '\\' :: 'u' :: a :: b :: c :: d :: rest =>
    let firstCode := parseHex4 a b c d
    if 0xDC00 ≤ firstCode ∧ firstCode ≤ 0xDFFF then none
    else if 0xD800 ≤ firstCode ∧ firstCode ≤ 0xDBFF then
      match rest with
      | '\\' :: 'u' :: a :: b :: c :: d :: rest =>
        let secondCode := parseHex4 a b c d
        if secondCode < 0xDC00 ∨ 0xDFFF < secondCode then none
        else (unescape rest).map (utf8 (pairCode firstCode secondCode) ++ ·)
      | _ => none
    else (unescape rest).map (utf8 firstCode ++ ·)
  | '\\' :: c :: rest =>
    match shortEscape c with
    | some byte => (unescape rest).map (byte :: ·)
    | none => none
  | ['\\'] => none
  | c :: rest => (unescape rest).map (c :: ·)

/-- `parse_string`. -/
def parseString : List Char → Option (String × List Char)
  | '"' :: text =>
    match stringEnd text with
    | none => none
    | some (raw, rest) => (unescape raw).map fun bytes => (cString bytes, rest)
  | _ => none

/-- The characters of a number. -/
def isNumberChar (c : Char) : Bool :=
  c.isDigit || c = '+' || c = '-' || c = 'e' || c = 'E' || c = '.'

/-- The sign `strtod` reads. -/
def strtodSign : List Char → List Char × List Char
  | '-' :: rest => (['-'], rest)
  | '+' :: rest => (['+'], rest)
  | text => ([], text)

/-- The fraction `strtod` reads. -/
def strtodFraction : List Char → List Char × List Char
  | '.' :: rest => ('.' :: rest.takeWhile Char.isDigit, rest.dropWhile Char.isDigit)
  | text => ([], text)

/-- The exponent `strtod` reads. -/
def strtodExponent : List Char → List Char × List Char
  | [] => ([], [])
  | e :: rest =>
    let (sign, digits) := strtodSign rest
    if (e = 'e' ∨ e = 'E') ∧ digits.takeWhile Char.isDigit ≠ [] then
      (e :: sign ++ digits.takeWhile Char.isDigit, digits.dropWhile Char.isDigit)
    else ([], e :: rest)

/-- What `strtod` reads of a text, and what it leaves. -/
def strtod (text : List Char) : Option (List Char × List Char) :=
  let (sign, rest) := strtodSign text
  let whole := rest.takeWhile Char.isDigit
  let (fraction, rest) := strtodFraction (rest.dropWhile Char.isDigit)
  if whole = [] ∧ fraction.length ≤ 1 then none
  else
    let (exponent, rest) := strtodExponent rest
    some (sign ++ whole ++ fraction ++ exponent, rest)

/-- `parse_number`; the number is kept as it is written. -/
def parseNumber (text : List Char) : Option (Json × List Char) :=
  (strtod (text.takeWhile isNumberChar)).map fun read =>
    (.number (String.ofList read.1), read.2 ++ text.dropWhile isNumberChar)

/-- The loop of `parse_array` and `parse_object`. Every round takes a character at least. -/
def parseElements {α : Type} (element : List Char → Option (α × List Char)) :
    Nat → List Char → Option (List α × List Char)
  | 0, _ => none
  | rounds + 1, text =>
    match element (bufferSkipWhitespace text) with
    | none => none
    | some (a, rest) =>
      match bufferSkipWhitespace rest with
      | ',' :: rest => (parseElements element rounds rest).map fun read => (a :: read.1, read.2)
      | rest => some ([a], rest)

/-- `parse_array`, behind the bracket. -/
def parseArray (value : List Char → Option (Json × List Char)) (text : List Char) :
    Option (Json × List Char) :=
  match bufferSkipWhitespace text with
  | ']' :: rest => some (.array [], rest)
  | text =>
    match parseElements value text.length text with
    | some (items, ']' :: rest) => some (.array items, rest)
    | _ => none

/-- A member of an object. -/
def parseMember (value : List Char → Option (Json × List Char)) (text : List Char) :
    Option ((String × Json) × List Char) :=
  match parseString text with
  | none => none
  | some (name, rest) =>
    match bufferSkipWhitespace rest with
    | ':' :: rest => (value (bufferSkipWhitespace rest)).map fun read => ((name, read.1), read.2)
    | _ => none

/-- `parse_object`, behind the brace. -/
def parseObject (value : List Char → Option (Json × List Char)) (text : List Char) :
    Option (Json × List Char) :=
  match bufferSkipWhitespace text with
  | '}' :: rest => some (.object [], rest)
  | text =>
    match parseElements (parseMember value) text.length text with
    | some (members, '}' :: rest) => some (.object members, rest)
    | _ => none

/-- `parse_value` behind its literals; where arrays and objects would be nested too deep, there
is no parser for what they hold. -/
def parseOther (nested : Option (List Char → Option (Json × List Char))) :
    List Char → Option (Json × List Char)
  | [] => none
  | '"' :: text => (parseString ('"' :: text)).map fun read => (.string read.1, read.2)
  | '[' :: text => nested.bind fun value => parseArray value text
  | '{' :: text => nested.bind fun value => parseObject value text
  | c :: text => if c = '-' ∨ c.isDigit = true then parseNumber (c :: text) else none

/-- `parse_value`, given the parser for what is nested. -/
def parseValueWith (nested : Option (List Char → Option (Json × List Char))) (text : List Char) :
    Option (Json × List Char) :=
  if "null".toList.isPrefixOf text then some (.null, text.drop 4)
  else if "false".toList.isPrefixOf text then some (.bool false, text.drop 5)
  else if "true".toList.isPrefixOf text then some (.bool true, text.drop 4)
  else parseOther nested text

/-- `parse_value`, given how much deeper it may nest. -/
def parseValue : Nat → List Char → Option (Json × List Char)
  | 0 => parseValueWith none
  | depth + 1 => parseValueWith (some (parseValue depth))

/-- `cJSON_Parse`, which does not look at what follows the value. -/
def cjsonParse (text : List Char) : Option Json :=
  (parseValue cjsonNestingLimit (bufferSkipWhitespace (skipUtf8Bom text))).map Prod.fst

/-! ## Reading strings -/

theorem stringEnd_plain {c : Char} (text : c ≠ '"' ∧ c ≠ '\\') (rest : List Char) :
    stringEnd (c :: rest) = (stringEnd rest).map fun split => (c :: split.1, split.2) := by
  rw [stringEnd.eq_def]
  split <;> simp_all

theorem shortEscape_ne_u {c byte : Char} (escape : shortEscape c = some byte) : c ≠ 'u' := by
  rintro rfl
  cases escape

/-- A digit is no backslash and no quote. -/
theorem hexDigit_plain {c : Char} {n : Nat} (digit : hexDigit c = some n) :
    c ≠ '"' ∧ c ≠ '\\' := by
  constructor <;> rintro rfl <;> cases digit

theorem hex4_digits {a b c d : Char} {n : Nat} (digits : hex4 a b c d = some n) :
    (a ≠ '"' ∧ a ≠ '\\') ∧ (b ≠ '"' ∧ b ≠ '\\') ∧ (c ≠ '"' ∧ c ≠ '\\') ∧ d ≠ '"' ∧ d ≠ '\\' := by
  unfold hex4 at digits
  split at digits
  · rename_i first second third fourth
    exact ⟨hexDigit_plain first, hexDigit_plain second, hexDigit_plain third, hexDigit_plain fourth⟩
  · cases digits

/-- What a piece of a string does to the search for its end. -/
theorem stringEnd_piece {piece bytes : List Char} (text : Piece piece bytes) (rest : List Char) :
    stringEnd (piece ++ rest) =
      (stringEnd rest).map fun split => (piece ++ split.1, split.2) := by
  cases text with
  | plain text => exact stringEnd_plain text rest
  | short => rfl
  | unicode digits =>
    obtain ⟨a, b, c, d⟩ := hex4_digits digits
    simp only [List.cons_append, List.nil_append, stringEnd, stringEnd_plain a, stringEnd_plain b,
      stringEnd_plain c, stringEnd_plain d, Option.map_map]
    rfl
  | pair digits digits' =>
    obtain ⟨a, b, c, d⟩ := hex4_digits digits
    obtain ⟨a', b', c', d'⟩ := hex4_digits digits'
    simp only [List.cons_append, List.nil_append, stringEnd, stringEnd_plain a, stringEnd_plain b,
      stringEnd_plain c, stringEnd_plain d, stringEnd_plain a', stringEnd_plain b',
      stringEnd_plain c', stringEnd_plain d', Option.map_map]
    rfl

theorem stringEnd_body {raw bytes : List Char} (body : Body raw bytes) (rest : List Char) :
    stringEnd (raw ++ '"' :: rest) = some (raw, rest) := by
  induction body with
  | nil => rfl
  | @cons piece bytes raw others first _ ih =>
    rw [List.append_assoc, stringEnd_piece first, ih]
    rfl

theorem unescape_plain {c : Char} (visible : c ≠ '\\') (rest : List Char) :
    unescape (c :: rest) = (unescape rest).map (c :: ·) := by
  rw [unescape.eq_def]
  split <;> simp_all

theorem unescape_short {c : Char} (other : c ≠ 'u') (rest : List Char) :
    unescape ('\\' :: c :: rest) =
      match shortEscape c with
      | some byte => (unescape rest).map (byte :: ·)
      | none => none := by
  rw [unescape.eq_def]
  split
  · rename_i same
    cases same
  · rename_i same
    cases same
    exact absurd rfl other
  · rename_i same
    cases same
    rfl
  · rename_i same
    cases same
  · rename_i twoFew oneFew same
    cases same
    exact absurd rfl (twoFew _ _ rfl)

theorem unescape_unicode (a b c d : Char) (rest : List Char) :
    unescape ('\\' :: 'u' :: a :: b :: c :: d :: rest) =
      if 0xDC00 ≤ parseHex4 a b c d ∧ parseHex4 a b c d ≤ 0xDFFF then none
      else if 0xD800 ≤ parseHex4 a b c d ∧ parseHex4 a b c d ≤ 0xDBFF then
        match rest with
        | '\\' :: 'u' :: a' :: b' :: c' :: d' :: rest =>
          if parseHex4 a' b' c' d' < 0xDC00 ∨ 0xDFFF < parseHex4 a' b' c' d' then none
          else
            (unescape rest).map
              (utf8 (pairCode (parseHex4 a b c d) (parseHex4 a' b' c' d')) ++ ·)
        | _ => none
      else (unescape rest).map (utf8 (parseHex4 a b c d) ++ ·) := by
  rw [unescape.eq_def]
  rfl

/-- What a piece of a string adds to it. -/
theorem unescape_piece {piece bytes : List Char} (text : Piece piece bytes) (rest : List Char) :
    unescape (piece ++ rest) = (unescape rest).map (bytes ++ ·) := by
  cases text with
  | plain text => exact unescape_plain text.2 rest
  | short escape =>
    rw [List.cons_append, List.cons_append, List.nil_append,
      unescape_short (shortEscape_ne_u escape), escape]
    rfl
  | @unicode a b c d code digits scalar =>
    have value : parseHex4 a b c d = code := by rw [parseHex4, digits]; rfl
    simp only [List.cons_append, List.nil_append, unescape_unicode, value]
    rw [if_neg (by omega), if_neg (by omega)]
  | @pair a b c d a' b' c' d' high low digits digits' isHigh isLow =>
    have value : parseHex4 a b c d = high := by rw [parseHex4, digits]; rfl
    have value' : parseHex4 a' b' c' d' = low := by rw [parseHex4, digits']; rfl
    simp only [List.cons_append, List.nil_append, unescape_unicode, value, value']
    rw [if_neg (by omega), if_pos isHigh, if_neg (by omega)]

theorem unescape_body {raw bytes : List Char} (body : Body raw bytes) :
    unescape raw = some bytes := by
  induction body with
  | nil => rfl
  | cons first _ ih =>
    rw [unescape_piece first, ih]
    rfl

theorem parseString_text {value : String} {text : List Char} (string : StringText value text)
    (rest : List Char) : parseString (text ++ rest) = some (value, rest) := by
  obtain ⟨raw, bytes, body, rfl, rfl⟩ := string
  have same : '"' :: raw ++ ['"'] ++ rest = '"' :: (raw ++ '"' :: rest) := by simp
  rw [same, parseString]
  simp only [stringEnd_body body rest, unescape_body body, Option.map_some]

/-! ## Reading numbers -/

/-- No character of a number comes next. -/
def NumberEnds (rest : List Char) : Prop := ∀ c ∈ rest.head?, isNumberChar c = false

theorem takeWhile_span {p : Char → Bool} {run rest : List Char} (all : ∀ c ∈ run, p c = true)
    (stops : ∀ c ∈ rest.head?, p c = false) :
    (run ++ rest).takeWhile p = run ∧ (run ++ rest).dropWhile p = rest := by
  induction run with
  | nil =>
    cases rest with
    | nil => exact ⟨rfl, rfl⟩
    | cons c rest =>
      have no := stops c rfl
      exact ⟨List.takeWhile_cons_of_neg (by simp [no]),
        List.dropWhile_cons_of_neg (by simp [no])⟩
  | cons c run ih =>
    have yes := all c List.mem_cons_self
    obtain ⟨take, drop⟩ := ih fun d member => all d (List.mem_cons_of_mem _ member)
    rw [List.cons_append, List.takeWhile_cons_of_pos yes, List.dropWhile_cons_of_pos yes, take,
      drop]
    exact ⟨rfl, rfl⟩

theorem isNumberChar_of_isDigit {c : Char} (digit : c.isDigit = true) : isNumberChar c = true := by
  simp [isNumberChar, digit]

/-- The characters of a number are what its run takes. -/
theorem isNumberChar_of_mem {text : List Char} (number : NumberText text) :
    ∀ c ∈ text, isNumberChar c = true := by
  obtain ⟨sign, whole, fraction, exponent, signed, ⟨-, digits⟩, fractional, exponential, rfl⟩ :=
    number
  have ofDigits : ∀ {ds : List Char}, Digits ds → ∀ c ∈ ds, isNumberChar c = true :=
    fun digits c member => isNumberChar_of_isDigit (digits.2 c member)
  intro c member
  simp only [List.mem_append] at member
  rcases member with ((inSign | inWhole) | inFraction) | inExponent
  · rcases signed with rfl | rfl
    · cases inSign
    · rw [List.mem_singleton.mp inSign]
      rfl
  · exact isNumberChar_of_isDigit (digits c inWhole)
  · cases fractional with
    | none => cases inFraction
    | some number =>
      rcases List.mem_cons.mp inFraction with rfl | rest
      · rfl
      · exact ofDigits number c rest
  · cases exponential with
    | none => cases inExponent
    | some letter signed number =>
      rw [List.cons_append] at inExponent
      rcases List.mem_cons.mp inExponent with rfl | rest
      · rcases letter with rfl | rfl <;> rfl
      · rcases List.mem_append.mp rest with inSign | inDigits
        · rcases signed with rfl | rfl | rfl
          · cases inSign
          · rw [List.mem_singleton.mp inSign]
            rfl
          · rw [List.mem_singleton.mp inSign]
            rfl
        · exact ofDigits number c inDigits

theorem strtodSign_digits {ds : List Char} (digits : Digits ds) (rest : List Char) :
    strtodSign (ds ++ rest) = ([], ds ++ rest) := by
  obtain ⟨some_, all⟩ := digits
  cases ds with
  | nil => exact absurd rfl some_
  | cons c ds =>
    have digit := all c List.mem_cons_self
    rw [List.cons_append, strtodSign.eq_def]
    split
    · rename_i same
      cases same
      cases digit
    · rename_i same
      cases same
      cases digit
    · rfl

theorem strtodExponent_text {exponent : List Char} (text : Exponent exponent) :
    strtodExponent exponent = (exponent, []) := by
  cases text with
  | none => rfl
  | @some e sign digits letter signed number =>
    have read : strtodSign (sign ++ digits) = (sign, digits) := by
      rcases signed with rfl | rfl | rfl
      · have plain := strtodSign_digits number []
        rwa [List.append_nil] at plain
      · rfl
      · rfl
    have stops : ∀ c ∈ ([] : List Char).head?, c.isDigit = false := by simp
    obtain ⟨take, drop⟩ := takeWhile_span number.2 stops
    rw [List.append_nil] at take drop
    simp only [List.cons_append, strtodExponent, read, take, drop]
    rw [if_pos ⟨letter, number.1⟩]

theorem head_exponent_notDigit {exponent : List Char} (text : Exponent exponent) :
    ∀ c ∈ exponent.head?, c.isDigit = false := by
  cases text with
  | none => simp
  | some letter signed number =>
    intro c member
    cases member
    rcases letter with rfl | rfl <;> rfl

theorem strtodFraction_text {fraction exponent : List Char} (text : Fraction fraction)
    (exponential : Exponent exponent) :
    strtodFraction (fraction ++ exponent) = (fraction, exponent) := by
  cases text with
  | none =>
    cases exponential with
    | none => rfl
    | some letter signed number =>
      rcases letter with rfl | rfl <;> rfl
  | some number =>
    obtain ⟨take, drop⟩ := takeWhile_span number.2 (head_exponent_notDigit exponential)
    simp only [List.cons_append, strtodFraction, take, drop]

theorem strtod_text {text : List Char} (number : NumberText text) :
    strtod text = some (text, []) := by
  obtain ⟨sign, whole, fraction, exponent, signed, digits, fractional, exponential, rfl⟩ := number
  have stops : ∀ c ∈ (fraction ++ exponent).head?, c.isDigit = false := by
    cases fractional with
    | none => exact head_exponent_notDigit exponential
    | some number =>
      intro c member
      cases member
      rfl
  have read : strtodSign (sign ++ whole ++ fraction ++ exponent) =
      (sign, whole ++ (fraction ++ exponent)) := by
    rcases signed with rfl | rfl
    · rw [List.nil_append, List.append_assoc]
      exact strtodSign_digits digits _
    · simp [strtodSign]
  obtain ⟨take, drop⟩ := takeWhile_span digits.2 stops
  simp only [strtod, read, take, drop, strtodFraction_text fractional exponential,
    strtodExponent_text exponential]
  rw [if_neg fun none_ => digits.1 none_.1]

theorem parseNumber_text {text rest : List Char} (number : NumberText text)
    (ends : NumberEnds rest) :
    parseNumber (text ++ rest) = some (.number (String.ofList text), rest) := by
  obtain ⟨take, drop⟩ := takeWhile_span (isNumberChar_of_mem number) ends
  simp only [parseNumber, take, drop, strtod_text number, Option.map_some, List.nil_append]

/-! ## Reading values -/

theorem bufferSkipWhitespace_blank {blank : List Char} (white : Blank blank) (text : List Char) :
    bufferSkipWhitespace (blank ++ text) = bufferSkipWhitespace text := by
  induction blank with
  | nil => rfl
  | cons c blank ih =>
    have low : c ≤ ' ' := by
      have white := white c List.mem_cons_self
      simp only [isBlank, Bool.or_eq_true, decide_eq_true_eq] at white
      rcases white with ((rfl | rfl) | rfl) | rfl <;> decide
    rw [List.cons_append, bufferSkipWhitespace, List.dropWhile_cons_of_pos (by simpa using low)]
    exact ih fun d member => white d (List.mem_cons_of_mem _ member)

theorem bufferSkipWhitespace_visible {c : Char} (visible : ' ' < c) (text : List Char) :
    bufferSkipWhitespace (c :: text) = c :: text :=
  List.dropWhile_cons_of_neg (by simpa using visible)

/-- A text starts with a visible character of ASCII that closes nothing. -/
def StartsValue (text : List Char) : Prop :=
  ∃ c rest, text = c :: rest ∧ ' ' < c ∧ c ≤ '{' ∧ c ≠ ']'

theorem StartsValue.skip {text : List Char} (opens : StartsValue text) (rest : List Char) :
    bufferSkipWhitespace (text ++ rest) = text ++ rest := by
  obtain ⟨c, text, rfl, visible, -⟩ := opens
  exact bufferSkipWhitespace_visible visible _

theorem isDigit_range {c : Char} (digit : c.isDigit = true) : '0' ≤ c ∧ c ≤ '9' := by
  simpa [Char.isDigit, UInt32.le_iff_toNat_le, Char.le_def] using digit

theorem numberText_opens {text : List Char} (number : NumberText text) :
    ∃ c rest, text = c :: rest ∧ (c = '-' ∨ c.isDigit = true) := by
  obtain ⟨sign, whole, fraction, exponent, signed, ⟨some_, digits⟩, -, -, rfl⟩ := number
  rcases signed with rfl | rfl
  · cases whole with
    | nil => exact absurd rfl some_
    | cons c whole => exact ⟨c, _, rfl, Or.inr (digits c List.mem_cons_self)⟩
  · exact ⟨'-', _, rfl, Or.inl rfl⟩

theorem stringText_opens {value : String} {text : List Char} (string : StringText value text) :
    ∃ rest, text = '"' :: rest := by
  obtain ⟨raw, bytes, -, rfl, -⟩ := string
  exact ⟨_, rfl⟩

theorem opens_of_number {c : Char} (first : c = '-' ∨ c.isDigit = true) :
    ' ' < c ∧ c ≤ '{' ∧ c ≠ ']' := by
  rcases first with rfl | digit
  · decide
  · obtain ⟨low, high⟩ := isDigit_range digit
    refine ⟨lt_of_lt_of_le (by decide) low, le_trans high (by decide), ?_⟩
    rintro rfl
    exact absurd high (by decide)

theorem written_opens {depth : Nat} {value : Json} {text : List Char}
    (written : Written depth value text) : StartsValue text := by
  have atom : AtomText value text → StartsValue text := by
    intro atom
    cases atom with
    | null => exact ⟨'n', _, rfl, by decide⟩
    | false => exact ⟨'f', _, rfl, by decide⟩
    | true => exact ⟨'t', _, rfl, by decide⟩
    | number number =>
      obtain ⟨c, rest, rfl, first⟩ := numberText_opens number
      exact ⟨c, rest, rfl, opens_of_number first⟩
    | string string =>
      obtain ⟨rest, rfl⟩ := stringText_opens string
      exact ⟨'"', rest, rfl, by decide⟩
  cases depth with
  | zero => exact atom written
  | succ depth =>
    rcases written with isAtom | nested
    · exact atom isAtom
    · cases nested with
      | array => exact ⟨'[', _, rfl, by decide⟩
      | object => exact ⟨'{', _, rfl, by decide⟩

/-- What a parser of elements has to do. -/
structure Reads {α : Type} (P : α → List Char → Prop)
    (element : List Char → Option (α × List Char)) : Prop where
  opens : ∀ {a text}, P a text → StartsValue text
  reads : ∀ {a text rest}, P a text → NumberEnds rest → element (text ++ rest) = some (a, rest)

/-- A text that closes an array or an object. -/
def Closes (text : List Char) : Prop := ∃ c rest, text = c :: rest ∧ (c = ']' ∨ c = '}')

theorem Closes.visible {text : List Char} (closes : Closes text) :
    bufferSkipWhitespace text = text := by
  obtain ⟨c, rest, rfl, rfl | rfl⟩ := closes <;> rfl

theorem numberEnds_blank {blank rest : List Char} (white : Blank blank)
    (ends : NumberEnds rest) : NumberEnds (blank ++ rest) := by
  cases blank with
  | nil => exact ends
  | cons c blank =>
    intro d member
    cases member
    have white := white c List.mem_cons_self
    simp only [isBlank, Bool.or_eq_true, decide_eq_true_eq] at white
    rcases white with ((rfl | rfl) | rfl) | rfl <;> rfl

theorem Closes.numberEnds {text : List Char} (closes : Closes text) : NumberEnds text := by
  obtain ⟨c, rest, rfl, rfl | rfl⟩ := closes <;> (intro d member; cases member; rfl)

/-- The loop reads a list of elements up to what closes it. -/
theorem parseElements_separated {α : Type} {P : α → List Char → Prop}
    {element : List Char → Option (α × List Char)} (reads : Reads P element) {as : List α}
    {text : List Char} (separated : Separated P as text) {rest : List Char} (closes : Closes rest)
    {rounds : Nat} (enough : as.length ≤ rounds) :
    parseElements element rounds (text ++ rest) = some (as, rest) := by
  induction separated generalizing rounds with
  | @one a lead text trail before here after =>
    obtain ⟨rounds, rfl⟩ := Nat.exists_eq_succ_of_ne_zero (Nat.ne_zero_of_lt enough)
    have ends : NumberEnds (trail ++ rest) := numberEnds_blank after closes.numberEnds
    rw [List.append_assoc, List.append_assoc, parseElements, bufferSkipWhitespace_blank before,
      (reads.opens here).skip, reads.reads here ends]
    dsimp only
    rw [bufferSkipWhitespace_blank after, closes.visible]
    obtain ⟨c, rest, rfl, rfl | rfl⟩ := closes <;> rfl
  | @more a as lead text trail texts before here after _ ih =>
    obtain ⟨rounds, rfl⟩ := Nat.exists_eq_succ_of_ne_zero (Nat.ne_zero_of_lt enough)
    have ends : NumberEnds (trail ++ ',' :: (texts ++ rest)) :=
      numberEnds_blank after (by intro d member; cases member; rfl)
    have same : lead ++ text ++ trail ++ ',' :: texts ++ rest =
        lead ++ (text ++ (trail ++ ',' :: (texts ++ rest))) := by simp
    rw [same, parseElements, bufferSkipWhitespace_blank before, (reads.opens here).skip,
      reads.reads here ends]
    dsimp only
    rw [bufferSkipWhitespace_blank after,
      bufferSkipWhitespace_visible (show ' ' < ',' by decide)]
    simp only [ih (Nat.le_of_succ_le_succ enough), Option.map_some]

/-- The white space in front can be dropped. -/
theorem separated_opens {α : Type} {P : α → List Char → Prop}
    (opens : ∀ {a t}, P a t → StartsValue t) {as : List α} {text : List Char}
    (separated : Separated P as text) : ∃ lead body, Blank lead ∧ text = lead ++ body ∧
      StartsValue body ∧ Separated P as body ∧ as.length ≤ body.length := by
  induction separated with
  | @one a lead text trail before here after =>
    obtain ⟨c, rest, rfl, visible⟩ := opens here
    refine ⟨lead, c :: rest ++ trail, before, by simp, ⟨c, _, rfl, visible⟩, ?_, by simp⟩
    exact .one Blank.nil here after
  | @more a as lead text trail texts before here after others ih =>
    obtain ⟨c, rest, rfl, visible⟩ := opens here
    obtain ⟨lead', body', -, rfl, -, -, length⟩ := ih
    refine ⟨lead, c :: rest ++ trail ++ ',' :: (lead' ++ body'), before, by simp,
      ⟨c, _, rfl, visible⟩, .more Blank.nil here after others, ?_⟩
    simp only [List.length_append, List.length_cons]
    omega

theorem parseArray_listed {P : Json → List Char → Prop}
    {value : List Char → Option (Json × List Char)} (reads : Reads P value) {items : List Json}
    {text : List Char} (listed : Listed P items text) (rest : List Char) :
    parseArray value (text ++ ']' :: rest) = some (.array items, rest) := by
  have closes : Closes (']' :: rest) := ⟨']', rest, rfl, Or.inl rfl⟩
  unfold parseArray
  rcases listed with ⟨rfl, blank⟩ | separated
  · rw [bufferSkipWhitespace_blank blank, closes.visible]
    rfl
  · obtain ⟨lead, body, before, rfl, opens, separated, length⟩ :=
      separated_opens reads.opens separated
    have enough : items.length ≤ (body ++ ']' :: rest).length :=
      Nat.le_trans length (List.length_append ▸ Nat.le_add_right _ _)
    have read := parseElements_separated reads separated closes enough
    rw [List.append_assoc, bufferSkipWhitespace_blank before, opens.skip]
    obtain ⟨c, body, rfl, -, -, notClose⟩ := opens
    split
    · rename_i same
      cases same
      exact absurd rfl notClose
    · rw [read]
      rfl

theorem parseObject_listed {P : Json → List Char → Prop}
    {value : List Char → Option (Json × List Char)}
    (reads : Reads (MemberText P) (parseMember value)) {members : List (String × Json)}
    {text : List Char} (listed : Listed (MemberText P) members text) (rest : List Char) :
    parseObject value (text ++ '}' :: rest) = some (.object members, rest) := by
  have closes : Closes ('}' :: rest) := ⟨'}', rest, rfl, Or.inr rfl⟩
  unfold parseObject
  rcases listed with ⟨rfl, blank⟩ | separated
  · rw [bufferSkipWhitespace_blank blank, closes.visible]
    rfl
  · obtain ⟨lead, body, before, rfl, opens, separated, length⟩ :=
      separated_opens reads.opens separated
    have enough : members.length ≤ (body ++ '}' :: rest).length :=
      Nat.le_trans length (List.length_append ▸ Nat.le_add_right _ _)
    have read := parseElements_separated reads separated closes enough
    rw [List.append_assoc, bufferSkipWhitespace_blank before, opens.skip]
    obtain ⟨c, body, rfl, -, low, -⟩ := opens
    split
    · rename_i same
      cases same
      exact absurd low (by decide)
    · rw [read]
      rfl

theorem Reads.members {P : Json → List Char → Prop}
    {value : List Char → Option (Json × List Char)} (reads : Reads P value) :
    Reads (MemberText P) (parseMember value) where
  opens := by
    rintro member text ⟨name, trail, lead, valueText, string, -, -, -, rfl⟩
    obtain ⟨rest, rfl⟩ := stringText_opens string
    exact ⟨'"', _, rfl, by decide⟩
  reads := by
    rintro member text rest ⟨name, trail, lead, valueText, string, after, before, here, rfl⟩ ends
    have same : name ++ trail ++ ':' :: (lead ++ valueText) ++ rest =
        name ++ (trail ++ ':' :: (lead ++ (valueText ++ rest))) := by simp
    rw [same, parseMember, parseString_text string]
    dsimp only
    rw [bufferSkipWhitespace_blank after, bufferSkipWhitespace_visible (show ' ' < ':' by decide)]
    simp only
    rw [bufferSkipWhitespace_blank before, (reads.opens here).skip, reads.reads here ends]
    rfl

/-- A text that starts with none of the letters is no literal. -/
theorem parseValueWith_other {c : Char} (other : c ≠ 'n' ∧ c ≠ 'f' ∧ c ≠ 't')
    (nested : Option (List Char → Option (Json × List Char))) (text : List Char) :
    parseValueWith nested (c :: text) = parseOther nested (c :: text) := by
  have no : ∀ (d : Char) (literal : List Char), c ≠ d →
      (d :: literal).isPrefixOf (c :: text) = false := by
    intro d literal ne
    simp [List.isPrefixOf, Ne.symm ne]
  have isNull : "null".toList.isPrefixOf (c :: text) = false := no 'n' _ other.1
  have isFalse : "false".toList.isPrefixOf (c :: text) = false := no 'f' _ other.2.1
  have isTrue : "true".toList.isPrefixOf (c :: text) = false := no 't' _ other.2.2
  rw [parseValueWith, isNull, isFalse, isTrue, if_neg Bool.false_ne_true,
    if_neg Bool.false_ne_true, if_neg Bool.false_ne_true]

theorem parseOther_number {c : Char} (first : c = '-' ∨ c.isDigit = true)
    (nested : Option (List Char → Option (Json × List Char))) (text : List Char) :
    parseOther nested (c :: text) = parseNumber (c :: text) := by
  rw [parseOther.eq_def]
  split
  · rename_i same
    cases same
  · rename_i same
    cases same
    rcases first with bad | bad <;> cases bad
  · rename_i same
    cases same
    rcases first with bad | bad <;> cases bad
  · rename_i same
    cases same
    rcases first with bad | bad <;> cases bad
  · rename_i same
    cases same
    rw [if_pos first]

theorem parseValueWith_atom {value : Json} {text rest : List Char} (atom : AtomText value text)
    (ends : NumberEnds rest) (nested : Option (List Char → Option (Json × List Char))) :
    parseValueWith nested (text ++ rest) = some (value, rest) := by
  cases atom with
  | null => rfl
  | false => rfl
  | true => rfl
  | number number =>
    have read := parseNumber_text number ends
    obtain ⟨c, text, rfl, first⟩ := numberText_opens number
    have other : c ≠ 'n' ∧ c ≠ 'f' ∧ c ≠ 't' := by
      rcases first with rfl | digit
      · decide
      · refine ⟨?_, ?_, ?_⟩ <;> rintro rfl <;> cases digit
    rw [List.cons_append, parseValueWith_other other, parseOther_number first]
    exact read
  | string string =>
    have read := parseString_text string rest
    obtain ⟨text, rfl⟩ := stringText_opens string
    rw [List.cons_append] at read ⊢
    rw [parseValueWith_other (by decide), parseOther, read]
    rfl

/-- A value is read up to its end. -/
theorem reads_parseValue (depth : Nat) : Reads (Written depth) (parseValue depth) := by
  induction depth with
  | zero => exact ⟨written_opens, fun atom ends => parseValueWith_atom atom ends none⟩
  | succ depth ih =>
    refine ⟨written_opens, fun {value text rest} written ends => ?_⟩
    rw [parseValue]
    rcases written with atom | nested
    · exact parseValueWith_atom atom ends _
    · cases nested with
      | @array items text listed =>
        have same : '[' :: text ++ [']'] ++ rest = '[' :: (text ++ ']' :: rest) := by simp
        rw [same, parseValueWith_other (by decide)]
        exact parseArray_listed ih listed rest
      | @object members text listed =>
        have same : '{' :: text ++ ['}'] ++ rest = '{' :: (text ++ '}' :: rest) := by simp
        rw [same, parseValueWith_other (by decide)]
        exact parseObject_listed ih.members listed rest

theorem skipUtf8Bom_blank {text : List Char} (plain : ∀ c ∈ text.head?, c ≠ '\u00ef') :
    skipUtf8Bom text = text := by
  unfold skipUtf8Bom
  rw [if_neg]
  rintro ⟨bom, -⟩
  cases text with
  | nil => cases bom
  | cons c text =>
    have same : c = '\u00ef' := by
      simp only [List.isPrefixOf, Bool.and_eq_true, beq_iff_eq] at bom
      exact bom.1.symm
    exact plain c rfl same

/-- `cJSON_Parse` reads every document that is not nested too deep as its value. -/
theorem cjsonParse_document {value : Json} {text : List Char}
    (document : Document cjsonNestingLimit value text) : cjsonParse text = some value := by
  obtain ⟨lead, body, trail, before, written, after, rfl⟩ := document
  have opens := written_opens written
  have ends : NumberEnds trail := by
    have nothing : NumberEnds [] := by
      intro c member
      cases member
    have ends := numberEnds_blank after nothing
    rwa [List.append_nil] at ends
  have plain : ∀ c ∈ (lead ++ body ++ trail).head?, c ≠ '\u00ef' := by
    obtain ⟨c, body, rfl, -, low, -⟩ := opens
    cases lead with
    | nil =>
      intro d member
      cases member
      rintro rfl
      exact absurd low (by decide)
    | cons b lead =>
      intro d member
      cases member
      rintro rfl
      exact absurd (before _ List.mem_cons_self) (by decide)
  rw [cjsonParse, skipUtf8Bom_blank plain, List.append_assoc, bufferSkipWhitespace_blank before,
    opens.skip, (reads_parseValue cjsonNestingLimit).reads written ends]
  rfl

end ElmWrap
