import Mathlib.Data.List.TakeWhile
import ElmWrap.Lib.JsonText

/-!
# JSON texts of the standard

The part of the grammar of `ElmWrap.Lib.JsonText` that the standard has: control
characters stand in strings as escapes only, numbers have no leading zeros, and the text
is well-formed UTF-8. A string holds no null byte.
-/

namespace ElmWrap.Lib.StrictJson

open JsonText

/-! ## UTF-8 -/

/-- A code point that is no surrogate. -/
def Scalar (code : Nat) : Prop := code < 0x110000 ∧ (code < 0xD800 ∨ 0xDFFF < code)

/-- The bytes of some code points. -/
def ValidUtf8 (bytes : List Char) : Prop :=
  ∃ codes : List Nat, (∀ code ∈ codes, Scalar code) ∧ bytes = codes.flatMap utf8

theorem ValidUtf8.nil : ValidUtf8 [] := ⟨[], nofun, rfl⟩

theorem ValidUtf8.append {a b : List Char} (first : ValidUtf8 a) (second : ValidUtf8 b) :
    ValidUtf8 (a ++ b) := by
  obtain ⟨codes, scalars, rfl⟩ := first
  obtain ⟨codes', scalars', rfl⟩ := second
  refine ⟨codes ++ codes', fun code on => ?_, List.flatMap_append.symm⟩
  exact (List.mem_append.mp on).elim (scalars code) (scalars' code)

theorem ValidUtf8.ascii {text : List Char} (ascii : ∀ c ∈ text, c.toNat < 0x80) :
    ValidUtf8 text := by
  induction text with
  | nil => exact .nil
  | cons c text ih =>
    obtain ⟨here, later⟩ := List.forall_mem_cons.mp ascii
    refine ValidUtf8.append (a := [c]) ⟨[c.toNat], fun code on => ?_, ?_⟩ (ih later)
    · rw [List.mem_singleton.mp on]
      exact ⟨by omega, Or.inl (by omega)⟩
    · rw [List.flatMap_singleton, utf8, if_pos here, Char.ofNat_toNat]

theorem ValidUtf8.cons {c : Char} {text : List Char} (ascii : c.toNat < 0x80)
    (later : ValidUtf8 text) : ValidUtf8 (c :: text) :=
  ValidUtf8.append (ValidUtf8.ascii fun _ on => List.mem_singleton.mp on ▸ ascii) later

theorem ValidUtf8.blank {text : List Char} (blank : Blank text) : ValidUtf8 text := by
  refine ValidUtf8.ascii fun c on => ?_
  have space := blank c on
  unfold isBlank at space
  simp only [Bool.or_eq_true, decide_eq_true_eq] at space
  rcases space with ((rfl | rfl) | rfl) | rfl <;> decide

theorem ValidUtf8.flatMap {α : Type} {f : α → List Char} {items : List α}
    (each : ∀ a ∈ items, ValidUtf8 (f a)) : ValidUtf8 (items.flatMap f) := by
  induction items with
  | nil => exact .nil
  | cons a items ih =>
    obtain ⟨here, later⟩ := List.forall_mem_cons.mp each
    exact here.append (ih later)

theorem toNat_ofNat {n : Nat} (small : n < 256) : (Char.ofNat n).toNat = n := by
  have valid : n.isValidChar := Or.inl (by omega)
  rw [Char.ofNat, dif_pos valid]
  rfl

/-- The bytes of a code point are one ASCII character, or none is. -/
theorem utf8_ascii {code : Nat} (scalar : Scalar code) :
    (code < 0x80 ∧ utf8 code = [Char.ofNat code]) ∨ ∀ c ∈ utf8 code, 0x80 ≤ c.toNat := by
  obtain ⟨bound, -⟩ := scalar
  unfold utf8
  by_cases one : code < 0x80
  · exact Or.inl ⟨one, if_pos one⟩
  · right
    intro c on
    rw [if_neg one] at on
    split at on
    · simp only [List.mem_cons, List.not_mem_nil, or_false] at on
      rcases on with rfl | rfl <;> rw [toNat_ofNat (by omega)] <;> omega
    · split at on
      · simp only [List.mem_cons, List.not_mem_nil, or_false] at on
        rcases on with rfl | rfl | rfl <;> rw [toNat_ofNat (by omega)] <;> omega
      · simp only [List.mem_cons, List.not_mem_nil, or_false] at on
        rcases on with rfl | rfl | rfl | rfl <;> rw [toNat_ofNat (by omega)] <;> omega

/-! ## Texts -/

/-- A string in quotes, and its bytes. -/
def StringText (value : String) (text : List Char) : Prop :=
  ∃ raw, Body raw value.toList ∧ (∀ c ∈ raw, ' ' ≤ c) ∧ '\x00' ∉ value.toList ∧
    text = '"' :: raw ++ ['"']

/-- A number, without leading zeros. -/
def NumberText (text : List Char) : Prop :=
  ∃ sign whole fraction exponent, (sign = [] ∨ sign = ['-']) ∧ Digits whole ∧
    (whole = ['0'] ∨ whole.head? ≠ some '0') ∧ Fraction fraction ∧ Exponent exponent ∧
    text = sign ++ whole ++ fraction ++ exponent

/-- A member of an object. -/
def MemberText (P : Json → List Char → Prop) (member : String × Json) (text : List Char) : Prop :=
  ∃ name trail lead value, StringText member.1 name ∧ Blank trail ∧ Blank lead ∧
    P member.2 value ∧ text = name ++ trail ++ ':' :: (lead ++ value)

/-- A value that holds no other. -/
inductive AtomText : Json → List Char → Prop
  | null : AtomText .null "null".toList
  | false : AtomText (.bool false) "false".toList
  | true : AtomText (.bool true) "true".toList
  | number {text : List Char} (number : NumberText text) :
      AtomText (.number (String.ofList text)) text
  | string {value : String} {text : List Char} (string : StringText value text) :
      AtomText (.string value) text

/-- An array or an object, given its values. -/
inductive Nested (P : Json → List Char → Prop) : Json → List Char → Prop
  | array {items : List Json} {text : List Char} (listed : Listed P items text) :
      Nested P (.array items) ('[' :: text ++ [']'])
  | object {members : List (String × Json)} {text : List Char}
      (listed : Listed (MemberText P) members text) :
      Nested P (.object members) ('{' :: text ++ ['}'])

/-- A value, nested at most so deep. -/
def Written : Nat → Json → List Char → Prop
  | 0 => AtomText
  | depth + 1 => fun value text => AtomText value text ∨ Nested (Written depth) value text

theorem Written.atom {depth : Nat} {value : Json} {text : List Char}
    (atom : AtomText value text) : Written depth value text := by
  cases depth with
  | zero => exact atom
  | succ depth => exact Or.inl atom

/-- A document. -/
structure Document (depth : Nat) (value : Json) (text : List Char) : Prop where
  encoded : ValidUtf8 text
  written : ∃ lead body trail, Blank lead ∧ Written depth value body ∧ Blank trail ∧
    text = lead ++ body ++ trail

/-- A parser reads every document that is nested at most so deep. -/
def StandardParser (depth : Nat) (parse : List Char → Option Json) : Prop :=
  ∀ value text, Document depth value text → parse text = some value

/-! ## The texts are among those of the other grammar -/

theorem StringText.text {value : String} {text : List Char} (string : StringText value text) :
    JsonText.StringText value text := by
  obtain ⟨raw, body, -, noNull, rfl⟩ := string
  refine ⟨raw, _, body, rfl, ?_⟩
  unfold cString
  have whole : value.toList.takeWhile (· ≠ '\x00') = value.toList :=
    List.takeWhile_eq_self_iff.mpr fun c on =>
      decide_eq_true fun same : c = '\x00' => noNull (same ▸ on)
  rw [whole, String.ofList_toList]

theorem AtomText.text {value : Json} {text : List Char} (atom : AtomText value text) :
    JsonText.AtomText value text := by
  cases atom with
  | null => exact .null
  | false => exact .false
  | true => exact .true
  | number number =>
    obtain ⟨sign, whole, fraction, exponent, signed, digits, -, rest⟩ := number
    exact .number ⟨sign, whole, fraction, exponent, signed, digits, rest⟩
  | string string => exact .string string.text

theorem Written.text {depth : Nat} {value : Json} {text : List Char}
    (written : Written depth value text) : JsonText.Written depth value text := by
  induction depth generalizing value text with
  | zero => exact AtomText.text written
  | succ depth ih =>
    rcases written with atom | nested
    · exact Or.inl atom.text
    · refine Or.inr ?_
      cases nested with
      | array listed =>
        have lax := listed.map id fun value text => ih
        rw [List.map_id] at lax
        exact .array lax
      | object listed =>
        have each : ∀ member text, MemberText (Written depth) member text →
            JsonText.MemberText (JsonText.Written depth) (id member) text := by
          rintro member text ⟨name, trail, lead, value, string, after, before, written, same⟩
          exact ⟨name, trail, lead, value, string.text, after, before, ih written, same⟩
        have lax := listed.map id each
        rw [List.map_id] at lax
        exact .object lax

theorem Document.text {depth : Nat} {value : Json} {text : List Char}
    (document : Document depth value text) : JsonText.Document depth value text := by
  obtain ⟨lead, body, trail, before, written, after, same⟩ := document.written
  exact ⟨lead, body, trail, before, written.text, after, same⟩

end ElmWrap.Lib.StrictJson
