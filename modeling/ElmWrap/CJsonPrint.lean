import Mathlib.Tactic.IntervalCases
import ElmWrap.CJsonParse

/-!
# `cJSON_Print`

The printer of the vendored `cJSON.c`. What it prints of an object of strings, or of such
objects, is a text of the grammar, and thus what `cJSON_Parse` reads back.
-/

namespace ElmWrap

open Lib (Json)
open Lib.JsonText

/-! ## The printer -/

/-- A character as `print_string_ptr` writes it. -/
def printChar (c : Char) : List Char :=
  if 31 < c.toNat ∧ c ≠ '"' ∧ c ≠ '\\' then [c]
  else if c = '\\' then ['\\', '\\']
  else if c = '"' then ['\\', '"']
  else if c = '\x08' then ['\\', 'b']
  else if c = '\x0c' then ['\\', 'f']
  else if c = '\n' then ['\\', 'n']
  else if c = '\r' then ['\\', 'r']
  else if c = '\t' then ['\\', 't']
  else ['\\', 'u', '0', '0', Nat.digitChar (c.toNat / 16), Nat.digitChar (c.toNat % 16)]

/-- `print_string_ptr`. -/
def printString (text : String) : List Char := '"' :: text.toList.flatMap printChar ++ ['"']

/-- The indentation of a line. -/
def tabs (depth : Nat) : List Char := List.replicate depth '\t'

section

-- `print_number`, which formats a double
variable (printNumber : String → List Char)

mutual

/-- `print_value`, with the format of `cJSON_Print`. -/
def printValue (depth : Nat) : Json → List Char
  | .null => "null".toList
  | .bool value => if value then "true".toList else "false".toList
  | .number literal => printNumber literal
  | .string value => printString value
  | .array items => '[' :: printItems (depth + 1) items ++ [']']
  | .object members => '{' :: ('\n' :: printMembers (depth + 1) members ++ tabs depth) ++ ['}']

/-- The loop of `print_array`. -/
def printItems (depth : Nat) : List Json → List Char
  | [] => []
  | item :: items =>
    printValue depth item ++ (if items.isEmpty then [] else [',', ' ']) ++ printItems depth items

/-- The loop of `print_object`. -/
def printMembers (depth : Nat) : List (String × Json) → List Char
  | [] => []
  | member :: members =>
    tabs depth ++ printMember depth member ++ (if members.isEmpty then [] else [',']) ++ ['\n'] ++
      printMembers depth members

/-- A member of an object. -/
def printMember (depth : Nat) : String × Json → List Char
  | (name, value) => printString name ++ ':' :: (['\t'] ++ printValue depth value)

end

/-- `cJSON_Print`. -/
def cjsonPrint (value : Json) : List Char := printValue printNumber 0 value

end

/-! ## What is printed is a text of the value -/

/-- A string without null bytes, as all strings of the program are. -/
def NulFree (text : String) : Prop := '\x00' ∉ text.toList

instance (text : String) : Decidable (NulFree text) := inferInstanceAs (Decidable (_ ∉ _))

theorem hex4_control {n : Nat} (small : n < 32) :
    hex4 '0' '0' (Nat.digitChar (n / 16)) (Nat.digitChar (n % 16)) = some n := by
  interval_cases n <;> rfl

theorem piece_printChar (c : Char) : Piece (printChar c) [c] := by
  unfold printChar
  split
  · rename_i plain
    exact .plain plain.2
  · rename_i special
    split
    · rename_i same
      subst same
      exact .short rfl
    · split
      · rename_i same
        subst same
        exact .short rfl
      · split
        · rename_i same
          subst same
          exact .short rfl
        · split
          · rename_i same
            subst same
            exact .short rfl
          · split
            · rename_i same
              subst same
              exact .short rfl
            · split
              · rename_i same
                subst same
                exact .short rfl
              · split
                · rename_i same
                  subst same
                  exact .short rfl
                · rename_i noSlash noQuote _ _ _ _ _
                  have small : c.toNat < 32 := by
                    by_contra large
                    exact special ⟨by omega, noQuote, noSlash⟩
                  have bytes : utf8 c.toNat = [c] := by
                    rw [utf8, if_pos (by omega), Char.ofNat_toNat]
                  have piece := Piece.unicode (hex4_control small) (Or.inl (by omega))
                  rwa [bytes] at piece

theorem body_printChars (chars : List Char) : Body (chars.flatMap printChar) chars := by
  induction chars with
  | nil => exact .nil
  | cons c chars ih =>
    rw [List.flatMap_cons]
    exact .cons (piece_printChar c) ih

theorem stringText_printString {text : String} (plain : NulFree text) :
    StringText text (printString text) := by
  refine ⟨_, _, body_printChars text.toList, rfl, ?_⟩
  have all : ∀ c ∈ text.toList, decide (c ≠ '\x00') = true := by
    intro c member
    exact decide_eq_true fun same => plain (same ▸ member)
  have stops : ∀ c ∈ ([] : List Char).head?, decide (c ≠ '\x00') = false := by simp
  have whole := (takeWhile_span all stops).1
  rw [List.append_nil] at whole
  rw [cString, whole, String.ofList_toList]

theorem blank_tabs (depth : Nat) : Blank (tabs depth) := by
  intro c member
  rw [(List.mem_replicate.mp member).2]
  rfl

theorem blank_line (depth : Nat) : Blank ('\n' :: tabs depth) := by
  intro c member
  rcases List.mem_cons.mp member with rfl | rest
  · rfl
  · exact blank_tabs depth c rest

section

variable {printNumber : String → List Char} {n : Nat}

theorem memberText_printMember {depth : Nat} {member : String × Json} (name : NulFree member.1)
    (value : Written n member.2 (printValue printNumber depth member.2)) :
    MemberText (Written n) member (printMember printNumber depth member) := by
  refine ⟨_, [], ['\t'], _, stringText_printString name, Blank.nil, ?_, value, ?_⟩
  · intro c member
    rw [List.mem_singleton.mp member]
    rfl
  · obtain ⟨key, json⟩ := member
    rw [List.append_nil, printMember]

theorem separated_printMembers {depth : Nat} (members : List (String × Json))
    (names : ∀ member ∈ members, NulFree member.1)
    (values : ∀ member ∈ members, Written n member.2 (printValue printNumber depth member.2))
    {tail : List Char} (white : Blank tail) (some_ : members ≠ []) :
    Separated (MemberText (Written n)) members
      ('\n' :: printMembers printNumber depth members ++ tail) := by
  induction members with
  | nil => exact absurd rfl some_
  | cons member members ih =>
    have here := memberText_printMember (names member List.mem_cons_self)
      (values member List.mem_cons_self)
    cases members with
    | nil =>
      have newline : Blank ('\n' :: tail) := by
        intro c member
        rcases List.mem_cons.mp member with rfl | rest
        · rfl
        · exact white c rest
      have one := Separated.one (blank_line depth) here newline
      simpa [printMembers] using one
    | cons next members =>
      have others := ih (fun m member => names m (List.mem_cons_of_mem _ member))
        (fun m member => values m (List.mem_cons_of_mem _ member)) (List.cons_ne_nil _ _)
      have more := Separated.more (blank_line depth) here Blank.nil others
      rw [printMembers]
      simpa using more

/-- An object is printed as a text of it when its values are. -/
theorem written_printObject {depth : Nat} {members : List (String × Json)}
    (names : ∀ member ∈ members, NulFree member.1)
    (values : ∀ member ∈ members,
      Written n member.2 (printValue printNumber (depth + 1) member.2)) :
    Written (n + 1) (.object members) (printValue printNumber depth (.object members)) := by
  refine Or.inr (.object ?_)
  cases members with
  | nil => exact Or.inl ⟨rfl, blank_line depth⟩
  | cons member members =>
    exact Or.inr (separated_printMembers _ names values (blank_tabs depth) (List.cons_ne_nil _ _))

theorem written_printString {depth : Nat} {value : String} (plain : NulFree value) :
    Written n (.string value) (printValue printNumber depth (.string value)) :=
  Written.deeper (.string (stringText_printString plain))

/-- What is printed and not nested too deep is read back. -/
theorem cjsonParse_cjsonPrint {value : Json}
    (written : Written cjsonNestingLimit value (cjsonPrint printNumber value)) :
    cjsonParse (cjsonPrint printNumber value) = some value :=
  cjsonParse_document ⟨[], _, [], Blank.nil, written, Blank.nil, by simp⟩

end

end ElmWrap
